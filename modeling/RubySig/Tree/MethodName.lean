/-! Names of methods that need no backquotes: identifiers with an optional end, and operators. -/
namespace RubySig.MethodName

/-- A character that an identifier begins with. -/
def isStart (c : Char) : Bool :=
  c.isAlpha || c == '_'

/-- A character that an identifier goes on with. -/
def isPart (c : Char) : Bool :=
  c.isAlphanum || c == '_'

/-- Operator names, each before its own beginnings. -/
def operators : List (List Char) :=
  [['[', ']', '='], ['[', ']'], ['*', '*'], ['<', '=', '>'], ['=', '=', '='], ['=', '='],
    ['=', '~'], ['!', '='], ['!', '~'], ['<', '<'], ['<', '='], ['>', '>'], ['>', '='],
    ['+', '@'], ['-', '@'], ['~', '@'], ['!'], ['<'], ['>'], ['+'], ['-'], ['*'], ['/'], ['%'],
    ['&'], ['|'], ['^'], ['~'], ['`']]

/-- A `?`, `!` or `=` at the start of a text. -/
def ending : List Char → List Char
  | '?' :: _ => ['?']
  | '!' :: _ => ['!']
  | '=' :: _ => ['=']
  | _ => []

/-- The method name at the start of a text. -/
def at? : List Char → Option (List Char)
  | [] => none
  | c :: cs =>
    if isStart c then
      let name := c :: cs.takeWhile isPart
      some (name ++ ending (cs.dropWhile isPart))
    else operators.find? (·.isPrefixOf (c :: cs))

/-- Whether a text is an identifier: ASCII letters, digits and underscores, no digit first. -/
def isIdentifier : List Char → Bool
  | [] => false
  | c :: cs => isStart c && cs.all isPart

/-- Whether a text is one method name as a whole. -/
def isWhole (cs : List Char) : Bool :=
  operators.contains cs || isIdentifier cs ||
    (match cs.reverse with
      | c :: name => (c == '?' || c == '!' || c == '=') && isIdentifier name.reverse
      | [] => false)

end RubySig.MethodName
