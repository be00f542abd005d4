import RubySig.Text.Hex
import RubySig.Text.Lines
import RubySig.Tree.MethodName

/-! How string and symbol literals are spelled. -/
namespace RubySig.Spell

/-- How a character is written between double quotes. -/
def stringChar (c : Char) : List Char :=
  match c with
  | '\\' => ['\\', '\\']
  | '"' => ['\\', '"']
  | '\n' => ['\\', 'n']
  | '\t' => ['\\', 't']
  | '\r' => ['\\', 'r']
  | '\x1b' => ['\\', 'e']
  | '\x07' => ['\\', 'a']
  | '\x08' => ['\\', 'b']
  | '\x0c' => ['\\', 'f']
  | '\x0b' => ['\\', 'v']
  | c =>
    if c.toNat < 0x20 || c.toNat == 0x7F then '\\' :: 'u' :: Text.upperHexDigits 4 c.toNat else [c]

/-- The double-quoted literal of a value. -/
def string (value : String) : String :=
  String.ofList ('"' :: value.toList.flatMap stringChar ++ ['"'])

/-- Whether a symbol of this name needs no quotes: a method name, or a variable. -/
def isPlainSymbol : List Char → Bool
  | '@' :: '@' :: name => MethodName.isIdentifier name
  | '@' :: name => MethodName.isIdentifier name
  | '$' :: name => MethodName.isIdentifier name
  | name => MethodName.isWhole name

def symbol (name : String) : String :=
  ":" ++ if isPlainSymbol name.toList then name else string name

/-- A literal body made to stand between other quotes: a bare quote of that kind is escaped, one of
the other kind is not, and escape sequences stay. -/
def requote (quote : Char) : List Char → List Char
  | [] => []
  | '\\' :: c :: cs => '\\' :: c :: requote quote cs
  | c :: cs => if c == quote && (c == '"' || c == '\'') then '\\' :: c :: requote quote cs
    else c :: requote quote cs

/-- The quote for a literal with this source text: its own if it holds a backslash, since escapes
differ between the kinds of quotes, and else the double one. -/
def preferredQuote (source : List Char) : Char :=
  match source with
  | c :: _ => if source.contains '\\' then c else '"'
  | [] => '"'

/-- The lines of a literal body: a carriage return before a line feed stays on its line. -/
def literalLines (body : List Char) : List (List Char) :=
  body.splitOn '\n'

/-- The lines of a comment: a carriage return before a line feed belongs to the line end. -/
def commentLines (text : List Char) : List (List Char) :=
  (Text.joinLineEnds text).splitOn '\n'

end RubySig.Spell
