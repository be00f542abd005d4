import RubySig.Text.Blank
import RubySig.Text.Integer
import RubySig.Token.Escape
import RubySig.Token.Lexeme

/-!
From text to tokens. A reader is offered the text from one place on and splits off the characters
it takes; comments are kept apart from the tokens.
-/
namespace RubySig.Lexer

/-- What cannot be a token. -/
inductive Cause where
  | unexpectedCharacter (c : Char)
  | unterminatedString
  | unterminatedNote
  deriving DecidableEq, Repr

def Cause.message : Cause → String
  | .unexpectedCharacter c => "Unexpected character: " ++ String.singleton c
  | .unterminatedString => "Unterminated string"
  | .unterminatedNote => "Unterminated annotation"

/-- Why no token could be split off; `skip` characters before the place at fault are sound. -/
inductive Failure where
  | cause (cause : Cause) (skip : List Char)
  | value (fault : ValueFault)
  deriving DecidableEq, Repr

/-- A token split off: what it says, its characters, and the text behind it. -/
structure Piece where
  lexeme : Lexeme
  taken : List Char
  rest : List Char
  deriving DecidableEq, Repr

/-- A character that a name begins with. -/
def isNameStart (c : Char) : Bool :=
  Text.isLetter c || c == '_'

/-- A character that a name goes on with. -/
def isNamePart (c : Char) : Bool :=
  Text.isAlphanumeric c || c == '_'

/-- Whether the text starts with a character of the kind. -/
def starts (p : Char → Bool) : List Char → Bool
  | [] => false
  | c :: _ => p c

/-- The white space between tokens. -/
def isSpace (c : Char) : Bool :=
  c == ' ' || c == '\t' || c == '\r' || c == '\n' || c == '\x0c' || c == '\x0b'

/-- Operator names that a symbol can have, longest first. -/
def symbolOperators : List (List Char) :=
  [['[', ']', '='], ['<', '=', '>'], ['=', '=', '='], ['[', ']'], ['*', '*'], ['=', '='],
    ['=', '~'], ['!', '='], ['!', '~'], ['<', '<'], ['<', '='], ['>', '>'], ['>', '='],
    ['+', '@'], ['-', '@'], ['~', '@'], ['!'], ['<'], ['>'], ['+'], ['-'], ['*'], ['/'], ['%'],
    ['&'], ['|'], ['^'], ['~'], ['`']]

/-- The longest operator name at the start of a text. -/
def symbolOperator? (cs : List Char) : Option (List Char) :=
  symbolOperators.find? (·.isPrefixOf cs)

/-- The closing delimiter of an annotation that opens with `c`. -/
def closing? : Char → Option Char
  | '\x7b' => some '\x7d'
  | '(' => some ')'
  | '[' => some ']'
  | '<' => some '>'
  | '|' => some '|'
  | _ => none

/-- The body of a literal up to its closing quote, and the text behind that. A backslash guards
the character after it. -/
def literalBody? (quote : Char) : List Char → Option (List Char × List Char)
  | [] => none
  | '\\' :: c :: cs => (literalBody? quote cs).map fun (body, rest) => ('\\' :: c :: body, rest)
  | c :: cs =>
    if c == quote then some ([], cs)
    else (literalBody? quote cs).map fun (body, rest) => (c :: body, rest)

def literalValue (quote : Char) (body : List Char) : Except ValueFault String :=
  if quote == '"' then (Escape.double body).map String.ofList
  else .ok (String.ofList (Escape.single body))

/-- Reads a quoted literal, given the text behind its opening quote. -/
def quotedLiteral (quote : Char) (lead : List Char) (make : String → Lexeme) (cs : List Char) :
    Except Failure Piece :=
  match literalBody? quote cs with
  | none => .error (.cause .unterminatedString lead)
  | some (body, rest) =>
    match literalValue quote body with
    | .error fault => .error (.value fault)
    | .ok value => .ok ⟨make value, lead ++ quote :: body ++ [quote], rest⟩

/-- The value of an integer literal: an optional sign, decimal digits of any script, underscores. -/
def integerValue (text : List Char) : Except ValueFault Int :=
  let digits := (Text.unsigned text).filter (· != '_')
  if digits.length > Text.maxIntegerDigits then .error .unreadableInteger
  else match digits.mapM Text.decimalValue? with
    | none => .error .unreadableInteger
    | some values => .ok (Text.signedLike text (Text.ofDigits 10 values))

def nameLexeme (name : List Char) : Lexeme :=
  let text := String.ofList name
  match Keyword.ofName? text with
  | some k => .keyword k
  | none =>
    match name with
    | '_' :: c :: _ => if Text.isCapital c then .interfaceName text else .identifier text
    | c :: _ => if Text.isCapital c then .constant text else .identifier text
    | [] => .identifier text

/-- The end that a plain symbol name may have: `?`, `!`, or a `=` that starts no operator. -/
def symbolSuffix : List Char → List Char
  | '?' :: _ => ['?']
  | '!' :: _ => ['!']
  | '=' :: cs => if starts (fun c => c == '=' || c == '>' || c == '~') cs then [] else ['=']
  | _ => []

/-- Whether a colon begins a symbol: a symbol character follows and no name precedes. -/
def isSymbolStart (before : Option Char) (cs : List Char) : Bool :=
  let afterName := match before with
    | none => false
    | some p => isNamePart p || [')', ']', '?', '!', '=', '`'].contains p
  match cs with
  | [] => false
  | ':' :: _ => false
  | c :: _ =>
    !afterName && (isNameStart c || ['"', '\'', '@', '$'].contains c || (symbolOperator? cs).isSome)

/-- Reads a symbol, given the text behind its colon. -/
def symbol (cs : List Char) : Except Failure Piece :=
  let named (name : List Char) : Except Failure Piece :=
    .ok ⟨.symbol (String.ofList name), ':' :: name, cs.drop name.length⟩
  match cs with
  | [] => .error (.cause (.unexpectedCharacter ':') [])
  | c :: rest =>
    if c == '"' || c == '\'' then quotedLiteral c [':'] .symbol rest
    else if c == '@' || c == '$' then
      let sigils := cs.takeWhile fun c => c == '@' || c == '$'
      named (sigils ++ (cs.drop sigils.length).takeWhile isNamePart)
    else if isNameStart c then
      let name := cs.takeWhile isNamePart
      named (name ++ symbolSuffix (cs.drop name.length))
    else match symbolOperator? cs with
      | some operator => named operator
      | none => .error (.cause (.unexpectedCharacter ':') [])

/-- A backquoted name, given the text behind its opening backquote: not empty and on one line. -/
def backquoted? (cs : List Char) : Option (List Char) :=
  let name := cs.takeWhile (· != '`')
  if name.isEmpty || name.contains '\n' || name.length == cs.length then none else some name

/-- A variable of one kind: its sigils, given the text behind them. -/
def variablePiece (sigils : List Char) (make : String → Lexeme) (cs : List Char) : Piece :=
  let text := sigils ++ cs.takeWhile isNamePart
  ⟨make (String.ofList text), text, cs.dropWhile isNamePart⟩

/-- Reads an annotation, given its opening delimiter's partner and the text behind that. -/
def noteAt (opening closing : Char) (cs : List Char) : Except Failure Piece :=
  match cs.dropWhile (· != closing) with
  | [] => .error (.cause .unterminatedNote [])
  | _ :: rest =>
    let body := cs.takeWhile (· != closing)
    .ok ⟨.note (String.ofList (Text.strip body)), '%' :: 'a' :: opening :: body ++ [closing],
      rest⟩

def integer (c : Char) (cs : List Char) : Except Failure Piece :=
  let isPart (c : Char) : Bool := Text.isDigit c || c == '_'
  let text := c :: cs.takeWhile isPart
  match integerValue text with
  | .error fault => .error (.value fault)
  | .ok n => .ok ⟨.integer n, text, cs.dropWhile isPart⟩

/-- Punctuation, or one character of an operator name. -/
def operatorPiece (c : Char) (cs : List Char) : Except Failure Piece :=
  match Mark.at? (c :: cs) with
  | some m =>
    let size := m.text.length
    .ok ⟨.mark m, (c :: cs).take size, (c :: cs).drop size⟩
  | none =>
    if ['+', '-', '~', '!', '%', '/', '>', '=', '<', '`', '@'].contains c then
      .ok ⟨.operator c, [c], cs⟩
    else .error (.cause (.unexpectedCharacter c) [])

/-- The annotation that a `%` begins: its delimiters and the text behind the opening one. -/
def noteStart? : List Char → Option (Char × Char × List Char)
  | 'a' :: opening :: rest => (closing? opening).map fun closing => (opening, closing, rest)
  | _ => none

/-- Reads a variable with one of the sigils `@`, `@@` and `$`. -/
def sigilPiece? (c : Char) (cs : List Char) : Option Piece :=
  match c, cs with
  | '@', '@' :: rest =>
    if starts isNameStart rest then some (variablePiece ['@', '@'] .classVariable rest) else none
  | '@', rest =>
    if starts isNameStart rest then some (variablePiece ['@'] .instanceVariable rest) else none
  | '$', rest =>
    if starts isNameStart rest then some (variablePiece ['$'] .globalVariable rest) else none
  | _, _ => none

/-- Splits off the token that starts with `c` and goes on in `cs`; `before` is the character in
front of it. -/
def next (before : Option Char) (c : Char) (cs : List Char) : Except Failure Piece :=
  match (if c == '%' then noteStart? cs else none) with
  | some (opening, closing, rest) => noteAt opening closing rest
  | none =>
  if c == '"' || c == '\'' then quotedLiteral c [] .string cs else
  match (if c == '`' then backquoted? cs else none) with
  | some name =>
    .ok ⟨.quotedIdentifier (String.ofList name), '`' :: name ++ ['`'], cs.drop (name.length + 1)⟩
  | none =>
  if Text.isDigit c || ((c == '+' || c == '-') && starts Text.isDigit cs) then integer c cs
  else if isNameStart c then
    let name := c :: cs.takeWhile isNamePart
    .ok ⟨nameLexeme name, name, cs.dropWhile isNamePart⟩
  else match sigilPiece? c cs with
  | some piece => .ok piece
  | none =>
  if c == ':' && isSymbolStart before cs then symbol cs
  else operatorPiece c cs

/-- A place in a text that is being read: the character in front of it, whether its line is blank
so far, and the text from there on. -/
structure Reader where
  before : Option Char
  position : Position
  blank : Bool
  rest : List Char
  deriving DecidableEq, Repr

namespace Reader

def start (text : List Char) : Reader :=
  ⟨none, .first, true, text⟩

/-- The place behind `taken`, with `rest` left. -/
def pass (r : Reader) (taken rest : List Char) : Reader where
  before := taken.getLast?.or r.before
  position := r.position.after taken
  blank := taken.foldl (fun blank c => c == '\n' || (blank && Text.isBlank c)) r.blank
  rest := rest

end Reader

/-- The tokens and comments of a text and the place of its end. -/
structure Scan where
  tokens : List Token
  comments : List CommentLine
  finish : Position
  deriving DecidableEq, Repr

inductive Error where
  | cause (cause : Cause) (place : Position)
  | value (fault : ValueFault)
  deriving DecidableEq, Repr

/-- A failure at a token that starts at `p`. -/
def Failure.locate (p : Position) : Failure → Error
  | .cause c skip => .cause c (p.after skip)
  | .value fault => .value fault

/-- The text of a comment line: the marker, one space and the carriage returns at the end go. -/
def commentText (line : List Char) : String :=
  let line := (line.reverse.dropWhile (· == '\r')).reverse
  String.ofList (match line with
    | ' ' :: cs => cs
    | cs => cs)

/-- Reads tokens to the end of the text; every step takes at least one character. -/
def scanFrom : (fuel : Nat) → Reader → Except Error Scan
  | 0, r => .ok ⟨[], [], r.position⟩
  | fuel + 1, r =>
    match r.rest with
    | [] => .ok ⟨[], [], r.position⟩
    | c :: cs =>
      if isSpace c then scanFrom fuel (r.pass [c] cs)
      else if c == '#' then do
        let line := cs.takeWhile (· != '\n')
        let behind := r.pass (c :: line) (cs.dropWhile (· != '\n'))
        let more ← scanFrom fuel behind
        let comment := ⟨commentText line, r.position, behind.position, r.blank⟩
        return { more with comments := comment :: more.comments }
      else match next r.before c cs with
        | .error failure => .error (failure.locate r.position)
        | .ok piece => do
          let behind := r.pass piece.taken piece.rest
          let more ← scanFrom fuel behind
          return { more with tokens := ⟨piece.lexeme, r.position, behind.position⟩ :: more.tokens }

def scan (text : List Char) : Except Error Scan :=
  scanFrom text.length (.start text)

end RubySig.Lexer
