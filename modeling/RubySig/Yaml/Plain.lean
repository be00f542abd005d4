import RubySig.Text.Integer

/-! What a YAML scalar means when it stands without quotes. -/
namespace RubySig.Yaml

/-- The meaning of a plain scalar. -/
inductive Plain where
  | text | null | truth | integer | float | timestamp
  /-- `<<`, `=`, `!`, `&` and `*`, which stand for themselves only between quotes. -/
  | mark
  deriving DecidableEq, Repr

def trueWords : List String :=
  ["yes", "Yes", "YES", "true", "True", "TRUE", "on", "On", "ON"]

def falseWords : List String :=
  ["no", "No", "NO", "false", "False", "FALSE", "off", "Off", "OFF"]

def nullWords : List String :=
  ["", "~", "null", "Null", "NULL"]

def infinityWords : List String :=
  [".inf", ".Inf", ".INF"]

def nanWords : List String :=
  [".nan", ".NaN", ".NAN"]

def markWords : List String :=
  ["<<", "=", "!", "&", "*"]

def isDigitOrGap (c : Char) : Bool :=
  c.isDigit || c == '_'

/-- Whether a text has some characters and all pass a test. -/
def allSome (p : Char → Bool) (cs : List Char) : Bool :=
  !cs.isEmpty && cs.all p

def afterDigits? : List Char → Option (List Char)
  | c :: cs => if c.isDigit then some (cs.dropWhile isDigitOrGap) else none
  | [] => none

/-- What follows groups of a colon and a number below sixty; there must be one at least. -/
def afterSixties? : List Char → Option (List Char)
  | ':' :: a :: b :: cs =>
    if b.isDigit then
      if '0' ≤ a && a ≤ '5' then some ((afterSixties? cs).getD cs) else none
    else if a.isDigit then some ((afterSixties? (b :: cs)).getD (b :: cs)) else none
  | [':', a] => if a.isDigit then some [] else none
  | _ => none

def isExponent : List Char → Bool
  | [] => true
  | e :: sign :: digits =>
    (e == 'e' || e == 'E') && (sign == '+' || sign == '-') && allSome Char.isDigit digits
  | _ => false

/-- Binary, octal, decimal and hexadecimal integers, and integers to the base sixty. -/
def isInteger (cs : List Char) : Bool :=
  match Text.unsigned cs with
  | ['0'] => true
  | '0' :: 'b' :: digits => allSome (fun c => c == '0' || c == '1' || c == '_') digits
  | '0' :: 'x' :: digits => allSome (fun c => Text.isHexDigit c || c == '_') digits
  | '0' :: digits => digits.all fun c => Text.isOctalDigit c || c == '_'
  | c :: digits =>
    c.isDigit &&
      match digits.dropWhile isDigitOrGap with
      | [] => true
      | rest => afterSixties? rest == some []
  | [] => false

/-- A point with what may follow it. -/
def isFraction : List Char → Bool
  | '.' :: cs => isExponent (cs.dropWhile isDigitOrGap)
  | _ => false

/-- Decimal fractions, with an exponent or not, and fractions to the base sixty. -/
def isDecimalFraction (cs : List Char) : Bool :=
  let body := Text.unsigned cs
  let whole := match afterDigits? body with
    | some rest => isFraction rest ||
        match afterSixties? rest with
        | some ('.' :: places) => places.all isDigitOrGap
        | _ => false
    | none => false
  let pointFirst := match cs with
    | '.' :: c :: rest => c.isDigit && isExponent (rest.dropWhile isDigitOrGap)
    | _ => false
  whole || pointFirst

def isFloat (cs : List Char) : Bool :=
  let text := String.ofList cs
  isDecimalFraction cs || infinityWords.contains (String.ofList (Text.unsigned cs)) ||
    nanWords.contains text

/-- Takes a number of one or two digits off a text. -/
def afterShort? : List Char → Option (List Char)
  | a :: b :: cs => if a.isDigit then some (if b.isDigit then cs else b :: cs) else none
  | [a] => if a.isDigit then some [] else none
  | [] => none

/-- Takes a number of two digits off a text. -/
def afterTwo? : List Char → Option (List Char)
  | a :: b :: cs => if a.isDigit && b.isDigit then some cs else none
  | _ => none

/-- Takes one character off a text. -/
def after? (c : Char) : List Char → Option (List Char)
  | d :: cs => if c == d then some cs else none
  | [] => none

/-- A blank within a line. -/
def isBlankChar (c : Char) : Bool :=
  c == ' ' || c == '\t'

/-- A time zone with blanks in front, or nothing. -/
def isZone (cs : List Char) : Bool :=
  match cs.dropWhile isBlankChar with
  | [] => cs.isEmpty
  | ['Z'] => true
  | sign :: hours =>
    (sign == '+' || sign == '-') &&
      match afterShort? hours with
      | some [] => true
      | some rest => ((after? ':' rest).bind afterTwo?) == some []
      | none => false

def isTimestamp (cs : List Char) : Bool :=
  let date := do
    let rest ← afterTwo? (← afterTwo? cs)
    let rest ← afterShort? (← after? '-' rest)
    afterShort? (← after? '-' rest)
  let short := do
    let rest ← afterTwo? (← afterTwo? cs)
    let rest ← afterTwo? (← after? '-' rest)
    afterTwo? (← after? '-' rest)
  let time (cs : List Char) : Option (List Char) := do
    let rest ← match cs with
      | 'T' :: rest | 't' :: rest => some rest
      | c :: rest => if isBlankChar c then some (rest.dropWhile isBlankChar) else none
      | [] => none
    let rest ← afterShort? rest
    let rest ← afterTwo? (← after? ':' rest)
    afterTwo? (← after? ':' rest)
  let isTime := match date.bind time with
    | some ('.' :: rest) => isZone (rest.dropWhile Char.isDigit)
    | some rest => isZone rest
    | none => false
  short == some [] || isTime

/-- The meaning of a scalar without quotes. -/
def Plain.of (s : String) : Plain :=
  let cs := s.toList
  if nullWords.contains s then .null
  else if trueWords.contains s || falseWords.contains s then .truth
  else if markWords.contains s then .mark
  else if isInteger cs then .integer
  else if isFloat cs then .float
  else if isTimestamp cs then .timestamp
  else .text

end RubySig.Yaml
