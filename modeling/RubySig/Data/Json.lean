import RubySig.Data.Datum

/-! JSON text of plain data, on one line or indented. Only what must be escaped is. -/
namespace RubySig.Json

/-- How a character is written inside a JSON string. -/
def stringChar (c : Char) : List Char :=
  match c with
  | '"' => ['\\', '"']
  | '\\' => ['\\', '\\']
  | '\n' => ['\\', 'n']
  | '\r' => ['\\', 'r']
  | '\t' => ['\\', 't']
  | '\x0c' => ['\\', 'f']
  | '\x08' => ['\\', 'b']
  | c => if c.toNat < 32 then '\\' :: 'u' :: Text.hexDigits 4 c.toNat else [c]

/-- A text between double quotes. -/
def string (s : String) : String :=
  String.ofList ('"' :: s.toList.flatMap stringChar ++ ['"'])

def scalar : Scalar → String
  | .null => "null"
  | .bool b => if b then "true" else "false"
  | .int n => toString n
  | .float x =>
    if x.isNaN then "NaN" else if x.isInf then (if x < 0 then "-Infinity" else "Infinity")
    else floatText x
  | .str s => string s

/-- Keys are always strings. -/
def key : Scalar → String
  | .str s => string s
  | s => string (scalar s)

mutual

/-- The text on one line, with a space behind each comma and colon. -/
def line : Datum → String
  | .scalar s => scalar s
  | .list items => "[" ++ ", ".intercalate (itemLines items) ++ "]"
  | .dict entries => "\x7b" ++ ", ".intercalate (entryLines entries) ++ "\x7d"

def itemLines : List Datum → List String
  | [] => []
  | d :: rest => line d :: itemLines rest

def entryLines : List (Scalar × Datum) → List String
  | [] => []
  | (k, d) :: rest => (key k ++ ": " ++ line d) :: entryLines rest

end

/-- Entries on lines of their own, `depth` levels deep, between two brackets. -/
def block (opening closing : String) (depth : Nat) (entries : List String) : String :=
  if entries.isEmpty then opening ++ closing
  else
    let margin (n : Nat) : String := "\n" ++ String.ofList (List.replicate (2 * n) ' ')
    opening ++ margin (depth + 1) ++ ("," ++ margin (depth + 1)).intercalate entries
      ++ margin depth ++ closing

mutual

/-- The text with every entry on a line of its own, two columns deeper than its container. -/
def indented (depth : Nat) : Datum → String
  | .scalar s => scalar s
  | .list items => block "[" "]" depth (indentedItems depth items)
  | .dict entries => block "\x7b" "\x7d" depth (indentedEntries depth entries)

def indentedItems (depth : Nat) : List Datum → List String
  | [] => []
  | d :: rest => indented (depth + 1) d :: indentedItems depth rest

def indentedEntries (depth : Nat) : List (Scalar × Datum) → List String
  | [] => []
  | (k, d) :: rest => (key k ++ ": " ++ indented (depth + 1) d) :: indentedEntries depth rest

end

end RubySig.Json
