import RubySig.Data.Decimal
import RubySig.Text.Quoted

/-! Plain data: scalars, lists and dictionaries that keep the order of their entries. -/
namespace RubySig

/-- A value without parts. -/
inductive Scalar where
  | null
  | bool (b : Bool)
  | int (n : Int)
  | float (x : Float)
  | str (s : String)
  deriving Inhabited

/-- A value as a data format has it; a dictionary keeps the order of its entries. -/
inductive Datum where
  | scalar (s : Scalar)
  | list (items : List Datum)
  | dict (entries : List (Scalar × Datum))
  deriving Inhabited

namespace Scalar

def text : Scalar → String
  | .null => "None"
  | .bool true => "True"
  | .bool false => "False"
  | .int n => toString n
  | .float x => floatText x
  | .str s => Text.quoted s

/-- Equality of keys: a truth value counts as the number it stands for. -/
def sameKey : Scalar → Scalar → Bool
  | .null, .null => true
  | .str a, .str b => a == b
  | .bool a, .bool b => a == b
  | .int a, .int b => a == b
  | .float a, .float b => a == b
  | .bool a, .int b | .int b, .bool a => (if a then 1 else 0) == b
  | .bool a, .float b | .float b, .bool a => (if a then 1.0 else 0.0) == b
  | .int a, .float b | .float b, .int a => wholePart? b == some a && Float.ofInt a == b
  | _, _ => false

/-- Whether the scalar is empty: nothing, false, zero or the empty text. -/
def isEmpty : Scalar → Bool
  | .null => true
  | .bool b => !b
  | .int n => n == 0
  | .float x => x == 0.0
  | .str s => s.isEmpty

end Scalar

namespace Datum

def null : Datum := .scalar .null
def bool (b : Bool) : Datum := .scalar (.bool b)
def int (n : Int) : Datum := .scalar (.int n)
def str (s : String) : Datum := .scalar (.str s)

/-- A dictionary whose keys are texts. -/
def record (entries : List (String × Datum)) : Datum :=
  .dict (entries.map fun (k, v) => (.str k, v))

def isEmpty : Datum → Bool
  | .scalar s => s.isEmpty
  | .list items => items.isEmpty
  | .dict entries => entries.isEmpty

mutual

def text : Datum → String
  | .scalar s => s.text
  | .list items => "[" ++ ", ".intercalate (itemTexts items) ++ "]"
  | .dict entries => "\x7b" ++ ", ".intercalate (entryTexts entries) ++ "\x7d"

def itemTexts : List Datum → List String
  | [] => []
  | d :: rest => d.text :: itemTexts rest

def entryTexts : List (Scalar × Datum) → List String
  | [] => []
  | (k, d) :: rest => (k.text ++ ": " ++ d.text) :: entryTexts rest

end

/-- The value under a text key; the last one counts. -/
def get? (entries : List (Scalar × Datum)) (key : String) : Option Datum :=
  (entries.reverse.find? fun (k, _) => k.sameKey (.str key)).map (·.2)

end Datum
end RubySig
