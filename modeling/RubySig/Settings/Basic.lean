import RubySig.Data.Datum

/-! The options of the formatter, and how they are read from plain data. -/
namespace RubySig

/-- The width that lines should keep, and the columns of one level. -/
structure Settings where
  maxWidth : Nat
  indentSize : Nat
  maxWidth_pos : 0 < maxWidth := by decide
  indentSize_pos : 0 < indentSize := by decide
  deriving DecidableEq, Repr

namespace Settings

def standard : Settings where
  maxWidth := 80
  indentSize := 2

inductive Fault where
  | unknown (names : List String)
  | notPositive (option : String) (value : Datum)
  | notMapping (path : String)
  /-- The data have no named entries, or a name that is no text. -/
  | shape
  /-- The text of the options is broken. -/
  | unreadable
  deriving Inhabited

/-- What is wrong with the options; data of a wrong shape have no message of their own. -/
def Fault.message? : Fault → Option String
  | .unknown names => some ("Unknown formatting options: " ++ ", ".intercalate names)
  | .notPositive option value =>
    some (option ++ " must be a positive integer, got " ++ value.text)
  | .notMapping path => some (path ++ ": expected a mapping of formatting options")
  | .shape | .unreadable => none

def maxWidthName : String := "max_width"
def indentSizeName : String := "indent_size"

def isKnown : Scalar → Bool
  | .str s => s == maxWidthName || s == indentSizeName
  | _ => false

def keyText? : Scalar → Option String
  | .str s => some s
  | _ => none

/-- What a value offers as names: the keys of a dictionary, the items of a list, the characters of
a text. -/
def names? : Datum → Option (List Scalar)
  | .dict entries => some (entries.map (·.1))
  | .list items => items.mapM fun
    | .scalar s => some s
    | _ => none
  | .scalar (.str s) => some (s.toList.map fun c => .str (String.singleton c))
  | .scalar _ => none

/-- Sorted by code points, each once. -/
def sortedTexts (names : List String) : List String :=
  (names.mergeSort (· ≤ ·)).eraseReps

def positive (option : String) : Datum → Except Fault { n : Nat // 0 < n }
  | .scalar (.int (.ofNat (n + 1))) => .ok ⟨n + 1, Nat.succ_pos n⟩
  | value => .error (.notPositive option value)

def given (data : Datum) (option : String) : Except Fault (Option Datum) :=
  match data with
  | .dict entries => .ok (Datum.get? entries option)
  | .list items =>
    if items.any (fun | .scalar s => s.sameKey (.str option) | _ => false) then .error .shape
    else .ok none
  | .scalar _ => .ok none

/-- Reads options: an unknown name is refused first, then each value that is no positive integer,
the width before the indentation. -/
def ofDatum (data : Datum) : Except Fault Settings := do
  let some names := names? data | throw .shape
  let unknown := names.filter (!isKnown ·)
  let some texts := unknown.mapM keyText? | throw .shape
  unless texts.isEmpty do throw (.unknown (sortedTexts texts))
  let width ← given data maxWidthName
  let indent ← given data indentSizeName
  let ⟨maxWidth, maxWidth_pos⟩ ← match width with
    | none => pure ⟨standard.maxWidth, standard.maxWidth_pos⟩
    | some value => positive maxWidthName value
  let ⟨indentSize, indentSize_pos⟩ ← match indent with
    | none => pure ⟨standard.indentSize, standard.indentSize_pos⟩
    | some value => positive indentSizeName value
  return ⟨maxWidth, indentSize, maxWidth_pos, indentSize_pos⟩

def withWidth (settings : Settings) (width : Nat) (positive : 0 < width) : Settings :=
  { settings with maxWidth := width, maxWidth_pos := positive }

end Settings
end RubySig
