import RubySig.Data.Datum
import RubySig.Yaml.Writer

/-!
YAML text of plain data, in block style or in flow style throughout. Empty collections are always
in flow style.
-/
namespace RubySig.Yaml

/-- The indentation one level deeper; there is none yet at the root. -/
def deeper (inFlow : Bool) : Option Nat → Nat
  | none => if inFlow then levelWidth else 0
  | some n => n + levelWidth

/-- Keys longer than this stand behind a question mark. -/
def longestSimpleKey : Nat := 122

/-- Whether a key can stand in front of its colon on one line. -/
def isSimpleKey (key : String) : Bool :=
  !key.isEmpty && key.length ≤ longestSimpleKey && !key.toList.any isBreak

def keyText : Scalar → String
  | .str s => s
  | .bool b => if b then "true" else "false"
  | .null => "null"
  | s => s.text

def fractionText (x : Float) : String :=
  if x.isNaN then ".nan" else if x.isInf then (if x < 0 then "-.inf" else ".inf")
  else floatText x

namespace Writer

/-- Writes a scalar below the indentation `indent` of its container. -/
def scalar (w : Writer) (split inFlow : Bool) (indent : Option Nat) (s : Scalar) : Writer :=
  let inner := deeper true indent
  match s with
  | .null => w.plain split inner "null".toList
  | .bool b => w.plain split inner (if b then "true" else "false").toList
  | .int n => w.plain split inner (toString n).toList
  | .float x => w.plain split inner (fractionText x).toList
  | .str s => w.text split inFlow inner s

/-- Ends a line that has become too long inside a flow collection. -/
def wrap (w : Writer) (indent : Nat) : Writer :=
  if w.column > lastColumn then w.toIndent indent else w

/-- Writes the comma in front of all items but the first. -/
def next (w : Writer) (first : Bool) (indent : Nat) : Writer :=
  (if first then w else w.mark "," false false false).wrap indent

def flowKey (w : Writer) (indent : Nat) (key : String) : Writer :=
  if isSimpleKey key then
    (w.scalar false true (some indent) (.str key)).mark ":" false false false
  else
    (((w.mark "?" true false false).scalar true true (some indent) (.str key)).wrap indent).mark
      ":" true false false

def blockKey (w : Writer) (indent : Nat) (key : String) : Writer :=
  let w := w.toIndent indent
  if isSimpleKey key then
    (w.scalar false false (some indent) (.str key)).mark ":" false false false
  else
    (((w.mark "?" true false true).scalar true false (some indent) (.str key)).toIndent indent).mark
      ":" true false true

end Writer

mutual

/-- Writes a value. `flow` asks for flow style everywhere, `inFlow` tells of a flow collection
around the value, and `isEntry` that it is the value of a mapping. -/
def write (flow inFlow : Bool) (indent : Option Nat) (isEntry : Bool) :
    Datum → Writer → Writer
  | .scalar s, w => w.scalar true inFlow indent s
  | .list items, w =>
    if inFlow || flow || items.isEmpty then
      (writeFlowItems (deeper true indent) true items (w.mark "[" true true false)).mark "]" false
        false false
    else
      let inner := if isEntry && !w.fresh then indent.getD 0 else deeper false indent
      writeItems flow inner items w
  | .dict entries, w =>
    if inFlow || flow || entries.isEmpty then
      (writeFlowEntries (deeper true indent) true entries (w.mark "\x7b" true true false)).mark
        "\x7d" false false false
    else writeEntries flow (deeper false indent) entries w

def writeFlowItems (indent : Nat) (first : Bool) : List Datum → Writer → Writer
  | [], w => w
  | d :: ds, w =>
    writeFlowItems indent false ds (write true true (some indent) false d (w.next first indent))

def writeFlowEntries (indent : Nat) (first : Bool) : List (Scalar × Datum) → Writer → Writer
  | [], w => w
  | (key, d) :: ds, w =>
    writeFlowEntries indent false ds
      (write true true (some indent) true d ((w.next first indent).flowKey indent (keyText key)))

def writeItems (flow : Bool) (indent : Nat) : List Datum → Writer → Writer
  | [], w => w
  | d :: ds, w =>
    writeItems flow indent ds
      (write flow false (some indent) false d ((w.toIndent indent).mark "-" true false true))

def writeEntries (flow : Bool) (indent : Nat) : List (Scalar × Datum) → Writer → Writer
  | [], w => w
  | (key, d) :: ds, w =>
    writeEntries flow indent ds
      (write flow false (some indent) true d (w.blockKey indent (keyText key)))

end

def text (flow : Bool) (d : Datum) : String :=
  String.ofList ((write flow false none false d .start).toIndent 0).reversed.reverse

end RubySig.Yaml
