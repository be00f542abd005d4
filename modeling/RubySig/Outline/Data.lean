import RubySig.Outline.Text

/-!
Outlines as plain data: each node a dictionary that begins with the name of its kind. What is
absent is left out, comments and annotations are kept as their texts, and names also in full.
-/
namespace RubySig.Outline

/-- The key of a field; `type` is taken by the kind. -/
def fieldKey (name : String) : String :=
  if name == "type" then "type_" else name

/-- A range by its named parts. -/
def spanDatum (s : Span) : Datum :=
  .record [("start", .list [.int s.startLine, .int s.startColumn]),
    ("end", .list [.int s.endLine, .int s.endColumn])]

def locationEntry (locations : Bool) (location : Option Span) : List (String × Datum) :=
  match locations, location with
  | true, some s => [("location", spanDatum s)]
  | _, _ => []

def noteTexts (notes : List Note) : Datum :=
  .list (notes.map fun n => .str n.text)

/-- The entries for what is written above a node; what is missing is left out. -/
def leadEntries (lead : Lead) : List (String × Datum) :=
  (match lead.comment with
    | some comment => [("comment", .str comment.text)]
    | none => []) ++
  if lead.notes.isEmpty then [] else [("annotations", noteTexts lead.notes)]

def fullNameEntry (kind : NodeKind) (fields : List (String × Outline)) :
    Except TreeFault (List (String × Datum)) :=
  if kind == .typeName then do return [("full_name", .str (← nameText fields))] else .ok []

/-- Whether a field is left out: when it is absent, and annotations when there are none. -/
def isAbsent (name : String) : Outline → Bool
  | .scalar .null => true
  | v => name == "annotations" && v.isEmpty

mutual

def datum (locations : Bool) : Outline → Except TreeFault Datum
  | .scalar s => .ok (.scalar s)
  | .choice word => .ok (.str word)
  | .notes ns => .ok (noteTexts ns)
  | .list items => return .list (← itemData locations items)
  | .table entries => return .record (← entryData locations entries)
  | .node kind location lead fields =>
    if kind.isAbstract then .error (.unsupported kind.name)
    else do
      let own ← fieldData locations fields
      let fullName ← fullNameEntry kind fields
      return .record (("type", .str kind.name) :: locationEntry locations location ++
        leadEntries lead ++ own ++ fullName)

def itemData (locations : Bool) : List Outline → Except TreeFault (List Datum)
  | [] => .ok []
  | v :: vs => do
    let first ← datum locations v
    return first :: (← itemData locations vs)

def entryData (locations : Bool) :
    List (String × Outline) → Except TreeFault (List (String × Datum))
  | [] => .ok []
  | (key, v) :: vs => do
    let first ← datum locations v
    return (key, first) :: (← entryData locations vs)

def fieldData (locations : Bool) :
    List (String × Outline) → Except TreeFault (List (String × Datum))
  | [] => .ok []
  | (name, v) :: vs =>
    if isAbsent name v then fieldData locations vs
    else do
      let first ← datum locations v
      return (fieldKey name, first) :: (← fieldData locations vs)

end

def record (locations : Bool) (o : Outline) : Except TreeFault Datum :=
  if o.isNode then o.datum locations else .error (.unsupported o.typeName)

end RubySig.Outline
