import RubySig.Outline.Basic

/-!
Values of outlines as texts. `quoted` shows all that a value holds, as messages do; `text` shows
texts, names and base types as they are written.
-/
namespace RubySig.Outline

/-- A range of the source with the names of its parts. -/
def quotedPlace : Option Span → String
  | none => "None"
  | some s =>
    "Location(start_line=" ++ toString s.startLine ++ ", start_column=" ++
      toString s.startColumn ++ ", end_line=" ++ toString s.endLine ++ ", end_column=" ++
      toString s.endColumn ++ ", start_pos=" ++ toString s.startOffset ++ ", end_pos=" ++
      toString s.endOffset ++ ")"

/-- A comment or an annotation, whichever `label` says. -/
def quotedNote (label text : String) (location : Option Span) : String :=
  label ++ "(string=" ++ Text.quoted text ++ ", location=" ++ quotedPlace location ++ ")"

def quotedComment : Option Comment → String
  | none => "None"
  | some comment => quotedNote "Comment" comment.text comment.location

def quotedNotes (ns : List Note) : String :=
  "[" ++ ", ".intercalate (ns.map fun n => quotedNote "Annotation" n.text n.location) ++ "]"

/-- The place of a node and what stands above it, with the names of these parts. -/
def quotedFrame (kind : NodeKind) (location : Option Span) (lead : Lead) : List String :=
  ("location=" ++ quotedPlace location) ::
    if kind.isDecorated then
      ["comment=" ++ quotedComment lead.comment, "annotations=" ++ quotedNotes lead.notes]
    else []

mutual

/-- A value as messages show it, nodes with all their fields. -/
def quoted : Outline → String
  | .scalar s => s.text
  | .choice word => Text.quoted word
  | .notes ns => quotedNotes ns
  | .list items => "[" ++ ", ".intercalate (quotedItems items) ++ "]"
  | .table entries => "\x7b" ++ ", ".intercalate (quotedEntries entries) ++ "\x7d"
  | .node kind location lead fields =>
    kind.name ++ "(" ++
      ", ".intercalate (quotedFrame kind location lead ++ quotedFields kind fields) ++ ")"

def quotedItems : List Outline → List String
  | [] => []
  | v :: vs => v.quoted :: quotedItems vs

def quotedEntries : List (String × Outline) → List String
  | [] => []
  | (key, v) :: vs => (Text.quoted key ++ ": " ++ v.quoted) :: quotedEntries vs

/-- The fields of a node; a word is shown with the vocabulary of its field. -/
def quotedFields (kind : NodeKind) : List (String × Outline) → List String
  | [] => []
  | (name, v) :: vs =>
    let shown := match v, kind.vocabulary? name with
      | .choice word, some vocabulary => vocabulary.quoted word
      | _, _ => v.quoted
    (name ++ "=" ++ shown) :: quotedFields kind vs

end

mutual

/-- A value as it is written into a line. -/
def text : Outline → Except TreeFault String
  | .scalar (.str s) => .ok s
  | .choice word => .ok word
  | .node .typeName _ _ fields => nameText fields
  | .node .baseType _ _ fields =>
    match field? fields "kind" with
    | some (.choice word) => .ok word
    | _ => .error .noFields
  | o => .ok o.quoted

/-- The full name behind the fields of a name. -/
def nameText : List (String × Outline) → Except TreeFault String
  | [(_, name), (_, path), (_, absolute)] => do
    let segments ← segmentTexts path
    match name with
    | .scalar (.str name) => return TypeName.text ⟨none, name, segments, !absolute.isEmpty⟩
    | _ => throw .wrongType
  | _ => .error .wrongType

/-- The segments of a name in front of the last. A text stands for its characters, a table for
its keys. -/
def segmentTexts : Outline → Except TreeFault (List String)
  | .scalar (.str s) => .ok (s.toList.map String.singleton)
  | .list items => itemTexts items
  | .table entries => .ok (entries.map (·.1))
  | _ => .error .wrongType

def itemTexts : List Outline → Except TreeFault (List String)
  | [] => .ok []
  | v :: vs => do
    let first ← v.text
    return first :: (← itemTexts vs)

end

end RubySig.Outline
