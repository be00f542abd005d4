import RubySig.Proofs.Layout.Stroke

/-!
The run of the printer: every document that is taken up, in order, with the mode, the indentation
and the column in which it is taken up. What a run writes is what the printer writes, and at every
width the same documents are taken up in the same order.
-/
namespace RubySig.Doc

/-- A document that is taken up, and what is known at that time. -/
structure Visit where
  doc : Doc
  mode : Mode
  indent : Int
  column : Int
  following : Following

namespace Visit

def endsLine (v : Visit) : Bool :=
  match v.doc with
  | .breakable _ force _ => force || v.mode == .broken
  | _ => false

/-- Whether a line ends here that loses the blanks at its end. -/
def trims (v : Visit) : Bool :=
  match v.doc with
  | .breakable _ force margin => (force || v.mode == .broken) && margin
  | _ => false

/-- The characters that stand on the line for a text or a separator. -/
def written (v : Visit) : List Char :=
  match v.doc with
  | .text s => s.toList
  | .breakable separator force _ => if force || v.mode == .broken then [] else separator.toList
  | _ => []

/-- The column in which a line starts that starts here. -/
def margin (v : Visit) : Int :=
  if v.trims then v.indent else 0

def after (v : Visit) : Int :=
  if v.endsLine then v.margin else v.column + v.written.length

def strokes (v : Visit) : List Stroke :=
  if v.trims then [.newline v.indent.toNat]
  else if v.endsLine then [.char '\n']
  else plain v.written

/-- Whether this is a group that is put on one line because it fits there. -/
def fitted (width : Int) (v : Visit) : Bool :=
  match v.doc with
  | .group broken contents =>
    !broken && v.mode == .broken && fits contents v.following (width - v.column)
  | _ => false

/-- Whether this is a place where the line could end and does not. -/
def softFlat (v : Visit) : Bool :=
  match v.doc with
  | .breakable _ force _ => !force && v.mode == .flat
  | _ => false

theorem endsLine_of_trims {v : Visit} (h : v.trims = true) : v.endsLine = true := by
  unfold trims at h
  unfold endsLine
  split at h <;> simp_all

end Visit

def columnAfter (column : Int) (vs : List Visit) : Int :=
  vs.foldl (fun _ v => v.after) column

def groupMode (width : Int) (following : Following) (mode : Mode) (column : Int) (broken : Bool)
    (contents : List Doc) : Mode :=
  if broken then .broken
  else if mode == .flat || fits contents following (width - column) then .flat
  else .broken

mutual

/-- The visits of a document and of those inside it. -/
def visits (width : Int) (following : Following) (indent : Int) (mode : Mode) (column : Int) :
    Doc → List Visit
  | .text s => [⟨.text s, mode, indent, column, following⟩]
  | .group broken contents =>
    ⟨.group broken contents, mode, indent, column, following⟩ ::
      visitsAll width following indent
        (groupMode width following mode column broken contents) column
        contents
  | .indent extra contents =>
    ⟨.indent extra contents, mode, indent, column, following⟩ ::
      visitsAll width following (indent + extra) mode column contents
  | .breakable separator force margin =>
    [⟨.breakable separator force margin, mode, indent, column, following⟩]

def visitsAll (width : Int) (following : Following) (indent : Int) (mode : Mode) (column : Int) :
    List Doc → List Visit
  | [] => []
  | d :: ds =>
    let vs := d.visits width ((mode, ds) :: following) indent mode column
    vs ++ visitsAll width following indent mode (columnAfter column vs) ds

end

def run (width : Int) (d : Doc) : List Visit :=
  d.visits width [] 0 .broken 0

mutual

/-- A document and those inside it, each before its contents. -/
def parts : Doc → List Doc
  | .text s => [.text s]
  | .group broken contents => .group broken contents :: allParts contents
  | .indent extra contents => .indent extra contents :: allParts contents
  | .breakable separator force margin => [.breakable separator force margin]

def allParts : List Doc → List Doc
  | [] => []
  | d :: ds => d.parts ++ allParts ds

end

theorem columnAfter_append (column : Int) (vs ws : List Visit) :
    columnAfter column (vs ++ ws) = columnAfter (columnAfter column vs) ws := by
  simp [columnAfter]

/-- What the printer has written when it is through with some visits. -/
def Output.behind (o : Output) (vs : List Visit) : Output :=
  ⟨draw o.reversed (vs.flatMap Visit.strokes), columnAfter o.column vs⟩

theorem Output.behind_append (o : Output) (vs ws : List Visit) :
    o.behind (vs ++ ws) = (o.behind vs).behind ws := by
  simp [behind, draw_append, columnAfter_append]

/-- A visit that ends no line writes its characters. -/
theorem Output.behind_written (o : Output) (v : Visit) (he : v.endsLine = false)
    (ht : v.trims = false) (hc : v.column = o.column) :
    o.behind [v] = o.write (String.ofList v.written) := by
  simp [behind, columnAfter, Visit.strokes, Visit.after, he, ht, hc, write, draw_plain]

theorem Output.write_empty (o : Output) : o.write (String.ofList []) = o := by
  simp [write]

mutual

/-- The printer writes what the visits say. -/
theorem write_visits (width : Int) (following : Following) (i : Int) (mode : Mode) :
    (d : Doc) → (o : Output) →
      d.write width following i mode o = o.behind (d.visits width following i mode o.column)
  | .text s, o => by
    rw [write, visits, Output.behind_written o _ rfl rfl rfl]
    exact congrArg o.write String.ofList_toList.symm
  | .group broken contents, o => by
    rw [write, visits, ← List.singleton_append, Output.behind_append,
      Output.behind_written o _ rfl rfl rfl]
    change _ = (o.write (String.ofList [])).behind _
    rw [Output.write_empty]
    exact writeAll_visits width following i _ contents o
  | .indent extra contents, o => by
    rw [write, visits, ← List.singleton_append, Output.behind_append,
      Output.behind_written o _ rfl rfl rfl]
    change _ = (o.write (String.ofList [])).behind _
    rw [Output.write_empty]
    exact writeAll_visits width following (i + extra) mode contents o
  | .breakable separator force margin, o => by
    rw [write, visits]
    cases mode with
    | flat =>
      cases force with
      | false =>
        rw [Output.behind_written o _ rfl rfl rfl]
        exact congrArg o.write String.ofList_toList.symm
      | true => cases margin <;> rfl
    | broken => cases force <;> cases margin <;> rfl

theorem writeAll_visits (width : Int) (following : Following) (i : Int) (mode : Mode) :
    (ds : List Doc) → (o : Output) →
      writeAll width following i mode ds o =
        o.behind (visitsAll width following i mode o.column ds)
  | [], _ => rfl
  | d :: ds, o => by
    rw [writeAll, visitsAll, write_visits width _ i mode d o, Output.behind_append,
      writeAll_visits width following i mode ds]
    rfl

end

/-- The text of a document, written by its run. -/
theorem render_run (width : Int) (d : Doc) :
    (d.render width).toList = settle ((d.run width).flatMap Visit.strokes) := by
  rw [render, String.toList_ofList, write_visits, Output.behind, reverse_draw]
  simp [run]

mutual

theorem map_doc_visits (width : Int) (following : Following) (i : Int) (mode : Mode)
    (column : Int) :
    (d : Doc) → (d.visits width following i mode column).map (·.doc) = d.parts
  | .text _ => rfl
  | .group broken contents => by
    rw [visits, parts, List.map_cons, map_doc_visitsAll]
  | .indent extra contents => by
    rw [visits, parts, List.map_cons, map_doc_visitsAll]
  | .breakable _ _ _ => rfl

theorem map_doc_visitsAll (width : Int) (following : Following) (i : Int) (mode : Mode)
    (column : Int) :
    (ds : List Doc) → (visitsAll width following i mode column ds).map (·.doc) = allParts ds
  | [] => rfl
  | d :: ds => by
    rw [visitsAll, allParts, List.map_append, map_doc_visits, map_doc_visitsAll]

end

/-- At every width the same documents are taken up in the same order. -/
theorem map_doc_run (width : Int) (d : Doc) : (d.run width).map (·.doc) = d.parts :=
  map_doc_visits width [] 0 .broken 0 d

end RubySig.Doc
