import RubySig.Proofs.Outline.FormLaid
import RubySig.Proofs.Outline.Shown

/-!
The form of an outline, of which its text tells every piece: two outlines are dumped alike only if
their forms are equal.
-/
namespace RubySig.Outline

open Doc (Lays settle)
open Atom (cut)

/-- What is written above a node, as fields; annotations are spelled twice. -/
def leadForms (lead : Lead) : List (String × Option Form) :=
  [("comment", lead.comment.map fun c => .string c.text),
    ("annotations", if lead.notes.isEmpty then none
      else some (.list (lead.notes.map fun n => .string (Spell.string n.text))))]

def flagWords (kind : NodeKind) (fields : List (String × Outline)) : List String :=
  (flags kind fields).toOption.getD []

/-- Fields in an order, those without a form that are left out. -/
def ordered (order : List String) (shown : List (String × Option Form)) :
    List (String × Option Form) :=
  order.map fun name => (name, (shown.lookup name).join)

def named (slots : List (String × Option Form)) : List Form :=
  (present slots).map fun s => .field s.1 s.2

def nodeForm (kind : NodeKind) (lead : Lead) (fields : List (String × Outline))
    (shown : List (String × Option Form)) : Form :=
  match kind with
  | .typeName => .node "type-name" [.string ((nameText fields).toOption.getD "")]
  | .baseType => .node ((wordIn fields "kind").toOption.getD "") []
  | kind => .node kind.form.1
      (named (leadForms lead) ++ (flagWords kind fields).map .word ++
        named (ordered kind.form.2 shown))

mutual

def form : Outline → Form
  | .scalar (.str s) => .string s
  | .scalar s => .word (scalarText s)
  | .choice word => .word word
  | .notes ns => .list (ns.map fun n => .string n.text)
  | .list items => .list (itemsForm items)
  | .table entries => .list (entriesForm entries)
  | .node kind _ lead fields => nodeForm kind lead fields (fieldsShown fields)

def itemsForm : List Outline → List Form
  | [] => []
  | o :: os => o.form :: itemsForm os

def entriesForm : List (String × Outline) → List Form
  | [] => []
  | (key, o) :: os => .entry key o.form :: entriesForm os

/-- The forms of all fields but those that are left out. -/
def fieldsShown : List (String × Outline) → List (String × Option Form)
  | [] => []
  | (name, o) :: os => (name, if o.isOmitted then none else some o.form) :: fieldsShown os

end

variable {indent : Int}

theorem named_cons (name : String) (f : Option Form) (slots : List (String × Option Form)) :
    named ((name, f) :: slots) = (f.map (.field name)).toList ++ named slots := by
  cases f <;> rfl

theorem leadParts_lays (lead : Lead) :
    List.Forall₂ Lays (leadParts indent lead) (named (leadForms lead)) := by
  obtain ⟨comment, notes⟩ := lead
  have hnotes : List.Forall₂ Lays (leadParts indent ⟨none, notes⟩)
      (named (leadForms ⟨none, notes⟩)) := by
    cases notes with
    | nil => exact .nil
    | cons n ns =>
      refine .cons (@Lays.field _ "annotations" _ (Lays.list ?_)) .nil
      rw [List.forall₂_map_left_iff, List.forall₂_map_right_iff]
      exact List.forall₂_same.mpr fun note _ => Lays.string _
  cases comment with
  | none => exact hnotes
  | some c =>
    exact .cons (fun _ =>
      .joined (.cons (a := .field "comment") (by decide) rfl rfl (.text trivial rfl))) hnotes

/-- What a field is laid out as gives its form, and it is left out where it has none. -/
def FieldLays (laid : Option (Bool × Except TreeFault (List Doc))) (shown : Option (Option Form)) :
    Prop :=
  (laid = none ∧ shown = none) ∨ (∃ value, laid = some (true, value) ∧ shown = some none) ∨
    ∃ value f, laid = some (false, value) ∧ shown = some (some f) ∧ ∀ docs,
    value = .ok docs → Lays docs f

theorem chosen_lays {laid : List (String × Bool × Except TreeFault (List Doc))}
    {shown : List (String × Option Form)}
    (h : ∀ name, FieldLays (laid.lookup name) (shown.lookup name)) {order : List String}
    {values : List (List Doc)} (hv : chosen order laid = .ok values) :
    List.Forall₂ Lays values (named (ordered order shown)) := by
  induction order generalizing values with
  | nil =>
    cases hv
    exact .nil
  | cons name order ih =>
    rw [ordered, List.map_cons, named_cons]
    rw [chosen, List.filterMap_cons] at hv
    rcases h name with ⟨hlaid, hshown⟩ | ⟨value, hlaid, hshown⟩ | ⟨value, f, hlaid, hshown, hf⟩
    · rw [hlaid] at hv
      rw [hshown]
      exact ih hv
    · rw [hlaid] at hv
      rw [hshown]
      exact ih hv
    · rw [hlaid] at hv
      simp only [List.mapM_cons] at hv
      obtain ⟨first, hfirst, hv⟩ := of_bind_ok hv
      obtain ⟨rest, hrest, hv⟩ := of_bind_ok hv
      obtain ⟨docs, hdocs, hfirst⟩ := of_bind_ok hfirst
      cases hv
      cases hfirst
      rw [hshown]
      exact .cons (.field (hf docs hdocs)) (ih hrest)

/-- What a node is laid out as: a name and a base type on one line, others with their parts. -/
theorem formDocs_node {kind : NodeKind} {l : Option Span} {lead : Lead}
    {fields : List (String × Outline)}
    {docs : List Doc} (h : formDocs indent (.node kind l lead fields) = .ok docs) :
    (kind = .typeName ∧ ∃ s, nameText fields = .ok s ∧
      docs = [.text ("(type-name " ++ Spell.string s ++ ")")]) ∨
    (kind = .baseType ∧ ∃ word, wordIn fields "kind" = .ok word ∧ docs =
      [.text ("(" ++ word ++ ")")]) ∨
    (kind ≠ .typeName ∧ kind ≠ .baseType ∧ ∃ fs values, flags kind fields = .ok fs ∧
      chosen kind.form.2 (fieldForms indent fields) = .ok values ∧
      docs = [Doc.grouped [.text ("(" ++ kind.form.1), .indent indent (parts
        (leadParts indent lead ++ fs.map (fun flag => [.text flag]) ++ values)), .text ")"]]) := by
  have hform (label : String) (order : List String) (h : (do
      let flags ← flags kind fields
      let values ← chosen order (fieldForms indent fields)
      let inside := leadParts indent lead ++ flags.map (fun flag => [.text flag]) ++ values
      return [Doc.grouped [.text ("(" ++ label), .indent indent (parts inside), .text ")"]]) =
        Except.ok (ε := TreeFault) docs) :
      ∃ fs values, flags kind fields = .ok fs ∧
      chosen order (fieldForms indent fields) = .ok values ∧
        docs = [Doc.grouped [.text ("(" ++ label), .indent indent (parts
          (leadParts indent lead ++ fs.map (fun flag => [.text flag]) ++ values)), .text ")"]] := by
    obtain ⟨fs, hfs, h⟩ := of_bind_ok h
    obtain ⟨values, hvalues, h⟩ := of_bind_ok h
    cases h
    exact ⟨fs, values, hfs, hvalues, rfl⟩
  -- Only the label and the order of the fields differ from kind to kind.
  cases kind with
  | declaration => cases h
  | member => cases h
  | type => cases h
  | attributeMember => cases h
  | mixinMember => cases h
  | typeName =>
    obtain ⟨s, hs, h⟩ := of_bind_ok h
    cases h
    exact .inl ⟨rfl, s, hs, rfl⟩
  | baseType =>
    obtain ⟨word, hword, h⟩ := of_bind_ok h
    cases h
    exact .inr (.inl ⟨rfl, word, hword, rfl⟩)
  | _ => exact .inr (.inr ⟨by decide, by decide, hform _ _ h⟩)

theorem nodeForm_eq {kind : NodeKind} (h : kind ≠ .typeName) (h' : kind ≠ .baseType) (lead : Lead)
    (fields : List (String × Outline)) (shown : List (String × Option Form)) :
    nodeForm kind lead fields shown = .node kind.form.1
      (named (leadForms lead) ++ (flagWords kind fields).map .word ++
        named (ordered kind.form.2 shown)) := by
  cases kind with
  | typeName => exact absurd rfl h
  | baseType => exact absurd rfl h'
  | _ => rfl

mutual

/-- The document of a value gives the pieces of its form. -/
theorem formDocs_lays :
    (o : Outline) → {docs : List Doc} → formDocs indent o = .ok docs → Lays docs o.form
  | .scalar s, _, h => by
    cases h
    cases s with
    | str s => exact .string s
    | _ => exact .word _
  | .choice word, _, h => by
    cases h
    exact .word word
  | .notes ns, _, h => by
    cases h
    apply Lays.list
    rw [List.forall₂_map_left_iff, List.forall₂_map_right_iff]
    exact List.forall₂_same.mpr fun note _ => Lays.string _
  | .list items, _, h => by
    obtain ⟨docs, hdocs, h⟩ := of_bind_ok h
    cases h
    exact .list (itemForms_lays items hdocs)
  | .table entries, _, h => by
    obtain ⟨docs, hdocs, h⟩ := of_bind_ok h
    cases h
    exact .list (entryForms_lays entries hdocs)
  | .node kind l lead fields, docs, h => by
    rcases formDocs_node h with ⟨rfl, s, hs, rfl⟩ | ⟨rfl, word, hword, rfl⟩ |
      ⟨hname, hbase, fs, values, hfs, hvalues, rfl⟩
    · rw [form, nodeForm, hs]
      exact .name s
    · rw [form, nodeForm, hword]
      exact .base word
    · rw [form, nodeForm_eq hname hbase, flagWords, hfs]
      apply Lays.node
      have hflags : List.Forall₂ Lays (fs.map fun flag => [.text flag]) (fs.map .word) := by
        rw [List.forall₂_map_left_iff, List.forall₂_map_right_iff]
        exact List.forall₂_same.mpr fun flag _ => Lays.word flag
      have hchosen := chosen_lays (fieldForms_lays fields) hvalues
      exact List.rel_append (List.rel_append (leadParts_lays lead) hflags) hchosen

theorem itemForms_lays : (os : List Outline) → {items : List (List Doc)} →
    itemForms indent os = .ok items → List.Forall₂ Lays items (itemsForm os)
  | [], _, h => by
    cases h
    exact .nil
  | o :: os, _, h => by
    obtain ⟨first, hfirst, h⟩ := of_bind_ok h
    obtain ⟨rest, hrest, h⟩ := of_bind_ok h
    cases h
    exact .cons (formDocs_lays o hfirst) (itemForms_lays os hrest)

theorem entryForms_lays : (entries : List (String × Outline)) → {items : List (List Doc)} →
    entryForms indent entries = .ok items → List.Forall₂ Lays items (entriesForm entries)
  | [], _, h => by
    cases h
    exact .nil
  | (key, o) :: entries, _, h => by
    obtain ⟨first, hfirst, h⟩ := of_bind_ok h
    obtain ⟨rest, hrest, h⟩ := of_bind_ok h
    cases h
    exact .cons (.entry (formDocs_lays o hfirst)) (entryForms_lays entries hrest)

theorem fieldForms_lays : (fields : List (String × Outline)) → ∀ name,
    FieldLays ((fieldForms indent fields).lookup name) ((fieldsShown fields).lookup name)
  | [], _ => .inl ⟨rfl, rfl⟩
  | (field, o) :: fields, name => by
    rw [fieldForms, fieldsShown, List.lookup_cons, List.lookup_cons]
    cases name == field with
    | false => exact fieldForms_lays fields name
    | true =>
      cases o.isOmitted with
      | true => exact .inr (.inl ⟨_, rfl, rfl⟩)
      | false => exact .inr (.inr ⟨_, _, rfl, rfl, fun docs h => formDocs_lays o h⟩)

end

/-- The text of an outline is cut into the pieces of its form. -/
theorem cut_formText {width : Int} {o : Outline} {text : String}
    (h : formText indent width o = .ok text) (hs : o.form.Sound) :
    cut .outside [] text.toList = o.form.atoms.map Atom.text := by
  obtain ⟨docs, hdocs, rfl⟩ : ∃ docs, formDocs indent o = .ok docs ∧
      text = (Doc.grouped (docs ++ [Doc.hardBreak])).render width := by
    unfold formText at h
    cases hnode : o.isNode with
    | false =>
      rw [hnode] at h
      cases h
    | true =>
      rw [hnode] at h
      obtain ⟨docs, hdocs, h⟩ := of_bind_ok h
      cases h
      exact ⟨docs, hdocs, rfl⟩
  obtain ⟨ss, hss, htext⟩ := Doc.render_lays width (Doc.grouped (docs ++ [Doc.hardBreak]))
  rw [htext]
  cases hss with
  | group hinner hnil =>
    cases hnil
    obtain ⟨us, vs, rfl, hus, hvs⟩ := hinner.split
    cases hvs with
    | newline hnil =>
      cases hnil
      have hlast := (formDocs_lays o hdocs hs).cut hus _ (parted_newline 0 [])
      rw [cut_newline] at hlast
      rw [List.append_nil]
      exact hlast.trans (List.append_nil _)

/-- Texts of outlines are equal only if their forms are, whatever the widths and indentations. -/
theorem form_of_formText {indent' width width' : Int} {o p : Outline} {text : String}
    (h : formText indent width o = .ok text) (h' : formText indent' width' p = .ok text)
    (hs : o.form.Sound) (hs' : p.form.Sound) : o.form = p.form := by
  have hatoms := Atom.map_text_injective hs hs'
    ((cut_formText h hs).symm.trans (cut_formText h' hs'))
  exact (Form.atoms_injective o.form p.form (congrArg (· ++ []) hatoms)).1

end RubySig.Outline
