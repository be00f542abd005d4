import Mathlib.Data.List.Nodup
import Mathlib.Data.List.Perm.Basic
import Mathlib.Data.List.Sort
import RubySig.Data.Json
import RubySig.Outline.Data
import RubySig.Proofs.Tree.Settled

/-!
What the data of a value tell. The data of two nodes are equal, with or without the order of
entries, only if the nodes have one kind, the same texts above them and fields whose data are equal
in turn.
-/
namespace RubySig

/-- A key as it is written in an object. -/
def Scalar.keyText : Scalar → String
  | .str s => s
  | s => Json.scalar s

mutual

/-- Data with the entries of each dictionary arranged. -/
def Datum.arranged (order : EntryOrder) : Datum → Datum
  | .scalar s => .scalar s
  | .list items => .list (arrangedItems order items)
  | .dict entries => .dict (order.arrange Scalar.keyText (arrangedEntries order entries))

def Datum.arrangedItems (order : EntryOrder) : List Datum → List Datum
  | [] => []
  | d :: ds => d.arranged order :: arrangedItems order ds

def Datum.arrangedEntries (order : EntryOrder) : List (Scalar × Datum) → List (Scalar × Datum)
  | [] => []
  | (k, d) :: es => (k, d.arranged order) :: arrangedEntries order es

end

def Datum.entry (e : String × Datum) : Scalar × Datum := (.str e.1, e.2)

@[simp] theorem Datum.str_inj {s t : String} : Datum.str s = Datum.str t ↔ s = t := by
  simp [Datum.str]

@[simp] theorem Datum.bool_inj {a b : Bool} : Datum.bool a = Datum.bool b ↔ a = b := by
  simp [Datum.bool]

@[simp] theorem Datum.int_inj {m n : Int} : Datum.int m = Datum.int n ↔ m = n := by
  simp [Datum.int]

theorem Datum.arrangedItems_str (texts : List String) (order : EntryOrder) :
    arrangedItems order (texts.map .str) = texts.map .str := by
  induction texts with
  | nil => rfl
  | cons s texts ih => rw [List.map_cons, arrangedItems, ih]; rfl

theorem Datum.entry_injective : Function.Injective Datum.entry := by
  rintro ⟨k, d⟩ ⟨k', d'⟩ h
  simp only [entry, Prod.mk.injEq, Scalar.str.injEq] at h
  exact Prod.ext h.1 h.2

theorem Datum.arrangedEntries_append (order : EntryOrder) (xs ys : List (Scalar × Datum)) :
    arrangedEntries order (xs ++ ys) = arrangedEntries order xs ++ arrangedEntries order ys := by
  induction xs with
  | nil => rfl
  | cons x xs ih =>
    obtain ⟨k, d⟩ := x
    rw [List.cons_append, arrangedEntries, ih, arrangedEntries, List.cons_append]

def present {α : Type} (slots : List (String × Option α)) : List (String × α) :=
  slots.filterMap fun s => s.2.map (s.1, ·)

theorem mem_present {α : Type} {slots : List (String × Option α)} {k : String} {a : α} :
    (k, a) ∈ present slots ↔ (k, some a) ∈ slots := by
  simp only [present, List.mem_filterMap, Option.map_eq_some_iff, Prod.mk.injEq]
  constructor
  · rintro ⟨⟨k', a'⟩, hs, b, rfl, rfl, rfl⟩
    exact hs
  · intro h
    exact ⟨_, h, a, rfl, rfl, rfl⟩

theorem present_cons {α : Type} (k : String) (a : Option α) (slots : List (String × Option α)) :
    present ((k, a) :: slots) = (a.map (k, ·)).toList ++ present slots := by
  cases a <;> rfl

theorem present_append {α : Type} (xs ys : List (String × Option α)) :
    present (xs ++ ys) = present xs ++ present ys :=
  List.filterMap_append ..

/-- Two lists of slots with the same keys are equal when the same entries are there. -/
theorem slots_eq {α : Type} {xs ys : List (String × Option α)}
    (hkeys : xs.map (·.1) = ys.map (·.1)) (hnodup : (xs.map (·.1)).Nodup)
    (h : (present xs).Perm (present ys)) : xs = ys := by
  induction xs generalizing ys with
  | nil => exact (List.map_eq_nil_iff.mp hkeys.symm).symm
  | cons x xs ih =>
    obtain _ | ⟨y, ys⟩ := ys
    · cases hkeys
    obtain ⟨k, a⟩ := x
    obtain ⟨k', b⟩ := y
    simp only [List.map_cons, List.cons.injEq] at hkeys
    obtain ⟨rfl, hkeys⟩ := hkeys
    obtain ⟨hfresh, hnodup⟩ := List.nodup_cons.mp hnodup
    have fresh {zs : List (String × Option α)} (hz : xs.map (·.1) = zs.map (·.1)) (d : Option α) :
        (k, d) ∉ zs := fun hd => hfresh (hz ▸ List.mem_map.mpr ⟨_, hd, rfl⟩)
    have hab : a = b := by
      apply Option.ext
      intro d
      have hmem : (k, some d) ∈ (k, a) :: xs ↔ (k, some d) ∈ (k, b) :: ys := by
        rw [← mem_present, ← mem_present]
        exact h.mem_iff
      simpa [fresh rfl, fresh hkeys, eq_comm] using hmem
    subst hab
    rw [present_cons, present_cons] at h
    rw [ih hkeys hnodup (List.perm_append_left_iff _ |>.mp h)]

namespace Outline

/-- The slots for what is written above a node, in kinds that can have something there. -/
def leadSlots (kind : NodeKind) (lead : Lead) : List (String × Option Datum) :=
  if kind.isDecorated || lead.comment.isSome || !lead.notes.isEmpty then
    [("comment", lead.comment.map fun c => .str c.text),
      ("annotations", if lead.notes.isEmpty then none else some (noteTexts lead.notes))]
  else []

def fullNameSlots (kind : NodeKind) (fields : List (String × Outline)) :
    List (String × Option Datum) :=
  if kind == .typeName then [("full_name", (nameText fields).toOption.map .str)] else []

section Data

variable (order : EntryOrder)

mutual

/-- The data of a value without places, its dictionaries arranged. -/
def data : Outline → Datum
  | .scalar s => .scalar s
  | .choice word => .str word
  | .notes ns => noteTexts ns
  | .list items => .list (itemsData items)
  | .table entries => .dict (order.arrange Scalar.keyText ((entriesData entries).map Datum.entry))
  | .node kind _ lead fields =>
    .dict (order.arrange Scalar.keyText ((present (("type", some (.str kind.name)) ::
      leadSlots kind lead ++ fieldSlots fields ++ fullNameSlots kind fields)).map Datum.entry))

def itemsData : List Outline → List Datum
  | [] => []
  | o :: os => data o :: itemsData os

def entriesData : List (String × Outline) → List (String × Datum)
  | [] => []
  | (key, o) :: os => (key, data o) :: entriesData os

def fieldSlots : List (String × Outline) → List (String × Option Datum)
  | [] => []
  | (name, o) :: os =>
    (fieldKey name, if isAbsent name o then none else some (data o)) :: fieldSlots os

end

/-- What data hold of a field. -/
def slot (name : String) (o : Outline) : Option Datum :=
  if isAbsent name o then none else some (data order o)

@[simp] theorem fieldSlots_cons (name : String) (o : Outline) (os : List (String × Outline)) :
    fieldSlots order ((name, o) :: os) =
      (fieldKey name, slot order name o) :: fieldSlots order os :=
  rfl

theorem slot_node {o : Outline} (h : o.isNode = true) (name : String) :
    slot order name o = some (data order o) := by
  cases o with
  | node kind l lead fields => simp [slot, isAbsent, isEmpty]
  | _ => cases h

@[simp] theorem slot_list {name : String} (h : name ≠ "annotations") (os : List Outline) :
    slot order name (.list os) = some (data order (.list os)) := by
  simp [slot, isAbsent, h]

@[simp] theorem slot_table {name : String} (h : name ≠ "annotations")
    (es : List (String × Outline)) :
    slot order name (.table es) = some (data order (.table es)) := by
  simp [slot, isAbsent, h]

@[simp] theorem slot_str {name : String} (h : name ≠ "annotations") (s : String) :
    slot order name (.str s) = some (.str s) := by
  simp [slot, isAbsent, h, str, data, Datum.str]

@[simp] theorem slot_bool {name : String} (h : name ≠ "annotations") (b : Bool) :
    slot order name (.bool b) = some (.bool b) := by
  simp [slot, isAbsent, h, bool, data, Datum.bool]

@[simp] theorem slot_choice {name : String} (h : name ≠ "annotations") (word : String) :
    slot order name (.choice word) = some (.str word) := by
  simp [slot, isAbsent, h, data]

@[simp] theorem slot_null (name : String) : slot order name .null = none := rfl

@[simp] theorem slot_int {name : String} (h : name ≠ "annotations") (n : Int) :
    slot order name (.scalar (.int n)) = some (.int n) := by
  simp [slot, isAbsent, h, data, Datum.int]

theorem itemsData_eq_map (os : List Outline) : itemsData order os = os.map (data order) := by
  induction os with
  | nil => rfl
  | cons o os ih => rw [itemsData, ih, List.map_cons]

theorem entriesData_eq_map (es : List (String × Outline)) :
    entriesData order es = es.map fun e => (e.1, data order e.2) := by
  induction es with
  | nil => rfl
  | cons e es ih => rw [entriesData, ih, List.map_cons]

theorem map_fieldSlots (fields : List (String × Outline)) :
    (fieldSlots order fields).map (·.1) = fields.map fun f => fieldKey f.1 := by
  induction fields with
  | nil => rfl
  | cons f fields ih => rw [fieldSlots, List.map_cons, ih, List.map_cons]

theorem present_leadSlots (kind : NodeKind) (lead : Lead) :
    present (leadSlots kind lead) = leadEntries lead := by
  obtain ⟨comment, notes⟩ := lead
  unfold leadSlots leadEntries
  cases comment <;> cases notes <;> cases kind.isDecorated <;> rfl

theorem arranged_noteTexts (notes : List Note) :
    (noteTexts notes).arranged order = noteTexts notes := by
  have h : notes.map (fun n => Datum.str n.text) = (notes.map (·.text)).map .str := by simp
  rw [noteTexts, Datum.arranged, h, Datum.arrangedItems_str]

theorem arranged_leadEntries (lead : Lead) :
    Datum.arrangedEntries order ((leadEntries lead).map Datum.entry) =
      (leadEntries lead).map Datum.entry := by
  obtain ⟨comment, notes⟩ := lead
  cases comment <;> cases notes <;>
    simp [leadEntries, Datum.arrangedEntries, Datum.entry, arranged_noteTexts,
      Datum.arranged, Datum.str]

theorem fullNameSlots_eq {kind : NodeKind} {fields : List (String × Outline)}
    {entries : List (String × Datum)} (h : fullNameEntry kind fields = .ok entries) :
    present (fullNameSlots kind fields) = entries ∧
      Datum.arrangedEntries order (entries.map Datum.entry) = entries.map Datum.entry := by
  unfold fullNameEntry at h
  unfold fullNameSlots
  split at h
  case isTrue hk =>
    rw [if_pos hk]
    cases hn : nameText fields with
    | error e =>
      rw [hn] at h
      cases h
    | ok s =>
      rw [hn] at h
      cases h
      exact ⟨rfl, rfl⟩
  case isFalse hk =>
    rw [if_neg hk]
    cases h
    exact ⟨rfl, rfl⟩

theorem of_bind_ok {α β : Type} {x : Except TreeFault α} {f : α → Except TreeFault β} {b : β}
    (h : x >>= f = .ok b) : ∃ a, x = .ok a ∧ f a = .ok b := by
  cases x with
  | error e => cases h
  | ok a => exact ⟨a, rfl, h⟩

mutual

/-- The data of a value, arranged, are its data without failures. -/
theorem arranged_datum : (o : Outline) → {d : Datum} → datum false o = .ok d →
    d.arranged order = data order o
  | .scalar s, _, h => by cases h; rfl
  | .choice word, _, h => by cases h; rfl
  | .notes ns, _, h => by cases h; exact arranged_noteTexts order ns
  | .list items, d, h => by
    rw [datum] at h
    obtain ⟨ds, hds, h⟩ := of_bind_ok h
    cases h
    rw [Datum.arranged, arranged_items items hds, data]
  | .table entries, d, h => by
    rw [datum] at h
    obtain ⟨es, hes, h⟩ := of_bind_ok h
    cases h
    rw [Datum.record, Datum.arranged, data]
    exact congrArg _ (congrArg _ (arranged_entries entries hes))
  | .node kind l lead fields, d, h => by
    rw [datum] at h
    split at h
    · cases h
    obtain ⟨own, hown, h⟩ := of_bind_ok h
    obtain ⟨full, hfull, h⟩ := of_bind_ok h
    cases h
    obtain ⟨hslots, harranged⟩ := fullNameSlots_eq order hfull
    rw [Datum.record, Datum.arranged, data]
    refine congrArg _ (congrArg _ ?_)
    change Datum.arrangedEntries order
      (((("type", Datum.str kind.name) :: leadEntries lead) ++ own ++
      full).map Datum.entry) = _
    rw [List.map_append, List.map_append, Datum.arrangedEntries_append,
      Datum.arrangedEntries_append,
      harranged, arranged_fields fields hown, List.map_cons, Datum.entry, Datum.arrangedEntries,
      arranged_leadEntries, present_append, present_append, present_cons, present_leadSlots, hslots]
    simp [Datum.arranged, Datum.str, Datum.entry]

theorem arranged_items : (os : List Outline) → {ds : List Datum} → itemData false os = .ok ds →
    Datum.arrangedItems order ds = itemsData order os
  | [], _, h => by cases h; rfl
  | o :: os, _, h => by
    rw [itemData] at h
    obtain ⟨d, hd, h⟩ := of_bind_ok h
    obtain ⟨ds, hds, h⟩ := of_bind_ok h
    cases h
    rw [Datum.arrangedItems, arranged_datum o hd, arranged_items os hds, itemsData]

theorem arranged_entries : (es : List (String × Outline)) → {ds : List (String × Datum)} →
    entryData false es = .ok ds →
    Datum.arrangedEntries order (ds.map Datum.entry) = (entriesData order es).map Datum.entry
  | [], _, h => by cases h; rfl
  | (key, o) :: es, _, h => by
    rw [entryData] at h
    obtain ⟨d, hd, h⟩ := of_bind_ok h
    obtain ⟨ds, hds, h⟩ := of_bind_ok h
    cases h
    rw [List.map_cons, Datum.entry, Datum.arrangedEntries, arranged_datum o hd,
      arranged_entries es hds, entriesData, List.map_cons, Datum.entry]

theorem arranged_fields : (fields : List (String × Outline)) → {ds : List (String × Datum)} →
    fieldData false fields = .ok ds →
    Datum.arrangedEntries order (ds.map Datum.entry) =
      (present (fieldSlots order fields)).map Datum.entry
  | [], _, h => by cases h; rfl
  | (name, o) :: fields, _, h => by
    rw [fieldData] at h
    split at h
    case isTrue ha =>
      rw [fieldSlots, if_pos ha, present_cons]
      exact arranged_fields fields h
    case isFalse ha =>
      obtain ⟨d, hd, h⟩ := of_bind_ok h
      obtain ⟨ds, hds, h⟩ := of_bind_ok h
      cases h
      rw [fieldSlots, if_neg ha, present_cons, List.map_append, ← arranged_fields fields hds,
        List.map_cons, Datum.entry, Datum.arrangedEntries, arranged_datum o hd]
      rfl

end

end Data

/-- The fields of a node are those of its kind, and something stands above it only where its kind
allows that. -/
structure Formal (kind : NodeKind) (lead : Lead) (fields : List (String × Outline)) : Prop where
  names : fields.map (·.1) = kind.fields.map (·.1)
  lead : kind.isDecorated = true ∨ lead = .none

end Outline

/-- The keys that the data of a node can have. -/
def NodeKind.keys (kind : NodeKind) : List String :=
  "type" :: (if kind.isDecorated then ["comment", "annotations"] else []) ++
    kind.fields.map (fun f => Outline.fieldKey f.1) ++
    if kind == .typeName then ["full_name"] else []

theorem NodeKind.keys_nodup (kind : NodeKind) : kind.keys.Nodup := by
  cases kind <;> decide

theorem NodeKind.name_injective {k k' : NodeKind} (h : k.name = k'.name) : k = k' := by
  have hof : ∀ k : NodeKind, ofName? k.name = some k := by
    intro k
    cases k <;> decide
  have := hof k
  rw [h, hof k'] at this
  exact (Option.some.inj this).symm

namespace Outline

variable {order : EntryOrder} {kind kind' : NodeKind} {l l' : Option Span} {lead lead' : Lead}
  {fields fields' : List (String × Outline)}

def nodeSlots (order : EntryOrder) (kind : NodeKind) (lead : Lead)
    (fields : List (String × Outline)) :
    List (String × Option Datum) :=
  ("type", some (.str kind.name)) :: leadSlots kind lead ++ fieldSlots order fields ++
    fullNameSlots kind fields

theorem Formal.leadKeys (h : Formal kind lead fields) : (leadSlots kind lead).map (·.1) =
    if kind.isDecorated then ["comment", "annotations"] else [] := by
  unfold leadSlots
  rcases h.lead with hd | rfl
  · simp [hd]
  · cases kind.isDecorated <;> rfl

theorem Formal.fieldKeys (h : Formal kind lead fields) :
    (fieldSlots order fields).map (·.1) = kind.fields.map fun f => fieldKey f.1 := by
  have hnames := congrArg (List.map fieldKey) h.names
  rw [List.map_map, List.map_map] at hnames
  rw [map_fieldSlots]
  exact hnames

theorem Formal.keys (h : Formal kind lead fields) :
    (nodeSlots order kind lead fields).map (·.1) = kind.keys := by
  have hfull : (fullNameSlots kind fields).map (·.1) =
      if kind == .typeName then ["full_name"] else [] := by
    unfold fullNameSlots
    cases kind == .typeName <;> rfl
  rw [nodeSlots, List.map_append, List.map_append, List.map_cons, h.leadKeys, h.fieldKeys, hfull,
    NodeKind.keys]

/-- Nodes with the same data have the same slots. -/
theorem nodeSlots_eq
    (h : data order (.node kind l lead fields) = data order (.node kind' l' lead' fields'))
    (hf : Formal kind lead fields) (hf' : Formal kind' lead' fields') :
    kind = kind' ∧ nodeSlots order kind lead fields = nodeSlots order kind' lead' fields' := by
  have hperm : (present (nodeSlots order kind lead fields)).Perm
      (present (nodeSlots order kind' lead' fields')) := by
    rw [← List.map_perm_map_iff Datum.entry_injective]
    have hdict : order.arrange Scalar.keyText
        ((present (nodeSlots order kind lead fields)).map Datum.entry) =
        order.arrange Scalar.keyText
          ((present (nodeSlots order kind' lead' fields')).map Datum.entry) := by
      rw [data, data] at h
      exact Datum.dict.inj h
    exact ((order.arrange_perm _ _).symm.trans (.of_eq hdict)).trans (order.arrange_perm _ _)
  have hkind : kind = kind' := by
    have hmem : ("type", Datum.str kind.name) ∈ present (nodeSlots order kind' lead' fields') :=
      hperm.subset (mem_present.mpr (by simp [nodeSlots]))
    have hnodup : ((nodeSlots order kind' lead' fields').map (·.1)).Nodup := by
      rw [hf'.keys]
      exact kind'.keys_nodup
    rw [nodeSlots, List.cons_append, List.cons_append, List.map_cons, List.nodup_cons] at hnodup
    rw [mem_present, nodeSlots, List.cons_append, List.cons_append, List.mem_cons] at hmem
    rcases hmem with hmem | hmem
    · simp only [Prod.mk.injEq, Option.some.injEq, Datum.str, Datum.scalar.injEq,
        Scalar.str.injEq] at hmem
      exact NodeKind.name_injective hmem.2
    · exact absurd (List.mem_map.mpr ⟨_, hmem, rfl⟩) hnodup.1
  subst hkind
  refine ⟨rfl, slots_eq (hf.keys.trans hf'.keys.symm) ?_ hperm⟩
  rw [hf.keys]
  exact kind.keys_nodup

theorem map_bare_of_noteTexts {ns ms : List Note} (h : noteTexts ns = noteTexts ms) :
    ns.map Note.bare = ms.map Note.bare := by
  have htexts : ns.map (·.text) = ms.map (·.text) := by
    have hstr : Function.Injective Datum.str := by
      intro s t hst
      exact Scalar.str.inj (Datum.scalar.inj hst)
    apply List.map_injective_iff.mpr hstr
    rw [List.map_map, List.map_map]
    exact Datum.list.inj h
  have hbare : ∀ ns : List Note, ns.map Note.bare = (ns.map (·.text)).map fun s => ⟨s, none⟩ := by
    intro ns
    rw [List.map_map]
    rfl
  rw [hbare, hbare, htexts]

theorem unplaced_of_leadSlots (h : leadSlots kind lead = leadSlots kind lead')
    (hf : kind.isDecorated = true ∨ lead = .none) (hf' : kind.isDecorated = true ∨ lead' = .none) :
    lead.unplaced = lead'.unplaced := by
  cases hd : kind.isDecorated with
  | false =>
    rw [hd] at hf hf'
    obtain rfl := hf.resolve_left Bool.false_ne_true
    obtain rfl := hf'.resolve_left Bool.false_ne_true
    rfl
  | true =>
    obtain ⟨comment, notes⟩ := lead
    obtain ⟨comment', notes'⟩ := lead'
    simp only [leadSlots, hd, Bool.true_or, if_true, List.cons.injEq, Prod.mk.injEq,
      true_and, and_true] at h
    obtain ⟨hcomment, hnotes⟩ := h
    have hnotes : notes.map Note.bare = notes'.map Note.bare := by
      cases notes with
      | nil =>
        cases notes' with
        | nil => rfl
        | cons n ns => cases hnotes
      | cons n ns =>
        cases notes' with
        | nil => cases hnotes
        | cons m ms => exact map_bare_of_noteTexts (Option.some.inj hnotes)
    have hcomment : comment.map (fun c => { c with location := none }) =
        comment'.map fun c => { c with location := none } := by
      cases comment with
      | none =>
        cases comment' with
        | none => rfl
        | some c => cases hcomment
      | some c =>
        cases comment' with
        | none => cases hcomment
        | some c' =>
          have htext : c.text = c'.text :=
            Scalar.str.inj (Datum.scalar.inj (Option.some.inj hcomment))
          exact congrArg (fun s => some (Comment.mk s none)) htext
    rw [Lead.unplaced, Lead.unplaced, hcomment, hnotes]

/-- The data of nodes tell their kinds, the texts above them and the data of their fields. -/
theorem node_eq
    (h : data order (.node kind l lead fields) = data order (.node kind' l' lead' fields'))
    (hf : Formal kind lead fields) (hf' : Formal kind' lead' fields') :
    kind = kind' ∧ lead.unplaced = lead'.unplaced ∧
      fieldSlots order fields = fieldSlots order fields' := by
  obtain ⟨rfl, hslots⟩ := nodeSlots_eq h hf hf'
  have hlead : (leadSlots kind lead).length = (leadSlots kind lead').length := by
    have hkeys := congrArg List.length (hf.leadKeys.trans hf'.leadKeys.symm)
    rwa [List.length_map, List.length_map] at hkeys
  have hfields : (fieldSlots order fields).length = (fieldSlots order fields').length := by
    have hkeys : (fieldSlots order fields).map (·.1) = (fieldSlots order fields').map (·.1) :=
      hf.fieldKeys.trans hf'.fieldKeys.symm
    simpa only [List.length_map] using congrArg List.length hkeys
  rw [nodeSlots, nodeSlots, List.append_assoc, List.append_assoc] at hslots
  obtain ⟨hleads, hrest⟩ := List.append_inj hslots (by simpa using hlead)
  obtain ⟨hslots, -⟩ := List.append_inj hrest hfields
  exact ⟨rfl, unplaced_of_leadSlots (List.cons.inj hleads).2 hf.lead hf'.lead, hslots⟩

end Outline
end RubySig
