import Mathlib
import RubySig.Proofs.Outline.FormFlags

/-!
What the form of an outline tells. A label and the list that a node stands in tell its kind, the
flags tell the fields that the order of the kind leaves out, and the parts behind them all the
others: outlines of equal forms have equal data.
-/
namespace RubySig

open Outline

namespace NodeKind

/-- The kind of a label, where declarations and members are listed or elsewhere. -/
def ofLabel? (item : Bool) (label : String) : Option NodeKind :=
  all.find? fun kind =>
    !kind.isAbstract && kind != .baseType && kind.isDecorated == item && kind.label == label

theorem ofLabel_label {kind : NodeKind} (h : kind.isAbstract = false) (hb : kind ≠ .baseType) :
    ofLabel? kind.isDecorated kind.label = some kind := by
  revert h hb
  cases kind <;> decide

/-- No label is the word of a base type where base types can stand. -/
theorem label_not_base {kind : NodeKind} (h : kind.isAbstract = false) (hb : kind ≠ .baseType)
    (hd : kind.isDecorated = false) : kind.label ∉ "" :: Vocabulary.base.words := by
  revert h hb hd
  cases kind <;> decide

theorem order_nodup (kind : NodeKind) : kind.form.2.Nodup := by
  cases kind <;> decide

theorem order_apart {kind : NodeKind} (h : kind.isDecorated = true) :
    ∀ name ∈ ["comment", "annotations"], name ∉ kind.form.2 := by
  revert h
  cases kind <;> decide

end NodeKind

namespace Outline

variable {item : Bool} {kind kind' : NodeKind} {lead lead' : Lead}
  {fields fields' : List (String × Outline)}

def flag? : Form → Option String
  | .word s => some s
  | _ => none

def named? : Form → Option (String × Form)
  | .field name value => some (name, value)
  | _ => none

theorem filterMap_flag (xs ys : List (String × Option Form)) (words : List String) :
    (named xs ++ words.map Form.word ++ named ys).filterMap flag? = words := by
  have hnamed (zs : List (String × Option Form)) : (named zs).filterMap flag? = [] := by
    rw [named, List.filterMap_map]
    exact List.filterMap_eq_nil_iff.mpr fun _ _ => rfl
  have hwords : (words.map Form.word).filterMap flag? = words := by
    rw [List.filterMap_map]
    exact List.filterMap_some
  rw [List.filterMap_append, List.filterMap_append, hnamed, hnamed, hwords, List.nil_append,
    List.append_nil]

theorem filterMap_named (xs ys : List (String × Option Form)) (words : List String) :
    (named xs ++ words.map Form.word ++ named ys).filterMap named? = present (xs ++ ys) := by
  have hnamed (zs : List (String × Option Form)) : (named zs).filterMap named? = present zs := by
    rw [named, List.filterMap_map]
    exact List.filterMap_some
  have hwords : (words.map Form.word).filterMap named? = [] := by
    rw [List.filterMap_map]
    exact List.filterMap_eq_nil_iff.mpr fun _ _ => rfl
  rw [List.filterMap_append, List.filterMap_append, hnamed, hnamed, hwords, List.append_nil,
    present_append]

theorem map_ordered (order : List String) (shown : List (String × Option Form)) :
    (ordered order shown).map (·.1) = order := by
  rw [ordered, List.map_map]
  exact List.map_id order

/-- The parts of a form tell what stands above a node, its flags and its fields. -/
theorem parts_told {shown shown' : List (String × Option Form)} (h : NodeFits item kind lead fields)
    (h' : NodeFits item kind lead' fields') (hname : kind ≠ .typeName) (hbase : kind ≠ .baseType)
    (hform : nodeForm kind lead fields shown = nodeForm kind lead' fields' shown') :
    leadForms lead = leadForms lead' ∧ flagWords kind fields = flagWords kind fields' ∧
      ordered kind.form.2 shown = ordered kind.form.2 shown' := by
  rw [nodeForm_eq hname hbase, nodeForm_eq hname hbase] at hform
  have hparts := (Form.node.inj hform).2
  have hflags := congrArg (List.filterMap flag?) hparts
  rw [filterMap_flag, filterMap_flag] at hflags
  have hfields := congrArg (List.filterMap named?) hparts
  rw [filterMap_named, filterMap_named] at hfields
  cases hd : kind.isDecorated with
  | true =>
    have hkeys (lead : Lead) (shown : List (String × Option Form)) :
        (leadForms lead ++ ordered kind.form.2 shown).map (·.1) =
          ["comment", "annotations"] ++ kind.form.2 := by
      rw [List.map_append, map_ordered]
      rfl
    have hnodup : (["comment", "annotations"] ++ kind.form.2).Nodup := by
      refine List.nodup_append.mpr ⟨by decide, kind.order_nodup, ?_⟩
      intro name hmem name' hmem'
      exact fun heq => kind.order_apart hd name hmem (heq ▸ hmem')
    have hslots := slots_eq ((hkeys lead shown).trans (hkeys lead' shown').symm)
      (hkeys lead shown ▸ hnodup) (.of_eq hfields)
    obtain ⟨hleads, hshown⟩ := List.append_inj hslots rfl
    exact ⟨hleads, hflags, hshown⟩
  | false =>
    have hitem : item = false := h.place.symm.trans hd
    subst hitem
    obtain rfl := h.lead.resolve_left Bool.false_ne_true
    obtain rfl := h'.lead.resolve_left Bool.false_ne_true
    refine ⟨rfl, hflags, slots_eq ?_ ?_ (.of_eq hfields)⟩
    · rw [map_ordered, map_ordered]
    · rw [map_ordered]
      exact kind.order_nodup

theorem texts_of_strings {α : Type} {f : α → String} {as bs : List α}
    (h : Form.list (as.map fun a => .string (f a)) = .list (bs.map fun b => .string (f b))) :
    as.map f = bs.map f := by
  have hstrings : ∀ cs : List α, cs.map (fun c => Form.string (f c)) = (cs.map f).map .string := by
    intro cs
    rw [List.map_map]
    rfl
  have hlist := Form.list.inj h
  rw [hstrings, hstrings] at hlist
  exact List.map_injective_iff.mpr (fun _ _ => Form.string.inj) hlist

theorem leadSlots_told (h : leadForms lead = leadForms lead') :
    leadSlots kind lead = leadSlots kind lead' := by
  obtain ⟨comment, notes⟩ := lead
  obtain ⟨comment', notes'⟩ := lead'
  simp only [leadForms, List.cons.injEq, Prod.mk.injEq, true_and, and_true] at h
  obtain ⟨hcomment, hnotes⟩ := h
  have hcomment : comment.map (·.text) = comment'.map (·.text) := by
    cases comment <;> cases comment' <;> simp_all
  have hnotes : notes.map (·.text) = notes'.map (·.text) := by
    cases notes with
    | nil =>
      cases notes' with
      | nil => rfl
      | cons n ns => cases hnotes
    | cons n ns =>
      cases notes' with
      | nil => cases hnotes
      | cons m ms =>
        have hspelled := texts_of_strings (f := fun n : Note => Spell.string n.text)
          (Option.some.inj hnotes)
        have hmap (ns : List Note) :
            ns.map (fun n => Spell.string n.text) = (ns.map (·.text)).map Spell.string := by
          rw [List.map_map]
          rfl
        rw [hmap, hmap] at hspelled
        exact List.map_injective_iff.mpr (fun _ _ => Spell.string_injective) hspelled
  -- What data hold of a comment and of annotations are their texts.
  have htexts (comment : Option Comment) (notes : List Note) : leadSlots kind ⟨comment, notes⟩ =
      if kind.isDecorated || (comment.map (·.text)).isSome || !(notes.map (·.text)).isEmpty then
        [("comment", (comment.map (·.text)).map .str),
          ("annotations", if (notes.map (·.text)).isEmpty then none
            else some (.list ((notes.map (·.text)).map .str)))]
      else [] := by
    simp [leadSlots, noteTexts, Function.comp_def]
  rw [htexts, htexts, hcomment, hnotes]

/-- Labels tell the kinds of nodes that can stand in one place. -/
theorem kind_told (h : NodeFits item kind lead fields) (h' : NodeFits item kind' lead' fields')
    (hlabel : nodeLabel kind fields = nodeLabel kind' fields') : kind = kind' := by
  by_cases hb : kind = .baseType
  · subst hb
    by_contra hne
    have hword := h.label_word
    rw [hlabel, nodeLabel, if_neg (Ne.symm hne)] at hword
    exact NodeKind.label_not_base h'.concrete (Ne.symm hne) (h'.place.trans h.place.symm) hword
  · by_cases hb' : kind' = .baseType
    · subst hb'
      have hword := h'.label_word
      rw [← hlabel, nodeLabel, if_neg hb] at hword
      exact absurd hword (NodeKind.label_not_base h.concrete hb (h.place.trans h'.place.symm))
    · rw [nodeLabel, if_neg hb, nodeLabel, if_neg hb'] at hlabel
      have hkind := NodeKind.ofLabel_label h.concrete hb
      rw [hlabel, h.place.trans h'.place.symm, NodeKind.ofLabel_label h'.concrete hb'] at hkind
      exact (Option.some.inj hkind).symm

variable {order : EntryOrder} {s : Slot}

/-- No integer is written as a truth value is. -/
theorem int_ne_bool (n : Int) (b : Bool) : toString n ≠ if b then "true" else "false" := by
  intro h
  have hlist : Format.signOf n ++ Nat.toDigits 10 n.natAbs =
      (if b then "true" else "false").toList := by
    rw [← Format.toString_digits, h]
  have hmem : (if b then 'u' else 'a') ∈ Format.signOf n ++ Nat.toDigits 10 n.natAbs := by
    rw [hlist]
    cases b <;> decide
  rcases List.mem_append.mp hmem with hsign | hdigit
  · unfold Format.signOf at hsign
    cases b <;> split at hsign <;> simp at hsign
  · have hdigit := Format.toDigits_isDigit hdigit
    cases b <;> cases hdigit

theorem scalar_told {x y : Scalar} (hx : (Outline.scalar x).isValue = true)
    (hy : (Outline.scalar y).isValue = true)
    (h : (Outline.scalar x).form = (Outline.scalar y).form) :
    x = y := by
  cases x with
  | str u =>
    cases y with
    | str v => exact congrArg _ (Form.string.inj h)
    | _ => cases h
  | int m =>
    cases y with
    | int n => exact congrArg _ (Int.repr_injective (Form.word.inj h))
    | bool b => exact absurd (Form.word.inj h) (int_ne_bool m b)
    | str v => cases h
    | _ => cases hy
  | bool b =>
    cases y with
    | int n => exact absurd (Form.word.inj h).symm (int_ne_bool n b)
    | bool b' =>
      have hword := Form.word.inj h
      cases b <;> cases b' <;> first | rfl | exact absurd hword (by decide)
    | str v => cases h
    | _ => cases hy
  | _ => cases hx

variable {keys keys' : String → Prop}

/-- The form of a value tells its data among what can stand in the same place. -/
def FormTells (order : EntryOrder) (keys keys' : String → Prop) (o : Outline) : Prop :=
  ∀ (s : Slot) (item : Bool) (o' : Outline), s.takes o = true → s.takes o' = true →
    o.isOmitted = false →
    o'.isOmitted = false → Fits keys item o → Fits keys' item o' → o.form = o'.form →
    data order o = data order o'

theorem annotations_slot (kind : NodeKind) :
    ∀ field ∈ kind.fields, field.1 = "annotations" → field.2 = .notes := by
  cases kind <;> decide

theorem slot_shown {name : String} {o : Outline} (h : s.takes o = true) (ho : o.isOmitted = false)
    (hname : name = "annotations" → s = .notes) : slot order name o = some (data order o) := by
  have hnull : o ≠ .null := by
    rintro rfl
    cases ho
  have habsent : isAbsent name o = false := by
    unfold isAbsent
    split
    case h_1 => exact absurd rfl hnull
    case h_2 =>
      by_cases hn : name = "annotations"
      · obtain rfl := hname hn
        cases o with
        | notes ns =>
          cases ns with
          | nil => cases ho
          | cons n ns => exact Bool.and_false _
        | _ => cases h
      · simp [hn]
  rw [slot, habsent]
  rfl

/-- What data hold of a field is told by its form, or by that it is left out. -/
theorem slot_told {name : String} {o o' : Outline} (ho : FormTells order keys keys' o)
    (h : s.takes o = true)
    (h' : s.takes o' = true) (hfits : Fits keys item o) (hfits' : Fits keys' item o')
    (hname : name = "annotations" → s = .notes)
    (hshown : (if o.isOmitted then none else some o.form) =
      if o'.isOmitted then none else some o'.form) :
    slot order name o = slot order name o' := by
  cases hom : o.isOmitted with
  | true =>
    cases hom' : o'.isOmitted with
    | true => rw [omitted_eq h h' hom hom']
    | false =>
      rw [hom, hom'] at hshown
      cases hshown
  | false =>
    cases hom' : o'.isOmitted with
    | true =>
      rw [hom, hom'] at hshown
      cases hshown
    | false =>
      rw [hom, hom'] at hshown
      rw [slot_shown h hom hname, slot_shown h' hom' hname,
        ho s item o' h h' hom hom' hfits hfits' (Option.some.inj hshown)]

theorem lookup_fieldsShown {name : String} {o : Outline} (h : fields.lookup name = some o) :
    (fieldsShown fields).lookup name = some (if o.isOmitted then none else some o.form) := by
  induction fields with
  | nil => cases h
  | cons field fields ih =>
    obtain ⟨name', o'⟩ := field
    rw [fieldsShown, List.lookup_cons]
    rw [List.lookup_cons] at h
    cases hn : name == name' with
    | true =>
      rw [hn] at h
      cases h
      rfl
    | false =>
      rw [hn] at h
      exact ih h

theorem fieldSlots_eq (hnames : fields.map (·.1) = fields'.map (·.1))
    (h : ∀ name o o', (name, o) ∈ fields → (name, o') ∈ fields' →
      slot order name o = slot order name o') :
    fieldSlots order fields = fieldSlots order fields' := by
  induction fields generalizing fields' with
  | nil => rw [List.map_eq_nil_iff.mp hnames.symm]
  | cons field fields ih =>
    obtain _ | ⟨⟨name', o'⟩, fields'⟩ := fields'
    · cases hnames
    obtain ⟨name, o⟩ := field
    obtain ⟨hname, hrest⟩ := List.cons.inj hnames
    obtain rfl : name = name' := hname
    rw [fieldSlots_cons, fieldSlots_cons, h name o o' List.mem_cons_self List.mem_cons_self,
      ih hrest fun n p p' hp hp' =>
        h n p p' (List.mem_cons_of_mem _ hp) (List.mem_cons_of_mem _ hp')]

/-- The fields of two nodes of a kind are told by the parts of their forms. -/
theorem fields_told (h : NodeFits item kind lead fields) (h' : NodeFits item kind lead' fields')
    (hf : FieldsFit keys fields) (hf' : FieldsFit keys' fields') (hname : kind ≠ .typeName)
    (hbase : kind ≠ .baseType)
    (htold : ∀ field ∈ fields, FormTells order keys keys' field.2)
    (hflags : flagWords kind fields = flagWords kind fields')
    (hshown : ordered kind.form.2 (fieldsShown fields) =
      ordered kind.form.2 (fieldsShown fields')) :
    fieldSlots order fields = fieldSlots order fields' := by
  apply fieldSlots_eq (h.names.trans h'.names.symm)
  intro name o o' hmem hmem'
  have ho := lookup_of_mem h.nodup hmem
  have ho' := lookup_of_mem h'.nodup hmem'
  obtain ⟨s, hslot, htakes⟩ := h.slot_of_mem hmem
  by_cases horder : name ∈ kind.form.2
  · obtain ⟨p', hp', htakes'⟩ := h'.field hslot
    obtain rfl : o' = p' := Option.some.inj (ho'.symm.trans hp')
    have hentry : ((fieldsShown fields).lookup name).join =
        ((fieldsShown fields').lookup name).join :=
      (Prod.mk.inj (List.map_inj_left.mp hshown name horder)).2
    rw [lookup_fieldsShown ho, lookup_fieldsShown ho'] at hentry
    exact slot_told (htold _ hmem) htakes htakes' (fieldsFit_iff.mp hf _ hmem)
      (fieldsFit_iff.mp hf' _ hmem')
      (annotations_slot kind _ hslot) hentry
  · have hflag : name ∈ kind.flagFields :=
      List.mem_filter.mpr ⟨List.mem_map_of_mem hslot, by simpa using horder⟩
    rw [flags_told h h' hname hbase hflags name hflag] at ho
    rw [Option.some.inj (ho.symm.trans ho')]

theorem node_told {l l' : Option Span} (h : NodeFits item kind lead fields)
    (h' : NodeFits item kind' lead' fields') (hf : FieldsFit keys fields)
    (hf' : FieldsFit keys' fields') (htold : ∀ field ∈ fields, FormTells order keys keys' field.2)
    (hform : (Outline.node kind l lead fields).form = (Outline.node kind' l' lead' fields').form) :
    data order (.node kind l lead fields) = data order (.node kind' l' lead' fields') := by
  rw [form, form] at hform
  obtain ⟨parts, hparts⟩ := nodeForm_label kind lead fields (fieldsShown fields)
  obtain ⟨parts', hparts'⟩ := nodeForm_label kind' lead' fields' (fieldsShown fields')
  have hlabel : nodeLabel kind fields = nodeLabel kind' fields' := by
    rw [hparts, hparts'] at hform
    exact (Form.node.inj hform).1
  obtain rfl := kind_told h h' hlabel
  have hlead (hd : kind.isDecorated = false) : lead = lead' := by
    obtain rfl : item = false := h.place.symm.trans hd
    rw [h.lead.resolve_left Bool.false_ne_true, h'.lead.resolve_left Bool.false_ne_true]
  by_cases hname : kind = .typeName
  · subst hname
    obtain ⟨n, hn, rfl⟩ := h.name rfl
    obtain ⟨n', hn', rfl⟩ := h'.name rfl
    have htext : n.text = n'.text := by
      simpa [nodeForm, nameText_fields, Except.toOption] using hform
    rw [TypeName.text_injective hn hn' htext, hlead rfl]
    rfl
  · by_cases hbase : kind = .baseType
    · subst hbase
      obtain ⟨word, hword, rfl, hl⟩ := h.base
      obtain ⟨word', hword', rfl, hl'⟩ := h'.base
      have hwords : ∀ w ∈ none :: Vocabulary.base.words.map some,
          ∀ w' ∈ none :: Vocabulary.base.words.map some, w.getD "" = w'.getD "" →
          w = w' := by decide
      rw [hwords word hword word' hword' (hl.symm.trans (hlabel.trans hl')), hlead rfl]
      rfl
    · obtain ⟨hleads, hflags, hshown⟩ := parts_told h h' hname hbase hform
      have hslots := fields_told h h' hf hf' hname hbase htold hflags hshown
      have hfull (fields : List (String × Outline)) : fullNameSlots kind fields = [] := by
        simp [fullNameSlots, hname]
      rw [data, data, leadSlots_told hleads, hslots, hfull, hfull]

theorem isNode_of_form {o : Outline} {label : String} {parts : List Form}
    (h : o.form = .node label parts) :
    o.isNode = true := by
  cases o with
  | scalar x => cases x <;> cases h
  | node kind l lead fields => rfl
  | _ => cases h

mutual

/-- Outlines of equal forms have equal data. -/
theorem form_tells : (o : Outline) → FormTells order keys keys' o
  | .scalar x, s, item, o', h, h', ho, ho', _, _, hform => by
    have hx := value_of_takes h ho
    cases o' with
    | scalar y => rw [scalar_told hx (value_of_takes h' ho') hform]
    | choice word =>
      obtain ⟨v, d, rfl⟩ := takes_choice h'
      obtain rfl := null_of_takes h
      cases ho
    | notes ns =>
      obtain rfl := takes_notes h'
      cases h
    | list items =>
      obtain rfl := takes_list h'
      cases h
    | table entries =>
      obtain rfl := takes_table h'
      cases h
    | node kind l lead fields =>
      obtain ⟨parts, hparts⟩ := nodeForm_label kind lead fields (fieldsShown fields)
      cases isNode_of_form (hform.trans hparts)
  | .choice word, s, item, o', h, h', ho, ho', _, _, hform => by
    obtain ⟨v, d, rfl⟩ := takes_choice h
    cases o' with
    | choice word' => rw [show word = word' from Form.word.inj hform]
    | scalar y =>
      obtain rfl := null_of_takes h'
      cases ho'
    | _ => cases d <;> cases h'
  | .notes ns, s, item, o', h, h', ho, ho', _, _, hform => by
    obtain rfl := takes_notes h
    cases o' with
    | notes ns' =>
      have htexts (ns : List Note) : noteTexts ns = .list ((ns.map (·.text)).map .str) := by
        rw [noteTexts, List.map_map]
        rfl
      rw [data, data, htexts, htexts, texts_of_strings hform]
    | _ => cases h'
  | .list items, s, item, o', h, h', ho, ho', hfits, hfits', hform => by
    obtain rfl := takes_list h
    cases o' with
    | list items' =>
      rw [data, data, items_tell items hfits hfits' (Form.list.inj hform)]
    | _ => cases h'
  | .table entries, s, item, o', h, h', ho, ho', hfits, hfits', hform => by
    obtain rfl := takes_table h
    cases o' with
    | table entries' =>
      rw [data, data, entries_tell entries hfits hfits' (Form.list.inj hform)]
    | _ => cases h'
  | .node kind l lead fields, s, item, o', h, h', ho, ho', hfits, hfits', hform => by
    obtain ⟨parts, hparts⟩ := nodeForm_label kind lead fields (fieldsShown fields)
    have hnode : o'.isNode = true := isNode_of_form (hform.symm.trans hparts)
    cases o' with
    | node kind' l' lead' fields' =>
      exact node_told hfits.1 hfits'.1 hfits.2 hfits'.2 (fields_tell fields) hform
    | _ => cases hnode

theorem items_tell :
    (os : List Outline) → {item : Bool} → {os' : List Outline} → ItemsFit keys item os →
    ItemsFit keys' item os' → itemsForm os = itemsForm os' →
    itemsData order os = itemsData order os'
  | [], _, os', _, _, h => by
    cases os' with
    | nil => rfl
    | cons o' os' => cases h
  | o :: os, item, os', hf, hf', h => by
    cases os' with
    | nil => cases h
    | cons o' os' =>
      obtain ⟨hhead, htail⟩ := List.cons.inj h
      obtain ⟨⟨hv, ho⟩, hos⟩ := hf
      obtain ⟨⟨hv', ho'⟩, hos'⟩ := hf'
      rw [itemsData, itemsData, items_tell os hos hos' htail,
        form_tells o .required item o' hv hv' (not_omitted hv) (not_omitted hv') ho ho' hhead]

theorem entries_tell :
    (es : List (String × Outline)) → {es' : List (String × Outline)} → EntriesFit keys es →
    EntriesFit keys' es' → entriesForm es = entriesForm es' →
    entriesData order es = entriesData order es'
  | [], es', _, _, h => by
    cases es' with
    | nil => rfl
    | cons e' es' => cases h
  | (key, o) :: es, es', hf, hf', h => by
    obtain _ | ⟨⟨key', o'⟩, es'⟩ := es'
    · cases h
    obtain ⟨hhead, htail⟩ := List.cons.inj h
    obtain ⟨hkey, hform⟩ := Form.entry.inj hhead
    obtain ⟨⟨-, hv, ho⟩, hes⟩ := hf
    obtain ⟨⟨-, hv', ho'⟩, hes'⟩ := hf'
    rw [entriesData, entriesData, entries_tell es hes hes' htail, hkey,
      form_tells o .required false o' hv hv' (not_omitted hv) (not_omitted hv') ho ho' hform]

theorem fields_tell :
    (fields : List (String × Outline)) → ∀ field ∈ fields, FormTells order keys keys' field.2
  | [] => by simp
  | (_, o) :: fields => List.forall_mem_cons.mpr ⟨form_tells o, fields_tell fields⟩

end

end Outline
end RubySig
