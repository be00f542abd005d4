import RubySig.Proofs.Outline.FormFlags
import RubySig.Proofs.Outline.Total

/-!
Forms whose pieces are told from each other. Labels, fields and flags are plain words, texts are
spelled between quotes, and only the keys of tables stand there as they are: a form is sound where
these are plain.
-/
namespace RubySig.Outline

mutual

/-- Whether the keys of all tables in an outline are free of blanks, quotes, brackets and equals
signs. -/
def plainKeys : Outline → Bool
  | .scalar _ | .choice _ | .notes _ => true
  | .list items => itemsPlain items
  | .table entries => entries.all (·.1.toList.all Atom.isPlain) && fieldsPlain entries
  | .node _ _ _ fields => fieldsPlain fields

def itemsPlain : List Outline → Bool
  | [] => true
  | o :: os => o.plainKeys && itemsPlain os

def fieldsPlain : List (String × Outline) → Bool
  | [] => true
  | (_, o) :: fields => o.plainKeys && fieldsPlain fields

end

theorem fieldsPlain_iff {fields : List (String × Outline)} :
    fieldsPlain fields = true ↔ ∀ field ∈ fields, field.2.plainKeys = true := by
  induction fields with
  | nil => simp [fieldsPlain]
  | cons field fields ih =>
    obtain ⟨name, o⟩ := field
    simp [fieldsPlain, ih]

section Keys

variable {keys : String → Prop} (hkeys : ∀ key, keys key → key.toList.all Atom.isPlain = true)

include hkeys

set_option linter.unusedSectionVars false

mutual

/-- Keys of a kind that is plain are plain in all tables. -/
theorem plainKeys_of_fits : (o : Outline) → {item : Bool} → Fits keys item o → o.plainKeys = true
  | .scalar _, _, _ | .choice _, _, _ | .notes _, _, _ => rfl
  | .list items, _, h => itemsPlain_of_fits items h
  | .table entries, _, h => by
    obtain ⟨hplain, hvalues⟩ := entriesPlain_of_fits entries h
    exact Bool.and_eq_true_iff.mpr ⟨hplain, hvalues⟩
  | .node kind l lead fields, _, h => fieldsPlain_of_fits fields h.2

theorem itemsPlain_of_fits : (os : List Outline) → {item : Bool} → ItemsFit keys item os →
    itemsPlain os = true
  | [], _, _ => rfl
  | o :: os, _, h => Bool.and_eq_true_iff.mpr ⟨plainKeys_of_fits o h.1.2, itemsPlain_of_fits os h.2⟩

theorem entriesPlain_of_fits : (entries : List (String × Outline)) → EntriesFit keys entries →
    entries.all (·.1.toList.all Atom.isPlain) = true ∧ fieldsPlain entries = true
  | [], _ => ⟨rfl, rfl⟩
  | (key, o) :: entries, h => by
    obtain ⟨⟨hkey, -, ho⟩, hentries⟩ := h
    obtain ⟨hplain, hvalues⟩ := entriesPlain_of_fits entries hentries
    constructor
    · exact Bool.and_eq_true_iff.mpr ⟨hkeys key hkey, hplain⟩
    · exact Bool.and_eq_true_iff.mpr ⟨plainKeys_of_fits o ho, hvalues⟩

theorem fieldsPlain_of_fits : (fields : List (String × Outline)) → FieldsFit keys fields →
    fieldsPlain fields = true
  | [], _ => rfl
  | (_, o) :: fields, h =>
    Bool.and_eq_true_iff.mpr ⟨plainKeys_of_fits o h.1, fieldsPlain_of_fits fields h.2⟩

end

end Keys

theorem sound_string (s : String) : (Form.string s).Sound := by
  intro a ha
  obtain rfl := List.mem_singleton.mp ha
  trivial

theorem sound_word {s : String} (h : (Atom.word s).Sound) : (Form.word s).Sound := by
  intro a ha
  obtain rfl := List.mem_singleton.mp ha
  exact h

theorem sound_list {items : List Form} (h : ∀ f ∈ items, f.Sound) : (Form.list items).Sound := by
  intro a ha
  rw [Form.atoms, Form.allAtoms_eq_flatMap, List.mem_append, List.mem_cons,
    List.mem_singleton] at ha
  rcases ha with (rfl | ha) | rfl
  · trivial
  · obtain ⟨f, hf, ha⟩ := List.mem_flatMap.mp ha
    exact h f hf a ha
  · trivial

theorem sound_node {label : String} {parts : List Form} (hl : (Atom.opening label).Sound)
    (h : ∀ f ∈ parts, f.Sound) : (Form.node label parts).Sound := by
  intro a ha
  rw [Form.atoms, Form.allAtoms_eq_flatMap, List.mem_append, List.mem_cons,
    List.mem_singleton] at ha
  rcases ha with (rfl | ha) | rfl
  · exact hl
  · obtain ⟨f, hf, ha⟩ := List.mem_flatMap.mp ha
    exact h f hf a ha
  · trivial

theorem sound_field {name : String} {value : Form} (hn : (Atom.field name).Sound)
    (h : value.Sound) :
    (Form.field name value).Sound :=
  List.forall_mem_cons.mpr ⟨hn, h⟩

theorem sound_entry {key : String} {value : Form} (hk : (Atom.key key).Sound) (h : value.Sound) :
    (Form.entry key value).Sound :=
  List.forall_mem_cons.mpr ⟨hk, h⟩

theorem sound_int (n : Int) : (Atom.word (toString n)).Sound := by
  have hplain : ∀ c ∈ (toString n).toList, Atom.isPlain c = true ∧ c ≠ ':' := by
    intro c hc
    have hcases : c = '-' ∨ c.isDigit = true := by
      rw [Format.toString_digits] at hc
      rcases List.mem_append.mp hc with hsign | hdigit
      · unfold Format.signOf at hsign
        split at hsign
        · exact .inl (List.mem_singleton.mp hsign)
        · cases hsign
      · exact .inr (Format.toDigits_isDigit hdigit)
    rcases hcases with rfl | hdigit
    · decide
    · have hne : ∀ d, d.isDigit = false → c ≠ d := by
        rintro d hd rfl
        rw [hd] at hdigit
        cases hdigit
      have hspecial : ∀ d ∈ [' ', '\t', '\n', '"', '(', ')', '[', ']', '='],
          d.isDigit = false := by decide
      refine ⟨?_, hne ':' rfl⟩
      rw [Atom.isPlain, Bool.not_eq_true', List.contains_eq_mem, decide_eq_false_iff_not]
      exact fun hmem => hne c (hspecial c hmem) rfl
  refine ⟨?_, fun c hc => (hplain c hc).1, ?_⟩
  · rw [Format.toString_digits]
    exact List.append_ne_nil_of_right_ne_nil _ Nat.toDigits_ne_nil
  · intro hlast
    exact (hplain ':' (List.mem_of_getLast? hlast)).2 rfl

/-- The numbers and truth values in fields are words. -/
theorem sound_scalar {x : Scalar} (h : (Outline.scalar x).isValue = true) :
    (Outline.scalar x).form.Sound := by
  cases x with
  | str s => exact sound_string s
  | bool b => cases b <;> exact sound_word (by decide)
  | int n => exact sound_word (sound_int n)
  | _ => cases h

theorem sound_leads (lead : Lead) : ∀ f ∈ named (leadForms lead), f.Sound := by
  intro f hf
  obtain ⟨⟨name, value⟩, hmem, rfl⟩ := List.mem_map.mp hf
  have hslot := mem_present.mp hmem
  simp only [leadForms, List.mem_cons, List.not_mem_nil, or_false, Prod.mk.injEq] at hslot
  rcases hslot with ⟨rfl, hvalue⟩ | ⟨rfl, hvalue⟩
  · obtain ⟨c, -, rfl⟩ := Option.map_eq_some_iff.mp hvalue.symm
    have hname : (Atom.field "comment").Sound := by decide
    exact sound_field hname (sound_string c.text)
  · split at hvalue
    · cases hvalue
    · cases hvalue
      have hname : (Atom.field "annotations").Sound := by decide
      apply sound_field hname
      apply sound_list
      intro g hg
      obtain ⟨n, -, rfl⟩ := List.mem_map.mp hg
      exact sound_string _

variable {item : Bool} {kind : NodeKind} {lead : Lead} {fields : List (String × Outline)}
  {keys : String → Prop}

/-- What stands in a field without being left out is a value, a word, or a collection. -/
def FormSound (keys : String → Prop) (o : Outline) : Prop :=
  ∀ (s : Slot) (item : Bool), s.takes o = true → o.isOmitted = false → Fits keys item o →
    o.plainKeys = true →
    o.form.Sound

theorem mem_fieldsShown {name : String} {f : Form} (h : (name, some f) ∈ fieldsShown fields) :
    ∃ o, (name, o) ∈ fields ∧ o.isOmitted = false ∧ f = o.form := by
  induction fields with
  | nil => cases h
  | cons field fields ih =>
    obtain ⟨name', o⟩ := field
    rcases List.mem_cons.mp h with heq | hmem
    · obtain ⟨rfl, hf⟩ := Prod.mk.inj heq
      split at hf
      case isTrue => cases hf
      case isFalse ho =>
        cases hf
        exact ⟨o, List.mem_cons_self, Bool.eq_false_iff.mpr ho, rfl⟩
    · obtain ⟨p, hp, hom, hf⟩ := ih hmem
      exact ⟨p, List.mem_cons_of_mem _ hp, hom, hf⟩

theorem order_plain (kind : NodeKind) : ∀ name ∈ kind.form.2, (Atom.field name).Sound := by
  cases kind <;> decide +kernel

theorem label_plain (kind : NodeKind) : (Atom.opening kind.form.1).Sound := by
  cases kind <;> decide +kernel

/-- The fields of a node are sound where what they hold is. -/
theorem sound_fields (h : NodeFits item kind lead fields) (hf : FieldsFit keys fields)
    (hk : fieldsPlain fields = true) (hsound : ∀ field ∈ fields, FormSound keys field.2) :
    ∀ f ∈ named (ordered kind.form.2 (fieldsShown fields)), f.Sound := by
  intro f hmem
  obtain ⟨⟨name, value⟩, hpresent, rfl⟩ := List.mem_map.mp hmem
  obtain ⟨name', horder, heq⟩ := List.mem_map.mp (mem_present.mp hpresent)
  obtain ⟨rfl, hvalue⟩ := Prod.mk.inj heq
  have hlookup : (fieldsShown fields).lookup name' = some (some value) := by
    cases hl : (fieldsShown fields).lookup name' with
    | none =>
      rw [hl] at hvalue
      cases hvalue
    | some shown =>
      rw [hl] at hvalue
      exact congrArg some hvalue
  obtain ⟨o, ho, hom, rfl⟩ := mem_fieldsShown (mem_of_lookup hlookup)
  obtain ⟨s, -, htakes⟩ := h.slot_of_mem ho
  exact sound_field (order_plain kind _ horder)
    (hsound _ ho s _ htakes hom (fieldsFit_iff.mp hf _ ho)
    (fieldsPlain_iff.mp hk _ ho))

theorem sound_nodeForm (h : NodeFits item kind lead fields) (hf : FieldsFit keys fields)
    (hk : fieldsPlain fields = true) (hsound : ∀ field ∈ fields, FormSound keys field.2) :
    (nodeForm kind lead fields (fieldsShown fields)).Sound := by
  by_cases hname : kind = .typeName
  · subst hname
    have hlabel : (Atom.opening "type-name").Sound := by decide
    apply sound_node hlabel
    intro f hmem
    obtain rfl := List.mem_singleton.mp hmem
    exact sound_string _
  · by_cases hbase : kind = .baseType
    · subst hbase
      have hlabel : ∀ word ∈ "" :: Vocabulary.base.words,
          (Atom.opening word).Sound := by decide +kernel
      exact sound_node (hlabel _ h.label_word) (by simp)
    · rw [nodeForm_eq hname hbase]
      refine sound_node (label_plain kind) ?_
      intro f hmem
      rcases List.mem_append.mp hmem with hmem | hfield
      · rcases List.mem_append.mp hmem with hlead | hflag
        · exact sound_leads lead f hlead
        · obtain ⟨word, hword, rfl⟩ := List.mem_map.mp hflag
          exact sound_word (flags_sound h hname hbase word hword)
      · exact sound_fields h hf hk hsound f hfield

theorem words_plain (v : Vocabulary) : ∀ word ∈ v.words, (Atom.word word).Sound := by
  cases v <;> decide +kernel

mutual

/-- Where keys are plain, the form of an outline is sound. -/
theorem form_sound : (o : Outline) → FormSound keys o
  | .scalar x, s, item, h, ho, hf, hk => sound_scalar (value_of_takes h ho)
  | .choice word, s, item, h, ho, hf, hk => by
    obtain ⟨v, d, rfl⟩ := takes_choice h
    exact sound_word (words_plain v word (List.contains_iff_mem.mp h))
  | .notes ns, s, item, h, ho, hf, hk => by
    refine sound_list fun f hmem => ?_
    obtain ⟨n, -, rfl⟩ := List.mem_map.mp hmem
    exact sound_string _
  | .list items, s, item, h, ho, hf, hk => sound_list (items_sound items hf hk)
  | .table entries, s, item, h, ho, hf, hk => by
    obtain ⟨hkeys, hvalues⟩ := Bool.and_eq_true_iff.mp hk
    exact sound_list (entries_sound entries hf hkeys hvalues)
  | .node kind l lead fields, s, item, h, ho, hf, hk =>
    sound_nodeForm hf.1 hf.2 hk (fields_sound fields)

theorem items_sound :
    (os : List Outline) → {item : Bool} → ItemsFit keys item os → itemsPlain os = true →
    ∀ f ∈ itemsForm os, f.Sound
  | [], _, _, _ => by simp [itemsForm]
  | o :: os, item, hf, hk => by
    obtain ⟨⟨hv, ho⟩, hos⟩ := hf
    obtain ⟨hko, hkos⟩ := Bool.and_eq_true_iff.mp hk
    exact List.forall_mem_cons.mpr ⟨form_sound o .required item hv (not_omitted hv) ho hko,
      items_sound os hos hkos⟩

theorem entries_sound : (es : List (String × Outline)) → EntriesFit keys es →
    es.all (·.1.toList.all Atom.isPlain) = true → fieldsPlain es = true →
    ∀ f ∈ entriesForm es, f.Sound
  | [], _, _, _ => by simp [entriesForm]
  | (key, o) :: es, hf, hkeys, hk => by
    obtain ⟨⟨-, hv, ho⟩, hes⟩ := hf
    obtain ⟨hko, hkes⟩ := Bool.and_eq_true_iff.mp hk
    obtain ⟨hkey, hrest⟩ := Bool.and_eq_true_iff.mp hkeys
    have hkey : (Atom.key key).Sound := List.all_eq_true.mp hkey
    exact List.forall_mem_cons.mpr
      ⟨sound_entry hkey (form_sound o .required false hv (not_omitted hv) ho hko),
      entries_sound es hes hrest hkes⟩

theorem fields_sound : (fields : List (String × Outline)) → ∀ field ∈ fields, FormSound keys field.2
  | [] => by simp
  | (_, o) :: fields => List.forall_mem_cons.mpr ⟨form_sound o, fields_sound fields⟩

end

end RubySig.Outline
