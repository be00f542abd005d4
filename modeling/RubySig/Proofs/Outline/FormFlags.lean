import RubySig.Proofs.Outline.Fits

/-!
Labels and flags of forms. A base type is labelled by its word, and the fields of a node that the
parts of its form leave out are told by its flags, which are plain words.
-/
namespace RubySig

open Outline

namespace NodeKind

theorem fields_nodup (kind : NodeKind) : (kind.fields.map (·.1)).Nodup := by
  cases kind <;> decide

/-- The fields that the parts of a form leave out. -/
def flagFields (kind : NodeKind) : List String :=
  (kind.fields.map (·.1)).filter (!kind.form.2.contains ·)

/-- The label of a kind other than base types, which are labelled by their words. -/
def label (kind : NodeKind) : String :=
  if kind = .typeName then "type-name" else kind.form.1

end NodeKind

namespace Outline

variable {item : Bool} {kind kind' : NodeKind} {lead lead' : Lead}
  {fields fields' : List (String × Outline)}

theorem lookup_of_mem {α : Type} {entries : List (String × α)} {name : String} {a : α}
    (hnodup : (entries.map (·.1)).Nodup) (h : (name, a) ∈ entries) :
    entries.lookup name = some a := by
  obtain ⟨front, back, rfl⟩ := List.append_of_mem h
  refine List.lookup_eq_some_iff.mpr ⟨front, back, rfl, ?_⟩
  intro entry hentry
  rw [List.map_append, List.map_cons, List.nodup_append] at hnodup
  have hne := hnodup.2.2 entry.1 (List.mem_map_of_mem hentry) name List.mem_cons_self
  simpa using Ne.symm hne

theorem exists_of_forall₂ {α β : Type} {R : α → β → Prop} {as : List α} {bs : List β}
    (h : List.Forall₂ R as bs) : ∀ b ∈ bs, ∃ a ∈ as, R a b := by
  induction h with
  | nil => simp
  | @cons a b as bs hab _ ih =>
    intro c hc
    rcases List.mem_cons.mp hc with rfl | hc
    · exact ⟨a, List.mem_cons_self, hab⟩
    · obtain ⟨a', ha', hr⟩ := ih c hc
      exact ⟨a', List.mem_cons_of_mem a ha', hr⟩

theorem NodeFits.names (h : NodeFits item kind lead fields) :
    fields.map (·.1) = kind.fields.map (·.1) := by
  have hmap : List.Forall₂ (· = ·) (fields.map (·.1)) (kind.fields.map (·.1)) := by
    rw [List.forall₂_map_left_iff, List.forall₂_map_right_iff]
    exact h.each.imp fun _ _ hfield => hfield.1
  exact List.forall₂_eq_eq_eq ▸ hmap

theorem NodeFits.nodup (h : NodeFits item kind lead fields) : (fields.map (·.1)).Nodup :=
  h.names ▸ kind.fields_nodup

/-- A field of the kind is there and holds what it can hold. -/
theorem NodeFits.field (h : NodeFits item kind lead fields) {name : String} {slot : Slot}
    (hmem : (name, slot) ∈ kind.fields) :
    ∃ o, fields.lookup name = some o ∧ slot.takes o = true := by
  obtain ⟨⟨name', o⟩, hfield, hname, htakes⟩ := exists_of_forall₂ h.each _ hmem
  obtain rfl : name' = name := hname
  exact ⟨o, lookup_of_mem h.nodup hfield, htakes⟩

/-- What a field of a node holds is something that its kind can hold there. -/
theorem NodeFits.slot_of_mem (h : NodeFits item kind lead fields) {name : String} {o : Outline}
    (hmem : (name, o) ∈ fields) : ∃ s, (name, s) ∈ kind.fields ∧ s.takes o = true := by
  have hkind : name ∈ kind.fields.map (·.1) := h.names ▸ List.mem_map_of_mem hmem
  obtain ⟨⟨name', s⟩, hslot, hn⟩ := List.mem_map.mp hkind
  obtain rfl : name' = name := hn
  obtain ⟨p, hp, htakes⟩ := h.field hslot
  obtain rfl : o = p := Option.some.inj ((lookup_of_mem h.nodup hmem).symm.trans hp)
  exact ⟨s, hslot, htakes⟩

theorem NodeFits.bool (h : NodeFits item kind lead fields) {name : String} {d : Bool}
    (hmem : (name, .flag d) ∈ kind.fields) : ∃ b, fields.lookup name = some (.bool b) := by
  obtain ⟨o, ho, htakes⟩ := h.field hmem
  unfold Slot.takes at htakes
  split at htakes <;> simp_all [Outline.bool]

/-- A word of a vocabulary, or nothing. -/
theorem NodeFits.word? (h : NodeFits item kind lead fields) {name : String} {v : Vocabulary}
    {d : Option String} (hmem : (name, .choice v d) ∈ kind.fields) :
    ∃ word ∈ none :: v.words.map some, fields.lookup name = some ((word.map .choice).getD .null) ∧
      (word = none → d = none) := by
  obtain ⟨o, ho, htakes⟩ := h.field hmem
  cases o with
  | choice word =>
    have hword : word ∈ v.words := List.contains_iff_mem.mp htakes
    exact ⟨some word, by simpa using hword, ho, by simp⟩
  | scalar s =>
    cases s with
    | null =>
      cases d with
      | none => exact ⟨none, List.mem_cons_self, ho, fun _ => rfl⟩
      | some d => cases htakes
    | _ => cases d <;> cases htakes
  | _ => cases d <;> cases htakes

theorem NodeFits.word (h : NodeFits item kind lead fields) {name d : String} {v : Vocabulary}
    (hmem : (name, .choice v (some d)) ∈ kind.fields) :
    ∃ word ∈ v.words, fields.lookup name = some (.choice word) := by
  obtain ⟨word, hword, ho, hnone⟩ := h.word? hmem
  cases word with
  | none => cases hnone rfl
  | some word => exact ⟨word, by simpa using hword, ho⟩

def nodeLabel (kind : NodeKind) (fields : List (String × Outline)) : String :=
  if kind = .baseType then (wordIn fields "kind").toOption.getD "" else kind.label

theorem nodeForm_label (kind : NodeKind) (lead : Lead) (fields : List (String × Outline))
    (shown : List (String × Option Form)) :
    ∃ parts, nodeForm kind lead fields shown = .node (nodeLabel kind fields) parts := by
  cases kind <;> exact ⟨_, rfl⟩

/-- A base type is labelled by its word. -/
theorem NodeFits.base (h : NodeFits item .baseType lead fields) :
    ∃ word ∈ none :: Vocabulary.base.words.map some,
      fields = [("kind", (word.map .choice).getD .null)] ∧
      nodeLabel .baseType fields = word.getD "" := by
  have hslot : ("kind", Slot.choice .base none) ∈ NodeKind.baseType.fields := by decide
  obtain ⟨word, hword, hlookup, -⟩ := h.word? hslot
  have hnames := h.names
  obtain ⟨⟨name, o⟩, rest, rfl⟩ :=
    List.exists_cons_of_ne_nil (l := fields) (by rintro rfl; cases hnames)
  obtain ⟨hname, hrest⟩ := List.cons.inj hnames
  obtain rfl : name = "kind" := hname
  obtain rfl := List.map_eq_nil_iff.mp hrest
  obtain rfl : o = (word.map .choice).getD .null := Option.some.inj hlookup
  refine ⟨word, hword, rfl, ?_⟩
  cases word <;> rfl

theorem NodeFits.label_word (h : NodeFits item .baseType lead fields) :
    nodeLabel .baseType fields ∈ "" :: Vocabulary.base.words := by
  obtain ⟨word, hword, -, hlabel⟩ := h.base
  rw [hlabel]
  cases word with
  | none => exact List.mem_cons_self
  | some word => exact List.mem_cons_of_mem _ (by simpa using hword)

/-- The flags of a member, and of a method with more entries elsewhere. -/
def memberWords (shown : Option String) (level : String) (overloading : Bool) : List String :=
  shown.toList ++ unusual "instance" level ++ if overloading then ["overloading"] else []

theorem memberWords_injective :
    ∀ v ∈ none :: Vocabulary.visibility.words.map some,
    ∀ v' ∈ none :: Vocabulary.visibility.words.map some,
      ∀ l ∈ Vocabulary.level.words, ∀ l' ∈ Vocabulary.level.words, ∀ b b' : Bool,
        memberWords v l b = memberWords v' l' b' → v = v' ∧ l = l' ∧ b = b' := by
  decide +kernel

/-- The flags of a type parameter. -/
def paramWords (unchecked : Bool) (variance : String) : List String :=
  (if unchecked then ["unchecked"] else []) ++ unusual "invariant" variance

theorem paramWords_injective :
    ∀ v ∈ Vocabulary.variance.words, ∀ v' ∈ Vocabulary.variance.words, ∀ b b' : Bool,
      paramWords b v = paramWords b' v' → v = v' ∧ b = b' := by
  decide +kernel

theorem isSet_bool {name : String} {b : Bool} (h : fields.lookup name = some (.bool b)) :
    isSet fields name = b := by
  rw [isSet, field?, h]
  cases b <;> rfl

theorem wordIn_choice {name word : String} (h : fields.lookup name = some (.choice word)) :
    wordIn fields name = .ok word := by
  rw [wordIn, field?, h]

theorem NodeFits.memberFlags (h : NodeFits item kind lead fields)
    (hlevel : ("kind", .choice .level (some "instance")) ∈ kind.fields)
    (hshown : ("visibility", .choice .visibility none) ∈ kind.fields) :
    ∃ shown ∈ none :: Vocabulary.visibility.words.map some, ∃ level ∈ Vocabulary.level.words,
      fields.lookup "visibility" = some ((shown.map .choice).getD .null) ∧
      fields.lookup "kind" = some (.choice level) ∧
      Outline.memberFlags fields = .ok (memberWords shown level false) := by
  obtain ⟨level, hmem, hkind⟩ := h.word hlevel
  obtain ⟨shown, hword, hvisible, -⟩ := h.word? hshown
  refine ⟨shown, hword, level, hmem, hvisible, hkind, ?_⟩
  have hwords : memberWords shown level false = shown.toList ++ unusual "instance" level :=
    List.append_nil _
  rw [Outline.memberFlags, wordIn_choice hkind, field?, hvisible, hwords]
  cases shown with
  | none => rfl
  | some word =>
    rw [wordIn_choice hvisible]
    rfl

theorem NodeFits.paramFlags (h : NodeFits item .typeParam lead fields) :
    ∃ variance ∈ Vocabulary.variance.words, ∃ unchecked,
      fields.lookup "variance" = some (.choice variance) ∧
      fields.lookup "unchecked" = some (.bool unchecked) ∧
      flagWords .typeParam fields = paramWords unchecked variance := by
  have hslot : ("variance", Slot.choice .variance (some "invariant")) ∈
      NodeKind.typeParam.fields := by decide
  obtain ⟨variance, hmem, hv⟩ := h.word hslot
  have hflag : ("unchecked", Slot.flag false) ∈ NodeKind.typeParam.fields := by decide
  obtain ⟨unchecked, hu⟩ := h.bool hflag
  refine ⟨variance, hmem, unchecked, hv, hu, ?_⟩
  rw [flagWords, flags, wordIn_choice hv, isSet_bool hu]
  rfl

/-- The flags of an attribute are those of a member. -/
theorem NodeFits.attributeFlags (h : NodeFits item kind lead fields)
    (hk : kind = .attrReader ∨ kind = .attrWriter ∨ kind = .attrAccessor) :
    ∃ shown ∈ none :: Vocabulary.visibility.words.map some, ∃ level ∈ Vocabulary.level.words,
      fields.lookup "visibility" = some ((shown.map .choice).getD .null) ∧
      fields.lookup "kind" = some (.choice level) ∧
      flagWords kind fields = memberWords shown level false := by
  have hfields : ("kind", .choice .level (some "instance")) ∈ kind.fields ∧
      ("visibility", .choice .visibility none) ∈ kind.fields := by
    rcases hk with rfl | rfl | rfl <;> decide
  obtain ⟨shown, hs, level, hl, hvisible, hkind, hwords⟩ := h.memberFlags hfields.1 hfields.2
  refine ⟨shown, hs, level, hl, hvisible, hkind, ?_⟩
  rcases hk with rfl | rfl | rfl <;> rw [flagWords, flags, hwords] <;> rfl

theorem NodeFits.methodFlags (h : NodeFits item .method lead fields) :
    ∃ shown ∈ none :: Vocabulary.visibility.words.map some, ∃ level ∈ Vocabulary.level.words,
      ∃ overloading, fields.lookup "visibility" = some ((shown.map .choice).getD .null) ∧
        fields.lookup "kind" = some (.choice level) ∧
        fields.lookup "overloading" = some (.bool overloading) ∧
        flagWords .method fields = memberWords shown level overloading := by
  obtain ⟨shown, hs, level, hl, hvisible, hkind, hwords⟩ := h.memberFlags (by decide) (by decide)
  have hflag : ("overloading", Slot.flag false) ∈ NodeKind.method.fields := by decide
  obtain ⟨b, hb⟩ := h.bool hflag
  refine ⟨shown, hs, level, hl, b, hvisible, hkind, hb, ?_⟩
  rw [flagWords, flags, hwords, isSet_bool hb]
  simp [memberWords, Except.toOption]

theorem NodeFits.aliasFlags (h : NodeFits item .aliasMember lead fields) :
    ∃ level ∈ Vocabulary.level.words, fields.lookup "kind" = some (.choice level) ∧
      flagWords .aliasMember fields = memberWords none level false := by
  have hslot : ("kind", Slot.choice .level (some "instance")) ∈
      NodeKind.aliasMember.fields := by decide
  obtain ⟨level, hmem, hl⟩ := h.word hslot
  refine ⟨level, hmem, hl, ?_⟩
  rw [flagWords, flags, wordIn_choice hl]
  exact (List.append_nil _).symm

theorem NodeFits.literalFlags (h : NodeFits item .literalType lead fields) :
    ∃ word ∈ none :: Vocabulary.literal.words.map some,
      fields.lookup "kind" = some ((word.map .choice).getD .null) ∧
      flagWords .literalType fields = word.toList := by
  have hslot : ("kind", Slot.choice .literal none) ∈ NodeKind.literalType.fields := by decide
  obtain ⟨word, hmem, hw, -⟩ := h.word? hslot
  refine ⟨word, hmem, hw, ?_⟩
  rw [flagWords, flags, wordIn, field?, hw]
  cases word <;> rfl

def blockWords (required : Bool) : List String := if required then [] else ["optional"]

theorem NodeFits.blockFlags (h : NodeFits item .block lead fields) :
    ∃ required, fields.lookup "required" = some (.bool required) ∧
      flagWords .block fields = blockWords required := by
  have hflag : ("required", Slot.flag true) ∈ NodeKind.block.fields := by decide
  obtain ⟨b, hb⟩ := h.bool hflag
  refine ⟨b, hb, ?_⟩
  rw [flagWords, flags, isSet_bool hb]
  rfl

theorem flagWords_eq_nil (h : kind.flagFields = []) (hbase : kind ≠ .baseType) :
    flagWords kind fields = [] := by
  cases kind with
  | overload =>
    rw [flagWords, flags]
    cases ((field? fields "annotations").getD (.notes [])).toNotes <;> rfl
  | baseType => exact absurd rfl hbase
  | typeParam => cases h
  | aliasMember => cases h
  | attrReader => cases h
  | attrWriter => cases h
  | attrAccessor => cases h
  | method => cases h
  | literalType => cases h
  | block => cases h
  | _ => rfl

/-- The fields that the parts of a form leave out are told by the flags. -/
theorem flags_told (h : NodeFits item kind lead fields) (h' : NodeFits item kind lead' fields')
    (hname : kind ≠ .typeName) (hbase : kind ≠ .baseType)
    (hflags : flagWords kind fields = flagWords kind fields') :
    ∀ name ∈ kind.flagFields, fields.lookup name = fields'.lookup name := by
  have hattribute (hk : kind = .attrReader ∨ kind = .attrWriter ∨ kind = .attrAccessor) :
      ∀ name ∈ kind.flagFields, fields.lookup name = fields'.lookup name := by
    obtain ⟨shown, hs, level, hl, hvisible, hkind, hwords⟩ := h.attributeFlags hk
    obtain ⟨shown', hs', level', hl', hvisible', hkind', hwords'⟩ := h'.attributeFlags hk
    rw [hwords, hwords'] at hflags
    obtain ⟨rfl, rfl, -⟩ := memberWords_injective _ hs _ hs' _ hl _ hl' _ _ hflags
    have hfields : kind.flagFields = ["kind", "visibility"] := by
      rcases hk with rfl | rfl | rfl <;> decide
    rw [hfields]
    simp [hkind, hkind', hvisible, hvisible']
  cases kind with
  | typeName => exact absurd rfl hname
  | baseType => exact absurd rfl hbase
  | attributeMember => cases h.concrete
  | mixinMember => cases h.concrete
  | attrReader => exact hattribute (.inl rfl)
  | attrWriter => exact hattribute (.inr (.inl rfl))
  | attrAccessor => exact hattribute (.inr (.inr rfl))
  | typeParam =>
    obtain ⟨variance, hmem, unchecked, hv, hu, hwords⟩ := h.paramFlags
    obtain ⟨variance', hmem', unchecked', hv', hu', hwords'⟩ := h'.paramFlags
    rw [hwords, hwords'] at hflags
    obtain ⟨rfl, rfl⟩ := paramWords_injective _ hmem _ hmem' _ _ hflags
    have hfields : NodeKind.typeParam.flagFields = ["variance", "unchecked"] := by decide
    rw [hfields]
    simp [hv, hv', hu, hu']
  | aliasMember =>
    obtain ⟨level, hmem, hl, hwords⟩ := h.aliasFlags
    obtain ⟨level', hmem', hl', hwords'⟩ := h'.aliasFlags
    rw [hwords, hwords'] at hflags
    obtain ⟨-, rfl, -⟩ :=
      memberWords_injective _ List.mem_cons_self _ List.mem_cons_self _ hmem _ hmem'
      _ _ hflags
    have hfields : NodeKind.aliasMember.flagFields = ["kind"] := by decide
    rw [hfields]
    simp [hl, hl']
  | method =>
    obtain ⟨shown, hs, level, hl, b, hvisible, hkind, hb, hwords⟩ := h.methodFlags
    obtain ⟨shown', hs', level', hl', b', hvisible', hkind', hb', hwords'⟩ := h'.methodFlags
    rw [hwords, hwords'] at hflags
    obtain ⟨rfl, rfl, rfl⟩ := memberWords_injective _ hs _ hs' _ hl _ hl' _ _ hflags
    have hfields : NodeKind.method.flagFields = ["kind", "overloading", "visibility"] := by decide
    rw [hfields]
    simp [hkind, hkind', hvisible, hvisible', hb, hb']
  | literalType =>
    obtain ⟨word, hmem, hw, hwords⟩ := h.literalFlags
    obtain ⟨word', hmem', hw', hwords'⟩ := h'.literalFlags
    rw [hwords, hwords'] at hflags
    obtain rfl : word = word' := by cases word <;> cases word' <;> simp_all
    have hfields : NodeKind.literalType.flagFields = ["kind"] := by decide
    rw [hfields]
    simp [hw, hw']
  | block =>
    obtain ⟨b, hb, hwords⟩ := h.blockFlags
    obtain ⟨b', hb', hwords'⟩ := h'.blockFlags
    rw [hwords, hwords'] at hflags
    obtain rfl : b = b' := by
      revert hflags
      cases b <;> cases b' <;> decide
    have hfields : NodeKind.block.flagFields = ["required"] := by decide
    rw [hfields]
    simp [hb, hb']
  | _ =>
    intro name hmem
    simp [NodeKind.flagFields, NodeKind.fields, NodeKind.form] at hmem

/-- Flags are plain words. -/
theorem flags_sound (h : NodeFits item kind lead fields) (hname : kind ≠ .typeName)
    (hbase : kind ≠ .baseType) : ∀ word ∈ flagWords kind fields, (Atom.word word).Sound := by
  have hmember : ∀ shown ∈ none :: Vocabulary.visibility.words.map some,
      ∀ level ∈ Vocabulary.level.words,
      ∀ b, ∀ word ∈ memberWords shown level b, (Atom.word word).Sound := by decide +kernel
  have hparam : ∀ variance ∈ Vocabulary.variance.words, ∀ b, ∀ word ∈ paramWords b variance,
      (Atom.word word).Sound := by decide +kernel
  have hliteral : ∀ value ∈ none :: Vocabulary.literal.words.map some, ∀ word ∈ value.toList,
      (Atom.word word).Sound := by decide +kernel
  have hblock : ∀ b, ∀ word ∈ blockWords b, (Atom.word word).Sound := by decide +kernel
  have hattribute (hk : kind = .attrReader ∨ kind = .attrWriter ∨ kind = .attrAccessor) :
      ∀ word ∈ flagWords kind fields, (Atom.word word).Sound := by
    obtain ⟨shown, hs, level, hl, -, -, hwords⟩ := h.attributeFlags hk
    rw [hwords]
    exact hmember shown hs level hl false
  cases kind with
  | typeName => exact absurd rfl hname
  | baseType => exact absurd rfl hbase
  | attributeMember => cases h.concrete
  | mixinMember => cases h.concrete
  | attrReader => exact hattribute (.inl rfl)
  | attrWriter => exact hattribute (.inr (.inl rfl))
  | attrAccessor => exact hattribute (.inr (.inr rfl))
  | typeParam =>
    obtain ⟨variance, hmem, unchecked, -, -, hwords⟩ := h.paramFlags
    rw [hwords]
    exact hparam variance hmem unchecked
  | aliasMember =>
    obtain ⟨level, hmem, -, hwords⟩ := h.aliasFlags
    rw [hwords]
    exact hmember none List.mem_cons_self level hmem false
  | method =>
    obtain ⟨shown, hs, level, hl, b, -, -, -, hwords⟩ := h.methodFlags
    rw [hwords]
    exact hmember shown hs level hl b
  | literalType =>
    obtain ⟨word, hmem, -, hwords⟩ := h.literalFlags
    rw [hwords]
    exact hliteral word hmem
  | block =>
    obtain ⟨b, -, hwords⟩ := h.blockFlags
    rw [hwords]
    exact hblock b
  | _ =>
    rw [flagWords_eq_nil (by decide) (by decide)]
    simp

end Outline
end RubySig
