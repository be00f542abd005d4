import RubySig.Proofs.Tree.NameYields
import RubySig.Proofs.Tree.TyLevels

/-! Types that are read are of the shapes that the grammar builds, and leave the comments to
others. -/
namespace RubySig.Grammar

variable {c : Context} {s : State} {n : Nat} {type result : Parser Ty} {scope : List String}

theorem param_yields (h : Gives c n type (Ty.Formed scope c.text)) :
    Gives c n (param type) (Param.Formed scope c.text) := by
  intro s hs hg
  unfold param
  refine .here_bind fun start => ?_
  refine (h s hs hg).bind ?_
  rintro t s₁ ⟨ht, h₁⟩
  refine .peek_bind fun l hl => ?_
  split
  case _ name hname =>
    obtain ⟨k, rfl, hk⟩ := Option.bind_eq_some_iff.mp hname
    have hnameable := (hg.behind h₁).named hl hk
    refine .advance_any fun s₂ h₂ => ?_
    refine .span_bind fun location => .pure ⟨⟨ht, fun u hu => ?_⟩, h₁.trans h₂⟩
    cases hu
    exact hnameable
  case _ => exact .span_bind fun location => .pure ⟨⟨ht, fun u hu => by cases hu⟩, h₁⟩

/-- What holds of the parameters that are read so far. -/
structure Params.Fine (scope : List String) (source : List Char) (stage : Stage) (ps : Params) :
    Prop where
  required : ∀ p ∈ ps.required, p.Formed scope source
  optional : ∀ p ∈ ps.optional, p.Formed scope source
  rest : ∀ p ∈ ps.rest, p.Formed scope source
  trailing : ∀ p ∈ ps.trailing, p.Formed scope source
  requiredKeywords : ∀ p ∈ ps.requiredKeywords, Nameable p.1 ∧ p.2.Formed scope source
  optionalKeywords : ∀ p ∈ ps.optionalKeywords, Nameable p.1 ∧ p.2.Formed scope source
  restKeywords : ∀ p ∈ ps.restKeywords, p.Formed scope source
  stage : stage = .trailing → ps.rest.isSome = true
  behindRest : ps.trailing ≠ [] → ps.rest.isSome = true
  names : ((ps.requiredKeywords ++ ps.optionalKeywords).map (·.1)).Nodup

section Slots

variable {source : List Char} {stage : Stage} {ps : Params} {p : Param} {name : String}

theorem Params.Fine.empty : Params.empty.Fine scope source .required := by
  constructor <;> simp [Params.empty]

theorem forall_mem_snoc {α : Type} {R : α → Prop} {as : List α} {a : α} (h : ∀ b ∈ as, R b)
    (ha : R a) : ∀ b ∈ as ++ [a], R b :=
  List.forall_mem_append.mpr ⟨h, List.forall_mem_singleton.mpr ha⟩

theorem keyword_fresh (h : ps.hasKeyword name = false) :
    name ∉ (ps.requiredKeywords ++ ps.optionalKeywords).map (·.1) := by
  simp only [Params.hasKeyword, Bool.or_eq_false_iff, List.any_eq_false, beq_iff_eq] at h
  rw [List.mem_map]
  rintro ⟨q, hq, rfl⟩
  rcases List.mem_append.mp hq with hq | hq
  · exact h.1 q hq rfl
  · exact h.2 q hq rfl

theorem Params.Fine.keyword (h : ps.Fine scope source stage) (hname : Nameable name)
    (hp : p.Formed scope source) (hn : ps.hasKeyword name = false) (optional : Bool) :
    Params.Fine scope source .keywords (if optional then
      { ps with optionalKeywords := ps.optionalKeywords ++ [(name, p)] }
      else { ps with requiredKeywords := ps.requiredKeywords ++ [(name, p)] }) := by
  have hnodup : (name :: (ps.requiredKeywords ++ ps.optionalKeywords).map (·.1)).Nodup :=
    List.nodup_cons.mpr ⟨keyword_fresh hn, h.names⟩
  cases optional with
  | true =>
    refine ⟨h.required, h.optional, h.rest, h.trailing, h.requiredKeywords,
      forall_mem_snoc h.optionalKeywords ⟨hname, hp⟩, h.restKeywords, by simp, h.behindRest, ?_⟩
    refine List.Perm.nodup ?_ hnodup
    have hperm := List.perm_append_singleton (name, p) (ps.requiredKeywords ++ ps.optionalKeywords)
    simpa using hperm.symm.map (·.1)
  | false =>
    refine ⟨h.required, h.optional, h.rest, h.trailing,
      forall_mem_snoc h.requiredKeywords ⟨hname, hp⟩,
      h.optionalKeywords, h.restKeywords, by simp, h.behindRest, ?_⟩
    refine List.Perm.nodup ?_ hnodup
    have hperm : List.Perm (ps.requiredKeywords ++ (name, p) :: ps.optionalKeywords)
      ((name, p) :: (ps.requiredKeywords ++ ps.optionalKeywords)) := List.perm_middle
    simpa using hperm.symm.map (·.1)

theorem slot_yields (h : Gives c n type (Ty.Formed scope c.text)) (hs : s.tokens.length ≤ n)
    (hg : Standing c s) (hps : ps.Fine scope c.text stage) :
    Yields c s (slot type stage ps) fun r s' => r.2.Fine scope c.text r.1 ∧ Within 0 s s' := by
  have hparam {s₁ : State} (h₁ : Within 0 s s₁) : Yields c s₁ (param type) fun p s' =>
      p.Formed scope c.text ∧ Within 0 s s' := by
    have := h₁.tokens
    exact (param_yields h s₁ (by omega) (hg.behind h₁)).imp fun p s₂ h₂ =>
      ⟨h₂.1, (h₁.trans h₂.2).le (by omega)⟩
  unfold slot
  refine (keywordParam_yields hg).bind ?_
  rintro keyword s₁ ⟨rfl, hkeyword⟩
  split
  case _ name optional =>
    refine .advance_any fun s₁ h₁ => (hparam h₁).bind ?_
    rintro p s₂ ⟨hp, h₂⟩
    refine .ite (fun _ => .lastPlace_bind fun q => .failAt) fun hname => ?_
    have hkeywords := hps.keyword (hkeyword _ rfl) hp (by simpa using hname) optional
    cases optional with
    | true => exact .pure ⟨hkeywords, h₂⟩
    | false => exact .pure ⟨hkeywords, h₂⟩
  case _ =>
    refine .eat_if (fun s₁ h₁ => ?_) fun s₁ h₁ => ?_
    · refine .ite (fun _ => .lastPlace_bind fun q => .failAt) fun _ => ?_
      refine (hparam (h₁.le (by omega))).bind ?_
      rintro p s₂ ⟨hp, h₂⟩
      refine .pure ⟨?_, h₂⟩
      exact { hps with restKeywords := by simpa using hp, stage := by simp }
    refine .ite (fun _ => .failHere) fun _ => .eat_if (fun s₂ h₂ => ?_) fun s₂ h₂ => ?_
    · refine .ite (fun _ => ?_) fun _ => .lastPlace_bind fun q => .failAt
      refine (hparam ((h₁.trans h₂).le (by omega))).bind ?_
      rintro p s₃ ⟨hp, h₃⟩
      refine .pure ⟨?_, h₃⟩
      exact { hps with optional := forall_mem_snoc hps.optional hp, stage := by simp }
    refine .eat_if (fun s₃ h₃ => ?_) fun s₃ h₃ => ?_
    · refine .ite (fun _ => ?_) fun _ => .lastPlace_bind fun q => .failAt
      refine (hparam (((h₁.trans h₂).trans h₃).le (by omega))).bind ?_
      rintro p s₄ ⟨hp, h₄⟩
      refine .pure ⟨?_, h₄⟩
      exact { hps with
        rest := by simpa using hp
        stage := fun _ => rfl
        behindRest := fun _ => rfl }
    · have hnext := hparam (((h₁.trans h₂).trans h₃).le (by omega))
      split
      · refine hnext.bind ?_
        rintro p s₄ ⟨hp, h₄⟩
        refine .pure ⟨?_, h₄⟩
        exact { hps with required := forall_mem_snoc hps.required hp }
      · refine hnext.bind ?_
        rintro p s₄ ⟨hp, h₄⟩
        refine .pure ⟨?_, h₄⟩
        exact { hps with
          trailing := forall_mem_snoc hps.trailing hp
          behindRest := fun _ => hps.stage rfl }
      · exact .failHere

theorem params_yields (h : Gives c n type (Ty.Formed scope c.text)) (fuel : Nat)
    (hs : s.tokens.length ≤ n) (hg : Standing c s) (hps : ps.Fine scope c.text stage) :
    Yields c s (params type fuel stage ps) fun qs s' =>
      (∃ stage, qs.Fine scope c.text stage) ∧ Within 0 s s' := by
  induction fuel generalizing s stage ps with
  | zero =>
    unfold params
    exact .pure ⟨⟨stage, hps⟩, .refl s⟩
  | succ fuel ih =>
    rw [params_succ]
    refine .isNext_if (fun _ => .pure ⟨⟨stage, hps⟩, .refl s⟩) ?_
    refine (slot_yields h hs hg hps).bind ?_
    rintro r s₁ ⟨hr, h₁⟩
    refine .eat_if (fun s₂ h₂ => ?_) fun s₂ h₂ => ?_
    · have := h₁.tokens
      have := h₂.tokens
      refine (ih (s := s₂) (by omega) (hg.behind (h₁.trans h₂)) hr).imp ?_
      rintro qs s₃ ⟨hqs, h₃⟩
      exact ⟨hqs, ((h₁.trans h₂).trans h₃).le (by omega)⟩
    · exact .pure ⟨⟨_, hr⟩, h₁.trans h₂⟩

theorem paramList_yields (h : Gives c n type (Ty.Formed scope c.text)) (fuel : Nat)
    (hs : s.tokens.length ≤ n) (hg : Standing c s) :
    Yields c s (paramList type fuel) fun qs s' =>
      (∃ stage, qs.Fine scope c.text stage) ∧ Within 0 s s' := by
  unfold paramList
  refine .eat_if (fun s₁ h₁ => ?_) fun s₁ h₁ => .pure ⟨⟨_, .empty⟩, h₁⟩
  have := h₁.tokens
  refine (params_yields h fuel (by omega) (hg.behind h₁) .empty).bind ?_
  rintro qs s₂ ⟨hqs, h₂⟩
  refine .expect_bind fun s₃ h₃ => .pure ⟨hqs, ((h₁.trans h₂).trans h₃).le (by omega)⟩

theorem Params.Fine.signature (h : ps.Fine scope source stage) {location : Option Span} {r : Ty}
    (hr : r.Formed scope source) : (ps.signature location r).Formed scope source := by
  refine ⟨⟨fun hrest => ?_, h.names⟩, hr, Param.formedAll_iff.mpr h.required,
    Param.formedAll_iff.mpr h.optional, Param.formedOption_iff.mpr h.rest,
    Param.formedAll_iff.mpr h.trailing, Param.formedKeywords_iff.mpr h.requiredKeywords,
    Param.formedKeywords_iff.mpr h.optionalKeywords, Param.formedOption_iff.mpr h.restKeywords⟩
  by_contra hne
  have hsome := h.behindRest hne
  have hnone : ps.rest = none := hrest
  rw [hnone] at hsome
  cases hsome

end Slots

theorem blockClause_yields (h : Gives c n type (Ty.Formed scope c.text))
    (hr : Gives c n result (Ty.Formed scope c.text)) (fuel : Nat) (hs : s.tokens.length ≤ n)
    (hg : Standing c s) :
    Yields c s (blockClause type result fuel) fun block s' =>
      Ty.FormedBlock scope c.text block ∧ Within 0 s s' := by
  unfold blockClause
  have inside (start : Position) (required : Bool) {s₁ : State} (h₁ : Within 0 s s₁) :
      Yields c s₁ (do
        let ps ← paramList type fuel
        expect (.mark .arrow) .arrowOfBlock
        let r ← result
        let inner := ps.signature (← spanFrom start) r
        expect (.mark .rbrace) .closeOfBlock
        return some ⟨← spanFrom start, inner, required⟩) fun block s' =>
          Ty.FormedBlock scope c.text block ∧ Within 0 s s' := by
    have := h₁.tokens
    refine (paramList_yields h fuel (by omega) (hg.behind h₁)).bind ?_
    rintro ps s₂ ⟨⟨stage, hps⟩, h₂⟩
    refine .expect_bind fun s₃ h₃ => ?_
    have := h₂.tokens
    have := h₃.tokens
    refine (hr s₃ (by omega) (hg.behind ((h₁.trans h₂).trans h₃))).bind ?_
    rintro r s₄ ⟨hr, h₄⟩
    refine .span_bind fun location => ?_
    refine .expect_bind fun s₅ h₅ => .span_bind fun location => .pure ?_
    exact ⟨hps.signature hr, ((((h₁.trans h₂).trans h₃).trans h₄).trans h₅).le (by omega)⟩
  refine .here_bind fun start => .isNext_bind fun b => ?_
  cases b with
  | true =>
    refine .peekAt_bind fun brace => .ite (fun _ => ?_) fun _ => .pure ⟨trivial, .refl s⟩
    exact .advance_any fun s₁ h₁ => inside start false h₁
  | false =>
    refine .peek_bind fun brace _ => .ite (fun _ => ?_) fun _ => .pure ⟨trivial, .refl s⟩
    exact .advance_any fun s₁ h₁ => inside start true h₁

theorem signature_yields (h : Gives c n type (Ty.Formed scope c.text))
    (hr : Gives c n result (Ty.Formed scope c.text)) (fuel : Nat) :
    Gives c n (signature type result fuel) fun r =>
      r.1.Formed scope c.text ∧ Ty.FormedBlock scope c.text r.2 := by
  intro s hs hg
  unfold signature
  refine .here_bind fun start => ?_
  refine (paramList_yields h fuel hs hg).bind ?_
  rintro ps s₁ ⟨⟨stage, hps⟩, h₁⟩
  have := h₁.tokens
  refine (blockClause_yields h hr fuel (by omega) (hg.behind h₁)).bind ?_
  rintro block s₂ ⟨hblock, h₂⟩
  refine .expect_bind fun s₃ h₃ => ?_
  have := h₂.tokens
  have := h₃.tokens
  refine (hr s₃ (by omega) (hg.behind ((h₁.trans h₂).trans h₃))).bind ?_
  rintro r s₄ ⟨hr, h₄⟩
  refine .span_bind fun location => .pure ?_
  exact ⟨⟨hps.signature hr, hblock⟩, (((h₁.trans h₂).trans h₃).trans h₄).le (by omega)⟩

theorem typeArgs_yields (h : Gives c n type (Ty.Formed scope c.text)) (fuel : Nat)
    (hs : s.tokens.length ≤ n) (hg : Standing c s) :
    Yields c s (typeArgs type fuel) fun args s' =>
      Ty.FormedAll scope c.text args ∧ Within 0 s s' := by
  unfold typeArgs
  refine .eat_if (fun s₁ h₁ => ?_) fun s₁ h₁ => .pure ⟨trivial, h₁⟩
  have := h₁.tokens
  refine (h s₁ (by omega) (hg.behind h₁)).bind ?_
  rintro first s₂ ⟨hfirst, h₂⟩
  have hend {s₃ : State} (h₃ : Within 0 s₂ s₃) {more : List Ty}
      (hmore : ∀ t ∈ more, t.Formed scope c.text) :
      Yields c s₃ (do
        expect (.mark .rbracket) .closeOfArgs
        return first :: more) fun args s' => Ty.FormedAll scope c.text args ∧ Within 0 s s' := by
    refine .expect_bind fun s₄ h₄ => .pure ⟨?_, (((h₁.trans h₂).trans h₃).trans h₄).le (by omega)⟩
    exact Ty.formedAll_iff.mpr (List.forall_mem_cons.mpr ⟨hfirst, hmore⟩)
  refine .eat_if (fun s₃ h₃ => ?_) fun s₃ h₃ => hend h₃ (by simp)
  have := h₂.tokens
  have := h₃.tokens
  refine (listed_yields h fuel (by omega) (hg.behind ((h₁.trans h₂).trans h₃))).bind ?_
  rintro more s₄ ⟨hmore, h₄⟩
  exact hend ((h₃.trans h₄).le (by omega)) hmore

/-- What a name shows by its first letters tells its last token. -/
theorem class_or_interface {segment : Segment} {name : TypeName} (h : segment.Ends name) :
    (name.Formed .constant ∧ name.isClass = true ∧ name.isInterface = false) ∨
      (name.Formed .interfaceName ∧ name.isClass = false ∧ name.isInterface = true) ∨
        (name.Formed .identifier ∧ name.isClass = false ∧ name.isInterface = false) := by
  obtain ⟨last, rfl | rfl | rfl, -, hname⟩ := h
  · exact .inl ⟨hname, class_of_constant (hname.name.name (.inl rfl)).2⟩
  · exact .inr (.inl ⟨hname, interface_of_interfaceName (hname.name.name (.inr (.inl rfl))).2⟩)
  · exact .inr (.inr ⟨hname, neither_of_identifier (hname.name.name (.inr (.inr rfl))).2⟩)

theorem namedType_yields (fuel : Nat) (h : Gives c (n - 1) type (Ty.Formed scope c.text)) :
    Gives c n (namedType scope type fuel) (Ty.Formed scope c.text) := by
  intro s hs hg
  unfold namedType
  refine .here_bind fun start => ?_
  refine (typeName_yields hg).bind ?_
  rintro name s₁ ⟨hname, h₁⟩
  obtain ⟨hformed, hclass, hinterface⟩ | ⟨hformed, hclass, hinterface⟩ | ⟨hformed,
      hclass, hinterface⟩ :=
    class_or_interface hname
  all_goals rw [hclass, hinterface]
  case' inl =>
    refine .ite (fun hknown => ?_) fun hfree => ?_
    · simp only [Bool.and_eq_true, List.contains_iff_mem] at hknown
      exact .span_bind fun location => .pure ⟨⟨hformed.name, hknown.2⟩, h₁⟩
  case' inr.inl => refine .ite (fun hknown => by simp at hknown) fun _ => ?_
  case' inr.inr => refine .ite (fun hknown => by simp at hknown) fun _ => ?_
  all_goals
    have := h₁.tokens
    refine (typeArgs_yields h fuel (by omega) (hg.behind h₁)).bind ?_
    rintro args s₂ ⟨hargs, h₂⟩
    refine .span_bind fun location => ?_
  case inl =>
    refine .pure ⟨⟨hformed, fun hbare hscope => hfree ?_, hargs⟩, h₁.trans h₂⟩
    simp only [TypeName.isBare, Bool.and_eq_true] at hbare
    simp [hbare.1, hbare.2, hscope]
  case inr.inl => exact .pure ⟨⟨hformed, hargs⟩, h₁.trans h₂⟩
  case inr.inr => exact .pure ⟨⟨hformed, hargs⟩, h₁.trans h₂⟩

/-- A literal that is one token is what stands at its place. -/
theorem literal_formed {t : Token} {value : Literal} (ht : t.In c.text)
    (h : literal? t.lexeme = some value) : value.Formed c.text (some t.span) := by
  have htaken := ht.taken
  generalize t.lexeme = l at h htaken
  unfold literal? at h
  split at h <;> cases h
  · exact htaken
  · intro span hspan
    cases hspan
    exact htaken
  · trivial
  · trivial
  · trivial

theorem literal_yields {l : Lexeme} {value : Literal} (hg : Standing c s)
    (hl : s.tokens.head?.map (·.lexeme) = some l) (h : literal? l = some value) :
    Yields c s (do
      advance 1
      return Ty.literal (← spanFrom (place c s)) value) fun t s' =>
        t.Formed scope c.text ∧ Within 1 s s' := by
  refine .advance_span hl fun t s₁ ht hlexeme h₁ => .pure ⟨?_, h₁⟩
  subst hlexeme
  exact literal_formed (hg t ht) h

theorem recordField_yields {key : Parser Ty} (hk : Gives c n key (Ty.Formed scope c.text))
    (h : Gives c n type (Ty.Formed scope c.text)) :
    Gives c n (recordField key type) fun field =>
      field.key.Formed c.text field.keyLocation ∧ field.type.Formed scope c.text := by
  intro s hs hg
  unfold recordField
  refine .here_bind fun start => .peek_bind fun l hl => .peekAt_bind fun m => ?_
  split
  · refine .advance_any fun s₁ h₁ => .span_bind fun keyLocation => .advance_any fun s₂ h₂ => ?_
    have := h₁.tokens
    have := h₂.tokens
    refine (h s₂ (by omega) (hg.behind (h₁.trans h₂))).bind ?_
    rintro t s₃ ⟨ht, h₃⟩
    refine .span_bind fun location => .pure ⟨⟨trivial, ht⟩, ?_⟩
    exact ((h₁.trans h₂).trans h₃).le (by omega)
  · refine (hk s hs hg).bind ?_
    rintro k s₁ ⟨hkey, h₁⟩
    split
    · refine .expect_bind fun s₂ h₂ => ?_
      have := h₁.tokens
      have := h₂.tokens
      refine (h s₂ (by omega) (hg.behind (h₁.trans h₂))).bind ?_
      rintro t s₃ ⟨ht, h₃⟩
      refine .span_bind fun location => .pure ⟨⟨hkey, ht⟩, ?_⟩
      exact ((h₁.trans h₂).trans h₃).le (by omega)
    · exact .failAt

/-- Each kind of type is read as a formed one, if the fuel is enough for the tokens. -/
structure TypesGiven (c : Context) (fuel : Nat) (scope : List String) : Prop where
  simple : ∀ n, 4 * n + 1 ≤ fuel → Gives c n (simpleType fuel scope) (Ty.Formed scope c.text)
  optional : ∀ n, 4 * n + 2 ≤ fuel → Gives c n (optionalType fuel scope) (Ty.Formed scope c.text)
  intersection : ∀ n, 4 * n + 3 ≤ fuel →
    Gives c n (Grammar.intersection fuel scope) (Ty.Formed scope c.text)
  type : ∀ n, 4 * n + 4 ≤ fuel → Gives c n (Grammar.type fuel scope) (Ty.Formed scope c.text)

variable {fuel : Nat}

theorem layer_gives {m : Mark} {build : Option Span → List Ty → Ty} {item : Parser Ty}
    (h : Gives c n item (Ty.Formed scope c.text)) (hf : 0 < fuel)
    (hb : ∀ location ts, 2 ≤ ts.length → (∀ t ∈ ts, t.Formed scope c.text) →
      (build location ts).Formed scope c.text) :
    Gives c n (layer m build item fuel) (Ty.Formed scope c.text) := by
  intro s hs hg
  unfold layer
  refine .here_bind fun start => ?_
  refine (separated_yields h fuel hs hg).bind ?_
  rintro ts s₁ ⟨hts, hne, _⟩
  obtain ⟨hne, h₁⟩ := hne hf
  split
  case _ t => exact .pure ⟨by simpa using hts, h₁⟩
  case _ hone =>
    have hlength : 2 ≤ ts.length := by
      match ts with
      | [] => exact absurd rfl hne
      | [t] => exact absurd rfl (hone t)
      | _ :: _ :: _ => simp
    exact .span_bind fun location => .pure ⟨hb location ts hlength hts, h₁⟩

theorem type_gives (h : Gives c n (intersection fuel scope) (Ty.Formed scope c.text))
    (hf : 0 < fuel) :
    Gives c n (Grammar.type (fuel + 1) scope) (Ty.Formed scope c.text) := by
  rw [type_succ]
  exact layer_gives h hf fun location ts hlength hts => ⟨hlength, Ty.formedAll_iff.mpr hts⟩

theorem intersection_gives (h : Gives c n (optionalType fuel scope) (Ty.Formed scope c.text))
    (hf : 0 < fuel) : Gives c n (intersection (fuel + 1) scope) (Ty.Formed scope c.text) := by
  rw [intersection_succ]
  exact layer_gives h hf fun location ts hlength hts => ⟨hlength, Ty.formedAll_iff.mpr hts⟩

theorem optional_gives (h : Gives c n (simpleType fuel scope) (Ty.Formed scope c.text)) :
    Gives c n (optionalType (fuel + 1) scope) (Ty.Formed scope c.text) := by
  intro s hs hg
  unfold optionalType
  refine .here_bind fun start => ?_
  refine (h s hs hg).bind ?_
  rintro t s₁ ⟨ht, h₁⟩
  refine .eat_if (fun s₂ h₂ => ?_) fun s₂ h₂ => .pure ⟨ht, h₁.trans h₂⟩
  exact .span_bind fun location => .pure ⟨ht, (h₁.trans h₂).le (by omega)⟩

theorem simple_gives (h : TypesGiven c fuel scope) (hn : 4 * n ≤ fuel) :
    Gives c n (simpleType (fuel + 1) scope) (Ty.Formed scope c.text) := by
  intro s hs hg
  -- Everything but a name is read behind a first token, which makes up for the fuel.
  have htype (hpos : 0 < s.tokens.length) :
      Gives c (s.tokens.length - 1) (Grammar.type fuel scope) (Ty.Formed scope c.text) :=
    h.type _ (by omega)
  unfold simpleType
  refine .here_place (.peek_bind fun l hl => ?_)
  split
  case _ =>
    refine .advance_bind (by omega) (tokens_of_peek hl) fun s₁ h₁ => ?_
    have := h₁.tokens
    refine (htype (tokens_of_peek hl) s₁ (by omega) (hg.behind h₁)).bind ?_
    rintro t s₂ ⟨ht, h₂⟩
    exact .expect_bind fun s₃ h₃ => .pure ⟨ht, ((h₁.trans h₂).trans h₃).le (by omega)⟩
  case _ =>
    refine .advance_any fun s₁ h₁ => .expect_bind fun s₂ h₂ => ?_
    refine (typeName_yields (hg.behind (h₁.trans h₂))).bind ?_
    rintro name s₃ ⟨hname, h₃⟩
    refine .expect_bind fun s₄ h₄ => .span_bind fun location => .pure ⟨hname.constant, ?_⟩
    exact (((h₁.trans h₂).trans h₃).trans h₄).le (by omega)
  case _ =>
    refine .advance_bind (by omega) (tokens_of_peek hl) fun s₁ h₁ => ?_
    have := h₁.tokens
    have hoptional := h.optional (s.tokens.length - 1) (by omega)
    refine (signature_yields (htype (tokens_of_peek hl)) hoptional fuel s₁ (by omega)
      (hg.behind h₁)).bind ?_
    rintro r s₂ ⟨hr, h₂⟩
    exact .span_bind fun location => .pure ⟨hr, (h₁.trans h₂).le (by omega)⟩
  case _ =>
    refine .advance_bind (by omega) (tokens_of_peek hl) fun s₁ h₁ => ?_
    have := h₁.tokens
    refine (listed_yields (htype (tokens_of_peek hl)) fuel (by omega) (hg.behind h₁)).bind ?_
    rintro ts s₂ ⟨hts, h₂⟩
    refine .expect_bind fun s₃ h₃ => .span_bind fun location => .pure ⟨Ty.formedAll_iff.mpr hts, ?_⟩
    exact ((h₁.trans h₂).trans h₃).le (by omega)
  case _ =>
    refine .advance_bind (by omega) (tokens_of_peek hl) fun s₁ h₁ => ?_
    have := h₁.tokens
    have hkey := h.simple (s.tokens.length - 1) (by omega)
    refine (listed_yields (recordField_yields hkey (htype (tokens_of_peek hl))) fuel (by omega)
      (hg.behind h₁)).bind ?_
    rintro fields s₂ ⟨hfields, h₂⟩
    refine .expect_bind fun s₃ h₃ => .span_bind fun location => ?_
    exact .pure ⟨Ty.formedFields_iff.mpr hfields, ((h₁.trans h₂).trans h₃).le (by omega)⟩
  case _ => exact namedType_yields fuel (htype (tokens_of_peek hl)) s (Nat.le_refl _) hg
  case _ => exact namedType_yields fuel (htype (tokens_of_peek hl)) s (Nat.le_refl _) hg
  case _ => exact namedType_yields fuel (htype (tokens_of_peek hl)) s (Nat.le_refl _) hg
  case _ => exact namedType_yields fuel (htype (tokens_of_peek hl)) s (Nat.le_refl _) hg
  case _ k _ =>
    split
    · refine .advance_bind (by omega) (tokens_of_peek hl) fun s₁ h₁ => ?_
      exact .span_bind fun location => .pure ⟨trivial, h₁⟩
    case _ hvalue => exact literal_yields hg hl hvalue
    · exact .failMissing
  case _ =>
    split
    case _ hvalue => exact literal_yields hg hl hvalue
    · exact .failMissing
  case _ => exact .failMissing

theorem types_given (c : Context) (fuel : Nat) (scope : List String) : TypesGiven c fuel scope := by
  induction fuel with
  | zero =>
    constructor <;> (intro n hn; omega)
  | succ fuel ih =>
    constructor
    · exact fun n hn => simple_gives ih (by omega)
    · exact fun n hn => optional_gives (ih.simple n (by omega))
    · exact fun n hn => intersection_gives (ih.optional n (by omega)) (by omega)
    · exact fun n hn => type_gives (ih.intersection n (by omega)) (by omega)

end RubySig.Grammar
