import RubySig.Proofs.Tree.Passed
import RubySig.Proofs.Tree.TyYields

/-! Types have their places from the tokens that they are read from. -/
namespace RubySig.Grammar

open Outline (Placed Lined placed_literal)

variable {c : Context} {s : State} {n fuel : Nat} {w v : List Token} {type result : Parser Ty}
  {scope : List String}

/-- A type has its place from some of these tokens, and its parts from some of its own. -/
abbrev TyPlaced (w : List Token) (t : Ty) : Prop := Placed w t.outline

theorem TyPlaced.ne_nil {t : Ty} (h : TyPlaced w t) : w ≠ [] := by
  cases t <;> exact Placed.ne_nil h

theorem signature_ne_nil {signature : Signature} (h : Placed w (signatureOutline signature)) :
    w ≠ [] := by
  cases signature
  exact Placed.ne_nil h

theorem typeName_covers {segment : Segment} {role : Role} :
    Passes c s (typeName segment role) fun w name => Placed w name.outline := by
  unfold typeName
  refine .here_place (.eat_any fun absolute w₁ s₁ h₁ => ?_)
  refine .get_bind (.advance_passed fun w₂ s₂ h₂ => .peek_bind fun l hl => ?_)
  split
  case _ => exact .failMissing
  case _ name hname =>
    obtain ⟨l, rfl, -⟩ := Option.bind_eq_some_iff.mp hname
    refine .advance_next hl fun t s₃ _ h₃ => ?_
    have h := (h₁.trans h₂).trans h₃
    refine .span_cover h (by simp) (.pure ⟨_, h, ?_⟩)
    apply Placed.whole (by simp) (by decide)
    have hpath (path : List String) : Lined (w₁ ++ w₂ ++ [t]) (path.map .str) :=
      Lined.of_forall (by simp)
    simpa [Outline.ofList] using hpath _

theorem param_covers (h : Covers c n type TyPlaced) :
    Covers c n (param type) fun w p => Placed w (paramOutline p) := by
  intro s hs
  unfold param
  refine .here_place ((h s hs).bind ?_)
  rintro t s₁ ⟨w₁, h₁, ht⟩
  have hparam {w : List Token} (hw : TyPlaced w t) (name : Option String) :
      Placed w (paramOutline ⟨Token.cover w, t, name⟩) := by
    apply Placed.whole hw.ne_nil (by decide)
    simpa using hw
  refine .peek_bind fun l hl => ?_
  split
  case _ name hname =>
    obtain ⟨l, rfl, -⟩ := Option.bind_eq_some_iff.mp hname
    refine .advance_next hl fun u s₂ _ h₂ => ?_
    refine .span_cover (h₁.trans h₂) (by simp) (.pure ⟨_, h₁.trans h₂, ?_⟩)
    exact hparam (Placed.left ht [u]) (some name)
  case _ => exact .span_cover h₁ ht.ne_nil (.pure ⟨_, h₁, hparam ht none⟩)

/-- Parameters of each kind have their places from tokens, one behind the other. -/
structure Params.Arranged (w : List Token) (ps : Params) : Prop where
  required : Lined w (ps.required.map paramOutline)
  optional : Lined w (ps.optional.map paramOutline)
  rest : Placed w (paramOutline? ps.rest)
  trailing : Lined w (ps.trailing.map paramOutline)
  requiredKeywords : Lined w (ps.requiredKeywords.map fun p => paramOutline p.2)
  optionalKeywords : Lined w (ps.optionalKeywords.map fun p => paramOutline p.2)
  restKeywords : Placed w (paramOutline? ps.restKeywords)

namespace Params.Arranged

variable {ps : Params}

theorem empty : Params.empty.Arranged w := by
  constructor <;> simp [Params.empty, paramOutline?]

theorem mono (h : ps.Arranged w) (hw : w <:+: v) : ps.Arranged v where
  required := h.required.mono hw
  optional := h.optional.mono hw
  rest := h.rest.mono hw
  trailing := h.trailing.mono hw
  requiredKeywords := h.requiredKeywords.mono hw
  optionalKeywords := h.optionalKeywords.mono hw
  restKeywords := h.restKeywords.mono hw

theorem left (h : ps.Arranged w) (v : List Token) : ps.Arranged (w ++ v) :=
  h.mono (List.prefix_append w v).isInfix

theorem right (h : ps.Arranged v) (w : List Token) : ps.Arranged (w ++ v) :=
  h.mono (List.suffix_append w v).isInfix

/-- One more parameter, behind those of its kind. -/
theorem add (h : ps.Arranged w) {slot : ParamSlot} (hp : Placed v (paramOutline slot.param)) :
    (ps.add slot).Arranged (w ++ v) := by
  have hleft := h.left v
  have snoc {α : Type} {f : α → Outline} {as : List α} {a : α} (has : Lined w (as.map f))
      (ha : Placed v (f a)) : Lined (w ++ v) ((as ++ [a]).map f) := by
    rw [List.map_append]
    exact has.snoc ha
  cases slot with
  | required p => exact { hleft with required := snoc h.required hp }
  | optional p => exact { hleft with optional := snoc h.optional hp }
  | rest p => exact { hleft with rest := Placed.right hp w }
  | trailing p => exact { hleft with trailing := snoc h.trailing hp }
  | restKeywords p => exact { hleft with restKeywords := Placed.right hp w }
  | keyword name optional p =>
    cases optional with
    | true =>
      have hkeywords := snoc (a := (name, p)) h.optionalKeywords hp
      exact { hleft with optionalKeywords := hkeywords }
    | false =>
      have hkeywords := snoc (a := (name, p)) h.requiredKeywords hp
      exact { hleft with requiredKeywords := hkeywords }

theorem signature (h : ps.Arranged w) {r : Ty} (hr : TyPlaced w r) :
    Placed w (signatureOutline (ps.signature (Token.cover w) r)) := by
  apply Placed.whole hr.ne_nil (by decide)
  simpa [Params.signature, paramOutlines_eq_map, keywordOutlines_eq_map, Function.comp_def] using
    ⟨hr, h.required, h.optional, h.rest, h.trailing, h.requiredKeywords, h.optionalKeywords,
      h.restKeywords⟩

end Params.Arranged

theorem slot_covers {stage : Stage} {ps : Params} (h : Covers c n type TyPlaced)
    (hs : s.tokens.length ≤ n) (hps : ps.Arranged w) :
    Passes c s (slot type stage ps) fun v r => r.2.Arranged (w ++ v) := by
  have hparam {v : List Token} {s₁ : State} (h₁ : Passed v s s₁) :
      Yields c s₁ (param type) fun p s' =>
      ∃ v, Passed v s s' ∧ ∀ slot, ParamSlot.param slot = p → (ps.add slot).Arranged (w ++ v) := by
    have := h₁.length
    refine (param_covers h s₁ (by omega)).imp ?_
    rintro p s₂ ⟨v₂, h₂, hp⟩
    refine ⟨v ++ v₂, h₁.trans h₂, ?_⟩
    rintro slot rfl
    rw [← List.append_assoc]
    exact (hps.left v).add hp
  -- Only keywords are looked at again before they are added.
  have hadded {v : List Token} {s₁ : State} (h₁ : Passed v s s₁) (next : Stage)
      (build : Param → ParamSlot) (hbuild : ∀ p, (build p).param = p) : Yields c s₁ (do
        let p ← param type
        return (next, ps.add (build p))) fun r s' =>
          ∃ v, Passed v s s' ∧ r.2.Arranged (w ++ v) := by
    refine (hparam h₁).bind ?_
    rintro p s₂ ⟨v₂, h₂, hp⟩
    exact .pure ⟨v₂, h₂, hp (build p) (hbuild p)⟩
  unfold slot
  refine keywordParam_stays.bind fun keyword s₁ h₁ => ?_
  subst h₁
  split
  case _ name optional =>
    refine .advance_passed fun v s₁ h₁ => (hparam h₁).bind ?_
    rintro p s₂ ⟨v, h₂, hp⟩
    refine .ite (fun _ => .lastPlace_bind fun q => .failAt) fun _ => ?_
    cases optional with
    | true => exact .pure ⟨v, h₂, hp (.keyword name true p) rfl⟩
    | false => exact .pure ⟨v, h₂, hp (.keyword name false p) rfl⟩
  case _ =>
    refine .eat_next (fun t s₁ _ h₁ => ?_) ?_
    · refine .ite (fun _ => .lastPlace_bind fun q => .failAt) fun _ => ?_
      exact hadded h₁ .done .restKeywords fun p => rfl
    refine .ite (fun _ => .failHere) fun _ => .eat_next (fun t s₁ _ h₁ => ?_) ?_
    · refine .ite (fun _ => ?_) fun _ => .lastPlace_bind fun q => .failAt
      exact hadded h₁ .optional .optional fun p => rfl
    refine .eat_next (fun t s₁ _ h₁ => ?_) ?_
    · refine .ite (fun _ => ?_) fun _ => .lastPlace_bind fun q => .failAt
      exact hadded h₁ .trailing .rest fun p => rfl
    · split
      · exact hadded (.refl _) .required .required fun p => rfl
      · exact hadded (.refl _) .trailing .trailing fun p => rfl
      · exact .failHere

theorem params_covers {stage : Stage} {ps : Params} (h : Covers c n type TyPlaced) (fuel : Nat)
    (hs : s.tokens.length ≤ n) (hps : ps.Arranged w) :
    Passes c s (params type fuel stage ps) fun v qs => qs.Arranged (w ++ v) := by
  induction fuel generalizing s stage ps w with
  | zero =>
    unfold params
    exact .pure ⟨[], .refl s, by simpa using hps⟩
  | succ fuel ih =>
    rw [params_succ]
    refine .isNext_if (fun _ => .pure ⟨[], .refl s, by simpa using hps⟩) ?_
    refine (slot_covers h hs hps).bind ?_
    rintro ⟨stage, qs⟩ s₁ ⟨w₁, h₁, hqs⟩
    refine .eat_next (fun t s₂ _ h₂ => ?_) (.pure ⟨w₁, h₁, hqs⟩)
    have := h₁.length
    have := h₂.length
    refine (ih (s := s₂) (by omega) (hqs.left [t])).imp ?_
    rintro rs s₃ ⟨w₃, h₃, hrs⟩
    exact ⟨_, (h₁.trans h₂).trans h₃, by simpa using hrs⟩

theorem paramList_covers (h : Covers c n type TyPlaced) (fuel : Nat) (hs : s.tokens.length ≤ n) :
    Passes c s (paramList type fuel) fun w ps => ps.Arranged w := by
  unfold paramList
  refine .eat_next (fun t s₁ _ h₁ => ?_) (.pure ⟨[], .refl s, .empty⟩)
  have := h₁.length
  refine (params_covers h fuel (by omega) (.empty (w := [t]))).bind ?_
  rintro ps s₂ ⟨w₂, h₂, hps⟩
  refine .expect_next fun u s₃ _ h₃ => .pure ⟨_, (h₁.trans h₂).trans h₃, ?_⟩
  exact hps.left [u]

theorem blockClause_covers (h : Covers c n type TyPlaced) (hr : Covers c n result TyPlaced)
    (fuel : Nat) (hs : s.tokens.length ≤ n) :
    Passes c s (blockClause type result fuel) fun w block => Placed w (blockOutline? block) := by
  unfold blockClause
  have inside (required : Bool) {w₁ : List Token} {s₁ : State} (h₁ : Passed w₁ s s₁) :
      Yields c s₁ (do
        let ps ← paramList type fuel
        expect (.mark .arrow) .arrowOfBlock
        let r ← result
        let inner := ps.signature (← spanFrom (place c s)) r
        expect (.mark .rbrace) .closeOfBlock
        return some ⟨← spanFrom (place c s), inner, required⟩) fun block s' =>
          ∃ w, Passed w s s' ∧ Placed w (blockOutline? block) := by
    have := h₁.length
    refine (paramList_covers h fuel (by omega)).bind ?_
    rintro ps s₂ ⟨w₂, h₂, hps⟩
    refine .expect_next fun t s₃ _ h₃ => ?_
    have := h₂.length
    have := h₃.length
    refine (hr s₃ (by omega)).bind ?_
    rintro r s₄ ⟨w₄, h₄, hr⟩
    have hinner := ((h₁.trans h₂).trans h₃).trans h₄
    refine .span_cover hinner (by simp) (.expect_next fun u s₅ _ h₅ => ?_)
    refine .span_cover (hinner.trans h₅) (by simp) (.pure ⟨_, hinner.trans h₅, ?_⟩)
    have hsignature := (((hps.right w₁).left [t]).left w₄).signature (Placed.right hr _)
    apply Placed.whole (by simp) (by decide)
    simpa using hsignature.left [u]
  refine .here_place (.isNext_bind fun b => ?_)
  cases b with
  | true =>
    refine .peekAt_bind fun brace => .ite (fun _ => ?_) fun _ => .pure ⟨[], .refl s, .scalar⟩
    exact .advance_passed fun w₁ s₁ h₁ => inside false h₁
  | false =>
    refine .peek_bind fun brace _ => .ite (fun _ => ?_) fun _ => .pure ⟨[], .refl s, .scalar⟩
    exact .advance_passed fun w₁ s₁ h₁ => inside true h₁

theorem signature_covers (h : Covers c n type TyPlaced) (hr : Covers c n result TyPlaced)
    (fuel : Nat) : Covers c n (signature type result fuel) fun w r =>
      Placed w (signatureOutline r.1) ∧ Placed w (blockOutline? r.2) := by
  intro s hs
  unfold signature
  refine .here_place ((paramList_covers h fuel hs).bind ?_)
  rintro ps s₁ ⟨w₁, h₁, hps⟩
  have := h₁.length
  refine (blockClause_covers h hr fuel (by omega)).bind ?_
  rintro block s₂ ⟨w₂, h₂, hblock⟩
  refine .expect_next fun t s₃ _ h₃ => ?_
  have := h₂.length
  have := h₃.length
  refine (hr s₃ (by omega)).bind ?_
  rintro r s₄ ⟨w₄, h₄, hr⟩
  have hall := ((h₁.trans h₂).trans h₃).trans h₄
  refine .span_cover hall (by simp) (.pure ⟨_, hall, ?_, ?_⟩)
  · exact (((hps.left w₂).left [t]).left w₄).signature (Placed.right hr _)
  · exact ((hblock.right w₁).left [t]).left w₄

theorem typeArgs_covers (h : Covers c n type TyPlaced) (fuel : Nat) (hs : s.tokens.length ≤ n) :
    Passes c s (typeArgs type fuel) fun w args => Lined w (tyOutlines args) := by
  unfold typeArgs
  refine .eat_next (fun t s₁ _ h₁ => ?_) (.pure ⟨[], .refl s, .nil⟩)
  have := h₁.length
  refine (h s₁ (by omega)).bind ?_
  rintro first s₂ ⟨w₂, h₂, hfirst⟩
  have hend {w₃ : List Token} {s₃ : State} (h₃ : Passed w₃ s₂ s₃) {more : List Ty}
      (hmore : Lined w₃ (more.map Ty.outline)) : Yields c s₃ (do
        expect (.mark .rbracket) .closeOfArgs
        return first :: more) fun args s' => ∃ w, Passed w s s' ∧ Lined w (tyOutlines args) := by
    refine .expect_next fun u s₄ _ h₄ => .pure ⟨_, (h₁.trans (h₂.trans h₃)).trans h₄, ?_⟩
    rw [tyOutlines_eq_map]
    exact ((Lined.front hfirst hmore).right [t]).left [u]
  refine .eat_next (fun u s₃ _ h₃ => ?_) (hend (.refl s₂) .nil)
  have := h₂.length
  have := h₃.length
  refine (listed_covers h fuel (by omega)).bind ?_
  rintro more s₄ ⟨w₄, h₄, hmore⟩
  exact hend (h₃.trans h₄) (hmore.right [u])

theorem namedType_covers (fuel : Nat) (h : Covers c (n - 1) type TyPlaced) :
    Covers c n (namedType scope type fuel) TyPlaced := by
  intro s hs
  unfold namedType
  refine .here_place (typeName_covers.bind ?_)
  rintro name s₁ ⟨w₁, h₁, hname⟩
  have hw₁ : 0 < w₁.length := List.length_pos_iff.mpr hname.ne_nil
  refine .ite (fun _ => .span_cover h₁ hname.ne_nil (.pure ⟨w₁, h₁, ?_⟩)) fun _ => ?_
  · exact Placed.whole hname.ne_nil (by decide) (by simp)
  have := h₁.length
  refine (typeArgs_covers h fuel (by omega)).bind ?_
  rintro args s₂ ⟨w₂, h₂, hargs⟩
  have hne : w₁ ++ w₂ ≠ [] := by simp [hname.ne_nil]
  refine .span_cover (h₁.trans h₂) hne ?_
  have hnamed {kind : NodeKind} (hk : kind ≠ .literalType) : Placed (w₁ ++ w₂)
      (.node kind (Token.cover (w₁ ++ w₂)) .none
        [("name", name.outline), ("args", .list (tyOutlines args))]) := by
    apply Placed.whole hne hk
    simpa using ⟨hname.left w₂, hargs.right w₁⟩
  refine .ite (fun _ => .pure ⟨_, h₁.trans h₂, hnamed (by decide)⟩) fun _ => ?_
  refine .ite (fun _ => .pure ⟨_, h₁.trans h₂, hnamed (by decide)⟩) fun _ => ?_
  exact .pure ⟨_, h₁.trans h₂, hnamed (by decide)⟩

theorem recordField_covers {key : Parser Ty} (hk : Covers c n key TyPlaced)
    (h : Covers c n type TyPlaced) :
    Covers c n (recordField key type) fun w field => Placed w field.outline := by
  intro s hs
  unfold recordField
  refine .here_place (.peek_bind fun l hl => .peekAt_bind fun m => ?_)
  have hfield {w v : List Token} {keyLocation : Option Span} {key : Literal} {t : Ty}
      (hkey : Placed w (key.outline keyLocation)) (ht : TyPlaced v t) (u : List Token) :
      Placed (w ++ u ++ v) (Field.outline ⟨Token.cover (w ++ u ++ v), keyLocation, key, t⟩) := by
    have hparts : Placed (w ++ u ++ v) (key.outline keyLocation) ∧ TyPlaced (w ++ u ++ v) t :=
      ⟨(hkey.left u).left v, Placed.right ht _⟩
    apply Placed.whole hparts.2.ne_nil (by decide)
    simpa using hparts
  split
  case _ _ _ name hname =>
    obtain ⟨l, rfl, -⟩ := Option.bind_eq_some_iff.mp hname
    refine .advance_next hl fun t s₁ _ h₁ => .span_cover h₁ (by simp) ?_
    refine .advance_passed fun w₂ s₂ h₂ => ?_
    have := h₁.length
    have := h₂.length
    refine (h s₂ (by omega)).bind ?_
    rintro u s₃ ⟨w₃, h₃, hu⟩
    have hall := (h₁.trans h₂).trans h₃
    refine .span_cover hall (by simp) (.pure ⟨_, hall, hfield ?_ hu w₂⟩)
    exact placed_literal (by simp)
  · refine (hk s hs).bind ?_
    rintro k s₁ ⟨w₁, h₁, hkey⟩
    split
    · refine .expect_next fun u s₂ _ h₂ => ?_
      have := h₁.length
      have := h₂.length
      refine (h s₂ (by omega)).bind ?_
      rintro t s₃ ⟨w₃, h₃, ht⟩
      have hall := (h₁.trans h₂).trans h₃
      exact .span_cover hall (by simp) (.pure ⟨_, hall, hfield hkey ht [u]⟩)
    · exact .failAt

/-- Each kind of type has its place from the tokens it is read from, if the fuel is enough for
them. -/
structure TypesPlaced (c : Context) (fuel : Nat) (scope : List String) : Prop where
  simple : ∀ n, 4 * n + 1 ≤ fuel → Covers c n (simpleType fuel scope) TyPlaced
  optional : ∀ n, 4 * n + 2 ≤ fuel → Covers c n (optionalType fuel scope) TyPlaced
  intersection : ∀ n, 4 * n + 3 ≤ fuel → Covers c n (Grammar.intersection fuel scope) TyPlaced
  type : ∀ n, 4 * n + 4 ≤ fuel → Covers c n (Grammar.type fuel scope) TyPlaced

theorem layer_covers {m : Mark} {build : Option Span → List Ty → Ty} {item : Parser Ty}
    {kind : NodeKind} (h : Covers c n item TyPlaced) (hf : 0 < fuel) (hk : kind ≠ .literalType)
    (hb : ∀ location ts, (build location ts).outline =
      .node kind location .none [("types", .list (tyOutlines ts))]) :
    Covers c n (layer m build item fuel) TyPlaced := by
  intro s hs
  unfold layer
  refine .here_place ((separated_covers h (fun w t ht => TyPlaced.ne_nil ht) fuel hs).bind ?_)
  rintro ts s₁ ⟨w, hpassed, hts, hne⟩
  obtain ⟨-, hw⟩ := hne hf
  split
  case _ t =>
    refine .pure ⟨w, hpassed, ?_⟩
    cases hts with
    | cons hab ht _ => exact (ht.left _).mono hab
  case _ =>
    refine .span_cover hpassed hw (.pure ⟨w, hpassed, ?_⟩)
    rw [TyPlaced, hb]
    apply Placed.whole hw hk
    simpa [tyOutlines_eq_map] using hts

theorem optional_covers (h : Covers c n (simpleType fuel scope) TyPlaced) :
    Covers c n (optionalType (fuel + 1) scope) TyPlaced := by
  intro s hs
  unfold optionalType
  refine .here_place ((h s hs).bind ?_)
  rintro t s₁ ⟨w₁, h₁, ht⟩
  refine .eat_next (fun u s₂ _ h₂ => ?_) (.pure ⟨w₁, h₁, ht⟩)
  refine .span_cover (h₁.trans h₂) (by simp) (.pure ⟨_, h₁.trans h₂, ?_⟩)
  apply Placed.whole (by simp) (by decide)
  simpa using Placed.left ht [u]

/-- Only the token of a string is read as that string. -/
theorem lexeme_of_string {l : Lexeme} {v : String} (h : literal? l = some (.string v)) :
    l = .string v := by
  unfold literal? at h
  split at h <;> cases h
  rfl

theorem simple_covers (h : TypesPlaced c fuel scope) (hn : 4 * n ≤ fuel) :
    Covers c n (simpleType (fuel + 1) scope) TyPlaced := by
  intro s hs
  -- Everything but a name is read behind a first token, which makes up for the fuel.
  have htype (hpos : 0 < s.tokens.length) :
      Covers c (s.tokens.length - 1) (Grammar.type fuel scope) TyPlaced :=
    h.type _ (by omega)
  have hname (hpos : 0 < s.tokens.length) : Passes c s
      (namedType scope (Grammar.type fuel scope) fuel) TyPlaced :=
    namedType_covers fuel (htype hpos) s (Nat.le_refl _)
  have hliteral {l : Lexeme} (hl : s.tokens.head?.map (·.lexeme) = some l) {value : Literal}
      (hvalue : literal? l = some value) : Passes c s (do
        advance 1
        return .literal (← spanFrom (place c s)) value) TyPlaced := by
    refine .advance_next hl fun t s₁ ht h₁ => .span_cover h₁ (by simp) (.pure ⟨[t], h₁, ?_⟩)
    apply placed_literal
    rintro v rfl
    exact ht.trans (lexeme_of_string hvalue)
  unfold simpleType
  refine .here_place (.peek_bind fun l hl => ?_)
  split
  case _ =>
    refine .advance_next hl fun t s₁ _ h₁ => ?_
    have := h₁.length_one
    refine (htype (tokens_of_peek hl) s₁ (by omega)).bind ?_
    rintro u s₂ ⟨w₂, h₂, hu⟩
    refine .expect_next fun v s₃ _ h₃ => .pure ⟨_, (h₁.trans h₂).trans h₃, ?_⟩
    exact (Placed.right hu [t]).left [v]
  case _ =>
    refine .advance_next hl fun t s₁ _ h₁ => .expect_next fun u s₂ _ h₂ => ?_
    refine typeName_covers.bind ?_
    rintro name s₃ ⟨w₃, h₃, hname⟩
    refine .expect_next fun v s₄ _ h₄ => ?_
    have hall := ((h₁.trans h₂).trans h₃).trans h₄
    refine .span_cover hall (by simp) (.pure ⟨_, hall, ?_⟩)
    apply Placed.whole (by simp) (by decide)
    simpa using (hname.right ([t] ++ [u])).left [v]
  case _ =>
    refine .advance_next hl fun t s₁ _ h₁ => ?_
    have := h₁.length_one
    have hoptional := h.optional (s.tokens.length - 1) (by omega)
    refine (signature_covers (htype (tokens_of_peek hl)) hoptional fuel s₁ (by omega)).bind ?_
    rintro r s₂ ⟨w₂, h₂, hsignature, hblock⟩
    refine .span_cover (h₁.trans h₂) (by simp) (.pure ⟨_, h₁.trans h₂, ?_⟩)
    apply Placed.whole (by simp) (by decide)
    simpa using And.intro (hsignature.right [t]) (hblock.right [t])
  case _ =>
    refine .advance_next hl fun t s₁ _ h₁ => ?_
    have := h₁.length_one
    refine (listed_covers (htype (tokens_of_peek hl)) fuel (by omega)).bind ?_
    rintro ts s₂ ⟨w₂, h₂, hts⟩
    refine .expect_next fun v s₃ _ h₃ => ?_
    have hall := (h₁.trans h₂).trans h₃
    refine .span_cover hall (by simp) (.pure ⟨_, hall, ?_⟩)
    apply Placed.whole (by simp) (by decide)
    simpa [tyOutlines_eq_map] using (hts.right [t]).left [v]
  case _ =>
    refine .advance_next hl fun t s₁ _ h₁ => ?_
    have := h₁.length_one
    have hkey := h.simple (s.tokens.length - 1) (by omega)
    refine (listed_covers (recordField_covers hkey (htype (tokens_of_peek hl))) fuel
      (by omega)).bind ?_
    rintro fields s₂ ⟨w₂, h₂, hfields⟩
    refine .expect_next fun v s₃ _ h₃ => ?_
    have hall := (h₁.trans h₂).trans h₃
    refine .span_cover hall (by simp) (.pure ⟨_, hall, ?_⟩)
    apply Placed.whole (by simp) (by decide)
    simpa [fieldOutlines_eq_map] using (hfields.right [t]).left [v]
  case _ => exact hname (tokens_of_peek hl)
  case _ => exact hname (tokens_of_peek hl)
  case _ => exact hname (tokens_of_peek hl)
  case _ => exact hname (tokens_of_peek hl)
  case _ =>
    split
    case _ =>
      refine .advance_next hl fun t s₁ _ h₁ => .span_cover h₁ (by simp) (.pure ⟨[t], h₁, ?_⟩)
      exact Placed.whole (by simp) (by decide) (by simp)
    case _ value _ hvalue => exact hliteral hl hvalue
    case _ => exact .failMissing
  case _ =>
    split
    case _ value hvalue => exact hliteral hl hvalue
    case _ => exact .failMissing
  case _ => exact .failMissing

theorem types_placed (c : Context) (fuel : Nat) (scope : List String) :
    TypesPlaced c fuel scope := by
  induction fuel with
  | zero =>
    constructor <;> (intro n hn; omega)
  | succ fuel ih =>
    constructor
    · exact fun n hn => simple_covers ih (by omega)
    · exact fun n hn => optional_covers (ih.simple n (by omega))
    · intro n hn
      rw [intersection_succ]
      exact layer_covers (ih.optional n (by omega)) (by omega) (by decide) fun _ _ => rfl
    · intro n hn
      rw [type_succ]
      exact layer_covers (ih.intersection n (by omega)) (by omega) (by decide) fun _ _ => rfl

end RubySig.Grammar
