import RubySig.Proofs.Tree.MethodReads
import RubySig.Proofs.Tree.TyPlaces

/-! Members have their places from the tokens that they are read from. -/
namespace RubySig.Grammar

open Outline (Placed Lined)

variable {c : Context} {s : State} {n fuel : Nat} {w : List Token} {scope : List String}

theorem type_covers (hn : 4 * n + 4 ≤ fuel) : Covers c n (type fuel scope) TyPlaced :=
  (types_placed c fuel scope).type n hn

theorem variance_passes : Passes c s variance fun _ _ => True := by
  unfold variance
  refine .eat_next (fun t s₁ _ h₁ => .pure ⟨_, h₁, trivial⟩) ?_
  exact .eat_next (fun t s₁ _ h₁ => .pure ⟨_, h₁, trivial⟩) (.pure ⟨_, .refl s, trivial⟩)

theorem bound_covers (hn : 4 * n + 4 ≤ fuel) (hs : s.tokens.length ≤ n) :
    Passes c s (bound fuel scope) fun w b => Placed w ((b.map Ty.outline).getD .null) := by
  unfold bound
  refine .eat_next (fun t s₁ _ h₁ => ?_) (.pure ⟨_, .refl s, .scalar⟩)
  have := h₁.length_one
  refine (type_covers hn s₁ (by omega)).bind ?_
  rintro u s₂ ⟨w₂, h₂, hu⟩
  exact .pure ⟨_, h₁.trans h₂, Placed.right hu [t]⟩

theorem typeParam_covers (hn : 4 * n + 4 ≤ fuel) :
    Covers c n (typeParam fuel scope) fun w p => Placed w p.outline := by
  intro s hs
  unfold typeParam
  refine .here_place (.eat_any fun unchecked w₁ s₁ h₁ => variance_passes.bind ?_)
  rintro variance s₂ ⟨w₂, h₂, -⟩
  refine .peek_bind fun l hl => ?_
  split
  · refine .advance_next hl fun t s₃ _ h₃ => ?_
    have := h₁.length
    have := h₂.length
    have := h₃.length
    refine (bound_covers hn (by omega)).bind ?_
    rintro b s₄ ⟨w₄, h₄, hb⟩
    have hall := ((h₁.trans h₂).trans h₃).trans h₄
    refine .span_cover hall (by simp) (.pure ⟨_, hall, ?_⟩)
    apply Placed.whole (by simp) (by decide)
    have hbound := hb.right (w₁ ++ w₂ ++ [t])
    simpa using hbound
  · exact .failMissing

theorem typeParams_covers (hn : 4 * n + 4 ≤ fuel) (hs : s.tokens.length ≤ n) :
    Passes c s (typeParams fuel scope) fun w ps => Lined w (ps.map TypeParam.outline) := by
  have from_ (k : Nat) {s : State} (scope : List String) (hs : s.tokens.length ≤ n) :
      Passes c s (typeParamsFrom fuel k scope) fun w ps => Lined w (ps.map TypeParam.outline) := by
    induction k generalizing s scope with
    | zero =>
      unfold typeParamsFrom
      exact .pure ⟨[], .refl s, .nil⟩
    | succ k ih =>
      rw [typeParamsFrom_succ]
      refine .isNext_if (fun _ => .pure ⟨[], .refl s, .nil⟩) ?_
      refine (typeParam_covers hn s hs).bind ?_
      rintro p s₁ ⟨w₁, h₁, hp⟩
      refine .eat_next (fun t s₂ _ h₂ => ?_) (.pure ⟨w₁, h₁, .single hp⟩)
      have := h₁.length
      have := h₂.length
      refine (ih (s := s₂) (p.name :: scope) (by omega)).bind ?_
      rintro ps s₃ ⟨w₃, h₃, hps⟩
      refine .pure ⟨_, h₁.trans (h₂.trans h₃), .front hp (hps.right [t])⟩
  unfold typeParams
  refine .eat_next (fun t s₁ _ h₁ => ?_) (.pure ⟨[], .refl s, .nil⟩)
  have := h₁.length
  refine (from_ fuel scope (by omega)).bind ?_
  rintro ps s₂ ⟨w₂, h₂, hps⟩
  refine .expect_next fun u s₃ _ h₃ => .pure ⟨_, (h₁.trans h₂).trans h₃, ?_⟩
  exact (hps.right [t]).left [u]

theorem classRef_covers {segment : Segment} {role : Role} (hn : 4 * n + 4 ≤ fuel) :
    Covers c n (classRef segment role fuel scope) fun w r => Placed w r.outline := by
  intro s hs
  unfold classRef
  refine .here_place (typeName_covers.bind ?_)
  rintro name s₁ ⟨w₁, h₁, hname⟩
  refine .ite (fun _ => .failAt) fun _ => ?_
  have := h₁.length
  refine (typeArgs_covers (type_covers hn) fuel (by omega)).bind ?_
  rintro args s₂ ⟨w₂, h₂, hargs⟩
  have hne : w₁ ++ w₂ ≠ [] := by simp [hname.ne_nil]
  refine .span_cover (h₁.trans h₂) hne (.pure ⟨_, h₁.trans h₂, ?_⟩)
  apply Placed.whole hne (by decide)
  simpa using And.intro (hname.left w₂) (hargs.right w₁)

theorem notes_passes : Passes c s notes fun _ _ => True := by
  unfold notes
  exact .get_bind (.advance_passed fun w s₁ h₁ => .pure ⟨w, h₁, trivial⟩)

theorem methodName_passes : Passes c s methodName fun _ _ => True := by
  unfold methodName
  refine .get_bind ?_
  split
  · exact .advance_passed fun w s₁ h₁ => .pure ⟨w, h₁, trivial⟩
  · exact .failMissing
  · refine .read_bind ?_
    split
    · exact .failMissing
    · exact .get_bind (.advance_passed fun w s₁ h₁ => .pure ⟨w, h₁, trivial⟩)

theorem methodType_covers (hn : 4 * n + 4 ≤ fuel) :
    Covers c n (methodType fuel scope) fun w m => Placed w m.outline := by
  intro s hs
  unfold methodType
  refine .here_place ((typeParams_covers hn hs).bind ?_)
  rintro ps s₁ ⟨w₁, h₁, hps⟩
  have := h₁.length
  have hresult := (types_placed c fuel (within ps scope)).optional n (by omega)
  refine (signature_covers (type_covers hn) hresult fuel s₁ (by omega)).bind ?_
  rintro r s₂ ⟨w₂, h₂, hsignature, hblock⟩
  have hw₂ : w₂ ≠ [] := signature_ne_nil hsignature
  have hne : w₁ ++ w₂ ≠ [] := by simp [hw₂]
  refine .span_cover (h₁.trans h₂) hne (.pure ⟨_, h₁.trans h₂, ?_⟩)
  apply Placed.whole hne (by decide)
  simpa [Outline.ofList] using ⟨hsignature.right w₁, hps.left w₂, hblock.right w₁⟩

theorem overload_covers (hn : 4 * n + 4 ≤ fuel) :
    Covers c n (overload fuel scope) fun w o => Placed w o.outline := by
  intro s hs
  unfold overload
  refine .here_place (notes_passes.bind ?_)
  rintro ns s₁ ⟨w₁, h₁, -⟩
  have := h₁.length
  refine (methodType_covers hn s₁ (by omega)).bind ?_
  rintro m s₂ ⟨w₂, h₂, hm⟩
  have hplaced := hm.right w₁
  refine .span_cover (h₁.trans h₂) hplaced.ne_nil (.pure ⟨_, h₁.trans h₂, ?_⟩)
  apply Placed.whole hplaced.ne_nil (by decide)
  simpa using hplaced

theorem overloads_covers (hn : 4 * n + 4 ≤ fuel) (k : Nat) (hs : s.tokens.length ≤ n) :
    Passes c s (overloads fuel scope k) fun w r => Lined w (r.1.map Overload.outline) := by
  induction k generalizing s with
  | zero =>
    unfold overloads
    exact .pure ⟨[], .refl s, .nil⟩
  | succ k ih =>
    rw [overloads_succ]
    refine .eat_next (fun t s₁ _ h₁ => .pure ⟨_, h₁, .nil⟩) ?_
    refine (overload_covers hn s hs).bind ?_
    rintro o s₁ ⟨w₁, h₁, ho⟩
    refine .eat_next (fun t s₂ _ h₂ => ?_) (.pure ⟨w₁, h₁, .single ho⟩)
    have := h₁.length
    have := h₂.length
    refine (ih (s := s₂) (by omega)).bind ?_
    rintro r s₃ ⟨w₃, h₃, hr⟩
    exact .pure ⟨_, h₁.trans (h₂.trans h₃), .front ho (hr.right [t])⟩

theorem selfDot_passes : Passes c s selfDot fun _ _ => True := by
  unfold selfDot
  refine .isNext_bind fun b => .peekAt_bind fun l => .ite (fun _ => ?_) fun _ => ?_
  · exact .advance_passed fun w s₁ h₁ => .pure ⟨w, h₁, trivial⟩
  · exact .pure ⟨_, .refl s, trivial⟩

theorem methodLevel_passes : Passes c s methodLevel fun _ _ => True := by
  unfold methodLevel
  refine selfDot_passes.bind ?_
  rintro b s₁ ⟨w₁, h₁, -⟩
  refine .ite (fun _ => .pure ⟨w₁, h₁, trivial⟩) fun _ => ?_
  refine .isNext_bind fun b => .peekAt_bind fun l => .peekAt_bind fun m =>
    .ite (fun _ => ?_) fun _ => ?_
  · exact .advance_passed fun w s₂ h₂ => .pure ⟨_, h₁.trans h₂, trivial⟩
  · exact .pure ⟨w₁, h₁, trivial⟩

def MemberPlaced (w : List Token) (m : Member) : Prop := ∀ f ∈ m.fields, Placed w f.2

theorem MemberPlaced.right {m : Member} {v : List Token} (h : MemberPlaced v m) (w : List Token) :
    MemberPlaced (w ++ v) m :=
  fun f hf => (h f hf).right w

@[simp] theorem placed_visibility (shown : Option Visibility) :
    Placed w (Visibility.outline? shown) := by
  cases shown <;> simp [Visibility.outline?]

@[simp] theorem placed_backing (b : Backing) : Placed w b.outline := by
  cases b <;> simp [Backing.outline]

theorem methodDefinition_covers {visibility : Option Visibility} (hn : 4 * n + 4 ≤ fuel)
    (hs : s.tokens.length ≤ n) :
    Passes c s (methodDefinition fuel scope visibility) MemberPlaced := by
  rw [methodDefinition_eq]
  refine methodLevel_passes.bind ?_
  rintro level s₁ ⟨w₁, h₁, -⟩
  refine methodName_passes.bind ?_
  rintro name s₂ ⟨w₂, h₂, -⟩
  unfold methodBody
  refine .expect_next fun t s₃ _ h₃ => ?_
  have := h₁.length
  have := h₂.length
  have := h₃.length
  refine (overloads_covers hn fuel (by omega)).bind ?_
  rintro r s₄ ⟨w₄, h₄, hr⟩
  refine .pure ⟨_, ((h₁.trans h₂).trans h₃).trans h₄, ?_⟩
  have hoverloads := hr.right (w₁ ++ w₂ ++ [t])
  simpa [MemberPlaced, Member.fields, Outline.ofList] using hoverloads

theorem backing_passes : Passes c s (show Parser Backing from do
    if ← eat (.mark .lparen) then
      let backing ← show Parser Backing from do
        match ← peek with
        | some (.instanceVariable ivar) =>
          advance 1
          return .named ivar
        | _ => return .absent
      expect (.mark .rparen) .closeOfBacking
      return backing
    else return .implied) fun _ _ => True := by
  refine .eat_next (fun t s₁ _ h₁ => ?_) (.pure ⟨_, .refl s, trivial⟩)
  have hname : Passes c s₁ (show Parser Backing from do
      match ← peek with
      | some (.instanceVariable ivar) =>
        advance 1
        return .named ivar
      | _ => return .absent) fun _ _ => True := by
    refine .peek_bind fun l hl => ?_
    split
    · exact .advance_passed fun w s₂ h₂ => .pure ⟨w, h₂, trivial⟩
    · exact .pure ⟨_, .refl s₁, trivial⟩
  refine hname.bind ?_
  rintro backing s₂ ⟨w₂, h₂, -⟩
  exact .expect_next fun u s₃ _ h₃ => .pure ⟨_, (h₁.trans h₂).trans h₃, trivial⟩

theorem attributeMember_covers {access : Access} {visibility : Option Visibility}
    (hn : 4 * n + 4 ≤ fuel) (hs : s.tokens.length ≤ n) :
    Passes c s (attributeMember access fuel scope visibility) MemberPlaced := by
  unfold attributeMember
  refine selfDot_passes.bind ?_
  rintro level s₁ ⟨w₁, h₁, -⟩
  refine .peek_bind fun l hl => ?_
  split
  · exact .failHere
  refine .advance_passed fun w₂ s₂ h₂ => ?_
  refine backing_passes.bind ?_
  rintro backing s₃ ⟨w₃, h₃, -⟩
  refine .expect_next fun t s₄ _ h₄ => ?_
  have hall := ((h₁.trans h₂).trans h₃).trans h₄
  have := hall.length
  refine (type_covers hn s₄ (by omega)).bind ?_
  rintro u s₅ ⟨w₅, h₅, hu⟩
  refine .pure ⟨_, hall.trans h₅, ?_⟩
  have htype := Placed.right hu (w₁ ++ w₂ ++ w₃ ++ [t])
  simpa [MemberPlaced, Member.fields] using htype

theorem aliasMember_covers : Passes c s aliasMember MemberPlaced := by
  have hplaced (w : List Token) (new old : String) (level : MemberLevel) :
      MemberPlaced w (.alias new old level) := by
    simp [MemberPlaced, Member.fields]
  unfold aliasMember
  refine selfDot_passes.bind ?_
  rintro b s₁ ⟨w₁, h₁, -⟩
  refine .ite (fun _ => ?_) fun _ => ?_
  · refine methodName_passes.bind ?_
    rintro new s₂ ⟨w₂, h₂, -⟩
    refine .expect_next fun t s₃ _ h₃ => .expect_next fun u s₄ _ h₄ => ?_
    refine methodName_passes.bind ?_
    rintro old s₅ ⟨w₅, h₅, -⟩
    exact .pure ⟨_, (((h₁.trans h₂).trans h₃).trans h₄).trans h₅, hplaced _ new old _⟩
  · refine methodName_passes.bind ?_
    rintro new s₂ ⟨w₂, h₂, -⟩
    refine methodName_passes.bind ?_
    rintro old s₃ ⟨w₃, h₃, -⟩
    exact .pure ⟨_, (h₁.trans h₂).trans h₃, hplaced _ new old _⟩

theorem variableMember_covers {kind : VariableKind} {name : String} (hn : 4 * n + 4 ≤ fuel)
    (hs : s.tokens.length ≤ n) :
    Passes c s (variableMember kind name fuel scope) MemberPlaced := by
  unfold variableMember
  refine .expect_next fun t s₁ _ h₁ => ?_
  have := h₁.length
  refine (type_covers hn s₁ (by omega)).bind ?_
  rintro u s₂ ⟨w₂, h₂, hu⟩
  refine .pure ⟨_, h₁.trans h₂, ?_⟩
  have htype := Placed.right hu [t]
  simpa [MemberPlaced, Member.fields] using htype

theorem visibilityMark_passes : Passes c s visibilityMark fun _ _ => True := by
  unfold visibilityMark
  refine .get_bind ?_
  split
  · dsimp only
    split
    · exact .advance_passed fun w s₁ h₁ => .pure ⟨w, h₁, trivial⟩
    · exact .advance_passed fun w s₁ h₁ => .pure ⟨w, h₁, trivial⟩
    · exact .pure ⟨_, .refl s, trivial⟩
  · exact .pure ⟨_, .refl s, trivial⟩

/-- A member takes at least one token. -/
theorem member_covers {nested : Bool} (hn : 4 * n + 4 ≤ fuel) (hs : s.tokens.length ≤ n) :
    Passes c s (member nested fuel scope) fun w m => w ≠ [] ∧ MemberPlaced w m := by
  unfold member
  refine visibilityMark_passes.bind ?_
  rintro visibility s₁ ⟨w₁, h₁, -⟩
  refine .peek_bind fun l hl => ?_
  have := h₁.length
  have hrefuse : Yields c s₁ (show Parser Member from do failHere (.unexpectedInBody (← peek)))
      fun m s' => ∃ w, Passed w s s' ∧ w ≠ [] ∧ MemberPlaced w m := .peek_bind fun l _ => .failHere
  split
  · exact hrefuse
  -- Each member is read behind its first token.
  have behind {p : Parser Member} (h : ∀ s₂, s₂.tokens.length ≤ n → Passes c s₂ p MemberPlaced) :
      Yields c s₁ (do
        advance 1
        p) fun m s' => ∃ w, Passed w s s' ∧ w ≠ [] ∧ MemberPlaced w m := by
    refine .advance_next hl fun t s₂ _ h₂ => ?_
    have := h₂.length
    refine (h s₂ (by omega)).imp ?_
    rintro m s₃ ⟨w₃, h₃, hm⟩
    exact ⟨_, (h₁.trans h₂).trans h₃, by simp, hm.right (w₁ ++ [t])⟩
  refine .ite (fun _ => behind fun s₂ hs₂ => methodDefinition_covers hn hs₂) fun _ => ?_
  split
  · exact behind fun s₂ hs₂ => attributeMember_covers hn hs₂
  split
  · refine behind fun s₂ hs₂ => ?_
    refine (classRef_covers hn s₂ hs₂).bind ?_
    rintro r s₃ ⟨w₃, h₃, hr⟩
    exact .pure ⟨w₃, h₃, hr.field⟩
  refine .ite (fun _ => behind fun s₂ _ => aliasMember_covers) fun _ => ?_
  refine .ite (fun _ => hrefuse) fun _ => ?_
  have hvisibility (shown : Visibility) (s₂ : State) :
      Passes c s₂ (show Parser Member from return .visibility shown) MemberPlaced :=
    .pure ⟨[], .refl s₂, by simp [MemberPlaced, Member.fields]⟩
  split
  · exact behind fun s₂ _ => hvisibility _ s₂
  · exact behind fun s₂ _ => hvisibility _ s₂
  · exact behind fun s₂ hs₂ => variableMember_covers hn hs₂
  · exact behind fun s₂ hs₂ => variableMember_covers hn hs₂
  · refine selfDot_passes.bind ?_
    rintro b s₂ ⟨w₂, h₂, -⟩
    refine .ite (fun _ => ?_) fun _ => .peek_bind fun m _ => .failHere
    refine .peek_bind fun m hm => ?_
    split
    · refine .advance_next hm fun t s₃ _ h₃ => ?_
      have := h₂.length
      have := h₃.length
      refine (variableMember_covers hn (by omega)).imp ?_
      rintro m s₄ ⟨w₄, h₄, hm⟩
      exact ⟨_, ((h₁.trans h₂).trans h₃).trans h₄, by simp, hm.right (w₁ ++ w₂ ++ [t])⟩
    · exact .failMissing
  · exact hrefuse

end RubySig.Grammar
