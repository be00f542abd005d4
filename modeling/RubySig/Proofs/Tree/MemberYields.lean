import RubySig.Proofs.Tree.TyYields

/-! Members that are read are of the shapes that the grammar builds, and leave the comments to
others. -/
namespace RubySig.Grammar

variable {c : Context} {s : State} {n fuel : Nat} {scope : List String}

theorem type_formed (hn : 4 * n + 4 ≤ fuel) :
    Gives c n (type fuel scope) (Ty.Formed scope c.text) :=
  (types_given c fuel scope).type n hn

theorem variance_yields : Yields c s variance fun _ s' => Within 0 s s' := by
  unfold variance
  refine .eat_if (fun s₁ h₁ => .pure (h₁.le (by omega))) fun s₁ h₁ => ?_
  exact .eat_if (fun s₂ h₂ => .pure ((h₁.trans h₂).le (by omega))) fun s₂ h₂ => .pure (h₁.trans h₂)

theorem bound_yields (hn : 4 * n + 4 ≤ fuel) (hs : s.tokens.length ≤ n) (hg : Standing c s) :
    Yields c s (bound fuel scope) fun b s' => (∀ t ∈ b, t.Formed scope c.text) ∧ Within 0 s s' := by
  unfold bound
  refine .eat_if (fun s₁ h₁ => ?_) fun s₁ h₁ => .pure ⟨by simp, h₁⟩
  have := h₁.tokens
  refine (type_formed hn s₁ (by omega) (hg.behind h₁)).bind ?_
  rintro t s₂ ⟨ht, h₂⟩
  exact .pure ⟨by simpa using ht, (h₁.trans h₂).le (by omega)⟩

theorem typeParam_gives (hn : 4 * n + 4 ≤ fuel) :
    Gives c n (typeParam fuel scope) fun p => Lexer.ReadsAs p.name (.constant p.name) ∧
      ∀ t ∈ p.bound, t.Formed (p.name :: scope) c.text := by
  intro s hs hg
  unfold typeParam
  refine .here_bind fun start => .bind .eat fun unchecked s₁ h₁ => ?_
  refine variance_yields.bind fun v s₂ h₂ => .peek_bind fun l hl => ?_
  have h₁ := h₁.le (Nat.zero_le _)
  have := h₁.tokens
  have := h₂.tokens
  split
  case _ name =>
    obtain ⟨w, hw⟩ := (hg.behind (h₁.trans h₂)).next hl
    refine .advance_bind (by omega) (tokens_of_peek hl) fun s₃ h₃ => ?_
    have := h₃.tokens
    refine (bound_yields hn (by omega) (hg.behind ((h₁.trans h₂).trans h₃))).bind ?_
    rintro b s₄ ⟨hb, h₄⟩
    refine .span_bind fun location => ?_
    exact .pure ⟨⟨Lexer.readsAs_of_taken hw (.inl rfl), hb⟩,
      (((h₁.trans h₂).trans h₃).trans h₄).le (by omega)⟩
  case _ => exact .failMissing

theorem typeParamsFrom_yields (hn : 4 * n + 4 ≤ fuel) (k : Nat) (hs : s.tokens.length ≤ n)
    (hg : Standing c s) : Yields c s (typeParamsFrom fuel k scope) fun ps s' =>
      TypeParam.FormedAll scope c.text ps ∧ Within 0 s s' := by
  induction k generalizing s scope with
  | zero =>
    unfold typeParamsFrom
    exact .pure ⟨trivial, .refl s⟩
  | succ k ih =>
    rw [typeParamsFrom_succ]
    refine .isNext_if (fun _ => .pure ⟨trivial, .refl s⟩) ?_
    refine (typeParam_gives hn s hs hg).bind ?_
    rintro p s₁ ⟨⟨hname, hbound⟩, h₁⟩
    refine .eat_if (fun s₂ h₂ => ?_) fun s₂ h₂ =>
      .pure ⟨⟨hname, hbound, trivial⟩, (h₁.trans h₂).le (by omega)⟩
    have := h₁.tokens
    have := h₂.tokens
    refine (ih (s := s₂) (by omega) (hg.behind (h₁.trans h₂))).bind ?_
    rintro ps s₃ ⟨hps, h₃⟩
    exact .pure ⟨⟨hname, hbound, hps⟩, ((h₁.trans h₂).trans h₃).le (by omega)⟩

theorem typeParams_yields (hn : 4 * n + 4 ≤ fuel) (hs : s.tokens.length ≤ n) (hg : Standing c s) :
    Yields c s (typeParams fuel scope) fun ps s' =>
      TypeParam.FormedAll scope c.text ps ∧ Within 0 s s' := by
  unfold typeParams
  refine .eat_if (fun s₁ h₁ => ?_) fun s₁ h₁ => .pure ⟨trivial, h₁⟩
  have := h₁.tokens
  refine (typeParamsFrom_yields hn fuel (by omega) (hg.behind h₁)).bind ?_
  rintro ps s₂ ⟨hps, h₂⟩
  refine .expect_bind fun s₃ h₃ => ?_
  exact .pure ⟨hps, ((h₁.trans h₂).trans h₃).le (by omega)⟩

theorem classRef_gives {segment : Segment} {role : Role}
    (hseg : segment = .constant ∨ segment = .any) (hn : 4 * n + 4 ≤ fuel) :
    Gives c n (classRef segment role fuel scope) fun r =>
      segment.Ends r.name ∧ r.Formed scope c.text := by
  intro s hs hg
  unfold classRef
  refine .here_bind fun start => (typeName_yields hg).bind ?_
  rintro name s₁ ⟨hname, h₁⟩
  refine .ite (fun _ => .failAt) fun hlike => ?_
  have := h₁.tokens
  refine (typeArgs_yields (type_formed hn) fuel (by omega) (hg.behind h₁)).bind ?_
  rintro args s₂ ⟨hargs, h₂⟩
  refine .span_bind fun location => .pure ⟨⟨hname, ?_, hargs⟩, h₁.trans h₂⟩
  rcases hseg with rfl | rfl
  · exact .inl hname.constant
  · obtain ⟨hformed, -⟩ | ⟨hformed, -⟩ | ⟨-, hclass, hinterface⟩ := class_or_interface hname
    · exact .inl hformed
    · exact .inr hformed
    · simp [hclass, hinterface] at hlike

theorem methodType_gives (hn : 4 * n + 4 ≤ fuel) :
    Gives c n (methodType fuel scope) (MethodType.Formed scope c.text) := by
  intro s hs hg
  unfold methodType
  refine .here_bind fun start => ?_
  refine (typeParams_yields hn hs hg).bind ?_
  rintro ps s₁ ⟨hps, h₁⟩
  have := h₁.tokens
  have hresult := (types_given c fuel (within ps scope)).optional n (by omega)
  refine (signature_yields (type_formed hn) hresult fuel s₁ (by omega) (hg.behind h₁)).bind ?_
  rintro r s₂ ⟨⟨hsignature, hblock⟩, h₂⟩
  exact .span_bind fun location => .pure ⟨⟨hps, hsignature, hblock⟩, (h₁.trans h₂).le (by omega)⟩

theorem overload_gives (hn : 4 * n + 4 ≤ fuel) :
    Gives c n (overload fuel scope) (Overload.Written scope c.text) := by
  intro s hs hg
  unfold overload
  refine .here_bind fun start => (notes_yields hg).bind ?_
  rintro ns s₁ ⟨hns, h₁⟩
  have := h₁.tokens
  refine (methodType_gives hn s₁ (by omega) (hg.behind h₁)).bind ?_
  rintro m s₂ ⟨hm, h₂⟩
  exact .span_bind fun location => .pure ⟨⟨hns, hm⟩, (h₁.trans h₂).le (by omega)⟩

/-- Where there is fuel for an entry, there is an entry. -/
theorem overloads_yields (hn : 4 * n + 4 ≤ fuel) (k : Nat) (hs : s.tokens.length ≤ n)
    (hg : Standing c s) :
    Yields c s (overloads fuel scope k) fun r s' =>
      (∀ o ∈ r.1, o.Written scope c.text) ∧ (0 < k → r.1 ≠ [] ∨ r.2 = true) ∧ Within 0 s s' := by
  induction k generalizing s with
  | zero =>
    unfold overloads
    exact .pure ⟨by simp, by simp, .refl s⟩
  | succ k ih =>
    rw [overloads_succ]
    refine .eat_if (fun s₁ h₁ => .pure ⟨by simp, by simp, h₁.le (by omega)⟩) fun s₁ h₁ => ?_
    have := h₁.tokens
    refine (overload_gives hn s₁ (by omega) (hg.behind h₁)).bind ?_
    rintro o s₂ ⟨ho, h₂⟩
    refine .eat_if (fun s₃ h₃ => ?_) fun s₃ h₃ => ?_
    · have := h₂.tokens
      have := h₃.tokens
      refine (ih (s := s₃) (by omega) (hg.behind ((h₁.trans h₂).trans h₃))).bind ?_
      rintro r s₄ ⟨hr, _, h₄⟩
      refine .pure ⟨?_, by simp, ?_⟩
      · exact List.forall_mem_cons.mpr ⟨ho, hr⟩
      · exact (((h₁.trans h₂).trans h₃).trans h₄).le (by omega)
    · exact .pure ⟨by simpa using ho, by simp, ((h₁.trans h₂).trans h₃).le (by omega)⟩

variable {nested : Bool}

theorem methodDefinition_yields {visibility : Option Visibility} (hn : 4 * n + 4 ≤ fuel)
    (hs : s.tokens.length ≤ n) (hg : Standing c s) :
    Yields c s (methodDefinition fuel scope visibility) fun m s' =>
      m.Formed nested scope c.text ∧ Within 0 s s' := by
  rw [methodDefinition_eq]
  refine methodLevel_yields.bind fun level s₁ h₁ => (methodName_yields (hg.behind h₁)).bind ?_
  rintro name s₂ ⟨hname, h₂⟩
  unfold methodBody
  refine .expect_bind fun s₃ h₃ => ?_
  have hall := (h₁.trans h₂).trans h₃
  have := hall.tokens
  refine (overloads_yields hn fuel (by omega) (hg.behind hall)).bind ?_
  rintro r s₄ ⟨hr, hne, h₄⟩
  exact .pure ⟨⟨hname, hr, hne (by omega)⟩, (hall.trans h₄).le (by omega)⟩

theorem backing_yields (hg : Standing c s) : Yields c s (show Parser Backing from do
    if ← eat (.mark .lparen) then
      let backing ← show Parser Backing from do
        match ← peek with
        | some (.instanceVariable ivar) =>
          advance 1
          return .named ivar
        | _ => return .absent
      expect (.mark .rparen) .closeOfBacking
      return backing
    else return .implied) fun backing s' =>
      (∀ ivar, backing = .named ivar → IsVariable ['@'] ivar) ∧ Within 0 s s' := by
  refine .eat_if (fun s₁ h₁ => ?_) fun s₁ h₁ => .pure ⟨by simp, h₁⟩
  have hname : Yields c s₁ (show Parser Backing from do
      match ← peek with
      | some (.instanceVariable ivar) =>
        advance 1
        return .named ivar
      | _ => return .absent) fun backing s' =>
        (∀ ivar, backing = .named ivar → IsVariable ['@'] ivar) ∧ Within 0 s₁ s' := by
    refine .peek_bind fun l hl => ?_
    split
    case _ ivar =>
      obtain ⟨w, hw⟩ := (hg.behind h₁).next hl
      refine .advance_any fun s₂ h₂ => .pure ⟨?_, h₂⟩
      rintro _ ⟨⟩
      exact hw.2
    case _ => exact .pure ⟨by simp, .refl s₁⟩
  refine hname.bind ?_
  rintro backing s₂ ⟨hbacking, h₂⟩
  exact .expect_bind fun s₃ h₃ =>
    .pure ⟨hbacking, ((h₁.trans h₂).trans h₃).le (by omega)⟩

theorem attributeMember_yields {access : Access} {visibility : Option Visibility}
    (hn : 4 * n + 4 ≤ fuel) (hs : s.tokens.length ≤ n) (hg : Standing c s) :
    Yields c s (attributeMember access fuel scope visibility) fun m s' =>
      m.Formed true scope c.text ∧ Within 0 s s' := by
  unfold attributeMember
  refine selfDot_yields.bind fun level s₁ h₁ => .peek_bind fun l hl => ?_
  split
  · exact .failHere
  case _ name hname =>
  obtain ⟨k, rfl, hk⟩ := Option.bind_eq_some_iff.mp hname
  have hnameable := (hg.behind h₁).named hl hk
  refine .advance_any fun s₂ h₂ => ?_
  refine (backing_yields (hg.behind (h₁.trans h₂))).bind ?_
  rintro backing s₃ ⟨hbacking, h₃⟩
  refine .expect_bind fun s₄ h₄ => ?_
  have hall := ((h₁.trans h₂).trans h₃).trans h₄
  have := hall.tokens
  refine (type_formed hn s₄ (by omega) (hg.behind hall)).bind ?_
  rintro t s₅ ⟨ht, h₅⟩
  exact .pure ⟨⟨rfl, hnameable, ht, hbacking⟩, (hall.trans h₅).le (by omega)⟩

theorem aliasMember_yields (hg : Standing c s) : Yields c s aliasMember fun m s' =>
    m.Formed nested scope c.text ∧ Within 0 s s' := by
  unfold aliasMember
  refine selfDot_yields.bind fun b s₁ h₁ => .ite (fun _ => ?_) fun _ => ?_
  · refine (methodName_yields (hg.behind h₁)).bind ?_
    rintro new s₂ ⟨hnew, h₂⟩
    refine .expect_bind fun s₃ h₃ => .expect_bind fun s₄ h₄ => ?_
    have hall := ((h₁.trans h₂).trans h₃).trans h₄
    refine (methodName_yields (hg.behind hall)).bind ?_
    rintro old s₅ ⟨hold, h₅⟩
    exact .pure ⟨⟨hnew, hold⟩, (hall.trans h₅).le (by omega)⟩
  · refine (methodName_yields (hg.behind h₁)).bind ?_
    rintro new s₂ ⟨hnew, h₂⟩
    refine (methodName_yields (hg.behind (h₁.trans h₂))).bind ?_
    rintro old s₃ ⟨hold, h₃⟩
    exact .pure ⟨⟨hnew, hold⟩, (h₁.trans h₂).trans h₃⟩

theorem variableMember_yields {kind : VariableKind} {name : String}
    (hname : IsVariable kind.sigils name) (hn : 4 * n + 4 ≤ fuel) (hs : s.tokens.length ≤ n)
    (hg : Standing c s) :
    Yields c s (variableMember kind name fuel scope) fun m s' =>
      m.Formed true scope c.text ∧ Within 0 s s' := by
  unfold variableMember
  refine .expect_bind fun s₁ h₁ => ?_
  have := h₁.tokens
  refine (type_formed hn s₁ (by omega) (hg.behind h₁)).bind ?_
  rintro t s₂ ⟨ht, h₂⟩
  exact .pure ⟨⟨rfl, hname, ht⟩, (h₁.trans h₂).le (by omega)⟩

theorem visibilityMark_yields : Yields c s visibilityMark fun _ s' => Within 0 s s' := by
  unfold visibilityMark
  refine .get_bind ?_
  split
  · dsimp only
    split
    · exact .advance_any fun s₁ h₁ => .pure h₁
    · exact .advance_any fun s₁ h₁ => .pure h₁
    · exact .pure (.refl s)
  · exact .pure (.refl s)

theorem member_yields (hn : 4 * n + 4 ≤ fuel) (hs : s.tokens.length ≤ n) (hg : Standing c s) :
    Yields c s (member nested fuel scope) fun m s' =>
      m.Formed nested scope c.text ∧ Within 1 s s' := by
  unfold member
  refine visibilityMark_yields.bind fun visibility s₁ h₁ => .peek_bind fun l hl => ?_
  have := h₁.tokens
  have hrefuse : Yields c s₁ (show Parser Member from do failHere (.unexpectedInBody (← peek)))
      fun m s' => m.Formed nested scope c.text ∧ Within 1 s s' := .peek_bind fun l _ => .failHere
  split
  · exact hrefuse
  -- Each member is read behind its first token.
  have behind {p : Parser Member} (h : ∀ s₂, Within 1 s₁ s₂ → Yields c s₂ p fun m s' =>
      m.Formed nested scope c.text ∧ Within 0 s₂ s') : Yields c s₁ (do
        advance 1
        p) fun m s' => m.Formed nested scope c.text ∧ Within 1 s s' := by
    refine .advance_bind (by omega) (tokens_of_peek hl) fun s₂ h₂ => ?_
    refine (h s₂ h₂).imp ?_
    rintro m s₃ ⟨hm, h₃⟩
    exact ⟨hm, ((h₁.trans h₂).trans h₃).le (by omega)⟩
  obtain ⟨w, hw⟩ := (hg.behind h₁).next hl
  refine .ite (fun _ => behind fun s₂ h₂ => ?_) fun _ => ?_
  · have := h₂.tokens
    exact methodDefinition_yields hn (by omega) (hg.behind (h₁.trans h₂))
  split
  case _ access haccess =>
    obtain rfl : nested = true := congrArg Prod.snd haccess
    refine behind fun s₂ h₂ => ?_
    have := h₂.tokens
    exact attributeMember_yields hn (by omega) (hg.behind (h₁.trans h₂))
  split
  case _ kind hkind =>
    have hallowed := (Option.mem_filter_iff.mp hkind).2
    refine behind fun s₂ h₂ => ?_
    have := h₂.tokens
    refine (classRef_gives (.inr rfl) hn s₂ (by omega) (hg.behind (h₁.trans h₂))).bind ?_
    rintro r s₃ ⟨⟨-, hname, hargs⟩, h₃⟩
    exact .pure ⟨⟨by simpa using hallowed, hname, hargs⟩, h₃.le (by omega)⟩
  refine .ite (fun _ => behind fun s₂ h₂ => aliasMember_yields (hg.behind (h₁.trans h₂))) fun _ =>
    ?_
  refine .ite (fun _ => hrefuse) fun hnested => ?_
  obtain rfl : nested = true := by simpa using hnested
  have hvariable {kind : VariableKind} {name : String}
      (hname : IsVariable kind.sigils name) (s₂ : State)
      (h₂ : Within 1 s₁ s₂) : Yields c s₂ (variableMember kind name fuel scope) fun m s' =>
        m.Formed true scope c.text ∧ Within 0 s₂ s' := by
    have := h₂.tokens
    exact variableMember_yields hname hn (by omega) (hg.behind (h₁.trans h₂))
  split
  · exact behind fun s₂ h₂ => .pure ⟨rfl, .refl s₂⟩
  · exact behind fun s₂ h₂ => .pure ⟨rfl, .refl s₂⟩
  · exact behind (hvariable hw.2)
  · exact behind (hvariable hw.2)
  · refine selfDot_yields.bind fun b s₂ h₂ => .ite (fun _ => ?_) fun _ => ?_
    · refine .peek_bind fun m hm => ?_
      split
      case _ name =>
        obtain ⟨v, hv⟩ := (hg.behind (h₁.trans h₂)).next hm
        have hname : IsVariable VariableKind.classInstance.sigils name := hv.2
        refine .advance_bind (by omega) (tokens_of_peek hm) fun s₃ h₃ => ?_
        have hall := (h₁.trans h₂).trans h₃
        have := hall.tokens
        refine (variableMember_yields hname hn (by omega) (hg.behind hall)).imp ?_
        rintro m s₄ ⟨hm, h₄⟩
        exact ⟨hm, (hall.trans h₄).le (by omega)⟩
      case _ => exact .failMissing
    · exact .peek_bind fun m _ => .failHere
  · exact hrefuse

end RubySig.Grammar
