import RubySig.Proofs.Format.SolidWords
import RubySig.Proofs.Tree.LikeScans
import RubySig.Proofs.Tree.MemberPlaces
import RubySig.Proofs.Tree.TySites

/-! The tokens that a member is read from account for its sites. -/
namespace RubySig.Grammar

variable {c : Context} {s : State} {n fuel : Nat} {w : List Token} {scopes : List (List String)}

theorem type_sites (scopes : List (List String)) (hn : 4 * n + 4 ≤ fuel) :
    Covers c n (type fuel scopes.flatten) (TySited c.text scopes) :=
  (types_sited c fuel scopes).type n hn

theorem variance_sites : Passes c s variance fun w _ => Accounts c.text w [] := by
  unfold variance
  refine .eat_next (fun t s₁ ht h₁ => .pure ⟨_, h₁, .token ht rfl⟩) ?_
  exact .eat_next (fun t s₁ ht h₁ => .pure ⟨_, h₁, .token ht rfl⟩) (.pure ⟨_, .refl s, .nil⟩)

theorem bound_sites (scopes : List (List String)) (hn : 4 * n + 4 ≤ fuel)
    (hs : s.tokens.length ≤ n) :
    Passes c s (bound fuel scopes.flatten) fun w b =>
      Accounts c.text w (b.toList.flatMap (Ty.sites scopes)) := by
  unfold bound
  refine .eat_next (fun t s₁ ht h₁ => ?_) (.pure ⟨_, .refl s, .nil⟩)
  have := h₁.length_one
  refine (type_sites scopes hn s₁ (by omega)).bind ?_
  rintro u s₂ ⟨w₂, h₂, -, hu⟩
  have hbound := hu.append .nil
  exact .pure ⟨_, h₁.trans h₂, by simpa using hbound.right (.token ht rfl)⟩

/-- The bound of a type parameter sees the names declared before it and its own. -/
theorem typeParam_sites (hn : 4 * n + 4 ≤ fuel) (declared : List String) :
    Covers c n (typeParam fuel (declared ++ scopes.flatten)) fun w p =>
      Accounts c.text w (p.bound.toList.flatMap (Ty.sites ((p.name :: declared) :: scopes))) := by
  intro s hs
  unfold typeParam
  have hunchecked : Yields c s (eat (.keyword .unchecked)) fun _ s' =>
      ∃ w, Passed w s s' ∧ Accounts c.text w [] := by
    refine Yields.eat_passed.imp ?_
    rintro _ s' (⟨-, t, ht, h⟩ | ⟨-, rfl⟩)
    · exact ⟨[t], h, .token ht rfl⟩
    · exact ⟨[], .refl s', .nil⟩
  refine .here_place (hunchecked.bind ?_)
  rintro unchecked s₁ ⟨w₁, h₁, hw₁⟩
  refine variance_sites.bind ?_
  rintro variance s₂ ⟨w₂, h₂, hw₂⟩
  refine .peek_bind fun l hl => ?_
  split
  · refine .advance_next hl fun t s₃ ht h₃ => ?_
    have := h₁.length
    have := h₂.length
    have := h₃.length
    refine (bound_sites ((_ :: declared) :: scopes) hn (by omega)).bind ?_
    rintro b s₄ ⟨w₄, h₄, hb⟩
    have hall := ((h₁.trans h₂).trans h₃).trans h₄
    refine .span_cover hall (by simp) (.pure ⟨_, hall, ?_⟩)
    exact hb.right ((hw₁.left hw₂).left (.token ht rfl))
  · exact .failMissing

theorem typeParams_sites (hn : 4 * n + 4 ≤ fuel) (hs : s.tokens.length ≤ n) :
    Passes c s (typeParams fuel scopes.flatten) fun w ps =>
      Accounts c.text w (TypeParam.sites scopes [] ps) := by
  -- By induction on the parameters that may come, for those that are declared before them.
  have from_ (k : Nat) {s : State} (declared : List String) (hs : s.tokens.length ≤ n) :
      Passes c s (typeParamsFrom fuel k (declared ++ scopes.flatten)) fun w ps =>
        Accounts c.text w (TypeParam.sites scopes declared ps) := by
    induction k generalizing s declared with
    | zero =>
      unfold typeParamsFrom
      exact .pure ⟨[], .refl s, .nil⟩
    | succ k ih =>
      rw [typeParamsFrom_succ]
      refine .isNext_if (fun _ => .pure ⟨[], .refl s, .nil⟩) ?_
      refine (typeParam_sites hn declared s hs).bind ?_
      rintro p s₁ ⟨w₁, h₁, hp⟩
      refine .eat_next (fun t s₂ ht h₂ => ?_) ?_
      · have := h₁.length
        have := h₂.length
        refine (ih (s := s₂) (p.name :: declared) (by omega)).bind ?_
        rintro ps s₃ ⟨w₃, h₃, hps⟩
        exact .pure ⟨_, h₁.trans (h₂.trans h₃), hp.append (hps.right (.token ht rfl))⟩
      · have hone := hp.append .nil
        rw [List.append_nil] at hone
        exact .pure ⟨w₁, h₁, hone⟩
  unfold typeParams
  refine .eat_next (fun t s₁ ht h₁ => ?_) (.pure ⟨[], .refl s, .nil⟩)
  have := h₁.length
  refine (from_ fuel [] (by omega)).bind ?_
  rintro ps s₂ ⟨w₂, h₂, hps⟩
  refine .expect_next fun u s₃ hu h₃ => .pure ⟨_, (h₁.trans h₂).trans h₃, ?_⟩
  exact (hps.right (.token ht rfl)).left (.token hu rfl)

theorem classRef_sites {segment : Segment} {role : Role} (hn : 4 * n + 4 ≤ fuel) :
    Covers c n (classRef segment role fuel scopes.flatten) fun w r =>
      w ≠ [] ∧ Accounts c.text w (r.sites scopes) := by
  intro s hs
  unfold classRef
  refine .here_place (typeName_read.bind ?_)
  rintro name s₁ ⟨w₁, h₁, hname⟩
  refine .ite (fun _ => .failAt) fun _ => ?_
  have := h₁.length
  refine (typeArgs_sites (type_sites scopes hn) fuel (by omega)).bind ?_
  rintro args s₂ ⟨w₂, h₂, hargs⟩
  have hne : w₁ ++ w₂ ≠ [] := by simp [hname.nonempty]
  refine .span_cover (h₁.trans h₂) hne (.pure ⟨_, h₁.trans h₂, hne, ?_⟩)
  exact hargs.right (.quiet fun _ => hname.plain)

/-- Annotations are no strings. -/
theorem notes_sites : Passes c s notes fun w _ => Accounts c.text w [] := by
  unfold notes
  refine .get_bind (.advance_take fun s₁ h₁ => .pure ⟨_, h₁, .quiet fun _ t ht => ?_⟩)
  rw [List.takeWhile_map, List.length_map,
    ← List.prefix_iff_eq_take.mp (List.takeWhile_prefix _)] at ht
  obtain ⟨lexeme, start, stop⟩ := t
  have hnote : (noteOf? ⟨lexeme, start, stop⟩).isSome = true :=
    List.mem_takeWhile_imp (p := Option.isSome ∘ noteOf?) ht
  cases lexeme <;> first | rfl | cases hnote

/-- A method name has no quotes in it. -/
theorem unquoted_at {cs name : List Char} (h : MethodName.at? cs = some name) :
    ∀ c ∈ name, c ≠ '"' ∧ c ≠ '\'' := by
  refine Format.forall_mem_at (fun c hc => ⟨?_, ?_⟩) (by decide) (by decide) h
  · rintro rfl
    cases hc
  · rintro rfl
    cases hc

/-- A string token starts with a quote. -/
theorem quote_at {text : List Char} {t : Token} {v : String} (ht : t.In text)
    (hl : t.lexeme = .string v) :
    text[t.start.offset]? = some '"' ∨ text[t.start.offset]? = some '\'' := by
  obtain ⟨front, w, back, rfl, -, hstart, -, htaken⟩ := ht
  rw [hl] at htaken
  obtain ⟨q, body, rfl, hquotes⟩ := htaken
  have hoffset : t.start.offset = front.length := by
    rw [hstart, Position.offset_after]
    exact Nat.zero_add _
  have hquote : (front ++ (q :: body ++ [q]) ++ back)[t.start.offset]? = some q := by
    rw [hoffset]
    simp
  rw [hquote]
  rcases hquotes.quote with rfl | rfl
  · exact .inl rfl
  · exact .inr rfl

/-- The tokens that start inside a method name are no strings. -/
theorem methodName_quiet {text : List Char} {t : Token} {ts : List Token} {name : List Char}
    (hname : MethodName.at? (text.drop t.start.offset) = some name)
    (hw : Genuine text ((t :: ts).takeWhile (·.start.offset < t.start.offset + name.length))) :
    ∀ u ∈ (t :: ts).takeWhile (·.start.offset < t.start.offset + name.length),
      u.lexeme.isPlain = true := by
  intro u hu
  have hbefore : u.start.offset < t.start.offset + name.length := by
    simpa using List.mem_takeWhile_imp hu
  have hbehind : t.start.offset ≤ u.start.offset := by
    have horder := hw.order
    have hpos : t.start.offset < t.start.offset + name.length := by
      by_contra hempty
      rw [List.takeWhile_cons_of_neg (by simpa using hempty)] at hu
      cases hu
    rw [List.takeWhile_cons_of_pos (by simpa using hpos)] at hu horder
    rcases List.mem_cons.mp hu with rfl | hu
    · exact Nat.le_refl _
    · exact List.rel_of_pairwise_cons horder hu
  obtain ⟨behind, hbehindName⟩ := MethodName.at_prefix hname
  have hchar : text[u.start.offset]? = name[u.start.offset - t.start.offset]? := by
    have hdrop : text[u.start.offset]? =
        (text.drop t.start.offset)[u.start.offset - t.start.offset]? := by
      rw [List.getElem?_drop]
      congr 1
      omega
    rw [hdrop, ← hbehindName, List.getElem?_append_left (by omega)]
  obtain ⟨lexeme, start, stop⟩ := u
  cases lexeme with
  | string v =>
    have hquote := quote_at (hw.stands _ hu) rfl
    rw [hchar] at hquote
    rcases hquote with hquote | hquote
    · exact absurd rfl (unquoted_at hname _ (List.mem_of_getElem? hquote)).1
    · exact absurd rfl (unquoted_at hname _ (List.mem_of_getElem? hquote)).2
  | _ => rfl

theorem methodName_sites : Passes c s methodName fun w _ => Accounts c.text w [] := by
  unfold methodName
  refine .get_bind ?_
  split
  case _ name start stop ts hs =>
    refine .advance_next (l := .quotedIdentifier name) (by rw [hs]; rfl) fun t s₁ ht h₁ => ?_
    exact .pure ⟨[t], h₁, .token ht rfl⟩
  case _ => exact .failMissing
  case _ t ts hs =>
    refine .read_bind ?_
    split
    case _ => exact .failMissing
    case _ name hname =>
      refine .get_bind (.advance_take fun s₁ h₁ => .pure ⟨_, h₁, .quiet fun hgenuine => ?_⟩)
      rw [hs, ← List.prefix_iff_eq_take.mp (List.takeWhile_prefix _)] at hgenuine ⊢
      exact methodName_quiet hname hgenuine

theorem methodType_sites (hn : 4 * n + 4 ≤ fuel) :
    Covers c n (methodType fuel scopes.flatten) fun w m =>
      w ≠ [] ∧ Accounts c.text w (m.sites scopes) := by
  intro s hs
  unfold methodType
  refine .here_place ((typeParams_sites hn hs).bind ?_)
  rintro ps s₁ ⟨w₁, h₁, hps⟩
  have := h₁.length
  have hinside := types_sited c fuel (TypeParam.names ps :: scopes)
  refine (signature_sites (hinside.type n hn) (hinside.optional n (by omega)) fuel s₁
    (by omega)).bind ?_
  rintro r s₂ ⟨w₂, h₂, hw₂, hsignature⟩
  have hne : w₁ ++ w₂ ≠ [] := by simp [hw₂]
  exact .span_cover (h₁.trans h₂) hne (.pure ⟨_, h₁.trans h₂, hne, hps.append hsignature⟩)

theorem overload_sites (hn : 4 * n + 4 ≤ fuel) :
    Covers c n (overload fuel scopes.flatten) fun w o => Accounts c.text w (o.sites scopes) := by
  intro s hs
  unfold overload
  refine .here_place (notes_sites.bind ?_)
  rintro ns s₁ ⟨w₁, h₁, hw₁⟩
  have := h₁.length
  refine (methodType_sites hn s₁ (by omega)).bind ?_
  rintro m s₂ ⟨w₂, h₂, hw₂, hm⟩
  exact .span_cover (h₁.trans h₂) (by simp [hw₂]) (.pure ⟨_, h₁.trans h₂, hm.right hw₁⟩)

theorem overloads_sites (hn : 4 * n + 4 ≤ fuel) (k : Nat) (hs : s.tokens.length ≤ n) :
    Passes c s (overloads fuel scopes.flatten k) fun w r =>
      Accounts c.text w (r.1.flatMap (Overload.sites scopes)) := by
  induction k generalizing s with
  | zero =>
    unfold overloads
    exact .pure ⟨[], .refl s, .nil⟩
  | succ k ih =>
    rw [overloads_succ]
    refine .eat_next (fun t s₁ ht h₁ => .pure ⟨_, h₁, .token ht rfl⟩) ?_
    refine (overload_sites hn s hs).bind ?_
    rintro o s₁ ⟨w₁, h₁, ho⟩
    refine .eat_next (fun t s₂ ht h₂ => ?_) ?_
    · have := h₁.length
      have := h₂.length
      refine (ih (s := s₂) (by omega)).bind ?_
      rintro r s₃ ⟨w₃, h₃, hr⟩
      exact .pure ⟨_, h₁.trans (h₂.trans h₃), ho.append (hr.right (.token ht rfl))⟩
    · have hone := ho.append .nil
      rw [List.append_nil] at hone
      exact .pure ⟨w₁, h₁, hone⟩

theorem selfDot_sites : Passes c s selfDot fun w _ => Accounts c.text w [] := by
  unfold selfDot
  refine .isNext_known fun b hb => .peekAt_known fun l hl => .ite (fun hself => ?_) fun _ => ?_
  · rw [Bool.and_eq_true] at hself
    refine .advance_take fun s₁ h₁ => .pure ⟨_, h₁, .quiet fun _ => plain_take fun i hi => ?_⟩
    rcases i with _ | _ | i
    · exact ⟨_, hb hself.1, rfl⟩
    · exact ⟨_, hl.trans (eq_of_beq hself.2), rfl⟩
    · omega
  · exact .pure ⟨_, .refl s, .nil⟩

theorem methodLevel_sites : Passes c s methodLevel fun w _ => Accounts c.text w [] := by
  unfold methodLevel
  refine selfDot_sites.bind ?_
  rintro b s₁ ⟨w₁, h₁, hw₁⟩
  refine .ite (fun _ => .pure ⟨w₁, h₁, hw₁⟩) fun _ => ?_
  refine .isNext_known fun b hb => .peekAt_known fun l hl => .peekAt_known fun m hm =>
    .ite (fun hself => ?_) fun _ => .pure ⟨w₁, h₁, hw₁⟩
  rw [Bool.and_eq_true, Bool.and_eq_true] at hself
  refine .advance_take fun s₂ h₂ => .pure ⟨_, h₁.trans h₂, hw₁.left ?_⟩
  refine .quiet fun _ => plain_take fun i hi => ?_
  rcases i with _ | _ | _ | i
  · exact ⟨_, hb hself.1.1, rfl⟩
  · exact ⟨_, hl.trans (eq_of_beq hself.1.2), rfl⟩
  · exact ⟨_, hm.trans (eq_of_beq hself.2), rfl⟩
  · omega

theorem methodDefinition_sites {visibility : Option Visibility} (hn : 4 * n + 4 ≤ fuel)
    (hs : s.tokens.length ≤ n) :
    Passes c s (methodDefinition fuel scopes.flatten visibility) fun w m =>
      Accounts c.text w (m.sites scopes) := by
  rw [methodDefinition_eq]
  refine methodLevel_sites.bind ?_
  rintro level s₁ ⟨w₁, h₁, hw₁⟩
  refine methodName_sites.bind ?_
  rintro name s₂ ⟨w₂, h₂, hw₂⟩
  unfold methodBody
  refine .expect_next fun t s₃ ht h₃ => ?_
  have := h₁.length
  have := h₂.length
  have := h₃.length
  refine (overloads_sites hn fuel (by omega)).bind ?_
  rintro r s₄ ⟨w₄, h₄, hr⟩
  refine .pure ⟨_, ((h₁.trans h₂).trans h₃).trans h₄, ?_⟩
  exact hr.right ((hw₁.left hw₂).left (.token ht rfl))

theorem backing_sites : Passes c s (show Parser Backing from do
    if ← eat (.mark .lparen) then
      let backing ← show Parser Backing from do
        match ← peek with
        | some (.instanceVariable ivar) =>
          advance 1
          return .named ivar
        | _ => return .absent
      expect (.mark .rparen) .closeOfBacking
      return backing
    else return .implied) fun w _ => Accounts c.text w [] := by
  refine .eat_next (fun t s₁ ht h₁ => ?_) (.pure ⟨_, .refl s, .nil⟩)
  have hname : Passes c s₁ (show Parser Backing from do
      match ← peek with
      | some (.instanceVariable ivar) =>
        advance 1
        return .named ivar
      | _ => return .absent) fun w _ => Accounts c.text w [] := by
    refine .peek_bind fun l hl => ?_
    split
    · exact .advance_next hl fun u s₂ hu h₂ => .pure ⟨_, h₂, .token hu rfl⟩
    · exact .pure ⟨_, .refl s₁, .nil⟩
  refine hname.bind ?_
  rintro backing s₂ ⟨w₂, h₂, hw₂⟩
  exact .expect_next fun u s₃ hu h₃ => .pure ⟨_, (h₁.trans h₂).trans h₃,
    (hw₂.right (.token ht rfl)).left (.token hu rfl)⟩

theorem attributeMember_sites {access : Access} {visibility : Option Visibility}
    (hn : 4 * n + 4 ≤ fuel) (hs : s.tokens.length ≤ n) :
    Passes c s (attributeMember access fuel scopes.flatten visibility) fun w m =>
      Accounts c.text w (m.sites scopes) := by
  unfold attributeMember
  refine selfDot_sites.bind ?_
  rintro level s₁ ⟨w₁, h₁, hw₁⟩
  refine .peek_bind fun l hl => ?_
  split
  · exact .failHere
  case _ name hname =>
    obtain ⟨l, rfl, hlname⟩ := Option.bind_eq_some_iff.mp hname
    refine .advance_next hl fun v s₂ hv h₂ => ?_
    refine backing_sites.bind ?_
    rintro backing s₃ ⟨w₃, h₃, hw₃⟩
    refine .expect_next fun t s₄ ht h₄ => ?_
    have hall := ((h₁.trans h₂).trans h₃).trans h₄
    have := hall.length
    refine (type_sites scopes hn s₄ (by omega)).bind ?_
    rintro u s₅ ⟨w₅, h₅, -, hu⟩
    refine .pure ⟨_, hall.trans h₅, hu.right ?_⟩
    exact ((hw₁.left (.token hv (isPlain_name hlname))).left hw₃).left (.token ht rfl)

theorem aliasMember_sites :
    Passes c s aliasMember fun w m => Accounts c.text w (m.sites scopes) := by
  unfold aliasMember
  refine selfDot_sites.bind ?_
  rintro b s₁ ⟨w₁, h₁, hw₁⟩
  refine .ite (fun _ => ?_) fun _ => ?_
  · refine methodName_sites.bind ?_
    rintro new s₂ ⟨w₂, h₂, hw₂⟩
    refine .expect_next fun t s₃ ht h₃ => .expect_next fun u s₄ hu h₄ => ?_
    refine methodName_sites.bind ?_
    rintro old s₅ ⟨w₅, h₅, hw₅⟩
    refine .pure ⟨_, (((h₁.trans h₂).trans h₃).trans h₄).trans h₅, ?_⟩
    exact (((hw₁.left hw₂).left (.token ht rfl)).left (.token hu rfl)).left hw₅
  · refine methodName_sites.bind ?_
    rintro new s₂ ⟨w₂, h₂, hw₂⟩
    refine methodName_sites.bind ?_
    rintro old s₃ ⟨w₃, h₃, hw₃⟩
    exact .pure ⟨_, (h₁.trans h₂).trans h₃, (hw₁.left hw₂).left hw₃⟩

theorem variableMember_sites {kind : VariableKind} {name : String} (hn : 4 * n + 4 ≤ fuel)
    (hs : s.tokens.length ≤ n) :
    Passes c s (variableMember kind name fuel scopes.flatten) fun w m =>
      Accounts c.text w (m.sites scopes) := by
  unfold variableMember
  refine .expect_next fun t s₁ ht h₁ => ?_
  have := h₁.length
  refine (type_sites scopes hn s₁ (by omega)).bind ?_
  rintro u s₂ ⟨w₂, h₂, -, hu⟩
  exact .pure ⟨_, h₁.trans h₂, hu.right (.token ht rfl)⟩

theorem visibilityMark_sites : Passes c s visibilityMark fun w _ => Accounts c.text w [] := by
  unfold visibilityMark
  refine .get_bind ?_
  split
  case _ k start stop following next stop' ts hs =>
    have hnext {shown : Visibility} : Yields c s (do
        advance 1
        return some shown) fun (_ : Option Visibility) s' =>
          ∃ w, Passed w s s' ∧ Accounts c.text w [] := by
      refine .advance_next (l := .keyword k) (by rw [hs]; rfl) fun t s₁ ht h₁ => ?_
      exact .pure ⟨[t], h₁, .token ht rfl⟩
    dsimp only
    split
    · exact hnext
    · exact hnext
    · exact .pure ⟨_, .refl s, .nil⟩
  · exact .pure ⟨_, .refl s, .nil⟩

theorem access_plain {l : Lexeme} {access : Access} (h : access? l = some access) :
    l.isPlain = true := by
  cases l <;> first | rfl | cases h

theorem mixin_plain {l : Lexeme} {kind : MixinKind} {p : MixinKind → Bool}
    (h : (mixin? l).filter p = some kind) : l.isPlain = true := by
  cases l <;> first | rfl | cases h

theorem member_sites {nested : Bool} (hn : 4 * n + 4 ≤ fuel) (hs : s.tokens.length ≤ n) :
    Passes c s (member nested fuel scopes.flatten) fun w m =>
      w ≠ [] ∧ Accounts c.text w (m.sites scopes) := by
  unfold member
  refine visibilityMark_sites.bind ?_
  rintro visibility s₁ ⟨w₁, h₁, hw₁⟩
  refine .peek_bind fun l hl => ?_
  have := h₁.length
  have hrefuse : Yields c s₁ (show Parser Member from do failHere (.unexpectedInBody (← peek)))
      fun m s' => ∃ w, Passed w s s' ∧ w ≠ [] ∧ Accounts c.text w (m.sites scopes) :=
    .peek_bind fun l _ => .failHere
  split
  · exact hrefuse
  case _ l =>
  -- Each member is read behind its first token.
  have behind (hl' : l.isPlain = true) {p : Parser Member} (h : ∀ s₂, s₂.tokens.length ≤ n →
      Passes c s₂ p fun w m => Accounts c.text w (m.sites scopes)) :
      Yields c s₁ (do
        advance 1
        p) fun m s' => ∃ w, Passed w s s' ∧ w ≠ [] ∧ Accounts c.text w (m.sites scopes) := by
    refine .advance_next hl fun t s₂ ht h₂ => ?_
    have := h₂.length
    refine (h s₂ (by omega)).imp ?_
    rintro m s₃ ⟨w₃, h₃, hm⟩
    exact ⟨_, (h₁.trans h₂).trans h₃, by simp, hm.right (hw₁.left (.token ht hl'))⟩
  refine .ite (fun hdef => ?_) fun _ => ?_
  · exact behind (by rw [eq_of_beq hdef]; rfl) fun s₂ hs₂ => methodDefinition_sites hn hs₂
  split
  case _ access haccess =>
    exact behind (access_plain (Prod.mk.inj haccess).1) fun s₂ hs₂ => attributeMember_sites hn hs₂
  split
  case _ kind hkind =>
    refine behind (mixin_plain hkind) fun s₂ hs₂ => ?_
    refine (classRef_sites hn s₂ hs₂).bind ?_
    rintro r s₃ ⟨w₃, h₃, -, hr⟩
    exact .pure ⟨w₃, h₃, hr⟩
  refine .ite (fun halias => ?_) fun _ => ?_
  · exact behind (by rw [eq_of_beq halias]; rfl) fun s₂ _ => aliasMember_sites
  refine .ite (fun _ => hrefuse) fun _ => ?_
  split
  · exact behind rfl fun s₂ _ => .pure ⟨[], .refl s₂, .nil⟩
  · exact behind rfl fun s₂ _ => .pure ⟨[], .refl s₂, .nil⟩
  · exact behind rfl fun s₂ hs₂ => variableMember_sites hn hs₂
  · exact behind rfl fun s₂ hs₂ => variableMember_sites hn hs₂
  · refine selfDot_sites.bind ?_
    rintro b s₂ ⟨w₂, h₂, hw₂⟩
    refine .ite (fun _ => ?_) fun _ => .peek_bind fun m _ => .failHere
    refine .peek_bind fun m hm => ?_
    split
    · refine .advance_next hm fun t s₃ ht h₃ => ?_
      have := h₂.length
      have := h₃.length
      refine (variableMember_sites hn (by omega)).imp ?_
      rintro m s₄ ⟨w₄, h₄, hm⟩
      exact ⟨_, ((h₁.trans h₂).trans h₃).trans h₄, by simp,
        hm.right ((hw₁.left hw₂).left (.token ht rfl))⟩
    · exact .failMissing
  · exact hrefuse

end RubySig.Grammar
