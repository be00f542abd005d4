import RubySig.Proofs.Tree.Accounts
import RubySig.Proofs.Tree.TyPlaces

/-! The tokens that a type is read from account for its sites. -/
namespace RubySig.Grammar

variable {c : Context} {s : State} {n fuel : Nat} {w v : List Token} {type result : Parser Ty}
  {scopes : List (List String)} {α : Type} {p : Parser α}

/-- Some tokens account for a type and what is in it. -/
def TySited (text : List Char) (scopes : List (List String)) (w : List Token) (t : Ty) : Prop :=
  w ≠ [] ∧ Accounts text w (t.sites scopes)

theorem Covers.accounts (h : Covers c n type (TySited c.text scopes)) :
    Covers c n type fun w t => Accounts c.text w (t.sites scopes) := by
  intro s hs
  refine (h s hs).imp ?_
  rintro t s' ⟨w, hpassed, -, ht⟩
  exact ⟨w, hpassed, ht⟩

section Lists

variable {g : α → List Site}

theorem separated_sites {separator : Lexeme} (hplain : separator.isPlain = true)
    (h : Covers c n p fun w a => w ≠ [] ∧ Accounts c.text w (g a)) (fuel : Nat)
    (hs : s.tokens.length ≤ n) :
    Passes c s (separated separator p fuel) fun w as =>
      as.length ≤ w.length ∧ Accounts c.text w (as.flatMap g) ∧ (0 < fuel → as ≠ []) := by
  induction fuel generalizing s with
  | zero =>
    unfold separated
    exact .pure ⟨[], .refl s, by simp, .nil, by simp⟩
  | succ fuel ih =>
    unfold separated
    refine (h s hs).bind ?_
    rintro a s₁ ⟨w₁, h₁, hw₁, ha⟩
    have := List.length_pos_iff.mpr hw₁
    refine Yields.eat_next (fun t s₂ ht h₂ => ?_) ?_
    · have := h₁.length
      have := h₂.length
      refine (ih (s := s₂) (by omega)).bind ?_
      rintro as s₃ ⟨w₃, h₃, hlength, has, -⟩
      refine .pure ⟨_, (h₁.trans h₂).trans h₃, ?_, ?_, fun _ => by simp⟩
      · simp
        omega
      · rw [List.flatMap_cons]
        exact (ha.left (.token ht hplain)).append has
    · refine .pure ⟨w₁, h₁, ?_, ?_, fun _ => by simp⟩
      · rw [List.length_singleton]
        omega
      · rwa [List.flatMap_singleton]

theorem listed_sites {close : Lexeme} (h : Covers c n p fun w a => Accounts c.text w (g a))
    (fuel : Nat) (hs : s.tokens.length ≤ n) :
    Passes c s (listed close p fuel) fun w as => Accounts c.text w (as.flatMap g) := by
  induction fuel generalizing s with
  | zero =>
    unfold listed
    exact .pure ⟨[], .refl s, .nil⟩
  | succ fuel ih =>
    unfold listed
    refine .isNext_if (fun _ => .pure ⟨[], .refl s, .nil⟩) ?_
    refine (h s hs).bind ?_
    rintro a s₁ ⟨w₁, h₁, ha⟩
    refine Yields.eat_next (fun t s₂ ht h₂ => ?_) ?_
    · have := h₁.length
      have := h₂.length
      refine (ih (s := s₂) (by omega)).bind ?_
      rintro as s₃ ⟨w₃, h₃, has⟩
      exact .pure ⟨_, (h₁.trans h₂).trans h₃, (ha.left (.token ht rfl)).append has⟩
    · refine .pure ⟨w₁, h₁, ?_⟩
      have := ha.append .nil
      rwa [List.append_nil] at this

end Lists

theorem param_sites (h : Covers c n type (TySited c.text scopes)) :
    Covers c n (param type) fun w p => Accounts c.text w (p.sites scopes) := by
  intro s hs
  unfold param
  refine .here_place ((h s hs).bind ?_)
  rintro t s₁ ⟨w₁, h₁, hw₁, ht⟩
  refine .peek_bind fun l hl => ?_
  split
  case _ name hname =>
    obtain ⟨l, rfl, hl'⟩ := Option.bind_eq_some_iff.mp hname
    refine .advance_next hl fun u s₂ hu h₂ => ?_
    refine .span_cover (h₁.trans h₂) (by simp) (.pure ⟨_, h₁.trans h₂, ?_⟩)
    exact ht.left (.token hu (isPlain_name hl'))
  case _ => exact .span_cover h₁ hw₁ (.pure ⟨w₁, h₁, ht⟩)

/-- The tokens that name a keyword parameter are no strings. -/
theorem keywordParam_next : Yields c s keywordParam? fun r s' => s' = s ∧ ∀ name optional,
    r = some (name, optional) →
      ∀ t ∈ s.tokens.take (if optional then 3 else 2), t.lexeme.isPlain = true := by
  have hat {optional o : Bool} {name : Option String} {behind : Option Lexeme} {k : String}
      (h : keywordAt o name behind = some (k, optional)) :
      optional = o ∧ name = some k ∧ behind = some (.mark .colon) := by
    unfold keywordAt at h
    split at h <;> cases h
    exact ⟨rfl, rfl, rfl⟩
  intro r s' h
  obtain ⟨tokens, last, blocks⟩ := s
  rw [keywordParam_eq] at h
  cases h
  refine ⟨rfl, ?_⟩
  intro name optional hkeyword
  obtain ⟨rfl, hname, hcolon⟩ := hat hkeyword
  obtain ⟨l, hl, hlname⟩ := Option.bind_eq_some_iff.mp hname
  rw [List.getElem?_map] at hl hcolon
  have hplain := isPlain_name hlname
  cases hquestion : ((tokens.map (·.lexeme)).head? == some (Lexeme.mark .question)) with
  | true =>
    rw [hquestion, if_pos rfl] at hl hcolon
    have hfirst := eq_of_beq hquestion
    rw [List.head?_eq_getElem?, List.getElem?_map] at hfirst
    refine plain_take fun i hi => ?_
    rcases i with _ | _ | _ | i
    · exact ⟨_, hfirst, rfl⟩
    · exact ⟨_, hl, hplain⟩
    · exact ⟨_, hcolon, rfl⟩
    · have hi : i + 3 < 3 := hi
      omega
  | false =>
    rw [hquestion, if_neg Bool.false_ne_true] at hl hcolon
    refine plain_take fun i hi => ?_
    rcases i with _ | _ | i
    · exact ⟨_, hl, hplain⟩
    · exact ⟨_, hcolon, rfl⟩
    · have hi : i + 2 < 2 := hi
      omega

/-- The parameters read so far leave room for a rest parameter as long as one may come. -/
def Params.Vacant (stage : Stage) (ps : Params) : Prop :=
  stage = .required ∨ stage = .optional → ps.rest = none

/-- A parameter that is read next may be added to the ones before where there is room for it. -/
theorem roomyParam_sites {ps : Params} {s₁ : State} (h : Covers c n type (TySited c.text scopes))
    (hs : s.tokens.length ≤ n) (hps : Accounts c.text w (ps.sites scopes)) (h₁ : Passed v s s₁)
    (hv : Accounts c.text v []) :
    Yields c s₁ (param type) fun p s' => ∃ v, Passed v s s' ∧ ∀ slot, ParamSlot.param slot = p →
      ps.HasRoom slot → Accounts c.text (w ++ v) ((ps.add slot).sites scopes) := by
  have := h₁.length
  refine (param_sites h s₁ (by omega)).imp ?_
  rintro p s₂ ⟨v₂, h₂, hp⟩
  refine ⟨v ++ v₂, h₁.trans h₂, ?_⟩
  rintro slot rfl hroom
  exact (hps.append (hp.right hv)).perm (Params.add_sites hroom).symm

/-- A parameter goes to the slot that the tokens in front of it tell. -/
theorem slotted_sites {ps : Params} {s₁ : State} (next : Stage) (build : Param → ParamSlot)
    (h : Covers c n type (TySited c.text scopes)) (hs : s.tokens.length ≤ n)
    (hps : Accounts c.text w (ps.sites scopes)) (h₁ : Passed v s s₁) (hv : Accounts c.text v [])
    (hbuild : ∀ p, (build p).param = p) (hroom : ∀ p, ps.HasRoom (build p))
    (hnext : ∀ p, (ps.add (build p)).Vacant next) :
    Yields c s₁ (do
      let p ← param type
      return (next, ps.add (build p))) fun r s' => ∃ v, Passed v s s' ∧
        Accounts c.text (w ++ v) (r.2.sites scopes) ∧ r.2.Vacant r.1 := by
  refine (roomyParam_sites h hs hps h₁ hv).bind ?_
  rintro p s₂ ⟨v₂, h₂, hp⟩
  exact .pure ⟨v₂, h₂, hp (build p) (hbuild p) (hroom p), hnext p⟩

theorem slot_sites {stage : Stage} {ps : Params} (h : Covers c n type (TySited c.text scopes))
    (hs : s.tokens.length ≤ n) (hps : Accounts c.text w (ps.sites scopes))
    (hvacant : ps.Vacant stage) :
    Passes c s (slot type stage ps) fun v r =>
      Accounts c.text (w ++ v) (r.2.sites scopes) ∧ r.2.Vacant r.1 := by
  have hmark {t : Token} {m : Mark} (ht : t.lexeme = .mark m) : Accounts c.text [t] [] :=
    .token ht rfl
  have hself := Passed.refl s
  unfold slot
  refine keywordParam_next.bind ?_
  rintro keyword s₁ ⟨rfl, hkeyword⟩
  split
  case _ name optional =>
    have hplain := hkeyword name optional rfl
    refine .advance_take fun s₁ h₁ =>
      (roomyParam_sites h hs hps h₁ (.quiet fun _ => hplain)).bind ?_
    rintro p s₂ ⟨v, h₂, hp⟩
    refine .ite (fun _ => .lastPlace_bind fun q => .failAt) fun _ => ?_
    have hkeywords (optional : Bool) : (ps.add (.keyword name optional p)).Vacant .keywords := by
      rintro (h | h) <;> cases h
    cases optional with
    | true => exact .pure ⟨v, h₂, hp (.keyword name true p) rfl trivial, hkeywords true⟩
    | false => exact .pure ⟨v, h₂, hp (.keyword name false p) rfl trivial, hkeywords false⟩
  case _ =>
    refine .eat_next (fun t s₁ ht h₁ => ?_) ?_
    · refine .ite (fun _ => .lastPlace_bind fun q => .failAt) fun hnone => ?_
      refine slotted_sites .done .restKeywords h hs hps h₁ (hmark ht) (fun p => rfl)
        (fun p => ?_) fun p => ?_
      · exact Option.not_isSome_iff_eq_none.mp hnone
      · rintro (h | h) <;> cases h
    refine .ite (fun _ => .failHere) fun _ => .eat_next (fun t s₁ ht h₁ => ?_) ?_
    · refine .ite (fun hstage => ?_) fun _ => .lastPlace_bind fun q => .failAt
      have hrest := hvacant (by simpa using hstage)
      exact slotted_sites .optional .optional h hs hps h₁ (hmark ht) (fun p => rfl)
        (fun p => trivial)
        fun p _ => hrest
    refine .eat_next (fun t s₁ ht h₁ => ?_) ?_
    · refine .ite (fun hstage => ?_) fun _ => .lastPlace_bind fun q => .failAt
      have hrest := hvacant (by simpa using hstage)
      refine slotted_sites .trailing .rest h hs hps h₁ (hmark ht) (fun p => rfl) (fun p => hrest)
        fun p => ?_
      rintro (h | h) <;> cases h
    · split
      · exact slotted_sites .required .required h hs hps hself .nil (fun p => rfl)
          (fun p => trivial)
          fun p => hvacant
      · exact slotted_sites .trailing .trailing h hs hps hself .nil (fun p => rfl)
          (fun p => trivial)
          fun p => hvacant
      · exact .failHere

theorem params_sites {stage : Stage} {ps : Params} (h : Covers c n type (TySited c.text scopes))
    (fuel : Nat) (hs : s.tokens.length ≤ n) (hps : Accounts c.text w (ps.sites scopes))
    (hvacant : ps.Vacant stage) :
    Passes c s (params type fuel stage ps) fun v qs =>
      Accounts c.text (w ++ v) (qs.sites scopes) := by
  induction fuel generalizing s stage ps w with
  | zero =>
    unfold params
    exact .pure ⟨[], .refl s, by simpa using hps⟩
  | succ fuel ih =>
    rw [params_succ]
    refine .isNext_if (fun _ => .pure ⟨[], .refl s, by simpa using hps⟩) ?_
    refine (slot_sites h hs hps hvacant).bind ?_
    rintro ⟨stage, qs⟩ s₁ ⟨w₁, h₁, hqs, hnext⟩
    refine .eat_next (fun t s₂ ht h₂ => ?_) (.pure ⟨w₁, h₁, hqs⟩)
    have := h₁.length
    have := h₂.length
    refine (ih (s := s₂) (by omega) (hqs.left (.token ht rfl)) hnext).imp ?_
    rintro rs s₃ ⟨w₃, h₃, hrs⟩
    exact ⟨_, (h₁.trans h₂).trans h₃, by simpa using hrs⟩

theorem paramList_sites (h : Covers c n type (TySited c.text scopes)) (fuel : Nat)
    (hs : s.tokens.length ≤ n) :
    Passes c s (paramList type fuel) fun w ps => Accounts c.text w (ps.sites scopes) := by
  unfold paramList
  refine .eat_next (fun t s₁ ht h₁ => ?_) (.pure ⟨[], .refl s, .nil⟩)
  have := h₁.length
  have hempty : Accounts c.text [t] (Params.empty.sites scopes) := .token ht rfl
  refine (params_sites h fuel (by omega) hempty fun _ => rfl).bind ?_
  rintro ps s₂ ⟨w₂, h₂, hps⟩
  exact .expect_next fun u s₃ hu h₃ =>
    .pure ⟨_, (h₁.trans h₂).trans h₃, hps.left (.token hu rfl)⟩

theorem blockClause_sites (h : Covers c n type (TySited c.text scopes))
    (hr : Covers c n result (TySited c.text scopes)) (fuel : Nat) (hs : s.tokens.length ≤ n) :
    Passes c s (blockClause type result fuel) fun w block =>
      Accounts c.text w (Block.sites scopes block) := by
  unfold blockClause
  have inside (required : Bool) {w₁ : List Token} {s₁ : State} (h₁ : Passed w₁ s s₁)
      (hw₁ : Accounts c.text w₁ []) : Yields c s₁ (do
        let ps ← paramList type fuel
        expect (.mark .arrow) .arrowOfBlock
        let r ← result
        let inner := ps.signature (← spanFrom (place c s)) r
        expect (.mark .rbrace) .closeOfBlock
        return some ⟨← spanFrom (place c s), inner, required⟩) fun block s' =>
          ∃ w, Passed w s s' ∧ Accounts c.text w (Block.sites scopes block) := by
    have := h₁.length
    refine (paramList_sites h fuel (by omega)).bind ?_
    rintro ps s₂ ⟨w₂, h₂, hps⟩
    refine .expect_next fun t s₃ ht h₃ => ?_
    have := h₂.length
    have := h₃.length
    refine (hr s₃ (by omega)).bind ?_
    rintro r s₄ ⟨w₄, h₄, hw₄, hresult⟩
    have hinner := ((h₁.trans h₂).trans h₃).trans h₄
    refine .span_cover hinner (by simp) (.expect_next fun u s₅ hu h₅ => ?_)
    refine .span_cover (hinner.trans h₅) (by simp) (.pure ⟨_, hinner.trans h₅, ?_⟩)
    have hsignature := ((hps.right hw₁).left (.token ht rfl)).append hresult
    rw [Block.sites, Params.signature_sites, List.append_nil]
    exact hsignature.left (.token hu rfl)
  refine .here_place (.isNext_known fun b hb => ?_)
  cases b with
  | true =>
    refine .peekAt_known fun brace hbrace => .ite (fun hopen => ?_) fun _ =>
      .pure ⟨[], .refl s, .nil⟩
    refine .advance_take fun s₁ h₁ => inside false h₁ (.quiet fun _ => plain_take fun i hi => ?_)
    rcases i with _ | _ | i
    · exact ⟨_, hb rfl, rfl⟩
    · exact ⟨_, hbrace.trans (eq_of_beq hopen), rfl⟩
    · have hi : i + 2 < 2 := hi
      omega
  | false =>
    refine .peek_bind fun brace hbrace => .ite (fun hopen => ?_) fun _ => .pure ⟨[], .refl s, .nil⟩
    have hopen := hbrace.trans (eq_of_beq hopen)
    exact .advance_next hopen fun t s₁ ht h₁ => inside true h₁ (.token ht rfl)

theorem signature_sites (h : Covers c n type (TySited c.text scopes))
    (hr : Covers c n result (TySited c.text scopes)) (fuel : Nat) :
    Covers c n (signature type result fuel) fun w r =>
      w ≠ [] ∧ Accounts c.text w (r.1.sites scopes (Block.sites scopes r.2)) := by
  intro s hs
  unfold signature
  refine .here_place ((paramList_sites h fuel hs).bind ?_)
  rintro ps s₁ ⟨w₁, h₁, hps⟩
  have := h₁.length
  refine (blockClause_sites h hr fuel (by omega)).bind ?_
  rintro block s₂ ⟨w₂, h₂, hblock⟩
  refine .expect_next fun t s₃ ht h₃ => ?_
  have := h₂.length
  have := h₃.length
  refine (hr s₃ (by omega)).bind ?_
  rintro r s₄ ⟨w₄, h₄, hw₄, hresult⟩
  have hall := ((h₁.trans h₂).trans h₃).trans h₄
  refine .span_cover hall (by simp) (.pure ⟨_, hall, by simp, ?_⟩)
  exact ((hps.append hblock).left (.token ht rfl)).append hresult

theorem typeArgs_sites (h : Covers c n type (TySited c.text scopes)) (fuel : Nat)
    (hs : s.tokens.length ≤ n) :
    Passes c s (typeArgs type fuel) fun w args => Accounts c.text w (Ty.sitesAll scopes args) := by
  unfold typeArgs
  refine .eat_next (fun t s₁ ht h₁ => ?_) (.pure ⟨[], .refl s, .nil⟩)
  have := h₁.length
  refine (h s₁ (by omega)).bind ?_
  rintro first s₂ ⟨w₂, h₂, hw₂, hfirst⟩
  have hend {w₃ : List Token} {s₃ : State} (h₃ : Passed w₃ s₂ s₃) {more : List Ty}
      (hmore : Accounts c.text w₃ (more.flatMap (Ty.sites scopes))) : Yields c s₃ (do
        expect (.mark .rbracket) .closeOfArgs
        return first :: more) fun args s' =>
          ∃ w, Passed w s s' ∧ Accounts c.text w (Ty.sitesAll scopes args) := by
    refine .expect_next fun u s₄ hu h₄ => .pure ⟨_, (h₁.trans (h₂.trans h₃)).trans h₄, ?_⟩
    rw [Ty.sitesAll_eq_flatMap]
    exact ((hfirst.append hmore).right (.token ht rfl)).left (.token hu rfl)
  refine .eat_next (fun u s₃ hu h₃ => ?_) (hend (.refl s₂) .nil)
  have := h₂.length
  have := h₃.length
  refine (listed_sites h.accounts fuel (by omega)).bind ?_
  rintro more s₄ ⟨w₄, h₄, hmore⟩
  exact hend (h₃.trans h₄) (hmore.right (.token hu rfl))

theorem not_isInterface {name : TypeName} (h : name.isClass = true) : name.isInterface = false := by
  unfold TypeName.isClass at h
  unfold TypeName.isInterface
  split
  case _ heq =>
    rw [heq] at h
    dsimp only at h
    rw [not_capital_underscore] at h
    cases h
  case _ => rfl

theorem bareName_classInstance {l : Option Span} {name : TypeName} {args : List Ty} {n : String} :
    (Ty.classInstance l name args).bareName? = some n ↔ name.isBare = true ∧ name.name = n := by
  obtain ⟨location, own, path, absolute⟩ := name
  cases path <;> cases absolute <;> simp [Ty.bareName?, TypeName.isBare]

section Names

variable {text : List Char} {name : TypeName} {t : Ty}

/-- A class name without a namespace that is the name of a type parameter is read as that
parameter. -/
theorem NameRead.variable_sited (h : NameRead text w name) (hclass : name.isClass = true)
    (hbare : name.isBare = true) (hmem : name.name ∈ scopes.flatten) :
    TySited text scopes w (.variable (Token.cover w) name.name) := by
  refine ⟨h.nonempty, ?_⟩
  have hplain : Accounts text w [] := .quiet fun _ => h.plain
  refine hplain.cons h.nonempty List.infix_rfl (fun hgenuine => ?_) rfl
  refine ⟨rfl, fun n => ?_, fun n => ?_⟩
  · rw [h.bare hgenuine, Ty.variableName?, Option.some.injEq]
    exact ⟨fun hn => ⟨⟨hclass, hbare, hn⟩, hn ▸ hmem⟩, fun hn => hn.1.2.2⟩
  · rw [h.bare hgenuine]
    refine iff_of_false (by simp [Ty.bareName?]) ?_
    rintro ⟨⟨-, -, rfl⟩, hn⟩
    exact hn hmem

/-- Any other name is read with its arguments as a type of that name, which is a class if the name
is one of a class. -/
theorem NameRead.named_sited {args : List Ty} (h : NameRead text w name)
    (hargs : Accounts text v (Ty.sitesAll scopes args))
    (hout : ¬(name.isClass = true ∧ name.isBare = true ∧ name.name ∈ scopes.flatten))
    (hplace : t.namePlace = name.location) (hvariable : t.variableName? = none)
    (hclass : ∀ n, t.bareName? = some n ↔ name.isClass = true ∧ name.isBare = true ∧ name.name = n)
    (hstring : t.string? = none) (hinner : t.inner scopes = Ty.sitesAll scopes args) :
    TySited text scopes (w ++ v) t := by
  refine ⟨by simp [h.nonempty], ?_⟩
  rw [Ty.sites, hinner]
  refine (hargs.right (.quiet fun _ => h.plain)).cons h.nonempty (List.prefix_append w v).isInfix
    (fun hgenuine => ?_) hstring
  refine ⟨hplace.trans h.place, fun n => ?_, fun n => ?_⟩
  · rw [h.bare hgenuine.left, hvariable]
    refine iff_of_false (by simp) ?_
    rintro ⟨⟨hclass, hbare, rfl⟩, hn⟩
    exact hout ⟨hclass, hbare, hn⟩
  · rw [h.bare hgenuine.left, hclass]
    refine ⟨fun hn => ⟨hn, ?_⟩, And.left⟩
    obtain ⟨hclass, hbare, rfl⟩ := hn
    exact fun hn => hout ⟨hclass, hbare, hn⟩

end Names

theorem namedType_sites (fuel : Nat) (h : Covers c (n - 1) type (TySited c.text scopes)) :
    Covers c n (namedType scopes.flatten type fuel) (TySited c.text scopes) := by
  intro s hs
  unfold namedType
  refine .here_place (typeName_read.bind ?_)
  rintro name s₁ ⟨w₁, h₁, hname⟩
  have := h₁.length
  have := List.length_pos_iff.mpr hname.nonempty
  have hparameter : (name.isClass && !name.absolute && name.path.isEmpty &&
      scopes.flatten.contains name.name) = true ↔
      name.isClass = true ∧ name.isBare = true ∧ name.name ∈ scopes.flatten := by
    rw [TypeName.isBare, Bool.and_eq_true, Bool.and_assoc, Bool.and_eq_true, and_assoc,
      List.contains_iff_mem]
  refine .ite (fun hin => ?_) fun hout => ?_
  · obtain ⟨hclass, hbare, hmem⟩ := hparameter.mp hin
    exact .span_cover h₁ hname.nonempty (.pure ⟨w₁, h₁, hname.variable_sited hclass hbare hmem⟩)
  · rw [hparameter] at hout
    refine (typeArgs_sites h fuel (by omega)).bind ?_
    rintro args s₂ ⟨w₂, h₂, hargs⟩
    refine .span_cover (h₁.trans h₂) (by simp [hname.nonempty]) ?_
    refine .ite (fun hinterface => ?_) fun _ => .ite (fun hclass => ?_) fun hclass => ?_
    · refine .pure ⟨_, h₁.trans h₂, hname.named_sited hargs hout rfl rfl (fun n => ?_) rfl rfl⟩
      refine iff_of_false (by simp [Ty.bareName?]) ?_
      rintro ⟨hclass, -⟩
      rw [not_isInterface hclass] at hinterface
      cases hinterface
    · refine .pure ⟨_, h₁.trans h₂, hname.named_sited hargs hout rfl rfl (fun n => ?_) rfl rfl⟩
      rw [bareName_classInstance, and_iff_right hclass]
    · refine .pure ⟨_, h₁.trans h₂, hname.named_sited hargs hout rfl rfl (fun n => ?_) rfl rfl⟩
      exact iff_of_false (by simp [Ty.bareName?]) fun hn => hclass hn.1

theorem recordField_sites {key : Parser Ty} (hk : Covers c n key (TySited c.text scopes))
    (h : Covers c n type (TySited c.text scopes)) :
    Covers c n (recordField key type) fun w field => Accounts c.text w (field.sites scopes) := by
  intro s hs
  unfold recordField
  refine .here_place (.peek_bind fun l hl => .peekAt_known fun m hm => ?_)
  split
  case _ _ _ name hname =>
    obtain ⟨l, rfl, hlname⟩ := Option.bind_eq_some_iff.mp hname
    refine .advance_next hl fun t s₁ ht h₁ => .span_cover h₁ (by simp) ?_
    have hcolon : s₁.tokens.head?.map (·.lexeme) = some (.mark .colon) := by
      rw [h₁.tokens] at hm
      rw [← hm, List.head?_eq_getElem?]
      rfl
    refine .advance_next hcolon fun v s₂ hv h₂ => ?_
    have := h₁.length
    have := h₂.length
    refine (h s₂ (by omega)).bind ?_
    rintro u s₃ ⟨w₃, h₃, hw₃, hu⟩
    have hall := (h₁.trans h₂).trans h₃
    refine .span_cover hall (by simp) (.pure ⟨_, hall, ?_⟩)
    refine Accounts.key (hu.right (Accounts.left (.token ht ?_) (.token hv rfl))) rfl
    exact isPlain_name hlname
  · refine (hk s hs).bind ?_
    rintro k s₁ ⟨w₁, h₁, hw₁, hkey⟩
    split
    · refine .expect_next fun u s₂ hu h₂ => ?_
      have := h₁.length
      have := h₂.length
      refine (h s₂ (by omega)).bind ?_
      rintro t s₃ ⟨w₃, h₃, hw₃, ht⟩
      have hall := (h₁.trans h₂).trans h₃
      refine .span_cover hall (by simp) (.pure ⟨_, hall, ?_⟩)
      have hpair := (hkey.left (.token hu rfl)).append ht
      exact hpair.asKey
    · exact .failAt

/-- The tokens that each kind of type is read from account for it, if the fuel is enough for
them. -/
structure TypesSited (c : Context) (fuel : Nat) (scopes : List (List String)) : Prop where
  simple : ∀ n, 4 * n + 1 ≤ fuel →
    Covers c n (simpleType fuel scopes.flatten) (TySited c.text scopes)
  optional : ∀ n, 4 * n + 2 ≤ fuel →
    Covers c n (optionalType fuel scopes.flatten) (TySited c.text scopes)
  intersection : ∀ n, 4 * n + 3 ≤ fuel →
    Covers c n (Grammar.intersection fuel scopes.flatten) (TySited c.text scopes)
  type : ∀ n, 4 * n + 4 ≤ fuel →
    Covers c n (Grammar.type fuel scopes.flatten) (TySited c.text scopes)

theorem layer_sites {m : Mark} {build : Option Span → List Ty → Ty} {item : Parser Ty}
    (h : Covers c n item (TySited c.text scopes)) (hf : 0 < fuel)
    (hplace : ∀ l ts, (build l ts).namePlace = l) (hbare : ∀ l ts, NoBareName (build l ts))
    (hstring : ∀ l ts, (build l ts).string? = none)
    (hinner : ∀ l ts, (build l ts).inner scopes = Ty.sitesAll scopes ts) :
    Covers c n (layer m build item fuel) (TySited c.text scopes) := by
  intro s hs
  unfold layer
  refine .here_place ((separated_sites rfl h fuel hs).bind ?_)
  rintro ts s₁ ⟨w, hpassed, hlength, hts, hne⟩
  have hpos := List.length_pos_iff.mpr (hne hf)
  have hw : w ≠ [] := List.ne_nil_of_length_pos (by omega)
  split
  case _ t =>
    rw [List.flatMap_singleton] at hts
    exact .pure ⟨w, hpassed, hw, hts⟩
  case _ hmany =>
    -- There are two members or more, and as many tokens.
    have htwo : 2 ≤ w.length := by
      obtain _ | ⟨t, _ | ⟨u, us⟩⟩ := ts
      · simp at hpos
      · exact absurd rfl (hmany t)
      · rw [List.length_cons, List.length_cons] at hlength
        omega
    refine .span_cover hpassed hw (.pure ⟨w, hpassed, hw, ?_⟩)
    rw [Ty.sites, hinner, Ty.sitesAll_eq_flatMap]
    exact hts.compound htwo (hplace _ ts) (hbare _ ts) (hstring _ ts)

theorem optional_sites (h : Covers c n (simpleType fuel scopes.flatten) (TySited c.text scopes)) :
    Covers c n (optionalType (fuel + 1) scopes.flatten) (TySited c.text scopes) := by
  intro s hs
  unfold optionalType
  refine .here_place ((h s hs).bind ?_)
  rintro t s₁ ⟨w₁, h₁, hw₁, ht⟩
  refine .eat_next (fun u s₂ hu h₂ => ?_) (.pure ⟨w₁, h₁, hw₁, ht⟩)
  refine .span_cover (h₁.trans h₂) (by simp) (.pure ⟨_, h₁.trans h₂, by simp, ?_⟩)
  have := List.length_pos_iff.mpr hw₁
  refine Accounts.compound (ht.left (.token hu rfl)) ?_ rfl ⟨rfl, rfl⟩ rfl
  rw [List.length_append, List.length_singleton]
  omega

/-- A type that is a single token and not a name. -/
theorem single_sites {l : Lexeme} {build : Option Span → Ty}
    (hl : s.tokens.head?.map (·.lexeme) = some l) (hconstant : ∀ n, l ≠ .constant n)
    (hplace : ∀ p, (build p).namePlace = p) (hbare : ∀ p, NoBareName (build p))
    (hinner : ∀ p, (build p).inner scopes = [])
    (hstring : ∀ t : Token, t.lexeme = l → t.string? = (build (Token.cover [t])).string?) :
    Passes c s (do
      advance 1
      return build (← spanFrom (place c s))) (TySited c.text scopes) := by
  refine .advance_next hl fun t s₁ ht h₁ => .span_cover h₁ (by simp) (.pure ⟨[t], h₁, by simp, ?_⟩)
  rw [Ty.sites, hinner]
  exact .single (fun n => ht ▸ hconstant n) (hplace _) (hbare _) (hstring t ht)

/-- A token that is read as a literal is a string if and only if the literal is. -/
theorem string?_literal {t : Token} {value : Literal} (h : literal? t.lexeme = some value) :
    t.string? = (Ty.literal (Token.cover [t]) value).string? := by
  obtain ⟨l, start, stop⟩ := t
  dsimp only at h
  unfold literal? at h
  split at h <;> cases h <;> rfl

theorem literal_sites {l : Lexeme} {value : Literal} (hl : s.tokens.head?.map (·.lexeme) = some l)
    (hvalue : literal? l = some value) : Passes c s (do
      advance 1
      return .literal (← spanFrom (place c s)) value) (TySited c.text scopes) := by
  refine single_sites hl ?_ (fun p => rfl) (fun p => ⟨rfl, rfl⟩) (fun p => rfl) ?_
  · rintro n rfl
    cases hvalue
  · rintro t rfl
    exact string?_literal hvalue

/-- A type that is a list between two marks. -/
theorem enclosed_sites {first last : Mark} {missing : Missing} {item : Parser α} {g : α → List Site}
    {build : Option Span → List α → Ty}
    (hfirst : s.tokens.head?.map (·.lexeme) = some (.mark first))
    (h : Covers c (s.tokens.length - 1) item fun w a => Accounts c.text w (g a))
    (hplace : ∀ l as, (build l as).namePlace = l) (hbare : ∀ l as, NoBareName (build l as))
    (hstring : ∀ l as, (build l as).string? = none)
    (hinner : ∀ l as, (build l as).inner scopes = as.flatMap g) :
    Passes c s (do
      advance 1
      let as ← listed (.mark last) item fuel
      expect (.mark last) missing
      return build (← spanFrom (place c s)) as) (TySited c.text scopes) := by
  refine .advance_next hfirst fun t s₁ ht h₁ => ?_
  have := h₁.length_one
  refine (listed_sites h fuel (by omega)).bind ?_
  rintro as s₂ ⟨w₂, h₂, has⟩
  refine .expect_next fun v s₃ hv h₃ => ?_
  have hall := (h₁.trans h₂).trans h₃
  refine .span_cover hall (by simp) (.pure ⟨_, hall, by simp, ?_⟩)
  rw [Ty.sites, hinner]
  have hinside := (has.right (.token ht rfl)).left (.token hv rfl)
  exact hinside.compound (by simp) (hplace _ as) (hbare _ as) (hstring _ as)

theorem simple_sites (h : TypesSited c fuel scopes) (hn : 4 * n ≤ fuel) :
    Covers c n (simpleType (fuel + 1) scopes.flatten) (TySited c.text scopes) := by
  intro s hs
  -- Everything but a name is read behind a first token, which makes up for the fuel.
  have htype (hpos : 0 < s.tokens.length) :
      Covers c (s.tokens.length - 1) (Grammar.type fuel scopes.flatten) (TySited c.text scopes) :=
    h.type _ (by omega)
  have hname (hpos : 0 < s.tokens.length) : Passes c s
      (namedType scopes.flatten (Grammar.type fuel scopes.flatten) fuel) (TySited c.text scopes) :=
    namedType_sites fuel (htype hpos) s (Nat.le_refl _)
  unfold simpleType
  refine .here_place (.peek_bind fun l hl => ?_)
  split
  case _ =>
    refine .advance_next hl fun t s₁ ht h₁ => ?_
    have := h₁.length_one
    refine (htype (tokens_of_peek hl) s₁ (by omega)).bind ?_
    rintro u s₂ ⟨w₂, h₂, hw₂, hu⟩
    refine .expect_next fun v s₃ hv h₃ => .pure ⟨_, (h₁.trans h₂).trans h₃, by simp, ?_⟩
    exact (hu.right (.token ht rfl)).left (.token hv rfl)
  case _ =>
    refine .advance_next hl fun t s₁ ht h₁ => .expect_next fun u s₂ hu h₂ => ?_
    refine typeName_read.bind ?_
    rintro name s₃ ⟨w₃, h₃, hname⟩
    refine .expect_next fun v s₄ hv h₄ => ?_
    have hall := ((h₁.trans h₂).trans h₃).trans h₄
    refine .span_cover hall (by simp) (.pure ⟨_, hall, by simp, ?_⟩)
    have hplain : Accounts c.text w₃ [] := .quiet fun _ => hname.plain
    refine Accounts.compound ?_ (by simp) rfl ⟨rfl, rfl⟩ rfl
    exact (hplain.right (Accounts.left (.token ht rfl) (.token hu rfl))).left (.token hv rfl)
  case _ =>
    refine .advance_next hl fun t s₁ ht h₁ => ?_
    have := h₁.length_one
    have hoptional := h.optional (s.tokens.length - 1) (by omega)
    refine (signature_sites (htype (tokens_of_peek hl)) hoptional fuel s₁ (by omega)).bind ?_
    rintro r s₂ ⟨w₂, h₂, hw₂, hsignature⟩
    refine .span_cover (h₁.trans h₂) (by simp) (.pure ⟨_, h₁.trans h₂, by simp, ?_⟩)
    have := List.length_pos_iff.mpr hw₂
    refine Accounts.compound (hsignature.right (.token ht rfl)) ?_ rfl ⟨rfl, rfl⟩ rfl
    rw [List.length_append, List.length_singleton]
    omega
  case _ =>
    exact enclosed_sites hl (htype (tokens_of_peek hl)).accounts (fun _ _ => rfl)
      (fun _ _ => ⟨rfl, rfl⟩)
      (fun _ _ => rfl) fun _ types => Ty.sitesAll_eq_flatMap scopes types
  case _ =>
    have := tokens_of_peek hl
    have hfield := recordField_sites (h.simple (s.tokens.length - 1) (by omega)) (htype this)
    exact enclosed_sites hl hfield (fun _ _ => rfl) (fun _ _ => ⟨rfl, rfl⟩) (fun _ _ => rfl)
      fun _ fields => Field.sitesAll_eq_flatMap scopes fields
  case _ => exact hname (tokens_of_peek hl)
  case _ => exact hname (tokens_of_peek hl)
  case _ => exact hname (tokens_of_peek hl)
  case _ => exact hname (tokens_of_peek hl)
  case _ k =>
    split
    case _ =>
      refine single_sites hl (by simp) (fun p => rfl) (fun p => ⟨rfl, rfl⟩) (fun p => rfl) ?_
      rintro t ht
      exact Token.string?_eq_none (ht ▸ rfl)
    case _ value _ hvalue => exact literal_sites hl hvalue
    case _ => exact .failMissing
  case _ =>
    split
    case _ value hvalue => exact literal_sites hl hvalue
    case _ => exact .failMissing
  case _ => exact .failMissing

theorem types_sited (c : Context) (fuel : Nat) (scopes : List (List String)) :
    TypesSited c fuel scopes := by
  induction fuel with
  | zero =>
    constructor <;> (intro n hn; omega)
  | succ fuel ih =>
    constructor
    · exact fun n hn => simple_sites ih (by omega)
    · exact fun n hn => optional_sites (ih.simple n (by omega))
    · intro n hn
      rw [intersection_succ]
      exact layer_sites (ih.optional n (by omega)) (by omega) (fun _ _ => rfl)
        (fun _ _ => ⟨rfl, rfl⟩)
        (fun _ _ => rfl) fun _ _ => rfl
    · intro n hn
      rw [type_succ]
      exact layer_sites (ih.intersection n (by omega)) (by omega) (fun _ _ => rfl)
        (fun _ _ => ⟨rfl, rfl⟩) (fun _ _ => rfl) fun _ _ => rfl

end RubySig.Grammar
