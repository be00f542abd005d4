import RubySig.Proofs.Tree.DeclarationPlaces

/-!
Where tokens are refused. Whatever the grammar refuses, it refuses at one of the tokens or at their
end, and what an error says that it found is what stands there.
-/
namespace RubySig.Grammar

/-- What a cause tells of the next token, which is none at the end, is so. -/
def Cause.Finds (l : Option Lexeme) : Cause → Prop
  | .missing _ found | .unexpected found | .unexpectedInBody found => found = l
  | .unclosedBody => l = none
  | _ => True

variable {c : Context} {s s' : State} {w : List Token} {α β : Type} {p q : Parser α}
  {f : α → Parser β} {fuel : Nat} {scope : List String}

/-- An error at the next of the tokens that are left from a state on, or at their end; or at the
last of those that are passed, and then it says nothing of the next one. -/
inductive Refusal (c : Context) (s : State) : Cause × Position → Prop where
  | next {w : List Token} {s' : State} {cause : Cause} : Passed w s s' →
      cause.Finds (s'.tokens.head?.map (·.lexeme)) → Refusal c s (cause, place c s')
  | last {w : List Token} {s' : State} {t : Token} {cause : Cause} :
      Passed w s s' → s'.last = some t →
      (∀ l, cause.Finds l) → Refusal c s (cause, t.start)

/-- What a parser gives from a state behind `s`: a result behind tokens that it passes, or a
refusal. -/
structure Answers (c : Context) (s s' : State) (p : Parser α) : Prop where
  passes : Yields c s' p fun _ s'' => ∃ w, Passed w s s''
  refuses : ∀ e, p c s' = .error e → Refusal c s e

/-- From every state a parser passes tokens or refuses them. -/
def Honest (c : Context) (p : Parser α) : Prop := ∀ s s' w, Passed w s s' → Answers c s s' p

namespace Answers

theorem pure {a : α} (hs : Passed w s s') : Answers c s s' (Pure.pure a) where
  passes := .pure ⟨w, hs⟩
  refuses e he := by cases he

theorem bind (h : Answers c s s' p) (k : ∀ a s'' v, Passed v s s'' → Answers c s s'' (f a)) :
    Answers c s s' (p >>= f) where
  passes := by
    refine h.passes.bind ?_
    rintro a s'' ⟨v, hv⟩
    exact (k a s'' v hv).passes
  refuses := by
    intro e he
    change (p c s' >>= fun r => f r.1 c r.2) = _ at he
    cases hp : p c s' with
    | error e' =>
      rw [hp] at he
      cases he
      exact h.refuses e hp
    | ok r =>
      rw [hp] at he
      obtain ⟨v, hv⟩ := h.passes r.1 r.2 hp
      exact (k r.1 r.2 v hv).refuses e he

theorem ite {b : Prop} [Decidable b] (hp : b → Answers c s s' p) (hq : ¬b → Answers c s s' q) :
    Answers c s s' (if b then p else q) := by
  split
  case isTrue h => exact hp h
  case isFalse h => exact hq h

/-- An error at a place between `s` and the state that says nothing of the next token. -/
theorem failAt {s'' : State} {cause : Cause} (hs : Passed w s s'') (h : ∀ l, cause.Finds l) :
    Answers c s s' (Grammar.failAt (place c s'') cause : Parser α) where
  passes := .failAt
  refuses e he := by
    cases he
    exact .next hs (h _)

theorem failHere {cause : Cause} (hs : Passed w s s')
    (h : cause.Finds (s'.tokens.head?.map (·.lexeme))) :
    Answers c s s' (Grammar.failHere cause : Parser α) where
  passes := .failHere
  refuses e he := by
    cases he
    exact .next hs h

theorem lastPlace_fail {cause : Cause} (hs : Passed w s s') (h : ∀ l, cause.Finds l) :
    Answers c s s' (lastPlace >>= fun q => Grammar.failAt q cause : Parser α) where
  passes := .lastPlace_bind fun q => .failAt
  refuses e he := by
    obtain ⟨tokens, last, blocks⟩ := s'
    cases last with
    | none =>
      cases he
      exact .next hs (h _)
    | some t =>
      cases he
      exact .last hs rfl h

theorem here_bind {f : Position → Parser β} (k : Answers c s s' (f (place c s'))) :
    Answers c s s' (here >>= f) :=
  ⟨.here_place k.passes, k.refuses⟩

theorem peek_bind {f : Option Lexeme → Parser β}
    (k : ∀ l, s'.tokens.head?.map (·.lexeme) = l → Answers c s s' (f l)) :
    Answers c s s' (peek >>= f) :=
  ⟨(k _ rfl).passes, (k _ rfl).refuses⟩

theorem get_bind {f : State → Parser β} (k : Answers c s s' (f s')) : Answers c s s' (get >>= f) :=
  ⟨k.passes, k.refuses⟩

theorem read_bind {f : Context → Parser β} (k : Answers c s s' (f c)) :
    Answers c s s' (read >>= f) :=
  ⟨k.passes, k.refuses⟩

theorem advance_bind {n : Nat} {f : Unit → Parser β} (hs : Passed w s s')
    (k : ∀ s'' v, Passed v s s'' → Answers c s s'' (f ())) : Answers c s s' (advance n >>= f) :=
  have h := k _ _ (hs.trans (Passed.advance n s'))
  ⟨h.passes, h.refuses⟩

end Answers

namespace Honest

theorem pure {a : α} : Honest c (Pure.pure a) := fun _ _ _ hs => .pure hs

theorem bind (h : Honest c p) (k : ∀ a, Honest c (f a)) : Honest c (p >>= f) :=
  fun s s' w hs => (h s s' w hs).bind fun a s'' v hv => k a s s'' v hv

theorem ite {b : Prop} [Decidable b] (hp : Honest c p) (hq : Honest c q) :
    Honest c (if b then p else q) :=
  fun s s' w hs => .ite (fun _ => hp s s' w hs) fun _ => hq s s' w hs

theorem map {g : α → β} (h : Honest c p) : Honest c (do return g (← p)) := h.bind fun _ => pure

/-- What only looks refuses nothing. -/
theorem looking (h : ∀ s, ∃ a, p c s = .ok (a, s)) : Honest c p := by
  intro s s' w hs
  obtain ⟨a, ha⟩ := h s'
  constructor
  · intro b s'' hb
    cases ha.symm.trans hb
    exact ⟨w, hs⟩
  · intro e he
    cases ha.symm.trans he

theorem peek : Honest c peek := looking fun _ => ⟨_, rfl⟩

theorem peekAt {n : Nat} : Honest c (peekAt n) := looking fun _ => ⟨_, rfl⟩

theorem here : Honest c here := looking fun _ => ⟨_, rfl⟩

theorem isNext {l : Lexeme} : Honest c (isNext l) := peek.map

theorem advance {n : Nat} : Honest c (advance n) := by
  intro s s' w hs
  refine ⟨?_, fun e he => by cases he⟩
  intro a s'' ha
  cases ha
  exact ⟨_, hs.trans (Passed.advance n s')⟩

theorem advance_bind {n : Nat} {f : Unit → Parser β} (k : Honest c (f ())) :
    Honest c (Grammar.advance n >>= f) :=
  advance.bind fun _ => k

theorem failMissing {what : Missing} : Honest c (failMissing what : Parser α) := by
  intro s s' w hs
  exact .peek_bind fun l hl => .failHere hs hl.symm

/-- An error about what comes next that says nothing of it. -/
theorem failHere {cause : Cause} (h : ∀ l, cause.Finds l) : Honest c (failHere cause : Parser α) :=
  fun _ _ _ hs => .failHere hs (h _)

theorem lastPlace_fail {cause : Cause} (h : ∀ l, cause.Finds l) :
    Honest c (lastPlace >>= fun q => failAt q cause : Parser α) :=
  fun _ _ _ hs => .lastPlace_fail hs h

theorem eat {l : Lexeme} : Honest c (eat l) := isNext.bind fun _ => .ite (advance_bind .pure) .pure

theorem expect {l : Lexeme} {what : Missing} : Honest c (expect l what) :=
  eat.bind fun b => by
    cases b with
    | true => exact .pure
    | false => exact .failMissing

theorem expect_bind {l : Lexeme} {what : Missing} {f : Unit → Parser β} (k : Honest c (f ())) :
    Honest c (Grammar.expect l what >>= f) :=
  expect.bind fun _ => k

theorem eat_if {l : Lexeme} (hp : Honest c p) (hq : Honest c q) :
    Honest c (Grammar.eat l >>= fun b => if b = true then p else q) :=
  eat.bind fun _ => .ite hp hq

theorem isNext_if {l : Lexeme} (hp : Honest c p) (hq : Honest c q) :
    Honest c (Grammar.isNext l >>= fun b => if b = true then p else q) :=
  isNext.bind fun _ => .ite hp hq

theorem span {start : Position} : Honest c (spanFrom start) := by
  refine looking fun s => ?_
  obtain ⟨tokens, last, blocks⟩ := s
  cases last with
  | none => exact ⟨_, rfl⟩
  | some t => exact ⟨_, rfl⟩

theorem separated {separator : Lexeme} (h : Honest c p) (fuel : Nat) :
    Honest c (separated separator p fuel) := by
  induction fuel with
  | zero => exact .pure
  | succ fuel ih => exact h.bind fun a => .eat_if ih.map .pure

theorem listed {close : Lexeme} (h : Honest c p) (fuel : Nat) : Honest c (listed close p fuel) := by
  induction fuel with
  | zero => exact .pure
  | succ fuel ih => exact .isNext_if .pure (h.bind fun a => .eat_if ih.map .pure)

end Honest

theorem typeName_honest {segment : Segment} {role : Role} : Honest c (typeName segment role) := by
  unfold typeName
  refine .bind .here fun start => .bind .eat fun absolute => ?_
  intro s s' w hs
  refine .get_bind (.advance_bind hs fun s₁ v hv => .peek_bind fun l hl => ?_)
  split
  · exact Honest.failMissing s s₁ v hv
  · refine (Honest.advance_bind ?_) s s₁ v hv
    exact Honest.span.map

section Types

variable {type result : Parser Ty}

theorem param_honest (h : Honest c type) : Honest c (param type) := by
  unfold param
  refine .bind .here fun start => h.bind fun t => .bind .peek fun l => ?_
  split
  · exact .advance_bind Honest.span.map
  · exact Honest.span.map

theorem keywordParam_honest : Honest c keywordParam? := by
  unfold keywordParam?
  refine .bind .isNext fun optional => .bind .peekAt fun l => .bind .peekAt fun m => ?_
  split <;> exact .pure

theorem slot_honest (h : Honest c type) (stage : Stage) (ps : Params) :
    Honest c (slot type stage ps) := by
  have hparam {g : Param → Stage × Params} : Honest c (do return g (← param type)) :=
    (param_honest h).map
  unfold slot
  refine .bind keywordParam_honest fun keyword => ?_
  split
  · refine .advance_bind ((param_honest h).bind fun p => .ite ?_ (.ite .pure .pure))
    exact .lastPlace_fail fun _ => trivial
  · refine .eat_if (.ite (.lastPlace_fail fun _ => trivial) hparam) ?_
    refine .ite (.failHere fun _ => trivial) ?_
    refine .eat_if (.ite hparam (.lastPlace_fail fun _ => trivial)) ?_
    refine .eat_if (.ite hparam (.lastPlace_fail fun _ => trivial)) ?_
    split
    · exact hparam
    · exact hparam
    · exact .failHere fun _ => trivial

theorem params_honest (h : Honest c type) (fuel : Nat) (stage : Stage) (ps : Params) :
    Honest c (params type fuel stage ps) := by
  induction fuel generalizing stage ps with
  | zero => exact .pure
  | succ fuel ih =>
    rw [params_succ]
    exact .isNext_if .pure ((slot_honest h stage ps).bind fun r => .eat_if (ih r.1 r.2) .pure)

theorem paramList_honest (h : Honest c type) : Honest c (paramList type fuel) :=
  .eat_if ((params_honest h fuel _ _).bind fun _ => .expect_bind .pure) .pure

theorem blockClause_honest (h : Honest c type) (hr : Honest c result) :
    Honest c (blockClause type result fuel) := by
  have inside {start : Position} {required : Bool} : Honest c (do
      let ps ← paramList type fuel
      expect (.mark .arrow) .arrowOfBlock
      let r ← result
      let inner := ps.signature (← spanFrom start) r
      expect (.mark .rbrace) .closeOfBlock
      return some (⟨← spanFrom start, inner, required⟩ : Block)) := by
    refine (paramList_honest h).bind fun ps => .expect_bind (hr.bind fun r => ?_)
    exact Honest.span.bind fun l => .expect_bind Honest.span.map
  unfold blockClause
  refine .bind .here fun start => .bind .isNext fun optional => ?_
  cases optional with
  | true => exact .bind .peekAt fun brace => .ite (.advance_bind inside) .pure
  | false => exact .bind .peek fun brace => .ite (.advance_bind inside) .pure

theorem signature_honest (h : Honest c type) (hr : Honest c result) :
    Honest c (signature type result fuel) := by
  unfold signature
  refine .bind .here fun start => (paramList_honest h).bind fun ps => ?_
  refine (blockClause_honest h hr).bind fun block => .expect_bind (hr.bind fun r => ?_)
  exact Honest.span.map

theorem typeArgs_honest (h : Honest c type) : Honest c (typeArgs type fuel) := by
  unfold typeArgs
  refine .eat_if (h.bind fun first => .bind .eat fun comma => ?_) .pure
  cases comma with
  | true => exact (Honest.listed h fuel).bind fun more => .expect_bind .pure
  | false => exact .bind .pure fun more => .expect_bind .pure

theorem namedType_honest (h : Honest c type) : Honest c (namedType scope type fuel) := by
  unfold namedType
  refine .bind .here fun start => typeName_honest.bind fun name => .ite Honest.span.map ?_
  exact (typeArgs_honest h).bind fun args => Honest.span.bind fun l => .ite .pure (.ite .pure .pure)

theorem recordField_honest {key : Parser Ty} (hk : Honest c key) (h : Honest c type) :
    Honest c (recordField key type) := by
  intro s s' w hs
  unfold recordField
  refine .here_bind (.peek_bind fun l _ => ?_)
  refine (Honest.peekAt s s' w hs).bind fun m s₁ v hv => ?_
  split
  · refine (Honest.advance_bind ?_) s s₁ v hv
    exact Honest.span.bind fun l => .advance_bind (h.bind fun t => Honest.span.map)
  · refine (hk s s₁ v hv).bind fun k s₂ u hu => ?_
    split
    · refine (Honest.expect_bind ?_) s s₂ u hu
      exact h.bind fun t => Honest.span.map
    · -- The error is at the start of the key, which is behind this state.
      exact .failAt hs fun _ => trivial

end Types

theorem layer_honest {m : Mark} {build : Option Span → List Ty → Ty} {item : Parser Ty}
    (h : Honest c item) : Honest c (layer m build item fuel) := by
  unfold layer
  refine .bind .here fun start => (Honest.separated h fuel).bind fun ts => ?_
  split
  · exact .pure
  · exact Honest.span.map

structure TypesHonest (c : Context) (fuel : Nat) (scope : List String) : Prop where
  simple : Honest c (simpleType fuel scope)
  optional : Honest c (optionalType fuel scope)
  intersection : Honest c (Grammar.intersection fuel scope)
  type : Honest c (Grammar.type fuel scope)

theorem optional_honest (h : Honest c (simpleType fuel scope)) :
    Honest c (optionalType (fuel + 1) scope) := by
  unfold optionalType
  exact .bind .here fun start => h.bind fun inner => .eat_if Honest.span.map .pure

theorem simple_honest (h : TypesHonest c fuel scope) : Honest c (simpleType (fuel + 1) scope) := by
  unfold simpleType
  refine .bind .here fun start => .bind .peek fun l => ?_
  split
  · exact .advance_bind (h.type.bind fun inner => .expect_bind .pure)
  · refine .advance_bind (.expect_bind (typeName_honest.bind fun name => .expect_bind ?_))
    exact Honest.span.map
  · exact .advance_bind ((signature_honest h.type h.optional).bind fun r => Honest.span.map)
  · exact .advance_bind ((Honest.listed h.type fuel).bind fun ts => .expect_bind Honest.span.map)
  · have hfield := recordField_honest h.simple h.type
    exact .advance_bind ((Honest.listed hfield fuel).bind fun ts => .expect_bind Honest.span.map)
  · exact namedType_honest h.type
  · exact namedType_honest h.type
  · exact namedType_honest h.type
  · exact namedType_honest h.type
  · split
    · exact .advance_bind Honest.span.map
    · exact .advance_bind Honest.span.map
    · exact .failMissing
  · split
    · exact .advance_bind Honest.span.map
    · exact .failMissing
  · exact .failMissing

theorem types_honest (c : Context) (fuel : Nat) (scope : List String) :
    TypesHonest c fuel scope := by
  induction fuel with
  | zero => exact ⟨.failMissing, .failMissing, .failMissing, .failMissing⟩
  | succ fuel ih =>
    constructor
    · exact simple_honest ih
    · exact optional_honest ih.simple
    · rw [intersection_succ]
      exact layer_honest ih.optional
    · rw [type_succ]
      exact layer_honest ih.intersection

theorem type_honest : Honest c (type fuel scope) := (types_honest c fuel scope).type

theorem typeParams_honest : Honest c (typeParams fuel scope) := by
  have hvariance : Honest c variance := .eat_if .pure (.eat_if .pure .pure)
  have hbound (scope : List String) : Honest c (bound fuel scope) := .eat_if type_honest.map .pure
  have hparam (scope : List String) : Honest c (typeParam fuel scope) := by
    unfold typeParam
    refine .bind .here fun start => .bind .eat fun unchecked => hvariance.bind fun v => ?_
    refine .bind .peek fun l => ?_
    split
    · exact .advance_bind ((hbound _).bind fun b => Honest.span.map)
    · exact .failMissing
  have from_ (k : Nat) (scope : List String) : Honest c (typeParamsFrom fuel k scope) := by
    induction k generalizing scope with
    | zero => exact .pure
    | succ k ih =>
      rw [typeParamsFrom_succ]
      exact .isNext_if .pure ((hparam scope).bind fun p => .eat_if (ih _).map .pure)
  exact .eat_if ((from_ fuel scope).bind fun ps => .expect_bind .pure) .pure

theorem classRef_honest {segment : Segment} {role : Role} :
    Honest c (classRef segment role fuel scope) := by
  intro s s' w hs
  unfold classRef
  refine .here_bind ((typeName_honest s s' w hs).bind fun name s₁ v hv => ?_)
  refine .ite (fun _ => .failAt hs fun _ => trivial) fun _ => ?_
  refine Honest.bind ?_ (fun args => Honest.span.map) s s₁ v hv
  exact typeArgs_honest type_honest

theorem notes_honest : Honest c notes := by
  intro s s' w hs
  exact .get_bind (.advance_bind hs fun s₁ v hv => .pure hv)

theorem methodName_honest : Honest c methodName := by
  intro s s' w hs
  unfold methodName
  refine .get_bind ?_
  split
  · exact .advance_bind hs fun s₁ v hv => .pure hv
  · exact Honest.failMissing s s' w hs
  · refine .read_bind ?_
    split
    · exact Honest.failMissing s s' w hs
    · exact .get_bind (.advance_bind hs fun s₁ v hv => .pure hv)

theorem methodType_honest : Honest c (methodType fuel scope) := by
  unfold methodType
  refine .bind .here fun start => typeParams_honest.bind fun ps => ?_
  refine (signature_honest type_honest (types_honest c fuel _).optional).bind fun r => ?_
  exact Honest.span.map

theorem overloads_honest (k : Nat) : Honest c (overloads fuel scope k) := by
  have hone : Honest c (overload fuel scope) := by
    unfold overload
    exact .bind .here fun start => notes_honest.bind fun ns =>
      methodType_honest.bind fun m => Honest.span.map
  induction k with
  | zero => exact .pure
  | succ k ih =>
    rw [overloads_succ]
    exact .eat_if .pure (hone.bind fun o => .eat_if (ih.bind fun r => .pure) .pure)

theorem selfDot_honest : Honest c selfDot := by
  unfold selfDot
  exact .bind .isNext fun b => .bind .peekAt fun l => .ite (.advance_bind .pure) .pure

theorem methodDefinition_honest {visibility : Option Visibility} :
    Honest c (methodDefinition fuel scope visibility) := by
  have hlevel : Honest c methodLevel := by
    unfold methodLevel
    refine selfDot_honest.bind fun b => .ite .pure (.bind .isNext fun b => ?_)
    exact .bind .peekAt fun l => .bind .peekAt fun m => .ite (.advance_bind .pure) .pure
  rw [methodDefinition_eq]
  refine hlevel.bind fun level => methodName_honest.bind fun name => .expect_bind ?_
  exact (overloads_honest fuel).bind fun r => .pure

theorem attributeMember_honest {access : Access} {visibility : Option Visibility} :
    Honest c (attributeMember access fuel scope visibility) := by
  unfold attributeMember
  refine selfDot_honest.bind fun level => .bind .peek fun l => ?_
  split
  · exact .failHere fun _ => trivial
  · refine .advance_bind (.bind ?_ fun backing => .expect_bind type_honest.map)
    refine .eat_if (.bind (.bind .peek fun l => ?_) fun b => .expect_bind .pure) .pure
    split
    · exact .advance_bind .pure
    · exact .pure

theorem aliasMember_honest : Honest c aliasMember := by
  unfold aliasMember
  refine selfDot_honest.bind fun b => .ite ?_ ?_
  · refine methodName_honest.bind fun new => .expect_bind (.expect_bind ?_)
    exact methodName_honest.map
  · exact methodName_honest.bind fun new => methodName_honest.map

theorem variableMember_honest {kind : VariableKind} {name : String} :
    Honest c (variableMember kind name fuel scope) := .expect_bind type_honest.map

theorem visibilityMark_honest : Honest c visibilityMark := by
  intro s s' w hs
  unfold visibilityMark
  refine .get_bind ?_
  split
  · dsimp only
    split
    · exact .advance_bind hs fun s₁ v hv => .pure hv
    · exact .advance_bind hs fun s₁ v hv => .pure hv
    · exact .pure hs
  · exact .pure hs

theorem member_honest {nested : Bool} : Honest c (member nested fuel scope) := by
  have hrefuse : Honest c (show Parser Member from do failHere (.unexpectedInBody (← peek))) :=
    fun s s' w hs => .peek_bind fun l hl => .failHere hs hl.symm
  unfold member
  refine visibilityMark_honest.bind fun visibility => .bind .peek fun l => ?_
  split
  · exact hrefuse
  refine .ite (.advance_bind methodDefinition_honest) ?_
  split
  · exact .advance_bind attributeMember_honest
  split
  · exact .advance_bind classRef_honest.map
  refine .ite (.advance_bind aliasMember_honest) (.ite hrefuse ?_)
  split
  · exact .advance_bind .pure
  · exact .advance_bind .pure
  · exact .advance_bind variableMember_honest
  · exact .advance_bind variableMember_honest
  · refine selfDot_honest.bind fun b => .ite (.bind .peek fun m => ?_) hrefuse
    split
    · exact .advance_bind variableMember_honest
    · exact .failMissing
  · exact hrefuse

theorem leadOf_honest {ns : List Note} {start : Position} : Honest c (leadOf ns start) := by
  intro s s' w hs
  refine ⟨?_, fun e he => by cases he⟩
  intro lead s'' h
  cases h
  exact ⟨w, hs.tokens, hs.last⟩

structure ItemsHonest (c : Context) (fuel : Nat) : Prop where
  declaration : ∀ scope, Honest c (Grammar.declaration fuel scope)
  body : ∀ nested scope, Honest c (Grammar.body fuel nested scope)

theorem declarationBody_honest (h : ItemsHonest c fuel) :
    Honest c (declarationBody fuel scope) := by
  have bodied {nested : Bool} {scope : List String} {what : Missing}
      {build : List Item → Declaration} : Honest c (do
        let members ← body fuel nested scope
        expect (.keyword .end_) what
        return build members) := (h.body nested scope).bind fun items => .expect_bind .pure
  have hconstant : Honest c (constant fuel scope) :=
    typeName_honest.bind fun name => .expect_bind type_honest.map
  intro s s' w hs
  unfold declarationBody
  refine .peek_bind fun l hl => ?_
  split
  · refine Honest.advance_bind ?_ s s' w hs
    refine typeName_honest.bind fun name => typeParams_honest.bind fun ps => ?_
    exact .bind (.eat_if classRef_honest.map .pure) fun superclass => bodied
  · refine Honest.advance_bind ?_ s s' w hs
    refine typeName_honest.bind fun name => typeParams_honest.bind fun ps => ?_
    exact .bind (.eat_if (.separated classRef_honest fuel) .pure) fun selves => bodied
  · refine Honest.advance_bind ?_ s s' w hs
    exact typeName_honest.bind fun name => typeParams_honest.bind fun ps => bodied
  · refine Honest.advance_bind ?_ s s' w hs
    refine typeName_honest.bind fun name => typeParams_honest.bind fun ps => .expect_bind ?_
    exact type_honest.map
  · exact hconstant s s' w hs
  · exact hconstant s s' w hs
  · refine Honest.advance_bind ?_ s s' w hs
    exact .expect_bind type_honest.map
  · exact .failHere hs hl.symm

theorem declaration_honest (h : ItemsHonest c fuel) : Honest c (declaration (fuel + 1) scope) := by
  rw [declaration_succ]
  refine notes_honest.bind fun ns => .bind .here fun start =>
    (declarationBody_honest h).bind fun a => ?_
  exact Honest.span.bind fun l => leadOf_honest.map

theorem bodyItem_honest (h : ItemsHonest c fuel) {nested : Bool} {before : State} {v : List Token}
    (hbefore : Passed v s before) (hs : Passed w s s') :
    Answers c s s' (bodyItem fuel nested scope before) := by
  unfold bodyItem
  refine (notes_honest s s' w hs).bind fun ns s₁ w₁ h₁ => .here_bind (.peek_bind fun l _ => ?_)
  refine .ite (fun _ => ?_) fun _ => ?_
  · -- A declaration is read from where its annotations start.
    have hread := h.declaration scope s before v hbefore
    exact ⟨hread.passes, hread.refuses⟩
  · have hmember : Honest c (do
        let m ← member nested fuel scope
        let location ← spanFrom (place c s₁)
        return Item.member location (← leadOf ns (place c s₁)) m) :=
      member_honest.bind fun m => Honest.span.bind fun l => leadOf_honest.map
    exact hmember s s₁ w₁ h₁

theorem body_honest (h : ItemsHonest c fuel) {nested : Bool} :
    Honest c (body (fuel + 1) nested scope) := by
  have hitems : Honest c (do
      let before ← get
      let first ← bodyItem fuel nested scope before
      return first :: (← body fuel nested scope)) := by
    intro s s' w hs
    refine .get_bind ((bodyItem_honest h hs hs).bind fun item s₁ v hv => ?_)
    exact (h.body nested scope).map s s₁ v hv
  rw [body_succ]
  refine .isNext_if .pure fun s s' w hs => .peek_bind fun l hl => ?_
  cases l with
  | none => exact Answers.bind (.failHere hs hl) fun _ s₁ v hv => hitems s s₁ v hv
  | some l => exact hitems s s' w hs

theorem items_honest (c : Context) (fuel : Nat) : ItemsHonest c fuel := by
  induction fuel with
  | zero => exact ⟨fun _ _ _ _ hs => .peek_bind fun l hl => .failHere hs hl.symm, fun _ _ => .pure⟩
  | succ fuel ih => exact ⟨fun _ => declaration_honest ih, fun _ _ => body_honest ih⟩

theorem declarations_honest (k : Nat) : Honest c (declarations fuel k) := by
  induction k with
  | zero => exact .pure
  | succ k ih =>
    exact .bind .peek fun l =>
      .ite .pure (((items_honest c fuel).declaration []).bind fun item => ih.map)

/-- Tokens are no file because of the one that comes next somewhere, or because they end. -/
theorem file_refuses {text : List Char} {scan : Lexer.Scan} {blocks : List CommentBlock}
    {cause : Cause} {q : Position} (h : file text scan blocks = .error (cause, q)) :
    ∃ rest, rest <:+ scan.tokens ∧ cause.Finds (rest.head?.map (·.lexeme)) ∧
      q = (rest.head?.map (·.start)).getD scan.finish := by
  unfold file at h
  dsimp only at h
  split at h
  case _ e hrun =>
    cases h
    have hstart : Passed [] (⟨scan.tokens, none, blocks⟩ : State) ⟨scan.tokens, none, blocks⟩ :=
      .refl _
    cases (declarations_honest _ _ _ _ hstart).refuses _ hrun with
    | @next w s' _ hpassed hfinds => exact ⟨s'.tokens, ⟨w, hpassed.tokens.symm⟩, hfinds, rfl⟩
    | @last w s' t _ hpassed ht hfinds =>
      have hlast := hpassed.last
      rw [ht, Option.or_none] at hlast
      obtain ⟨v, rfl⟩ := List.getLast?_eq_some_iff.mp hlast.symm
      have htokens : scan.tokens = v ++ [t] ++ s'.tokens := hpassed.tokens
      exact ⟨t :: s'.tokens, ⟨v, by rw [htokens]; simp⟩, hfinds _, rfl⟩
  case _ => cases h

end RubySig.Grammar
