import RubySig.Proofs.Tree.MethodReads
import RubySig.Proofs.Tree.TyLikeness

/-! Members that are read from corresponding tokens: the same members, but for their places. -/
namespace RubySig.Grammar

open List (Forall₂)

variable {c c' : Context}

namespace Likeness

variable (L : Likeness c c')

/-- Annotations that corresponding tokens are. -/
def SameNote (n n' : Note) : Prop :=
  ∃ t t', L.token t t' ∧ noteOf? t = some n ∧ noteOf? t' = some n'

structure SameTypeParam (p p' : TypeParam) : Prop where
  name : p.name = p'.name
  variance : p.variance = p'.variance
  unchecked : p.unchecked = p'.unchecked
  bound : Option.Rel L.SameTy p.bound p'.bound
  spelt : L.Spelt (.constant p.name)

structure SameClassRef (r r' : ClassRef) : Prop where
  name : L.SameName r.name r'.name
  args : Forall₂ L.SameTy r.args r'.args

structure SameMethodType (m m' : MethodType) : Prop where
  params : Forall₂ L.SameTypeParam m.params m'.params
  signature : L.SameSignature m.signature m'.signature
  block : Option.Rel L.SameBlock m.block m'.block

structure SameOverload (o o' : Overload) : Prop where
  notes : Forall₂ L.SameNote o.notes o'.notes
  method : L.SameMethodType o.method o'.method

/-- A method name that stands at a token, with backquotes or without. -/
def MethodNamed (name : String) : Prop :=
  L.Spelt (.quotedIdentifier name) ∨
    ∃ t t', L.token t t' ∧ MethodName.at? (c.text.drop t.start.offset) = some name.toList

def VariableNamed (name : String) : Prop :=
  L.Spelt (.instanceVariable name) ∨ L.Spelt (.classVariable name)

inductive SameMember : Member → Member → Prop where
  | «alias» {new old level} : L.MethodNamed new → L.MethodNamed old →
      SameMember (.alias new old level) (.alias new old level)
  | «attribute» {access name t t' backing level visibility} : L.Named name → L.SameTy t t' →
      (∀ ivar, backing = .named ivar → L.Spelt (.instanceVariable ivar)) →
      SameMember (.attribute access name t backing level visibility)
        (.attribute access name t' backing level visibility)
  | «variable» {kind name t t'} : L.VariableNamed name → L.SameTy t t' →
      SameMember (.variable kind name t) (.variable kind name t')
  | mixin {kind n n' args args'} : L.SameName n n' → Forall₂ L.SameTy args args' →
      SameMember (.mixin kind n args) (.mixin kind n' args')
  | visibility {v} : SameMember (.visibility v) (.visibility v)
  | method {name os os' level overloading visibility} : L.MethodNamed name →
      Forall₂ L.SameOverload os os' →
      SameMember (.method name os level overloading visibility)
        (.method name os' level overloading visibility)

end Likeness

open Likeness

variable {L : Likeness c c'} {s s' : State} {fuel depth : Nat} {scope : List String}

theorem type_tracks (L : Likeness c c') (fuel : Nat) (scope : List String) :
    L.Tracks (type fuel scope) L.SameTy :=
  (types_tracked L fuel scope).type

theorem variance_tracks : L.Tracks variance Eq := by
  intro s s' hs
  unfold variance
  refine .eat_if hs (fun r r' hr => .pure hr rfl) fun r r' hr => ?_
  exact .eat_if hr (fun r r' hr => .pure hr rfl) fun r r' hr => .pure hr rfl

theorem bound_tracks : L.Tracks (bound depth scope) (Option.Rel L.SameTy) := by
  intro s s' hs
  unfold bound
  refine .eat_if hs (fun r r' hr => ?_) fun r r' hr => .pure hr .none
  refine (type_tracks L depth scope r r' hr).bind ?_
  intro t t' r₁ r₁' ht hr₁
  exact .pure hr₁ (.some ht)

theorem typeParam_tracks : L.Tracks (typeParam depth scope) L.SameTypeParam := by
  intro s s' hs
  unfold typeParam
  refine .here_bind (.eat_bind hs fun unchecked r r' hr => ?_)
  refine (variance_tracks r r' hr).bind ?_
  rintro v _ r₁ r₁' rfl hr₁
  refine .peek_bind hr₁ fun l hl => ?_
  split
  · refine .advance_bind hr₁ fun r₂ r₂' hr₂ => ?_
    refine (bound_tracks r₂ r₂' hr₂).bind ?_
    intro b b' r₃ r₃' hb hr₃
    refine .spanFrom_bind fun l l' => .pure hr₃ ⟨rfl, rfl, rfl, hb, ?_⟩
    exact hr₁.spelt_head hl
  · exact .failMissing

theorem typeParamsFrom_follows (hs : L.SameState s s') :
    L.Follows s s' (typeParamsFrom depth fuel scope) (typeParamsFrom depth fuel scope)
      (Forall₂ L.SameTypeParam) := by
  induction fuel generalizing s s' scope with
  | zero => exact .pure hs .nil
  | succ fuel ih =>
    rw [typeParamsFrom_succ]
    refine .isNext_if hs (.pure hs .nil) ?_
    refine (typeParam_tracks s s' hs).bind ?_
    intro p p' r r' hp hr
    rw [← hp.name]
    refine .eat_if hr (fun r₁ r₁' hr₁ => ?_) fun r₁ r₁' hr₁ => .pure hr₁ (.cons hp .nil)
    refine (ih hr₁).bind ?_
    intro ps ps' r₂ r₂' hps hr₂
    exact .pure hr₂ (.cons hp hps)

theorem typeParams_tracks : L.Tracks (typeParams fuel scope) (Forall₂ L.SameTypeParam) := by
  intro s s' hs
  unfold typeParams
  refine .eat_if hs (fun r r' hr => ?_) fun r r' hr => .pure hr .nil
  refine (typeParamsFrom_follows hr).bind ?_
  intro ps ps' r₁ r₁' hps hr₁
  exact .expect_bind hr₁ fun r₂ r₂' hr₂ => .pure hr₂ hps

theorem within_same {ps ps' : List TypeParam} (h : Forall₂ L.SameTypeParam ps ps') :
    within ps scope = within ps' scope := by
  refine congrArg (· ++ scope) ?_
  induction h with
  | nil => rfl
  | cons hp _ ih => rw [List.map_cons, List.map_cons, hp.name, ih]

theorem classRef_tracks {segment : Segment} {role : Role} :
    L.Tracks (classRef segment role fuel scope) L.SameClassRef := by
  intro s s' hs
  unfold classRef
  refine .here_bind ((typeName_tracks segment role s s' hs).bind ?_)
  intro n n' r r' hn hr
  rw [← hn.isClass, ← hn.isInterface]
  refine .ite .rfl (fun _ => .failAt) fun _ => ?_
  refine (typeArgs_tracks (type_tracks L fuel scope) fuel r r' hr).bind ?_
  intro args args' r₁ r₁' hargs hr₁
  exact .spanFrom_bind fun l l' => .pure hr₁ ⟨hn, hargs⟩

theorem noteOf_isSome {t t' : Token} (h : L.token t t') :
    (noteOf? t).isSome = (noteOf? t').isSome := by
  obtain ⟨l, p, q⟩ := t
  obtain ⟨l', p', q'⟩ := t'
  obtain rfl : l = l' := L.lexeme h
  cases l <;> rfl

theorem notesOf_same {ts ts' : List Token} (h : Forall₂ L.token ts ts') :
    ((ts.map noteOf?).takeWhile (·.isSome)).length =
      ((ts'.map noteOf?).takeWhile (·.isSome)).length ∧
    Forall₂ L.SameNote (((ts.map noteOf?).takeWhile (·.isSome)).filterMap id)
      (((ts'.map noteOf?).takeWhile (·.isSome)).filterMap id) := by
  induction h with
  | nil => exact ⟨rfl, .nil⟩
  | @cons t t' ts ts' ht _ ih =>
    have hsome := noteOf_isSome ht
    rw [List.map_cons, List.map_cons]
    cases hn : noteOf? t with
    | none =>
      rw [hn, Option.isSome_none] at hsome
      rw [Option.isSome_eq_false_iff.mp hsome.symm |> Option.isNone_iff_eq_none.mp]
      exact ⟨rfl, .nil⟩
    | some n =>
      rw [hn, Option.isSome_some] at hsome
      obtain ⟨n', hn'⟩ := Option.isSome_iff_exists.mp hsome.symm
      rw [hn']
      exact ⟨congrArg (· + 1) ih.1, .cons ⟨t, t', ht, hn, hn'⟩ ih.2⟩

theorem notes_tracks : L.Tracks notes (Forall₂ L.SameNote) := by
  intro s s' hs
  obtain ⟨hlength, hnotes⟩ := notesOf_same hs.tokens
  unfold notes
  refine .get_bind ?_
  dsimp only
  rw [← hlength]
  exact .advance_bind hs fun r r' hr => .pure hr hnotes

/-- As many tokens stand inside a method name. -/
theorem covered_length {t t' : Token} (ht : L.token t t') {name : List Char}
    (hname : MethodName.at? (c.text.drop t.start.offset) = some name) {ts ts' : List Token}
    (h : Forall₂ L.token ts ts') :
    (ts.takeWhile (·.start.offset < t.start.offset + name.length)).length =
      (ts'.takeWhile (·.start.offset < t'.start.offset + name.length)).length := by
  induction h with
  | nil => rfl
  | @cons u u' us us' hu _ ih =>
    have hcovered := L.covered ht hu hname
    by_cases h : u.start.offset < t.start.offset + name.length
    · rw [List.takeWhile_cons_of_pos (by simpa using h),
        List.takeWhile_cons_of_pos (by simpa using hcovered.mp h)]
      exact congrArg (· + 1) ih
    · rw [List.takeWhile_cons_of_neg (by simpa using h),
        List.takeWhile_cons_of_neg (by simpa using mt hcovered.mpr h)]

/-- A method name that is read straight from the text. -/
theorem bareName_follows (hs : L.SameState s s') {t t' : Token} (ht : L.token t t') :
    L.Follows s s' (do
      match MethodName.at? ((← read).text.drop t.start.offset) with
      | none => failMissing .methodName
      | some name =>
        let stop := t.start.offset + name.length
        advance ((← get).tokens.takeWhile (·.start.offset < stop)).length
        return String.ofList name) (do
      match MethodName.at? ((← read).text.drop t'.start.offset) with
      | none => failMissing .methodName
      | some name =>
        let stop := t'.start.offset + name.length
        advance ((← get).tokens.takeWhile (·.start.offset < stop)).length
        return String.ofList name) fun n n' => n = n' ∧ L.MethodNamed n := by
  refine .read_bind ?_
  rw [← L.ahead ht]
  split
  · exact .failMissing
  case _ name hname =>
    refine .get_bind ?_
    rw [covered_length ht hname hs.tokens]
    refine .advance_bind hs fun r r' hr => .pure hr ⟨rfl, .inr ⟨t, t', ht, ?_⟩⟩
    rw [String.toList_ofList]
    exact hname

theorem methodName_tracks : L.Tracks methodName fun n n' => n = n' ∧ L.MethodNamed n := by
  intro s s' hs
  unfold methodName
  refine .get_bind ?_
  obtain ⟨tokens, last, blocks⟩ := s
  obtain ⟨tokens', last', blocks'⟩ := s'
  dsimp only
  cases hs.tokens with
  | nil => exact .failMissing
  | @cons t t' _ _ ht _ =>
    obtain ⟨l, p, q⟩ := t
    obtain ⟨l', p', q'⟩ := t'
    obtain rfl : l = l' := L.lexeme ht
    cases l with
    | quotedIdentifier name =>
      exact .advance_bind hs fun r r' hr => .pure hr ⟨rfl, .inl ⟨_, _, ht, rfl⟩⟩
    | _ => exact bareName_follows hs ht

theorem selfDot_tracks : L.Tracks selfDot Eq := by
  intro s s' hs
  unfold selfDot
  refine .isNext_bind hs fun b => .peekAt_bind hs fun l _ => ?_
  exact .ite .rfl (fun _ => .advance_bind hs fun r r' hr => .pure hr rfl) fun _ => .pure hs rfl

theorem methodLevel_tracks : L.Tracks methodLevel Eq := by
  intro s s' hs
  unfold methodLevel
  refine (selfDot_tracks s s' hs).bind ?_
  rintro b _ r r' rfl hr
  refine .ite .rfl (fun _ => .pure hr rfl) fun _ => ?_
  refine .isNext_bind hr fun b => .peekAt_bind hr fun l _ => .peekAt_bind hr fun m _ => ?_
  exact .ite .rfl (fun _ => .advance_bind hr fun r₁ r₁' hr₁ => .pure hr₁ rfl) fun _ => .pure hr rfl

theorem methodType_tracks : L.Tracks (methodType fuel scope) L.SameMethodType := by
  intro s s' hs
  unfold methodType
  refine .here_bind ((typeParams_tracks s s' hs).bind ?_)
  intro ps ps' r r' hps hr
  rw [← within_same hps]
  have htypes := types_tracked L fuel (within ps scope)
  refine (signature_tracks htypes.type htypes.optional fuel r r' hr).bind ?_
  intro x x' r₁ r₁' hx hr₁
  exact .spanFrom_bind fun l l' => .pure hr₁ ⟨hps, hx.1, hx.2⟩

theorem overload_tracks : L.Tracks (overload fuel scope) L.SameOverload := by
  intro s s' hs
  unfold overload
  refine .here_bind ((notes_tracks s s' hs).bind ?_)
  intro ns ns' r r' hns hr
  refine (methodType_tracks r r' hr).bind ?_
  intro m m' r₁ r₁' hm hr₁
  exact .spanFrom_bind fun l l' => .pure hr₁ ⟨hns, hm⟩

theorem overloads_follows (hs : L.SameState s s') :
    L.Follows s s' (overloads depth scope fuel) (overloads depth scope fuel) fun x x' =>
      Forall₂ L.SameOverload x.1 x'.1 ∧ x.2 = x'.2 := by
  induction fuel generalizing s s' with
  | zero => exact .pure hs ⟨.nil, rfl⟩
  | succ fuel ih =>
    rw [overloads_succ]
    refine .eat_if hs (fun r r' hr => .pure hr ⟨.nil, rfl⟩) fun r r' hr => ?_
    refine (overload_tracks r r' hr).bind ?_
    intro o o' r₁ r₁' ho hr₁
    refine .eat_if hr₁ (fun r₂ r₂' hr₂ => ?_) fun r₂ r₂' hr₂ => .pure hr₂ ⟨.cons ho .nil, rfl⟩
    refine (ih hr₂).bind ?_
    intro x x' r₃ r₃' hx hr₃
    exact .pure hr₃ ⟨.cons ho hx.1, hx.2⟩

theorem methodDefinition_tracks {visibility : Option Visibility} :
    L.Tracks (methodDefinition fuel scope visibility) L.SameMember := by
  intro s s' hs
  rw [methodDefinition_eq]
  refine (methodLevel_tracks s s' hs).bind ?_
  rintro level _ r r' rfl hr
  refine (methodName_tracks r r' hr).bind ?_
  rintro name _ r₁ r₁' ⟨rfl, hname⟩ hr₁
  unfold methodBody
  refine .expect_bind hr₁ fun r₂ r₂' hr₂ => (overloads_follows hr₂).bind ?_
  rintro ⟨os, overloading⟩ ⟨os', _⟩ r₃ r₃' ⟨hos, rfl⟩ hr₃
  exact .pure hr₃ (.method hname hos)

theorem backing_follows (hs : L.SameState s s') : L.Follows s s' (show Parser Backing from do
    if ← eat (.mark .lparen) then
      let backing ← show Parser Backing from do
        match ← peek with
        | some (.instanceVariable ivar) =>
          advance 1
          return .named ivar
        | _ => return .absent
      expect (.mark .rparen) .closeOfBacking
      return backing
    else return .implied) (show Parser Backing from do
    if ← eat (.mark .lparen) then
      let backing ← show Parser Backing from do
        match ← peek with
        | some (.instanceVariable ivar) =>
          advance 1
          return .named ivar
        | _ => return .absent
      expect (.mark .rparen) .closeOfBacking
      return backing
    else return .implied) fun b b' => b = b' ∧
      ∀ ivar, b = .named ivar → L.Spelt (.instanceVariable ivar) := by
  refine .eat_if hs (fun r r' hr => ?_) fun r r' hr => .pure hr ⟨rfl, by simp⟩
  have hname : L.Follows r r' (show Parser Backing from do
      match ← peek with
      | some (.instanceVariable ivar) =>
        advance 1
        return .named ivar
      | _ => return .absent) (show Parser Backing from do
      match ← peek with
      | some (.instanceVariable ivar) =>
        advance 1
        return .named ivar
      | _ => return .absent) fun b b' => b = b' ∧
        ∀ ivar, b = .named ivar → L.Spelt (.instanceVariable ivar) := by
    refine .peek_bind hr fun l hl => ?_
    split
    case _ ivar =>
      have hspelt := hr.spelt_head hl
      exact .advance_bind hr fun r₁ r₁' hr₁ => .pure hr₁ ⟨rfl, fun _ h => by cases h; exact hspelt⟩
    case _ => exact .pure hr ⟨rfl, by simp⟩
  refine hname.bind ?_
  rintro b _ r₁ r₁' ⟨rfl, hb⟩ hr₁
  exact .expect_bind hr₁ fun r₂ r₂' hr₂ => .pure hr₂ ⟨rfl, hb⟩

theorem attributeMember_tracks {access : Access} {visibility : Option Visibility} :
    L.Tracks (attributeMember access fuel scope visibility) L.SameMember := by
  intro s s' hs
  unfold attributeMember
  refine (selfDot_tracks s s' hs).bind ?_
  rintro level _ r r' rfl hr
  refine .peek_bind hr fun l hl => ?_
  split
  · exact .failHere
  case _ name hname =>
    obtain ⟨m, rfl, hm⟩ := Option.bind_eq_some_iff.mp hname
    have hnamed : L.Named name := ⟨m, hr.spelt_head hl, hm⟩
    refine .advance_bind hr fun r₁ r₁' hr₁ => (backing_follows hr₁).bind ?_
    rintro backing _ r₂ r₂' ⟨rfl, hbacking⟩ hr₂
    refine .expect_bind hr₂ fun r₃ r₃' hr₃ => (type_tracks L fuel scope r₃ r₃' hr₃).bind ?_
    intro t t' r₄ r₄' ht hr₄
    exact .pure hr₄ (.attribute hnamed ht hbacking)

theorem aliasMember_tracks : L.Tracks aliasMember L.SameMember := by
  intro s s' hs
  unfold aliasMember
  refine (selfDot_tracks s s' hs).bind ?_
  rintro b _ r r' rfl hr
  refine .ite .rfl (fun _ => (methodName_tracks r r' hr).bind ?_) fun _ =>
    (methodName_tracks r r' hr).bind ?_
  · rintro new _ r₁ r₁' ⟨rfl, hnew⟩ hr₁
    refine .expect_bind hr₁ fun r₂ r₂' hr₂ => .expect_bind hr₂ fun r₃ r₃' hr₃ => ?_
    refine (methodName_tracks r₃ r₃' hr₃).bind ?_
    rintro old _ r₄ r₄' ⟨rfl, hold⟩ hr₄
    exact .pure hr₄ (.alias hnew hold)
  · rintro new _ r₁ r₁' ⟨rfl, hnew⟩ hr₁
    refine (methodName_tracks r₁ r₁' hr₁).bind ?_
    rintro old _ r₂ r₂' ⟨rfl, hold⟩ hr₂
    exact .pure hr₂ (.alias hnew hold)

theorem variableMember_tracks {kind : VariableKind} {name : String} (hname : L.VariableNamed name) :
    L.Tracks (variableMember kind name fuel scope) L.SameMember := by
  intro s s' hs
  unfold variableMember
  refine .expect_bind hs fun r r' hr => (type_tracks L fuel scope r r' hr).bind ?_
  intro t t' r₁ r₁' ht hr₁
  exact .pure hr₁ (.variable hname ht)

/-- Whether two tokens stand on one line is the same in both texts. -/
theorem visibilityMark_tracks : L.Tracks visibilityMark Eq := by
  intro s s' hs
  unfold visibilityMark
  refine .get_bind ?_
  obtain ⟨tokens, last, blocks⟩ := s
  obtain ⟨tokens', last', blocks'⟩ := s'
  dsimp only
  cases hs.tokens with
  | nil => exact .pure hs rfl
  | @cons t t' _ _ ht hrest =>
    obtain ⟨l, p, q⟩ := t
    obtain ⟨l', p', q'⟩ := t'
    obtain rfl : l = l' := L.lexeme ht
    cases hrest with
    | nil => cases l <;> exact .pure hs rfl
    | @cons u u' _ _ hu _ =>
      obtain ⟨m, a, b⟩ := u
      obtain ⟨m', a', b'⟩ := u'
      obtain rfl : m = m' := L.lexeme hu
      cases l with
      | keyword k =>
        have hline : (a.line == p.line) = (a'.line == p'.line) := by
          rw [Bool.eq_iff_iff, beq_iff_eq, beq_iff_eq]
          exact same_line (L.start hu) (L.start ht)
        dsimp only
        rw [← hline]
        split
        · exact .advance_bind hs fun r r' hr => .pure hr rfl
        · exact .advance_bind hs fun r r' hr => .pure hr rfl
        · exact .pure hs rfl
      | _ => exact .pure hs rfl

theorem member_tracks {nested : Bool} : L.Tracks (member nested fuel scope) L.SameMember := by
  intro s s' hs
  unfold member
  refine (visibilityMark_tracks s s' hs).bind ?_
  rintro visibility _ r r' rfl hr
  refine .peek_bind hr fun l hl => ?_
  split
  · exact .peek_bind hr fun _ _ => .failHere
  have behind {p : Parser Member} (h : L.Tracks p L.SameMember) : L.Follows r r' (do
      advance 1
      p) (do
      advance 1
      p) L.SameMember := .advance_bind hr fun r₁ r₁' hr₁ => h r₁ r₁' hr₁
  have hspelt := hr.spelt_head hl
  refine .ite .rfl (fun _ => behind methodDefinition_tracks) fun _ => ?_
  split
  · exact behind attributeMember_tracks
  split
  · refine .advance_bind hr fun r₁ r₁' hr₁ => (classRef_tracks r₁ r₁' hr₁).bind ?_
    intro a a' r₂ r₂' ha hr₂
    exact .pure hr₂ (.mixin ha.name ha.args)
  refine .ite .rfl (fun _ => behind aliasMember_tracks) fun _ => ?_
  refine .ite .rfl (fun _ => .peek_bind hr fun _ _ => .failHere) fun _ => ?_
  split
  · exact .advance_bind hr fun r₁ r₁' hr₁ => .pure hr₁ .visibility
  · exact .advance_bind hr fun r₁ r₁' hr₁ => .pure hr₁ .visibility
  · exact behind (variableMember_tracks (.inl hspelt))
  · exact behind (variableMember_tracks (.inr hspelt))
  · refine (selfDot_tracks r r' hr).bind ?_
    rintro b _ r₁ r₁' rfl hr₁
    refine .ite .rfl (fun _ => .peek_bind hr₁ fun m hm => ?_) fun _ =>
      .peek_bind hr₁ fun _ _ => .failHere
    split
    · have hname := hr₁.spelt_head hm
      exact .advance_bind hr₁ fun r₂ r₂' hr₂ => variableMember_tracks (.inl hname) r₂ r₂' hr₂
    · exact .failMissing
  · exact .peek_bind hr fun _ _ => .failHere

end RubySig.Grammar
