import RubySig.Proofs.Tree.Likeness
import RubySig.Proofs.Tree.TyLevels

/-!
Types that are read from corresponding tokens: the same types, but for their places. Names and
literals have their tokens with them, so what is known of tokens is known of what is read from them.
-/
namespace RubySig.Grammar

open List (Forall₂)

variable {c c' : Context}

namespace Likeness

variable (L : Likeness c c')

def Plain (s : String) : Prop := ∃ segment l, L.Spelt l ∧ Segment.name? segment l = some s

/-- The same names in any places, read from tokens. -/
structure SameName (n n' : TypeName) : Prop where
  name : n.name = n'.name
  path : n.path = n'.path
  absolute : n.absolute = n'.absolute
  segments : ∀ s ∈ n.path, L.Spelt (.constant s)
  last : L.Plain n.name

/-- The places of a literal in both texts; those of a string are the places of its tokens. -/
def SameLiteral (l l' : Option Span) : Literal → Prop
  | .string s => ∃ t t', L.token t t' ∧ t.lexeme = .string s ∧ l = some t.span ∧ l' = some t'.span
  | _ => True

/-- A name that a token can serve as. -/
def Named (s : String) : Prop := ∃ l, L.Spelt l ∧ l.name? = some s

mutual

/-- The same types in any places. -/
inductive SameTy : Ty → Ty → Prop where
  | base {l l' kind} : SameTy (.base l kind) (.base l' kind)
  | «variable» {l l' name} : L.Plain name → SameTy (.variable l name) (.variable l' name)
  | classInstance {l l' n n' args args'} : L.SameName n n' → Forall₂ SameTy args args' →
      SameTy (.classInstance l n args) (.classInstance l' n' args')
  | interface {l l' n n' args args'} : L.SameName n n' → Forall₂ SameTy args args' →
      SameTy (.interface l n args) (.interface l' n' args')
  | «alias» {l l' n n' args args'} : L.SameName n n' → Forall₂ SameTy args args' →
      SameTy (.alias l n args) (.alias l' n' args')
  | classSingleton {l l' n n'} :
      L.SameName n n' → SameTy (.classSingleton l n) (.classSingleton l' n')
  | optional {l l' t t'} : SameTy t t' → SameTy (.optional l t) (.optional l' t')
  | union {l l' ts ts'} : Forall₂ SameTy ts ts' → SameTy (.union l ts) (.union l' ts')
  | intersection {l l' ts ts'} : Forall₂ SameTy ts ts' →
      SameTy (.intersection l ts) (.intersection l' ts')
  | tuple {l l' ts ts'} : Forall₂ SameTy ts ts' → SameTy (.tuple l ts) (.tuple l' ts')
  | record {l l' fields fields'} : Forall₂ SameField fields fields' →
      SameTy (.record l fields) (.record l' fields')
  | literal {l l' value} : L.SameLiteral l l' value → SameTy (.literal l value) (.literal l' value)
  | proc {l l' s s' b b'} : SameSignature s s' → Option.Rel SameBlock b b' →
      SameTy (.proc l s b) (.proc l' s' b')

inductive SameField : Field → Field → Prop where
  | mk {l l' k k' key t t'} : L.SameLiteral k k' key → SameTy t t' →
      SameField ⟨l, k, key, t⟩ ⟨l', k', key, t'⟩

inductive SameParam : Param → Param → Prop where
  | mk {l l' t t' name} : SameTy t t' → (∀ s ∈ name, L.Named s) →
      SameParam ⟨l, t, name⟩ ⟨l', t', name⟩

inductive SameKeyword : String × Param → String × Param → Prop where
  | mk {name p p'} : L.Named name → SameParam p p' → SameKeyword (name, p) (name, p')

inductive SameSignature : Signature → Signature → Prop where
  | mk {l l' result result' required required' optional optional' rest rest' trailing trailing'
      requiredKeywords requiredKeywords' optionalKeywords optionalKeywords' restKeywords
        restKeywords'} :
      SameTy result result' → Forall₂ SameParam required required' →
      Forall₂ SameParam optional optional' → Option.Rel SameParam rest rest' →
      Forall₂ SameParam trailing trailing' →
      Forall₂ SameKeyword requiredKeywords requiredKeywords' →
      Forall₂ SameKeyword optionalKeywords optionalKeywords' →
      Option.Rel SameParam restKeywords restKeywords' →
      SameSignature
        ⟨l, result, required, optional, rest, trailing, requiredKeywords,
          optionalKeywords, restKeywords⟩
        ⟨l', result', required', optional', rest', trailing', requiredKeywords', optionalKeywords',
          restKeywords'⟩

inductive SameBlock : Block → Block → Prop where
  | mk {l l' s s' required} : SameSignature s s' → SameBlock ⟨l, s, required⟩ ⟨l', s', required⟩

end

end Likeness

variable {L : Likeness c c'} {s s' : State} {type result : Parser Ty} {fuel : Nat}
  {scope : List String}

open Likeness

/-- The path of a name, from what its tokens say. -/
def segmentsOf : List Lexeme → List String
  | .constant name :: .mark .doubleColon :: rest => name :: segmentsOf rest
  | _ => []

theorem pathOf_eq (ts : List Token) : pathOf ts = segmentsOf (ts.map (·.lexeme)) := by
  induction ts using pathOf.induct with
  | case1 name start stop start' stop' rest ih => exact congrArg (name :: ·) ih
  | case2 ts hts =>
    have hnone : pathOf ts = [] := by
      unfold pathOf
      split
      · exact absurd rfl (hts _ _ _ _ _ _)
      · rfl
    rw [hnone]
    symm
    unfold segmentsOf
    split
    case _ name rest hl =>
      obtain ⟨⟨_, _, _⟩, us, rfl, rfl, hrest⟩ := List.map_eq_cons_iff.mp hl
      obtain ⟨⟨_, _, _⟩, vs, rfl, rfl, -⟩ := List.map_eq_cons_iff.mp hrest
      exact absurd rfl (hts _ _ _ _ _ _)
    · rfl

theorem mem_segmentsOf {s : String} {ls : List Lexeme} (h : s ∈ segmentsOf ls) :
    .constant s ∈ ls := by
  induction ls using segmentsOf.induct with
  | case1 name rest ih =>
    rcases List.mem_cons.mp h with rfl | h
    · exact List.mem_cons_self
    · exact List.mem_cons_of_mem _ (List.mem_cons_of_mem _ (ih h))
  | case2 ls hls =>
    unfold segmentsOf at h
    split at h
    · exact absurd rfl (hls _ _)
    · cases h

theorem typeName_tracks (segment : Segment) (role : Role) :
    L.Tracks (typeName segment role) L.SameName := by
  intro s s' hs
  unfold typeName
  refine .here_bind ?_
  refine .eat_bind hs ?_
  intro absolute r r' hr
  refine .get_bind ?_
  have hpath : pathOf r.tokens = pathOf r'.tokens := by
    rw [pathOf_eq, pathOf_eq, hr.lexemes]
  rw [← hpath]
  refine .advance_bind hr ?_
  intro r₁ r₁' hr₁
  refine .peek_bind hr₁ ?_
  intro l hl
  split
  · exact .failMissing
  case _ name hname =>
    obtain ⟨m, rfl, hm⟩ := Option.bind_eq_some_iff.mp hname
    refine .advance_bind hr₁ ?_
    intro r₂ r₂' hr₂
    refine .spanFrom_bind ?_
    intro l l'
    refine .pure hr₂ ⟨rfl, rfl, rfl, ?_, segment, m, ?_, hm⟩
    · intro s hmem
      rw [pathOf_eq] at hmem
      exact hr.spelt_of_mem (mem_segmentsOf hmem)
    · exact hr₁.spelt_head hl

theorem param_tracks (h : L.Tracks type L.SameTy) : L.Tracks (param type) L.SameParam := by
  intro s s' hs
  unfold param
  refine .here_bind ((h s s' hs).bind ?_)
  intro t t' r r' ht hr
  refine .peek_bind hr ?_
  intro l hl
  split
  case _ name hname =>
    obtain ⟨m, rfl, hm⟩ := Option.bind_eq_some_iff.mp hname
    refine .advance_bind hr ?_
    intro r₁ r₁' hr₁
    refine .spanFrom_bind ?_
    intro l l'
    refine .pure hr₁ (.mk ht ?_)
    rintro _ ⟨⟩
    exact ⟨m, hr.spelt_head hl, hm⟩
  case _ =>
    refine .spanFrom_bind ?_
    intro l l'
    exact .pure hr (.mk ht (by simp))

/-- The parameters that are read so far. -/
structure SameParams (L : Likeness c c') (ps ps' : Params) : Prop where
  required : Forall₂ L.SameParam ps.required ps'.required
  optional : Forall₂ L.SameParam ps.optional ps'.optional
  rest : Option.Rel L.SameParam ps.rest ps'.rest
  trailing : Forall₂ L.SameParam ps.trailing ps'.trailing
  requiredKeywords : Forall₂ L.SameKeyword ps.requiredKeywords ps'.requiredKeywords
  optionalKeywords : Forall₂ L.SameKeyword ps.optionalKeywords ps'.optionalKeywords
  restKeywords : Option.Rel L.SameParam ps.restKeywords ps'.restKeywords

namespace SameParams

variable {ps ps' : Params}

theorem empty : SameParams L .empty .empty :=
  ⟨.nil, .nil, .none, .nil, .nil, .nil, .none⟩

theorem any_keyword {qs qs' : List (String × Param)} (h : Forall₂ L.SameKeyword qs qs')
    (name : String) :
    qs.any (·.1 == name) = qs'.any (·.1 == name) := by
  induction h with
  | nil => rfl
  | cons hq _ ih =>
    cases hq
    rw [List.any_cons, List.any_cons, ih]

theorem hasKeyword (h : SameParams L ps ps') (name : String) :
    ps.hasKeyword name = ps'.hasKeyword name := by
  rw [Params.hasKeyword, Params.hasKeyword, any_keyword h.requiredKeywords,
    any_keyword h.optionalKeywords]

theorem restKeywords_isSome (h : SameParams L ps ps') :
    ps.restKeywords.isSome = ps'.restKeywords.isSome := by
  have hrel := h.restKeywords
  generalize ps.restKeywords = p at hrel
  generalize ps'.restKeywords = p' at hrel
  cases hrel <;> rfl

theorem signature (h : SameParams L ps ps') {t t' : Ty} (ht : L.SameTy t t') (l l' : Option Span) :
    L.SameSignature (ps.signature l t) (ps'.signature l' t') :=
  .mk ht h.required h.optional h.rest h.trailing h.requiredKeywords
    h.optionalKeywords h.restKeywords

end SameParams

theorem forall₂_snoc {α : Type} {R : α → α → Prop} {xs ys : List α} {x y : α} (h : Forall₂ R xs ys)
    (hxy : R x y) : Forall₂ R (xs ++ [x]) (ys ++ [y]) :=
  List.rel_append h (.cons hxy .nil)

theorem keywordParam_follows (hs : L.SameState s s') :
    L.Follows s s' keywordParam? keywordParam? fun k k' => k = k' ∧ ∀ p ∈ k, L.Named p.1 := by
  unfold keywordParam?
  refine .isNext_bind hs ?_
  intro optional
  refine .peekAt_bind hs ?_
  intro l hl
  refine .peekAt_bind hs ?_
  intro behind _
  split
  case _ name _ hname _ =>
    obtain ⟨m, rfl, hm⟩ := Option.bind_eq_some_iff.mp hname
    refine .pure hs ⟨rfl, ?_⟩
    rintro _ ⟨⟩
    exact ⟨m, hs.spelt hl, hm⟩
  case _ => exact .pure hs ⟨rfl, by simp⟩

theorem slot_follows (h : L.Tracks type L.SameTy) (hs : L.SameState s s') (stage : Stage)
    {ps ps' : Params} (hps : SameParams L ps ps') :
    L.Follows s s' (slot type stage ps) (slot type stage ps') fun x x' =>
      x.1 = x'.1 ∧ SameParams L x.2 x'.2 := by
  have hparam := param_tracks h
  unfold slot
  refine (keywordParam_follows hs).bind ?_
  rintro k _ r r' ⟨rfl, hname⟩ hr
  split
  case _ name optional =>
    refine .advance_bind hr ?_
    intro r₁ r₁' hr₁
    refine (hparam r₁ r₁' hr₁).bind ?_
    intro p p' r₂ r₂' hp hr₂
    rw [hps.hasKeyword name]
    refine .ite .rfl (fun _ => .lastPlace_fail) fun _ => ?_
    have hkeyword : L.SameKeyword (name, p) (name, p') := .mk (hname _ rfl) hp
    cases optional with
    | true =>
      refine .pure hr₂ ⟨rfl, ?_⟩
      exact { hps with optionalKeywords := forall₂_snoc hps.optionalKeywords hkeyword }
    | false =>
      refine .pure hr₂ ⟨rfl, ?_⟩
      exact { hps with requiredKeywords := forall₂_snoc hps.requiredKeywords hkeyword }
  case _ =>
    refine .eat_if hr (fun r₁ r₁' hr₁ => ?_) fun r₁ r₁' hr₁ => ?_
    · rw [hps.restKeywords_isSome]
      refine .ite .rfl (fun _ => .lastPlace_fail) fun _ => ?_
      refine (hparam r₁ r₁' hr₁).bind ?_
      intro p p' r₂ r₂' hp hr₂
      exact .pure hr₂ ⟨rfl, { hps with restKeywords := .some hp }⟩
    refine .ite .rfl (fun _ => .failHere) fun _ => ?_
    refine .eat_if hr₁ (fun r₂ r₂' hr₂ => ?_) fun r₂ r₂' hr₂ => ?_
    · refine .ite .rfl (fun _ => ?_) fun _ => .lastPlace_fail
      refine (hparam r₂ r₂' hr₂).bind ?_
      intro p p' r₃ r₃' hp hr₃
      exact .pure hr₃ ⟨rfl, { hps with optional := forall₂_snoc hps.optional hp }⟩
    refine .eat_if hr₂ (fun r₃ r₃' hr₃ => ?_) fun r₃ r₃' hr₃ => ?_
    · refine .ite .rfl (fun _ => ?_) fun _ => .lastPlace_fail
      refine (hparam r₃ r₃' hr₃).bind ?_
      intro p p' r₄ r₄' hp hr₄
      exact .pure hr₄ ⟨rfl, { hps with rest := .some hp }⟩
    split
    · refine (hparam r₃ r₃' hr₃).bind ?_
      intro p p' r₄ r₄' hp hr₄
      exact .pure hr₄ ⟨rfl, { hps with required := forall₂_snoc hps.required hp }⟩
    · refine (hparam r₃ r₃' hr₃).bind ?_
      intro p p' r₄ r₄' hp hr₄
      exact .pure hr₄ ⟨rfl, { hps with trailing := forall₂_snoc hps.trailing hp }⟩
    · exact .failHere

theorem params_follows (h : L.Tracks type L.SameTy) (fuel : Nat) (hs : L.SameState s s')
    (stage : Stage) {ps ps' : Params} (hps : SameParams L ps ps') :
    L.Follows s s' (params type fuel stage ps) (params type fuel stage ps') (SameParams L) := by
  induction fuel generalizing s s' stage ps ps' with
  | zero => exact .pure hs hps
  | succ fuel ih =>
    rw [params_succ, params_succ]
    refine .isNext_if hs (.pure hs hps) ?_
    refine (slot_follows h hs stage hps).bind ?_
    rintro ⟨stage, qs⟩ ⟨_, qs'⟩ r r' ⟨rfl, hqs⟩ hr
    exact .eat_if hr (fun r₁ r₁' hr₁ => ih hr₁ stage hqs) fun r₁ r₁' hr₁ => .pure hr₁ hqs

theorem paramList_tracks (h : L.Tracks type L.SameTy) (fuel : Nat) :
    L.Tracks (paramList type fuel) (SameParams L) := by
  intro s s' hs
  unfold paramList
  refine .eat_if hs (fun r r' hr => ?_) fun r r' hr => .pure hr .empty
  refine (params_follows h fuel hr .required .empty).bind ?_
  intro ps ps' r₁ r₁' hps hr₁
  exact .expect_bind hr₁ fun r₂ r₂' hr₂ => .pure hr₂ hps

theorem blockClause_tracks (h : L.Tracks type L.SameTy) (hresult : L.Tracks result L.SameTy)
    (fuel : Nat) : L.Tracks (blockClause type result fuel) (Option.Rel L.SameBlock) := by
  intro s s' hs
  have inside (required : Bool) {r r' : State} (hr : L.SameState r r') {q q' : Position} :
      L.Follows r r' (do
        let ps ← paramList type fuel
        expect (.mark .arrow) .arrowOfBlock
        let t ← result
        let inner := ps.signature (← spanFrom q) t
        expect (.mark .rbrace) .closeOfBlock
        return some ⟨← spanFrom q, inner, required⟩) (do
        let ps ← paramList type fuel
        expect (.mark .arrow) .arrowOfBlock
        let t ← result
        let inner := ps.signature (← spanFrom q') t
        expect (.mark .rbrace) .closeOfBlock
        return some ⟨← spanFrom q', inner, required⟩) (Option.Rel L.SameBlock) := by
    refine (paramList_tracks h fuel r r' hr).bind ?_
    intro ps ps' r₁ r₁' hps hr₁
    refine .expect_bind hr₁ fun r₂ r₂' hr₂ => ?_
    refine (hresult r₂ r₂' hr₂).bind ?_
    intro t t' r₃ r₃' ht hr₃
    refine .spanFrom_bind fun l l' => ?_
    refine .expect_bind hr₃ fun r₄ r₄' hr₄ => ?_
    refine .spanFrom_bind fun _ _ => ?_
    exact .pure hr₄ (.some (.mk (hps.signature ht l l')))
  unfold blockClause
  refine .here_bind (.isNext_bind hs ?_)
  intro b
  cases b with
  | true =>
    refine .peekAt_bind hs fun brace _ => .ite .rfl (fun _ => ?_) fun _ => .pure hs .none
    exact .advance_bind hs fun r r' hr => inside false hr
  | false =>
    refine .peek_bind hs fun brace _ => .ite .rfl (fun _ => ?_) fun _ => .pure hs .none
    exact .advance_bind hs fun r r' hr => inside true hr

theorem signature_tracks (h : L.Tracks type L.SameTy) (hresult : L.Tracks result L.SameTy)
    (fuel : Nat) : L.Tracks (signature type result fuel) fun x x' =>
      L.SameSignature x.1 x'.1 ∧ Option.Rel L.SameBlock x.2 x'.2 := by
  intro s s' hs
  unfold signature
  refine .here_bind ((paramList_tracks h fuel s s' hs).bind ?_)
  intro ps ps' r r' hps hr
  refine (blockClause_tracks h hresult fuel r r' hr).bind ?_
  intro b b' r₁ r₁' hb hr₁
  refine .expect_bind hr₁ fun r₂ r₂' hr₂ => ?_
  refine (hresult r₂ r₂' hr₂).bind ?_
  intro t t' r₃ r₃' ht hr₃
  refine .spanFrom_bind fun l l' => ?_
  exact .pure hr₃ ⟨hps.signature ht l l', hb⟩

theorem typeArgs_tracks (h : L.Tracks type L.SameTy) (fuel : Nat) :
    L.Tracks (typeArgs type fuel) (Forall₂ L.SameTy) := by
  intro s s' hs
  unfold typeArgs
  refine .eat_if hs (fun r r' hr => ?_) fun r r' hr => .pure hr .nil
  refine (h r r' hr).bind ?_
  intro t t' r₁ r₁' ht hr₁
  have hend {r r' : State} (hr : L.SameState r r') {ts ts' : List Ty}
      (hts : Forall₂ L.SameTy ts ts') :
      L.Follows r r' (do
        expect (.mark .rbracket) .closeOfArgs
        return t :: ts) (do
        expect (.mark .rbracket) .closeOfArgs
        return t' :: ts') (Forall₂ L.SameTy) :=
    .expect_bind hr fun r₁ r₁' hr₁ => .pure hr₁ (.cons ht hts)
  refine .eat_if hr₁ (fun r₂ r₂' hr₂ => ?_) fun r₂ r₂' hr₂ => hend hr₂ .nil
  refine (Follows.listed h fuel hr₂).bind ?_
  intro ts ts' r₃ r₃' hts hr₃
  exact hend hr₃ hts

theorem Likeness.SameName.isClass {n n' : TypeName} (h : L.SameName n n') :
    n.isClass = n'.isClass := by
  rw [TypeName.isClass, TypeName.isClass, h.name]

theorem Likeness.SameName.isInterface {n n' : TypeName} (h : L.SameName n n') :
    n.isInterface = n'.isInterface := by
  rw [TypeName.isInterface, TypeName.isInterface, h.name]

theorem namedType_tracks (h : L.Tracks type L.SameTy) (fuel : Nat) :
    L.Tracks (namedType scope type fuel) L.SameTy := by
  intro s s' hs
  unfold namedType
  refine .here_bind ((typeName_tracks .any .typeName s s' hs).bind ?_)
  intro n n' r r' hn hr
  rw [← hn.isClass, ← hn.isInterface, ← hn.absolute, ← hn.path, ← hn.name]
  refine .ite .rfl (fun _ => ?_) fun _ => ?_
  · exact .spanFrom_bind fun l l' => .pure hr (.variable hn.last)
  refine (typeArgs_tracks h fuel r r' hr).bind ?_
  intro args args' r₁ r₁' hargs hr₁
  refine .spanFrom_bind fun l l' => ?_
  refine .ite .rfl (fun _ => .pure hr₁ (.interface hn hargs)) fun _ => ?_
  exact .ite .rfl (fun _ => .pure hr₁ (.classInstance hn hargs)) fun _ =>
    .pure hr₁ (.alias hn hargs)

theorem recordField_tracks {key : Parser Ty} (hkey : L.Tracks key L.SameTy)
    (h : L.Tracks type L.SameTy) :
    L.Tracks (recordField key type) L.SameField := by
  intro s s' hs
  unfold recordField
  refine .here_bind (.peek_bind hs fun l hl => .peekAt_bind hs fun m _ => ?_)
  split
  · refine .advance_bind hs fun r r' hr => ?_
    refine .spanFrom_bind fun k k' => ?_
    refine .advance_bind hr fun r₁ r₁' hr₁ => ?_
    refine (h r₁ r₁' hr₁).bind ?_
    intro t t' r₂ r₂' ht hr₂
    exact .spanFrom_bind fun l l' => .pure hr₂ (.mk trivial ht)
  · refine (hkey s s' hs).bind ?_
    intro k k' r r' hk hr
    cases hk with
    | literal hvalue =>
      refine .expect_bind hr fun r₁ r₁' hr₁ => ?_
      refine (h r₁ r₁' hr₁).bind ?_
      intro t t' r₂ r₂' ht hr₂
      exact .spanFrom_bind fun l l' => .pure hr₂ (.mk hvalue ht)
    | _ => exact .failAt

/-- A token that is a literal is read with its place. -/
theorem literal_follows (hs : L.SameState s s') {l : Lexeme}
    (hl : s.tokens.head?.map (·.lexeme) = some l) {value : Literal}
    (hvalue : literal? l = some value) :
    L.Follows s s' (do
      advance 1
      return .literal (← spanFrom (place c s)) value) (do
      advance 1
      return .literal (← spanFrom (place c' s')) value) L.SameTy := by
  refine .advance_one hs hl ?_
  intro t t' r r' ht hlexeme hplace hplace' hlast hlast' hr
  refine .span_last hlast hlast' (.pure hr (.literal ?_))
  rw [hplace, hplace']
  cases value with
  | string v =>
    have hstring : l = .string v := by
      cases l with
      | keyword k => cases k <;> cases hvalue
      | _ => cases hvalue <;> rfl
    exact ⟨t, t', ht, hlexeme.trans hstring, rfl, rfl⟩
  | _ => trivial

theorem layer_tracks {m : Mark} {build : Option Span → List Ty → Ty} {item : Parser Ty}
    (h : L.Tracks item L.SameTy)
    (hbuild : ∀ l l' ts ts', Forall₂ L.SameTy ts ts' → L.SameTy (build l ts) (build l' ts')) :
    L.Tracks (layer m build item fuel) L.SameTy := by
  intro s s' hs
  unfold layer
  refine .here_bind ((Follows.separated h fuel hs).bind ?_)
  intro ts ts' r r' hts hr
  have hmany {ts ts' : List Ty} (hts : Forall₂ L.SameTy ts ts') : L.Follows r r' (do
      return build (← spanFrom (place c s)) ts) (do
      return build (← spanFrom (place c' s')) ts') L.SameTy :=
    .spanFrom_bind fun l l' => .pure hr (hbuild l l' ts ts' hts)
  cases hts with
  | nil => exact hmany .nil
  | cons ht hrest =>
    cases hrest with
    | nil => exact .pure hr ht
    | cons hu hrest => exact hmany (.cons ht (.cons hu hrest))

theorem optional_tracks (h : L.Tracks (simpleType fuel scope) L.SameTy) :
    L.Tracks (optionalType (fuel + 1) scope) L.SameTy := by
  intro s s' hs
  unfold optionalType
  refine .here_bind ((h s s' hs).bind ?_)
  intro t t' r r' ht hr
  refine .eat_if hr (fun r₁ r₁' hr₁ => ?_) fun r₁ r₁' hr₁ => .pure hr₁ ht
  exact .spanFrom_bind fun l l' => .pure hr₁ (.optional ht)

structure TypesTracked (L : Likeness c c') (fuel : Nat) (scope : List String) : Prop where
  simple : L.Tracks (simpleType fuel scope) L.SameTy
  optional : L.Tracks (optionalType fuel scope) L.SameTy
  intersection : L.Tracks (Grammar.intersection fuel scope) L.SameTy
  type : L.Tracks (Grammar.type fuel scope) L.SameTy

theorem simple_tracks (h : TypesTracked L fuel scope) :
    L.Tracks (simpleType (fuel + 1) scope) L.SameTy := by
  intro s s' hs
  have hnamed : L.Follows s s' (namedType scope (Grammar.type fuel scope) fuel)
      (namedType scope (Grammar.type fuel scope) fuel) L.SameTy :=
    namedType_tracks h.type fuel s s' hs
  unfold simpleType
  refine .here_bind (.peek_bind hs fun l hl => ?_)
  split
  · refine .advance_bind hs fun r r' hr => (h.type r r' hr).bind ?_
    intro t t' r₁ r₁' ht hr₁
    exact .expect_bind hr₁ fun r₂ r₂' hr₂ => .pure hr₂ ht
  · refine .advance_bind hs fun r r' hr => .expect_bind hr fun r₁ r₁' hr₁ => ?_
    refine (typeName_tracks .constant .className r₁ r₁' hr₁).bind ?_
    intro n n' r₂ r₂' hn hr₂
    refine .expect_bind hr₂ fun r₃ r₃' hr₃ => ?_
    exact .spanFrom_bind fun l l' => .pure hr₃ (.classSingleton hn)
  · refine .advance_bind hs fun r r' hr => ?_
    refine (signature_tracks h.type h.optional fuel r r' hr).bind ?_
    intro x x' r₁ r₁' hx hr₁
    exact .spanFrom_bind fun l l' => .pure hr₁ (.proc hx.1 hx.2)
  · refine .advance_bind hs fun r r' hr => (Follows.listed h.type fuel hr).bind ?_
    intro ts ts' r₁ r₁' hts hr₁
    refine .expect_bind hr₁ fun r₂ r₂' hr₂ => ?_
    exact .spanFrom_bind fun l l' => .pure hr₂ (.tuple hts)
  · refine .advance_bind hs fun r r' hr => ?_
    refine (Follows.listed (recordField_tracks h.simple h.type) fuel hr).bind ?_
    intro fields fields' r₁ r₁' hfields hr₁
    refine .expect_bind hr₁ fun r₂ r₂' hr₂ => ?_
    exact .spanFrom_bind fun l l' => .pure hr₂ (.record hfields)
  · exact hnamed
  · exact hnamed
  · exact hnamed
  · exact hnamed
  · split
    · refine .advance_bind hs fun r r' hr => ?_
      exact .spanFrom_bind fun l l' => .pure hr .base
    · exact literal_follows hs hl ‹_›
    · exact .failMissing
  · split
    · exact literal_follows hs hl ‹_›
    · exact .failMissing
  · exact .failMissing

theorem types_tracked (L : Likeness c c') (fuel : Nat) (scope : List String) :
    TypesTracked L fuel scope := by
  induction fuel with
  | zero => constructor <;> exact fun _ _ _ => .failMissing
  | succ fuel ih =>
    constructor
    · exact simple_tracks ih
    · exact optional_tracks ih.simple
    · rw [intersection_succ]
      exact layer_tracks ih.optional fun _ _ _ _ hts => .intersection hts
    · rw [type_succ]
      exact layer_tracks ih.intersection fun _ _ _ _ hts => .union hts

end RubySig.Grammar
