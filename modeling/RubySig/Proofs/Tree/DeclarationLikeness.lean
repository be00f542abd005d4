import RubySig.Proofs.Tree.DeclarationReads
import RubySig.Proofs.Tree.MemberLikeness

/-! Declarations that are read from corresponding tokens: the same declarations, on corresponding
lines. -/
namespace RubySig.Grammar

open List (Forall₂)

variable {c c' : Context}

namespace Likeness

variable (L : Likeness c c')

structure SameComment (k k' : Comment) : Prop where
  text : k.text = k'.text
  location : L.SameSpan k.location k'.location

structure SameLead (lead lead' : Lead) : Prop where
  comment : Option.Rel L.SameComment lead.comment lead'.comment
  notes : Forall₂ L.SameNote lead.notes lead'.notes

mutual

/-- The same declarations; the lines of what their bodies hold correspond. -/
inductive SameDeclaration : Declaration → Declaration → Prop where
  | class_ {n n' ps ps' superclass superclass' items items'} : L.SameName n n' →
      Forall₂ L.SameTypeParam ps ps' → Option.Rel L.SameClassRef superclass superclass' →
      Forall₂ SameItem items items' →
      SameDeclaration (.class_ n ps superclass items) (.class_ n' ps' superclass' items')
  | module_ {n n' ps ps' selves selves' items items'} : L.SameName n n' →
      Forall₂ L.SameTypeParam ps ps' → Forall₂ L.SameClassRef selves selves' →
      Forall₂ SameItem items items' →
      SameDeclaration (.module_ n ps selves items) (.module_ n' ps' selves' items')
  | interface {n n' ps ps' items items'} : L.SameName n n' → Forall₂ L.SameTypeParam ps ps' →
      Forall₂ SameItem items items' →
      SameDeclaration (.interface n ps items) (.interface n' ps' items')
  | constant {n n' t t'} : L.SameName n n' → L.SameTy t t' →
      SameDeclaration (.constant n t) (.constant n' t')
  | global {name t t'} : L.Spelt (.globalVariable name) → L.SameTy t t' →
      SameDeclaration (.global name t) (.global name t')
  | typeAlias {n n' t t' ps ps'} : L.SameName n n' → L.SameTy t t' →
      Forall₂ L.SameTypeParam ps ps' →
      SameDeclaration (.typeAlias n t ps) (.typeAlias n' t' ps')

inductive SameItem : Item → Item → Prop where
  | member {l l' lead lead' m m'} : L.SameSpan l l' → L.SameLead lead lead' → L.SameMember m m' →
      SameItem (.member l lead m) (.member l' lead' m')
  | declaration {l l' lead lead' a a'} : L.SameSpan l l' → L.SameLead lead lead' →
      SameDeclaration a a' → SameItem (.declaration l lead a) (.declaration l' lead' a')

end

variable {L} {lead lead' : Lead} {l l' : Option Span}

theorem SameSpan.endLine (h : L.SameSpan l l') : ∃ a a' : Nat, L.line a a' ∧
    l.map (·.endLine) = some (a : Int) ∧ l'.map (·.endLine) = some (a' : Int) := by
  obtain ⟨p, q, p', q', rfl, rfl, -, hq⟩ := h
  exact ⟨q.line, q'.line, hq, rfl, rfl⟩

theorem SameNote.line {n n' : Note} (h : L.SameNote n n') : L.SameSpan n.location n'.location := by
  obtain ⟨⟨l, p, q⟩, ⟨l', p', q'⟩, ht, hn, hn'⟩ := h
  cases l with
  | note text =>
    obtain rfl : Lexeme.note text = l' := L.lexeme ht
    cases hn
    cases hn'
    exact ⟨p, q, p', q', rfl, rfl, L.start ht, L.stop ht⟩
  | _ => cases hn

/-- The first lines of two items with the same lead correspond. -/
theorem SameLead.firstLine (h : L.SameLead lead lead') (hl : L.SameSpan l l') :
    ∃ a a' : Nat, L.line a a' ∧ lead.firstLine l = a ∧ lead'.firstLine l' = a' := by
  obtain ⟨comment, notes⟩ := lead
  obtain ⟨comment', notes'⟩ := lead'
  obtain ⟨hcomment, hnotes⟩ := h
  dsimp only at hcomment hnotes
  cases hcomment with
  | @some k k' hk =>
    obtain ⟨p, q, p', q', hl, hl', hp, -⟩ := hk.location
    refine ⟨p.line, p'.line, hp, ?_, ?_⟩
    · simp [Lead.firstLine, hl, Span.between]
    · simp [Lead.firstLine, hl', Span.between]
  | none =>
    cases hnotes with
    | @cons n n' _ _ hn _ =>
      obtain ⟨p, q, p', q', hl, hl', hp, -⟩ := hn.line
      refine ⟨p.line, p'.line, hp, ?_, ?_⟩
      · simp [Lead.firstLine, hl, Span.between]
      · simp [Lead.firstLine, hl', Span.between]
    | nil =>
      obtain ⟨p, q, p', q', rfl, rfl, hp, -⟩ := hl
      exact ⟨p.line, p'.line, hp, rfl, rfl⟩

end Likeness

open Likeness

variable {L : Likeness c c'} {s s' : State} {fuel : Nat} {scope : List String} {nested : Bool}

/-- The block above a line is the one above the corresponding line. -/
theorem takeAbove_same {line line' : Nat} (hline : L.line line line') {bs bs' : List CommentBlock}
    (h : Forall₂ L.SameCommentBlock bs bs') :
    Option.Rel L.SameCommentBlock (CommentBlock.takeAbove line bs).1
      (CommentBlock.takeAbove line' bs').1 ∧
    Forall₂ L.SameCommentBlock (CommentBlock.takeAbove line bs).2
      (CommentBlock.takeAbove line' bs').2 := by
  induction h with
  | nil => exact ⟨.none, .nil⟩
  | @cons b b' bs bs' hb hbs ih =>
    have hbelow := line_below hb.stop hline
    rw [CommentBlock.takeAbove, CommentBlock.takeAbove]
    by_cases h : b.stop.line + 1 = line
    · rw [if_pos (by simpa using h), if_pos (by simpa using hbelow.mp h)]
      exact ⟨.some hb, hbs⟩
    · rw [if_neg (by simpa using h), if_neg (by simpa using mt hbelow.mpr h)]
      exact ⟨ih.1, .cons hb ih.2⟩

theorem leadOf_follows (hs : L.SameState s s') {ns ns' : List Note}
    (hns : Forall₂ L.SameNote ns ns') {q q' : Position} (hq : L.line q.line q'.line) :
    L.Follows s s' (leadOf ns q) (leadOf ns' q') L.SameLead := by
  have from_line {line line' : Nat} (hline : L.line line line') {x x' : Parser Lead}
      (hx : x c s = .ok (⟨(CommentBlock.takeAbove line s.blocks).1.map (·.comment), ns⟩,
        { s with blocks := (CommentBlock.takeAbove line s.blocks).2 }))
      (hx' : x' c' s' = .ok (⟨(CommentBlock.takeAbove line' s'.blocks).1.map (·.comment), ns'⟩,
        { s' with blocks := (CommentBlock.takeAbove line' s'.blocks).2 })) :
      L.Follows s s' x x' L.SameLead := by
    obtain ⟨htaken, hleft⟩ := takeAbove_same hline hs.blocks
    intro lead r hr
    obtain ⟨rfl, rfl⟩ := Prod.mk.inj (Except.ok.inj (hx.symm.trans hr))
    refine ⟨_, _, hx', ⟨?_, hns⟩, hs.tokens, hs.last, hleft⟩
    generalize (CommentBlock.takeAbove line s.blocks).1 = b at htaken
    generalize (CommentBlock.takeAbove line' s'.blocks).1 = b' at htaken
    cases htaken with
    | none => exact .none
    | @some b b' hb =>
      refine .some ⟨?_, b.start, b.stop, b'.start, b'.stop, rfl, rfl, hb.start, hb.stop⟩
      exact congrArg "\n".intercalate hb.lines
  unfold leadOf
  cases hns with
  | nil => exact from_line hq rfl rfl
  | @cons n n' _ _ hn _ =>
    obtain ⟨p, _, p', _, hl, hl', hp, -⟩ := hn.line
    obtain ⟨_, _⟩ := n
    obtain ⟨_, _⟩ := n'
    subst hl hl'
    exact from_line hp rfl rfl

theorem selfTypes_tracks : L.Tracks (selfTypes fuel scope) (Forall₂ L.SameClassRef) := by
  intro s s' hs
  unfold selfTypes
  exact .eat_if hs (fun r r' hr => Follows.separated classRef_tracks fuel hr) fun r r' hr =>
    .pure hr .nil

theorem typeAlias_tracks : L.Tracks (typeAlias fuel scope) L.SameDeclaration := by
  intro s s' hs
  unfold typeAlias
  refine (typeName_tracks .identifier .aliasName s s' hs).bind ?_
  intro n n' r r' hn hr
  refine (typeParams_tracks r r' hr).bind ?_
  intro ps ps' r₁ r₁' hps hr₁
  rw [← within_same hps]
  refine .expect_bind hr₁ fun r₂ r₂' hr₂ => ?_
  refine (type_tracks L fuel (within ps scope) r₂ r₂' hr₂).bind ?_
  intro t t' r₃ r₃' ht hr₃
  exact .pure hr₃ (.typeAlias hn ht hps)

theorem constant_tracks : L.Tracks (constant fuel scope) L.SameDeclaration := by
  intro s s' hs
  unfold constant
  refine (typeName_tracks .constant .constantName s s' hs).bind ?_
  intro n n' r r' hn hr
  refine .expect_bind hr fun r₁ r₁' hr₁ => (type_tracks L fuel scope r₁ r₁' hr₁).bind ?_
  intro t t' r₂ r₂' ht hr₂
  exact .pure hr₂ (.constant hn ht)

theorem superclass_tracks : L.Tracks (show Parser (Option ClassRef) from do
    if ← eat (.mark .lt) then return some (← classRef .constant .superclassName fuel scope)
    else return none) (Option.Rel L.SameClassRef) := by
  intro s s' hs
  refine .eat_if hs (fun r r' hr => ?_) fun r r' hr => .pure hr .none
  refine (classRef_tracks r r' hr).bind ?_
  intro a a' r₁ r₁' ha hr₁
  exact .pure hr₁ (.some ha)

structure ItemsTracked (L : Likeness c c') (fuel : Nat) : Prop where
  declaration : ∀ scope, L.Tracks (Grammar.declaration fuel scope) L.SameItem
  body : ∀ nested scope, L.Tracks (Grammar.body fuel nested scope) (Forall₂ L.SameItem)

/-- A body behind a heading, up to and with its `end`. -/
theorem bodied_follows (h : ItemsTracked L fuel) (hs : L.SameState s s')
    {build build' : List Item → Declaration} {what : Missing}
    (hbuild : ∀ items items', Forall₂ L.SameItem items items' →
      L.SameDeclaration (build items) (build' items')) :
    L.Follows s s' (do
      let members ← body fuel nested scope
      expect (.keyword .end_) what
      return build members) (do
      let members ← body fuel nested scope
      expect (.keyword .end_) what
      return build' members) L.SameDeclaration := by
  refine (h.body nested scope s s' hs).bind ?_
  intro items items' r r' hitems hr
  exact .expect_bind hr fun r₁ r₁' hr₁ => .pure hr₁ (hbuild items items' hitems)

theorem declarationBody_tracks (h : ItemsTracked L fuel) :
    L.Tracks (declarationBody fuel scope) L.SameDeclaration := by
  intro s s' hs
  -- The name and the type parameters of a declaration with a body.
  have heading {segment : Segment} {role : Role} {r r' : State} (hr : L.SameState r r')
      {f f' : TypeName → List TypeParam → Parser Declaration}
      (k : ∀ n n' ps ps' r r', L.SameName n n' → Forall₂ L.SameTypeParam ps ps' → L.SameState r r' →
        L.Follows r r' (f n ps) (f' n' ps') L.SameDeclaration) : L.Follows r r' (do
          let name ← typeName segment role
          let ps ← typeParams fuel scope
          f name ps) (do
          let name ← typeName segment role
          let ps ← typeParams fuel scope
          f' name ps) L.SameDeclaration := by
    refine (typeName_tracks segment role r r' hr).bind ?_
    intro n n' r₁ r₁' hn hr₁
    refine (typeParams_tracks r₁ r₁' hr₁).bind ?_
    intro ps ps' r₂ r₂' hps hr₂
    exact k n n' ps ps' r₂ r₂' hn hps hr₂
  unfold declarationBody
  refine .peek_bind hs fun l hl => ?_
  split
  · refine .advance_bind hs fun r r' hr => heading hr fun n n' ps ps' r₁ r₁' hn hps hr₁ => ?_
    rw [← within_same hps]
    refine (superclass_tracks r₁ r₁' hr₁).bind ?_
    intro a a' r₂ r₂' ha hr₂
    exact bodied_follows h hr₂ fun items items' hitems => .class_ hn hps ha hitems
  · refine .advance_bind hs fun r r' hr => heading hr fun n n' ps ps' r₁ r₁' hn hps hr₁ => ?_
    rw [← within_same hps]
    refine (selfTypes_tracks r₁ r₁' hr₁).bind ?_
    intro selves selves' r₂ r₂' hselves hr₂
    exact bodied_follows h hr₂ fun items items' hitems => .module_ hn hps hselves hitems
  · refine .advance_bind hs fun r r' hr => heading hr fun n n' ps ps' r₁ r₁' hn hps hr₁ => ?_
    rw [← within_same hps]
    exact bodied_follows h hr₁ fun items items' hitems => .interface hn hps hitems
  · exact .advance_bind hs fun r r' hr => typeAlias_tracks r r' hr
  · exact constant_tracks s s' hs
  · exact constant_tracks s s' hs
  · have hspelt := hs.spelt_head hl
    refine .advance_bind hs fun r r' hr => .expect_bind hr fun r₁ r₁' hr₁ => ?_
    refine (type_tracks L fuel scope r₁ r₁' hr₁).bind ?_
    intro t t' r₂ r₂' ht hr₂
    exact .pure hr₂ (.global hspelt ht)
  · exact .failHere

theorem declarationBody_end (h : s.tokens = []) :
    ∃ e, declarationBody fuel scope c s = .error e := by
  obtain ⟨tokens, last, blocks⟩ := s
  subst h
  exact ⟨_, rfl⟩

theorem member_end (h : s.tokens = []) : ∃ e, member nested fuel scope c s = .error e := by
  obtain ⟨tokens, last, blocks⟩ := s
  subst h
  exact ⟨_, rfl⟩

theorem declaration_tracks (h : ItemsTracked L fuel) :
    L.Tracks (declaration (fuel + 1) scope) L.SameItem := by
  intro s s' hs
  rw [declaration_succ]
  refine (notes_tracks s s' hs).bind ?_
  intro ns ns' r r' hns hr
  refine .here_bind ?_
  by_cases hend : r.tokens = []
  · exact .error_bind (declarationBody_end hend)
  have hplace := hr.place hend
  refine (declarationBody_tracks h r r' hr).bind ?_
  intro a a' r₁ r₁' ha hr₁
  refine .span_bind hr₁ hplace fun l l' hl => (leadOf_follows hr₁ hns hplace).bind ?_
  intro lead lead' r₂ r₂' hlead hr₂
  exact .pure hr₂ (.declaration hl hlead ha)

theorem bodyItem_follows (h : ItemsTracked L fuel) (hs : L.SameState s s') :
    L.Follows s s' (bodyItem fuel nested scope s) (bodyItem fuel nested scope s') L.SameItem := by
  unfold bodyItem
  refine (notes_tracks s s' hs).bind ?_
  intro ns ns' r r' hns hr
  refine .here_bind (.peek_bind hr fun l _ => .ite .rfl (fun _ => ?_) fun _ => ?_)
  · -- A declaration is read from where its annotations start.
    exact h.declaration scope s s' hs
  · by_cases hend : r.tokens = []
    · exact .error_bind (member_end hend)
    have hplace := hr.place hend
    refine (member_tracks r r' hr).bind ?_
    intro m m' r₁ r₁' hm hr₁
    refine .span_bind hr₁ hplace fun l l' hl => (leadOf_follows hr₁ hns hplace).bind ?_
    intro lead lead' r₂ r₂' hlead hr₂
    exact .pure hr₂ (.member hl hlead hm)

theorem body_tracks (h : ItemsTracked L fuel) :
    L.Tracks (body (fuel + 1) nested scope) (Forall₂ L.SameItem) := by
  intro s s' hs
  rw [body_succ]
  refine .isNext_if hs (.pure hs .nil)
    (.peek_bind hs fun l _ => .ite .rfl (fun _ => ?_) fun _ => ?_)
  · exact .bind (R := fun _ _ => False) .failHere fun _ _ _ _ h => h.elim
  · refine .get_bind ((bodyItem_follows h hs).bind ?_)
    intro item item' r r' hitem hr
    refine (h.body nested scope r r' hr).bind ?_
    intro items items' r₁ r₁' hitems hr₁
    exact .pure hr₁ (.cons hitem hitems)

theorem items_tracked (L : Likeness c c') (fuel : Nat) : ItemsTracked L fuel := by
  induction fuel with
  | zero =>
    exact ⟨fun _ s s' hs => .peek_bind hs fun _ _ => .failHere, fun _ _ s s' hs => .pure hs .nil⟩
  | succ fuel ih => exact ⟨fun _ => declaration_tracks ih, fun _ _ => body_tracks ih⟩

theorem declarations_follows {depth : Nat} (hs : L.SameState s s') :
    L.Follows s s' (declarations depth fuel) (declarations depth fuel) (Forall₂ L.SameItem) := by
  induction fuel generalizing s s' with
  | zero => exact .pure hs .nil
  | succ fuel ih =>
    unfold declarations
    refine .peek_bind hs fun l _ => .ite .rfl (fun _ => .pure hs .nil) fun _ => ?_
    refine ((items_tracked L depth).declaration [] s s' hs).bind ?_
    intro item item' r r' hitem hr
    refine (ih hr).bind ?_
    intro items items' r₁ r₁' hitems hr₁
    exact .pure hr₁ (.cons hitem hitems)

/-- A file whose tokens and comments correspond to those of a file that is read is read as the
same. -/
theorem file_follows {text text' : List Char} {scan scan' : Lexer.Scan}
    (L : Likeness ⟨text, scan.finish⟩ ⟨text', scan'.finish⟩)
    (htokens : Forall₂ L.token scan.tokens scan'.tokens) {blocks blocks' : List CommentBlock}
    (hblocks : Forall₂ L.SameCommentBlock blocks blocks') {items : List Item}
    {left : List CommentBlock} (h : file text scan blocks = .ok (items, left)) :
    ∃ items' left', file text' scan' blocks' = .ok (items', left') ∧
    Forall₂ L.SameItem items items' := by
  have hs : L.SameState ⟨scan.tokens, none, blocks⟩ ⟨scan'.tokens, none, blocks'⟩ :=
    ⟨htokens, .none, hblocks⟩
  unfold file at h ⊢
  dsimp only at h ⊢
  rw [← htokens.length_eq]
  split at h
  · cases h
  case _ items₀ rest hrun =>
    cases h
    obtain ⟨items', rest', hrun', hitems, -⟩ := declarations_follows hs items rest hrun
    refine ⟨items', rest'.blocks, ?_, hitems⟩
    split
    case _ e he => exact absurd (hrun'.symm.trans he) nofun
    case _ items₁ rest₁ hok =>
      cases hrun'.symm.trans hok
      rfl

end RubySig.Grammar

namespace RubySig

/-- A tree that is read is built from the tokens of its text. -/
theorem Root.read_same {source : String} {scan : Lexer.Scan} {root : Root}
    (hscan : Lexer.scan source.toList = .ok scan) (h : (Root.read source).result = .ok root) :
    ∃ items, List.Forall₂
      (Grammar.Likeness.ofTokens ⟨source.toList, scan.finish⟩ scan.tokens).SameItem
      root.declarations items := by
  obtain ⟨scan', left, hscan', hfile, -, -⟩ := Root.read_ok h
  obtain rfl : scan = scan' := Except.ok.inj (hscan.symm.trans hscan')
  obtain ⟨items, -, -, hitems⟩ := Grammar.file_follows
    (Grammar.Likeness.ofTokens ⟨source.toList, scan.finish⟩ scan.tokens)
    (List.forall₂_same.mpr fun t ht => ⟨rfl, ht⟩)
      (List.forall₂_same.mpr fun b _ => ⟨rfl, rfl, rfl⟩) hfile
  exact ⟨items, hitems⟩

end RubySig
