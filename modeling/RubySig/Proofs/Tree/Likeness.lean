import Mathlib.Data.List.Forall2
import RubySig.Proofs.Tree.Passed

/-!
Two texts whose tokens correspond, and how a parser on the tokens of one follows a parser on those
of the other. Where the tokens stand may differ; the grammar looks at their places only to tell
lines apart, to read method names from the text, and to note them in the tree.
-/
namespace RubySig.Grammar

open List (Forall₂)

/-- How the tokens and the line numbers of two texts correspond. Two lines of the one stand apart as
those of the other do: not at all, by one line, or by more. -/
structure Likeness (c c' : Context) where
  token : Token → Token → Prop
  line : Nat → Nat → Prop
  lexeme : ∀ {t t'}, token t t' → t.lexeme = t'.lexeme
  start : ∀ {t t'}, token t t' → line t.start.line t'.start.line
  stop : ∀ {t t'}, token t t' → line t.stop.line t'.stop.line
  near : ∀ {a a' b b'}, line a a' → line b b' → min (b - a) 2 = min (b' - a') 2
  slice : ∀ {t t'}, token t t' → t.span.slice c.text = t'.span.slice c'.text
  /-- The same method name stands at a token. -/
  ahead : ∀ {t t'}, token t t' →
    MethodName.at? (c.text.drop t.start.offset) = MethodName.at? (c'.text.drop t'.start.offset)
  /-- The method name at a token is as many tokens long. -/
  covered : ∀ {t t' u u' name}, token t t' → token u u' →
    MethodName.at? (c.text.drop t.start.offset) = some name →
    (u.start.offset < t.start.offset + name.length ↔
      u'.start.offset < t'.start.offset + name.length)

namespace Likeness

variable {c c' : Context} (L : Likeness c c')

/-- The correspondence from the other side. -/
def symm : Likeness c' c where
  token t t' := L.token t' t
  line a a' := L.line a' a
  lexeme h := (L.lexeme h).symm
  start h := L.start h
  stop h := L.stop h
  near ha hb := (L.near ha hb).symm
  slice h := (L.slice h).symm
  ahead h := (L.ahead h).symm
  covered ht hu hname := (L.covered ht hu ((L.ahead ht).trans hname)).symm

/-- Some tokens of a text correspond to themselves. -/
def ofTokens (c : Context) (tokens : List Token) : Likeness c c where
  token t t' := t = t' ∧ t ∈ tokens
  line a a' := a = a'
  lexeme h := by rw [h.1]
  start h := by rw [h.1]
  stop h := by rw [h.1]
  near ha hb := by rw [ha, hb]
  slice h := by rw [h.1]
  ahead h := by rw [h.1]
  covered ht hu _ := by rw [ht.1, hu.1]

variable {L}

theorem same_line {a a' b b' : Nat} (ha : L.line a a') (hb : L.line b b') : a = b ↔ a' = b' := by
  have := L.near ha hb
  have := L.near hb ha
  omega

theorem line_below {a a' b b' : Nat} (ha : L.line a a') (hb : L.line b b') :
    a + 1 = b ↔ a' + 1 = b' := by
  have := L.near ha hb
  have := L.near hb ha
  omega

variable (L)

/-- A lexeme that tokens of both texts have. -/
def Spelt (l : Lexeme) : Prop := ∃ t t', L.token t t' ∧ t.lexeme = l

structure SameCommentBlock (b b' : CommentBlock) : Prop where
  lines : b.lines = b'.lines
  start : L.line b.start.line b'.start.line
  stop : L.line b.stop.line b'.stop.line

/-- Corresponding states: what is left to read, the token read last and the comments that are
left. -/
structure SameState (s s' : State) : Prop where
  tokens : Forall₂ L.token s.tokens s'.tokens
  last : Option.Rel L.token s.last s'.last
  blocks : Forall₂ L.SameCommentBlock s.blocks s'.blocks

/-- Ranges that begin and end on corresponding lines. -/
def SameSpan (l l' : Option Span) : Prop :=
  ∃ p q p' q' : Position, l = some (.between p q) ∧ l' = some (.between p' q') ∧
    L.line p.line p'.line ∧ L.line q.line q'.line

variable {L} {s s' : State}

theorem forall₂_getLast {α : Type} {R : α → α → Prop} {xs ys : List α} (h : Forall₂ R xs ys) :
    Option.Rel R xs.getLast? ys.getLast? := by
  induction h with
  | nil => exact .none
  | @cons x y xs ys hxy hrest ih =>
    cases hrest with
    | nil => exact .some hxy
    | cons _ _ => exact ih

namespace SameState

theorem lexemes (h : L.SameState s s') : s.tokens.map (·.lexeme) = s'.tokens.map (·.lexeme) := by
  rw [← List.forall₂_eq_eq_eq, List.forall₂_map_left_iff, List.forall₂_map_right_iff]
  exact h.tokens.imp fun _ _ ht => L.lexeme ht

theorem peekAt (h : L.SameState s s') (n : Nat) :
    (s.tokens[n]?).map (·.lexeme) = (s'.tokens[n]?).map (·.lexeme) := by
  rw [← List.getElem?_map, ← List.getElem?_map, h.lexemes]

/-- What comes next in the one text is the lexeme of tokens of both. -/
theorem spelt (h : L.SameState s s') {n : Nat} {l : Lexeme}
    (hl : (s.tokens[n]?).map (·.lexeme) = some l) : L.Spelt l := by
  obtain ⟨t, ht, rfl⟩ := Option.map_eq_some_iff.mp hl
  obtain ⟨hn, rfl⟩ := List.getElem?_eq_some_iff.mp ht
  have hn' : n < s'.tokens.length := h.tokens.length_eq ▸ hn
  exact ⟨_, _, h.tokens.get hn hn', rfl⟩

theorem spelt_head (h : L.SameState s s') {l : Lexeme}
    (hl : s.tokens.head?.map (·.lexeme) = some l) : L.Spelt l := by
  rw [List.head?_eq_getElem?] at hl
  exact h.spelt hl

theorem spelt_of_mem (h : L.SameState s s') {l : Lexeme} (hl : l ∈ s.tokens.map (·.lexeme)) :
    L.Spelt l := by
  obtain ⟨n, hn⟩ := List.getElem?_of_mem hl
  rw [List.getElem?_map] at hn
  exact h.spelt hn

theorem peek (h : L.SameState s s') :
    s.tokens.head?.map (·.lexeme) = s'.tokens.head?.map (·.lexeme) := by
  rw [List.head?_eq_getElem?, List.head?_eq_getElem?]
  exact h.peekAt 0

theorem place (h : L.SameState s s') (hne : s.tokens ≠ []) :
    L.line (place c s).line (place c' s').line := by
  obtain ⟨tokens, last, blocks⟩ := s
  obtain ⟨tokens', last', blocks'⟩ := s'
  cases h.tokens with
  | nil => exact absurd rfl hne
  | cons ht _ => exact L.start ht

theorem advance (h : L.SameState s s') (n : Nat) : L.SameState
    { s with tokens := s.tokens.drop n, last := ((s.tokens.take n).getLast?).or s.last }
    { s' with tokens := s'.tokens.drop n, last := ((s'.tokens.take n).getLast?).or s'.last } where
  tokens := List.forall₂_drop n h.tokens
  last := by
    have hread := forall₂_getLast (List.forall₂_take n h.tokens)
    generalize (s.tokens.take n).getLast? = t at hread
    generalize (s'.tokens.take n).getLast? = t' at hread
    cases hread with
    | none => exact h.last
    | some ht => exact .some ht
  blocks := h.blocks

end SameState

variable {α β : Type} {p p' : Parser α} {R : α → α → Prop} {Q : β → β → Prop}

variable (L) in
/-- Whatever a parser reads in the one text, the other reads what corresponds to it in the other
text. -/
def Follows (s s' : State) (p p' : Parser α) (R : α → α → Prop) : Prop :=
  ∀ a r, p c s = .ok (a, r) → ∃ a' r', p' c' s' = .ok (a', r') ∧ R a a' ∧ L.SameState r r'

variable (L) in
/-- From all corresponding states a parser reads what corresponds. -/
def Tracks (p : Parser α) (R : α → α → Prop) : Prop :=
  ∀ s s', L.SameState s s' → L.Follows s s' p p R

namespace Follows

theorem pure (h : L.SameState s s') {a a' : α} (ha : R a a') :
    L.Follows s s' (Pure.pure a) (Pure.pure a') R := by
  intro b r hb
  cases hb
  exact ⟨a', s', rfl, ha, h⟩

theorem bind {f f' : α → Parser β} (h : L.Follows s s' p p' R)
    (k : ∀ a a' r r', R a a' → L.SameState r r' → L.Follows r r' (f a) (f' a') Q) :
    L.Follows s s' (p >>= f) (p' >>= f') Q := by
  intro b r hb
  change (p c s >>= fun x => f x.1 c x.2) = _ at hb
  cases hp : p c s with
  | error e =>
    rw [hp] at hb
    cases hb
  | ok x =>
    rw [hp] at hb
    obtain ⟨a', r', hp', hR, hr⟩ := h x.1 x.2 hp
    obtain ⟨b', r'', hb', hQ, hr'⟩ := k x.1 a' x.2 r' hR hr b r hb
    refine ⟨b', r'', ?_, hQ, hr'⟩
    change (p' c' s' >>= fun x => f' x.1 c' x.2) = _
    rw [hp']
    exact hb'

theorem failAt {q : Position} {cause : Cause} : L.Follows s s' (Grammar.failAt q cause) p' R := by
  intro a r h
  cases h

/-- A parser that reads nothing is followed by any. -/
theorem error_bind {f f' : α → Parser β} (h : ∃ e, p c s = .error e) :
    L.Follows s s' (p >>= f) (p' >>= f') Q := by
  obtain ⟨e, he⟩ := h
  intro a r hp
  change (p c s >>= fun x => f x.1 c x.2) = _ at hp
  rw [he] at hp
  cases hp

theorem failHere {cause : Cause} : L.Follows s s' (Grammar.failHere cause) p' R := by
  intro a r h
  cases h

theorem failMissing {what : Missing} : L.Follows s s' (Grammar.failMissing what) p' R := by
  intro a r h
  cases h

theorem lastPlace_fail {f : Position → Cause} :
    L.Follows s s' (lastPlace >>= fun q => Grammar.failAt q (f q)) p' R := by
  obtain ⟨tokens, last, blocks⟩ := s
  intro a r h
  cases last with
  | none => cases h
  | some t => cases h

theorem ite {b b' : Prop} [Decidable b] [Decidable b'] {q q' : Parser α} (hb : b ↔ b')
    (hp : b → L.Follows s s' p p' R) (hq : ¬b → L.Follows s s' q q' R) :
    L.Follows s s' (if b then p else q) (if b' then p' else q') R := by
  by_cases h : b
  · rw [if_pos h, if_pos (hb.mp h)]
    exact hp h
  · rw [if_neg h, if_neg (mt hb.mpr h)]
    exact hq h

variable {f f' : Position → Parser β} {g g' : Option Lexeme → Parser β} {k k' : Unit → Parser β}

theorem here_bind (h : L.Follows s s' (f (place c s)) (f' (place c' s')) Q) :
    L.Follows s s' (here >>= f) (here >>= f') Q := h

theorem peek_bind (h : L.SameState s s')
    (hg : ∀ l, s.tokens.head?.map (·.lexeme) = l → L.Follows s s' (g l) (g' l) Q) :
    L.Follows s s' (peek >>= g) (peek >>= g') Q := by
  change L.Follows s s' (g (s.tokens.head?.map (·.lexeme))) (g' (s'.tokens.head?.map (·.lexeme))) Q
  rw [← h.peek]
  exact hg _ rfl

theorem peekAt_bind (h : L.SameState s s') {n : Nat}
    (hg : ∀ l, (s.tokens[n]?).map (·.lexeme) = l → L.Follows s s' (g l) (g' l) Q) :
    L.Follows s s' (peekAt n >>= g) (peekAt n >>= g') Q := by
  change L.Follows s s' (g ((s.tokens[n]?).map (·.lexeme))) (g' ((s'.tokens[n]?).map (·.lexeme))) Q
  rw [← h.peekAt]
  exact hg _ rfl

theorem get_bind {f f' : State → Parser β} (h : L.Follows s s' (f s) (f' s') Q) :
    L.Follows s s' (get >>= f) (get >>= f') Q := h

theorem read_bind {f f' : Context → Parser β} (h : L.Follows s s' (f c) (f' c') Q) :
    L.Follows s s' (read >>= f) (read >>= f') Q := h

theorem isNext_bind (h : L.SameState s s') {l : Lexeme} {g g' : Bool → Parser β}
    (hg : ∀ b, L.Follows s s' (g b) (g' b) Q) :
    L.Follows s s' (isNext l >>= g) (isNext l >>= g') Q := by
  change L.Follows s s' (peek >>= fun m => g (m == some l)) (peek >>= fun m => g' (m == some l)) Q
  exact peek_bind h fun _ _ => hg _

theorem advance_bind (h : L.SameState s s') {n : Nat}
    (hk : ∀ r r', L.SameState r r' → L.Follows r r' (k ()) (k' ()) Q) :
    L.Follows s s' (advance n >>= k) (advance n >>= k') Q :=
  hk _ _ (h.advance n)

/-- A single token is read, and is the one read last. -/
theorem advance_one (h : L.SameState s s') {l : Lexeme}
    (hl : s.tokens.head?.map (·.lexeme) = some l)
    (hk : ∀ t t' r r', L.token t t' → t.lexeme = l → place c s = t.start → place c' s' = t'.start →
      r.last = some t → r'.last = some t' → L.SameState r r' → L.Follows r r' (k ()) (k' ()) Q) :
    L.Follows s s' (advance 1 >>= k) (advance 1 >>= k') Q := by
  have hadvance := h.advance 1
  obtain ⟨tokens, last, blocks⟩ := s
  obtain ⟨tokens', last', blocks'⟩ := s'
  cases h.tokens with
  | nil => cases hl
  | cons ht _ =>
    cases hl
    exact hk _ _ _ _ ht rfl rfl rfl rfl rfl hadvance

theorem eat_bind (h : L.SameState s s') {l : Lexeme} {g g' : Bool → Parser β}
    (hg : ∀ b r r', L.SameState r r' → L.Follows r r' (g b) (g' b) Q) :
    L.Follows s s' (eat l >>= g) (eat l >>= g') Q := by
  have heat : L.Follows s s' (eat l) (eat l) Eq := by
    unfold eat
    refine isNext_bind h ?_
    intro b
    cases b with
    | true => exact advance_bind h fun r r' hr => .pure hr rfl
    | false => exact .pure h rfl
  refine heat.bind ?_
  rintro b _ r r' rfl hr
  exact hg b r r' hr

theorem eat_if (h : L.SameState s s') {l : Lexeme} {q q' : Parser α}
    (hp : ∀ r r', L.SameState r r' → L.Follows r r' p p' R)
    (hq : ∀ r r', L.SameState r r' → L.Follows r r' q q' R) :
    L.Follows s s' (eat l >>= fun b => if b = true then p else q)
      (eat l >>= fun b => if b = true then p' else q') R := by
  refine eat_bind h ?_
  intro b r r' hr
  cases b with
  | true => exact hp r r' hr
  | false => exact hq r r' hr

theorem isNext_if (h : L.SameState s s') {l : Lexeme} {q q' : Parser α}
    (hp : L.Follows s s' p p' R) (hq : L.Follows s s' q q' R) :
    L.Follows s s' (isNext l >>= fun b => if b = true then p else q)
      (isNext l >>= fun b => if b = true then p' else q') R := by
  refine isNext_bind h ?_
  intro b
  cases b with
  | true => exact hp
  | false => exact hq

theorem expect_bind (h : L.SameState s s') {l : Lexeme} {what : Missing}
    (hk : ∀ r r', L.SameState r r' → L.Follows r r' (k ()) (k' ()) Q) :
    L.Follows s s' (expect l what >>= k) (expect l what >>= k') Q := by
  have hexpect : L.Follows s s' (expect l what) (expect l what) fun _ _ => True := by
    unfold expect
    refine eat_bind h ?_
    intro b r r' hr
    cases b with
    | true => exact .pure hr trivial
    | false => exact failMissing
  exact hexpect.bind fun _ _ r r' _ hr => hk r r' hr

section Spans

variable {q q' : Position} {f f' : Option Span → Parser β}

theorem span_bind (h : L.SameState s s') (hq : L.line q.line q'.line)
    (hf : ∀ l l', L.SameSpan l l' → L.Follows s s' (f l) (f' l') Q) :
    L.Follows s s' (spanFrom q >>= f) (spanFrom q' >>= f') Q := by
  obtain ⟨tokens, last, blocks⟩ := s
  obtain ⟨tokens', last', blocks'⟩ := s'
  cases h.last with
  | none => exact hf _ _ ⟨q, q, q', q', rfl, rfl, hq, hq⟩
  | @some t t' ht => exact hf _ _ ⟨q, t.stop, q', t'.stop, rfl, rfl, hq, L.stop ht⟩

/-- Where a range begins need not correspond if nothing is said of it. -/
theorem spanFrom_bind (hf : ∀ l l', L.Follows s s' (f l) (f' l') Q) :
    L.Follows s s' (spanFrom q >>= f) (spanFrom q' >>= f') Q := by
  obtain ⟨tokens, last, blocks⟩ := s
  obtain ⟨tokens', last', blocks'⟩ := s'
  cases last <;> cases last' <;> exact hf _ _

theorem span_last {t t' : Token} (ht : s.last = some t) (ht' : s'.last = some t')
    (hf : L.Follows s s' (f (some (.between q t.stop))) (f' (some (.between q' t'.stop))) Q) :
    L.Follows s s' (spanFrom q >>= f) (spanFrom q' >>= f') Q := by
  obtain ⟨tokens, last, blocks⟩ := s
  obtain ⟨tokens', last', blocks'⟩ := s'
  subst ht ht'
  exact hf

end Spans

theorem separated {separator : Lexeme} (h : L.Tracks p R) (fuel : Nat) (hs : L.SameState s s') :
    L.Follows s s' (Grammar.separated separator p fuel) (Grammar.separated separator p fuel)
      (Forall₂ R) := by
  induction fuel generalizing s s' with
  | zero => exact .pure hs .nil
  | succ fuel ih =>
    refine (h s s' hs).bind ?_
    intro a a' r r' ha hr
    refine eat_if hr (fun r r' hr => ?_) fun r r' hr => .pure hr (.cons ha .nil)
    refine (ih hr).bind ?_
    intro as as' r r' has hr
    exact .pure hr (.cons ha has)

theorem listed {close : Lexeme} (h : L.Tracks p R) (fuel : Nat) (hs : L.SameState s s') :
    L.Follows s s' (Grammar.listed close p fuel) (Grammar.listed close p fuel) (Forall₂ R) := by
  induction fuel generalizing s s' with
  | zero => exact .pure hs .nil
  | succ fuel ih =>
    refine isNext_if hs (.pure hs .nil) ?_
    refine (h s s' hs).bind ?_
    intro a a' r r' ha hr
    refine eat_if hr (fun r r' hr => ?_) fun r r' hr => .pure hr (.cons ha .nil)
    refine (ih hr).bind ?_
    intro as as' r r' has hr
    exact .pure hr (.cons ha has)

end Follows

end Likeness
end RubySig.Grammar
