import RubySig.Proofs.Outline.Placed
import RubySig.Proofs.Tree.Yields

/-! Which tokens a parser passes, and that what it reads has its places from them. -/
namespace RubySig.Grammar

open Outline (Placed Lined)

variable {c : Context} {s s' : State} {w v : List Token} {α β : Type} {p : Parser α}
  {f : Unit → Parser β} {Q : β → State → Prop} {n fuel : Nat}

/-- From one state to another some tokens are passed, the last of which is the token read last. -/
structure Passed (w : List Token) (s s' : State) : Prop where
  tokens : s.tokens = w ++ s'.tokens
  last : s'.last = w.getLast?.or s.last

namespace Passed

theorem refl (s : State) : Passed [] s s := ⟨rfl, rfl⟩

theorem trans {s'' : State} (h : Passed w s s') (h' : Passed v s' s'') : Passed (w ++ v) s s'' where
  tokens := by rw [h.tokens, h'.tokens, List.append_assoc]
  last := by rw [h'.last, h.last, List.getLast?_append, Option.or_assoc]

theorem length (h : Passed w s s') : s.tokens.length = w.length + s'.tokens.length := by
  rw [h.tokens, List.length_append]

theorem length_one {t : Token} (h : Passed [t] s s') : s.tokens.length = 1 + s'.tokens.length :=
  h.length

theorem advance (k : Nat) (s : State) : Passed (s.tokens.take k) s
    { s with tokens := s.tokens.drop k, last := ((s.tokens.take k).getLast?).or s.last } :=
  ⟨(List.take_append_drop k s.tokens).symm, rfl⟩

end Passed

/-- A parser passes tokens and gives a result that has a property with them. -/
def Passes (c : Context) (s : State) (p : Parser α) (P : List Token → α → Prop) : Prop :=
  Yields c s p fun a s' => ∃ w, Passed w s s' ∧ P w a

/-- On at most `n` tokens a parser gives a result that has a property with the tokens it passes. -/
def Covers (c : Context) (n : Nat) (p : Parser α) (P : List Token → α → Prop) : Prop :=
  ∀ s, s.tokens.length ≤ n → Passes c s p P

/-- Behind tokens that are passed the same holds of fewer tokens. -/
theorem Covers.behind {P : List Token → α → Prop} (h : Covers c n p P) (hs : s.tokens.length ≤ n)
    (h' : Passed w s s') : Yields c s' p fun a s'' => ∃ v, Passed (w ++ v) s s'' ∧ P v a := by
  have := h'.length
  refine (h s' (by omega)).imp ?_
  rintro a s'' ⟨v, hv, ha⟩
  exact ⟨v, h'.trans hv, ha⟩

namespace Yields

/-- The range from where tokens start that were passed covers these tokens. -/
theorem span_cover {f : Option Span → Parser β} (h : Passed w s' s) (hw : w ≠ [])
    (k : Yields c s (f (Token.cover w)) Q) : Yields c s (spanFrom (place c s') >>= f) Q := by
  obtain ⟨tokens, last, blocks⟩ := s
  cases w with
  | nil => exact absurd rfl hw
  | cons t ts =>
    have hlast : last = some (ts.getLastD t) := by
      have := h.last
      rwa [List.getLast?_cons, ← List.getLastD_eq_getLast?] at this
    have hplace : place c s' = t.start := by simp [place, h.tokens]
    subst hlast
    rw [hplace]
    exact k

theorem advance_passed {k : Nat} (h : ∀ w s', Passed w s s' → Yields c s' (f ()) Q) :
    Yields c s (advance k >>= f) Q :=
  h _ _ (Passed.advance k s)

theorem advance_next {l : Lexeme} (hl : s.tokens.head?.map (·.lexeme) = some l)
    (h : ∀ t s', t.lexeme = l → Passed [t] s s' → Yields c s' (f ()) Q) :
    Yields c s (advance 1 >>= f) Q := by
  obtain ⟨tokens, last, blocks⟩ := s
  cases tokens with
  | nil => cases hl
  | cons t ts =>
    cases hl
    exact h t ⟨ts, some t, blocks⟩ rfl ⟨rfl, rfl⟩

/-- A token is read where it comes next, and nothing elsewhere. -/
theorem eat_passed {l : Lexeme} : Yields c s (Grammar.eat l) fun b s' =>
    (b = true ∧ ∃ t, t.lexeme = l ∧ Passed [t] s s') ∨ (b = false ∧ s' = s) := by
  change Yields c s (if (s.tokens.head?.map (·.lexeme) == some l) = true then _ else _) _
  refine Yields.ite ?_ ?_
  · intro hl
    refine advance_next (eq_of_beq hl) ?_
    intro t s' ht h
    exact .pure (.inl ⟨rfl, t, ht, h⟩)
  · intro _
    exact .pure (.inr ⟨rfl, rfl⟩)

theorem eat_any {l : Lexeme} {f : Bool → Parser β}
    (h : ∀ b w s', Passed w s s' → Yields c s' (f b) Q) : Yields c s (Grammar.eat l >>= f) Q := by
  refine eat_passed.bind ?_
  rintro b s' (⟨-, t, -, hpassed⟩ | ⟨-, rfl⟩)
  · exact h b [t] s' hpassed
  · exact h b [] s' (.refl s')

theorem eat_next {l : Lexeme} {p q : Parser β}
    (hp : ∀ t s', t.lexeme = l → Passed [t] s s' → Yields c s' p Q) (hq : Yields c s q Q) :
    Yields c s (Grammar.eat l >>= fun b => if b = true then p else q) Q := by
  refine eat_passed.bind ?_
  rintro b s' (⟨rfl, t, ht, h⟩ | ⟨rfl, rfl⟩)
  · exact hp t s' ht h
  · exact hq

theorem expect_next {l : Lexeme} {what : Missing}
    (h : ∀ t s', t.lexeme = l → Passed [t] s s' → Yields c s' (f ()) Q) :
    Yields c s (expect l what >>= f) Q := by
  have hexpect : Yields c s (expect l what) fun _ s' => ∃ t, t.lexeme = l ∧ Passed [t] s s' := by
    unfold expect
    refine eat_passed.bind ?_
    rintro b s' (⟨rfl, hread⟩ | ⟨rfl, rfl⟩)
    · exact .pure hread
    · exact failMissing
  refine hexpect.bind ?_
  rintro _ s' ⟨t, ht, hpassed⟩
  exact h t s' ht hpassed

end Yields

section Lists

variable {g : α → Outline}

/-- Items with a separator between them take tokens one behind the other. -/
theorem separated_covers {separator : Lexeme} (h : Covers c n p fun w a => Placed w (g a))
    (hne : ∀ w a, Placed w (g a) → w ≠ []) (fuel : Nat) (hs : s.tokens.length ≤ n) :
    Passes c s (separated separator p fuel) fun w as =>
      Lined w (as.map g) ∧ (0 < fuel → as ≠ [] ∧ w ≠ []) := by
  induction fuel generalizing s with
  | zero =>
    unfold separated
    exact .pure ⟨[], .refl s, .nil, by simp⟩
  | succ fuel ih =>
    unfold separated
    refine (h s hs).bind ?_
    rintro a s₁ ⟨w₁, h₁, ha⟩
    have hw₁ : w₁ ≠ [] := hne w₁ a ha
    refine Yields.eat_next ?_ ?_
    · intro t s₂ _ h₂
      have := h₁.length
      have := h₂.length
      refine (ih (s := s₂) (by omega)).bind ?_
      rintro as s₃ ⟨w₃, h₃, has, -⟩
      refine .pure ⟨_, (h₁.trans h₂).trans h₃, ?_, fun _ => ⟨by simp, by simp⟩⟩
      rw [List.append_assoc]
      exact .cons List.infix_rfl ha (has.mono (List.suffix_append [t] w₃).isInfix)
    · refine .pure ⟨w₁, h₁, ?_, fun _ => ⟨by simp, hw₁⟩⟩
      exact .cons (b := []) (by simp) ha .nil

theorem listed_covers {close : Lexeme} (h : Covers c n p fun w a => Placed w (g a)) (fuel : Nat)
    (hs : s.tokens.length ≤ n) :
    Passes c s (listed close p fuel) fun w as => Lined w (as.map g) := by
  induction fuel generalizing s with
  | zero =>
    unfold listed
    exact .pure ⟨[], .refl s, .nil⟩
  | succ fuel ih =>
    unfold listed
    refine .isNext_if (fun _ => .pure ⟨[], .refl s, .nil⟩) ?_
    refine (h s hs).bind ?_
    rintro a s₁ ⟨w₁, h₁, ha⟩
    refine Yields.eat_next ?_ ?_
    · intro t s₂ _ h₂
      have := h₁.length
      have := h₂.length
      refine (ih (s := s₂) (by omega)).bind ?_
      rintro as s₃ ⟨w₃, h₃, has⟩
      refine .pure ⟨_, (h₁.trans h₂).trans h₃, ?_⟩
      rw [List.append_assoc]
      exact .cons List.infix_rfl ha (has.mono (List.suffix_append [t] w₃).isInfix)
    · exact .pure ⟨w₁, h₁, .cons (b := []) (by simp) ha .nil⟩

end Lists

end RubySig.Grammar
