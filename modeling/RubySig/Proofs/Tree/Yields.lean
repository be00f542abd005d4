import RubySig.Tree.Grammar

/-! What is known of a result of a parser, and of what is left behind it. -/
namespace RubySig.Grammar

variable {c : Context} {s : State} {α β : Type} {p : Parser α} {f : α → Parser β}
  {P : α → State → Prop} {Q : β → State → Prop}

/-- Whatever a parser reads, the result and the state behind it have the property `P`. -/
def Yields (c : Context) (s : State) (p : Parser α) (P : α → State → Prop) : Prop :=
  ∀ a s', p c s = .ok (a, s') → P a s'

/-- At least `k` tokens are gone, and no comment is. -/
structure Within (k : Nat) (s s' : State) : Prop where
  tokens : s'.tokens.length + k ≤ s.tokens.length
  suffix : s'.tokens <:+ s.tokens
  blocks : s'.blocks = s.blocks

theorem Within.refl (s : State) : Within 0 s s := ⟨Nat.le_refl _, List.suffix_rfl, rfl⟩

theorem Within.trans {k m : Nat} {s₁ s₂ : State} (h : Within k s s₁) (h' : Within m s₁ s₂) :
    Within (k + m) s s₂ := by
  have := h.tokens
  have := h'.tokens
  exact ⟨by omega, h'.suffix.trans h.suffix, h'.blocks.trans h.blocks⟩

theorem Within.le {k m : Nat} {s' : State} (h : Within k s s') (hm : m ≤ k) : Within m s s' := by
  have := h.tokens
  exact ⟨by omega, h.suffix, h.blocks⟩

theorem tokens_of_peek {l : Lexeme} (h : s.tokens.head?.map (·.lexeme) = some l) :
    0 < s.tokens.length := by
  cases hs : s.tokens with
  | nil =>
    rw [hs] at h
    cases h
  | cons t ts => exact Nat.succ_pos _

def place (c : Context) (s : State) : Position :=
  ((s.tokens.head?).map (·.start)).getD c.finish

namespace Yields

theorem imp {P' : α → State → Prop} (h : Yields c s p P) (hP : ∀ a s', P a s' → P' a s') :
    Yields c s p P' :=
  fun a s' ha => hP a s' (h a s' ha)

theorem pure {a : α} (h : P a s) : Yields c s (Pure.pure a) P := by
  intro b s' hb
  cases hb
  exact h

/-- What is read first is known by its own property. -/
theorem bind (h : Yields c s p P) (k : ∀ a s', P a s' → Yields c s' (f a) Q) :
    Yields c s (p >>= f) Q := by
  intro b s'' hb
  change (p c s >>= fun r => f r.1 c r.2) = _ at hb
  cases hp : p c s with
  | error e =>
    rw [hp] at hb
    cases hb
  | ok r =>
    rw [hp] at hb
    exact k r.1 r.2 (h r.1 r.2 hp) b s'' hb

/-- What is read first is known by the run itself. -/
theorem bind_run (k : ∀ a s', p c s = .ok (a, s') → Yields c s' (f a) Q) :
    Yields c s (p >>= f) Q := by
  have h : Yields c s p fun a s' => p c s = .ok (a, s') := fun _ _ ha => ha
  exact h.bind k

theorem failAt {q : Position} {cause : Cause} : Yields c s (Grammar.failAt q cause) P := by
  intro a s' h
  cases h

theorem failHere {cause : Cause} : Yields c s (Grammar.failHere cause) P := by
  intro a s' h
  cases h

theorem failMissing {what : Missing} : Yields c s (Grammar.failMissing what) P := by
  intro a s' h
  cases h

theorem ite {b : Prop} [Decidable b] {p q : Parser α} (hp : b → Yields c s p P)
    (hq : ¬b → Yields c s q P) : Yields c s (if b then p else q) P := by
  split
  case isTrue h => exact hp h
  case isFalse h => exact hq h

theorem get_bind {f : State → Parser β} (k : Yields c s (f s) Q) : Yields c s (get >>= f) Q := k

theorem read_bind {f : Context → Parser β} (k : Yields c s (f c) Q) : Yields c s (read >>= f) Q := k

theorem peek_bind {f : Option Lexeme → Parser β}
    (k : ∀ l, s.tokens.head?.map (·.lexeme) = l → Yields c s (f l) Q) : Yields c s (peek >>= f) Q :=
  k _ rfl

theorem peekAt_bind {n : Nat} {f : Option Lexeme → Parser β} (k : ∀ l, Yields c s (f l) Q) :
    Yields c s (peekAt n >>= f) Q :=
  k _

theorem here_bind {f : Position → Parser β} (k : ∀ q, Yields c s (f q) Q) :
    Yields c s (here >>= f) Q :=
  k _

theorem here_place {f : Position → Parser β} (k : Yields c s (f (place c s)) Q) :
    Yields c s (here >>= f) Q :=
  k

theorem span {q : Position} : Yields c s (spanFrom q) fun _ s' => s' = s := by
  intro l s' h
  obtain ⟨tokens, last, blocks⟩ := s
  cases last with
  | none =>
    cases h
    rfl
  | some t =>
    cases h
    rfl

theorem span_bind {q : Position} {f : Option Span → Parser β} (k : ∀ l, Yields c s (f l) Q) :
    Yields c s (spanFrom q >>= f) Q := by
  refine span.bind fun l s' h => ?_
  subst h
  exact k l

theorem lastPlace_bind {f : Position → Parser β} (k : ∀ q, Yields c s (f q) Q) :
    Yields c s (lastPlace >>= f) Q := by
  obtain ⟨tokens, last, blocks⟩ := s
  cases last with
  | none => exact k _
  | some t => exact k _

theorem isNext_bind {l : Lexeme} {f : Bool → Parser β} (k : ∀ b, Yields c s (f b) Q) :
    Yields c s (isNext l >>= f) Q :=
  k _

theorem isNext_if {l : Lexeme} {p q : Parser β} (hp : 0 < s.tokens.length → Yields c s p Q)
    (hq : Yields c s q Q) : Yields c s (isNext l >>= fun b => if b = true then p else q) Q := by
  change Yields c s (if (s.tokens.head?.map (·.lexeme) == some l) = true then p else q) Q
  exact .ite (fun h => hp (tokens_of_peek (eq_of_beq h))) fun _ => hq

theorem advance_bind {n : Nat} {f : Unit → Parser β} (hn : 0 < n) (hs : 0 < s.tokens.length)
    (k : ∀ s', Within 1 s s' → Yields c s' (f ()) Q) : Yields c s (advance n >>= f) Q := by
  refine k ⟨s.tokens.drop n, _, s.blocks⟩ ⟨?_, List.drop_suffix n s.tokens, rfl⟩
  rw [List.length_drop]
  omega

theorem advance_any {n : Nat} {f : Unit → Parser β}
    (k : ∀ s', Within 0 s s' → Yields c s' (f ()) Q) : Yields c s (advance n >>= f) Q := by
  refine k ⟨s.tokens.drop n, _, s.blocks⟩ ⟨?_, List.drop_suffix n s.tokens, rfl⟩
  rw [List.length_drop]
  omega

/-- What is read from one token has its place. -/
theorem advance_span {l : Lexeme} {f : Option Span → Parser β}
    (hl : s.tokens.head?.map (·.lexeme) = some l)
    (k : ∀ t s', t ∈ s.tokens → t.lexeme = l → Within 1 s s' → Yields c s' (f (some t.span)) Q) :
    Yields c s (advance 1 >>= fun _ => spanFrom (place c s) >>= f) Q := by
  obtain ⟨tokens, last, blocks⟩ := s
  cases tokens with
  | nil => cases hl
  | cons t ts =>
    cases hl
    exact k t ⟨ts, some t, blocks⟩ (List.mem_cons_self ..) rfl
      ⟨Nat.le_refl _, List.suffix_cons t ts, rfl⟩

theorem eat {l : Lexeme} :
    Yields c s (Grammar.eat l) fun b s' => Within (if b then 1 else 0) s s' := by
  unfold Grammar.eat
  refine isNext_if (fun hs => ?_) (.pure (.refl s))
  exact advance_bind (Nat.lt_succ_self 0) hs fun s' h => .pure h

theorem eat_if {l : Lexeme} {p q : Parser β} (hp : ∀ s', Within 1 s s' → Yields c s' p Q)
    (hq : ∀ s', Within 0 s s' → Yields c s' q Q) :
    Yields c s (Grammar.eat l >>= fun b => if b = true then p else q) Q := by
  refine eat.bind fun b s' h => ?_
  cases b with
  | true => exact hp s' h
  | false => exact hq s' h

theorem expect_bind {l : Lexeme} {what : Missing} {f : Unit → Parser β}
    (k : ∀ s', Within 1 s s' → Yields c s' (f ()) Q) : Yields c s (expect l what >>= f) Q := by
  have h : Yields c s (expect l what) fun _ s' => Within 1 s s' := by
    unfold expect
    refine eat.bind fun b s' hb => ?_
    cases b with
    | true => exact .pure hb
    | false => exact failMissing
  exact h.bind fun _ s' hs => k s' hs

end Yields

/-- The fuel of a file is enough for each of its tokens. -/
theorem fuel_suffices (n : Nat) : 4 * n + 5 ≤ fuelFor n := by
  unfold fuelFor
  omega

theorem file_gives {text : List Char} {scan : Lexer.Scan} {blocks left : List CommentBlock}
    {items : List Item} (h : file text scan blocks = .ok (items, left))
    {R : List Item → State → Prop}
    (hR : Yields ⟨text, scan.finish⟩ ⟨scan.tokens, none, blocks⟩
      (declarations (fuelFor scan.tokens.length) (fuelFor scan.tokens.length)) R) :
    ∃ rest, rest.blocks = left ∧ R items rest := by
  unfold file at h
  dsimp only at h
  split at h
  · cases h
  case _ items' rest hrun =>
    cases h
    exact ⟨rest, rfl, hR items rest hrun⟩

end RubySig.Grammar

namespace RubySig

/-- What a text that can be read is read from: its tokens, and the blocks of its comment lines. -/
theorem Root.read_ok {source : String} {root : Root} (h : (Root.read source).result = .ok root) :
    ∃ scan left, Lexer.scan source.toList = .ok scan ∧
      Grammar.file source.toList scan (CommentBlock.ofLines (scan.comments.filter (·.alone))) =
        .ok (root.declarations, left) ∧
      root.location = some (Root.wholeSpan source.toList scan) ∧
      (Root.read source).warnings =
        CommentBlock.trailing scan.comments ++ CommentBlock.detached left := by
  unfold Root.read at h ⊢
  dsimp only at h ⊢
  split at h
  · cases h
  · cases h
  case _ scan hscan =>
    split at h
    · cases h
    case _ items left hfile =>
      cases h
      exact ⟨scan, left, hscan, hfile, rfl, rfl⟩

end RubySig
