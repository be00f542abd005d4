import RubySig.Proofs.Format.Piece

/-!
Pieces whose neighbours fit are read as their words, however their gaps come out.
-/
namespace RubySig.Format

open Lexer (Chunk isSpace Legible Splits)
open Piece (firm Joins)

theorem bears_of_isSpace {b : Char} (h : isSpace b = true) (l : Lexeme) : l.bears b = true := by
  cases l with
  | symbol s =>
    simp only [isSpace, Bool.or_eq_true, beq_iff_eq] at h
    rcases h with ((((rfl | rfl) | rfl) | rfl) | rfl) | rfl <;> rfl
  | _ => rfl

theorem isSpace_newline (n : Nat) : ∀ c ∈ '\n' :: List.replicate n ' ', isSpace c = true := by
  intro c hc
  rcases List.mem_cons.mp hc with rfl | hc
  · rfl
  · rw [List.eq_of_mem_replicate hc]; rfl

theorem Gap.Admits.isSpace {g : Gap} {s rest : List Char} (h : g.Admits s rest) :
    ∀ c ∈ s, isSpace c = true := by
  have blank : ∀ c ∈ [' '], Lexer.isSpace c = true := by simp [Lexer.isSpace]
  cases g with
  | blank => rcases h with rfl | ⟨rfl, -⟩ <;> simp [Lexer.isSpace]
  | space =>
    rcases h with rfl | ⟨rfl, -⟩ | ⟨n, rfl⟩
    · exact blank
    · simp
    · exact isSpace_newline n
  | soft =>
    rcases h with rfl | ⟨n, rfl⟩
    · simp
    · exact isSpace_newline n
  | line =>
    obtain ⟨n, rfl⟩ := h
    exact isSpace_newline n

/-- A gap that comes out empty is a soft one, unless the line ends there. -/
theorem Gap.Admits.nil {g : Gap} {rest : List Char} (h : g.Admits [] rest) :
    g = .soft ∨ rest.head? = some '\n' := by
  cases g with
  | blank => rcases h with h | ⟨-, h⟩; exact absurd h (by simp); exact .inr h
  | space =>
    rcases h with h | ⟨-, h⟩ | ⟨n, h⟩
    · exact absurd h (by simp)
    · exact .inr h
    · exact absurd h (by simp)
  | soft => exact .inl rfl
  | line => obtain ⟨n, h⟩ := h; exact absurd h (by simp)

/-- The token that chunks start with, if no white space stands in front of it. -/
def firstToken : List Chunk → Option Lexeme
  | .token l _ :: _ => some l
  | .white [] :: cs => firstToken cs
  | _ => none

theorem Spelled.head?_ne_newline {l : Lexeme} {w rest : List Char} (h : Spelled l w) :
    (w ++ rest).head? ≠ some '\n' := by
  obtain ⟨c, cs, rfl, hc⟩ := h.head
  rintro ⟨⟩
  exact absurd hc (by decide)

/-- A token that chunks start with is the first firm piece. -/
theorem Realizes.firstToken {ps : List Piece} {cs : List Chunk} (h : Realizes ps cs)
    (hp : ∀ p ∈ ps, p.Sound) {l : Lexeme} (hl : firstToken cs = some l) :
    (Chunk.textOf cs).head? ≠ some '\n' ∧ ∃ w, (firm ps).head? = some (.word l w) := by
  induction h with
  | nil => cases hl
  | @word k w ps cs _ ih =>
    cases hl
    exact ⟨(hp _ (List.mem_cons_self ..)).head?_ne_newline, w, rfl⟩
  | @gap g s ps cs hg _ ih =>
    cases s with
    | cons c s => cases hl
    | nil =>
      obtain ⟨hn, hw⟩ := ih (fun p hm => hp p (List.mem_cons_of_mem _ hm)) hl
      rcases hg.nil with rfl | h
      · exact ⟨hn, hw⟩
      · exact absurd h hn
  | remark => cases hl

/-- What follows a word fits it. -/
theorem Realizes.follows {ps : List Piece} {cs : List Chunk} (h : Realizes ps cs)
    (hp : ∀ p ∈ ps, p.Sound) {l : Lexeme} {w : List Char}
    (hj : ∀ q ∈ (firm ps).head?, Joins (.word l w) q) :
    ∀ c ∈ (Chunk.textOf cs).head?, isSpace c = true ∨ l.accepts c = true := by
  induction h with
  | nil => simp
  | @word k v ps cs _ ih =>
    obtain ⟨d, ds, hv, -⟩ := (show Spelled k v from hp _ (List.mem_cons_self ..)).head
    have hd := (hj (.word k v) rfl).1
    subst hv
    rintro c ⟨⟩
    exact .inr (hd d rfl)
  | @gap g s ps cs hg _ ih =>
    cases s with
    | cons d s =>
      rintro c ⟨⟩
      exact .inl (hg.isSpace d (List.mem_cons_self ..))
    | nil =>
      rcases hg.nil with rfl | h
      · exact ih (fun p hm => hp p (List.mem_cons_of_mem _ hm)) hj
      · intro c hc
        obtain rfl : '\n' = c := Option.some.inj (h.symm.trans hc)
        exact .inl rfl
  | remark => exact (hj _ rfl).elim

/-- Sound pieces that fit their neighbours come out as legible chunks. -/
theorem Realizes.legible {ps : List Piece} {cs : List Chunk} (h : Realizes ps cs)
    (hp : ∀ p ∈ ps, p.Sound) (hj : (firm ps).IsChain Joins) (before : Option Char)
    (hb : ∀ l, Format.firstToken cs = some l → ∀ b ∈ before, l.bears b = true) :
    Legible before cs := by
  induction h generalizing before with
  | nil => trivial
  | @word l w ps cs h ih =>
    have hps : ∀ p ∈ ps, p.Sound := fun p hm => hp p (List.mem_cons_of_mem _ hm)
    have hw : Spelled l w := hp _ (List.mem_cons_self ..)
    rw [Piece.firm_word, List.isChain_cons] at hj
    refine ⟨hw.splits before _ (hb l rfl) (h.follows hps hj.1), ih hps hj.2 _ ?_⟩
    intro k hk b hlast
    obtain ⟨-, v, hv⟩ := h.firstToken hps hk
    obtain ⟨d, ds, rfl, -⟩ := hw.head
    refine (hj.1 _ hv).2 b ?_
    rwa [List.getLast?_eq_some_getLast (by simp)] at hlast ⊢
  | @gap g s ps cs hg h ih =>
    have hps : ∀ p ∈ ps, p.Sound := fun p hm => hp p (List.mem_cons_of_mem _ hm)
    have hjs : (firm ps).IsChain Joins := by
      cases g with
      | soft => exact hj
      | _ => exact (List.isChain_cons.mp hj).2
    refine ⟨hg.isSpace, ih hps hjs _ ?_⟩
    intro l hl b hlast
    cases s with
    | nil => exact hb l hl b hlast
    | cons c s =>
      rw [List.getLast?_eq_some_getLast (by simp)] at hlast
      obtain rfl := Option.some.inj hlast
      exact bears_of_isSpace (hg.isSpace _ (List.getLast_mem _)) l
  | @remark line n ps cs h ih =>
    have hps : ∀ p ∈ ps, p.Sound := fun p hm => hp p (List.mem_cons_of_mem _ hm)
    have hline : '\n' ∉ line := hp _ (List.mem_cons_self ..)
    refine ⟨?_, ?_, isSpace_newline n, ih hps (List.isChain_cons.mp hj).2 _ ?_⟩
    · intro hm
      obtain ⟨blanks, hl, -⟩ := trimEnd_append (' ' :: line)
      have : '\n' ∈ ' ' :: line := hl ▸ List.mem_append_left _ hm
      exact hline (by simpa using this)
    · rintro c ⟨⟩
      rfl
    · intro l _ b hlast
      rw [List.getLast?_eq_some_getLast (by simp)] at hlast
      obtain rfl := Option.some.inj hlast
      exact bears_of_isSpace (isSpace_newline n _ (List.getLast_mem _)) l

def wordsOf : List Piece → List (Lexeme × List Char)
  | [] => []
  | .word l w :: ps => (l, w) :: wordsOf ps
  | _ :: ps => wordsOf ps

end RubySig.Format
