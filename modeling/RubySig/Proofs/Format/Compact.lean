import RubySig.Proofs.Format.Literals
import RubySig.Proofs.Format.Show

/-!
Pieces from a word to a word, which can stand behind openings and in front of closings: how types
and their parts are put together without two words running into each other.
-/
namespace RubySig

def Lexeme.isSymbol : Lexeme → Bool
  | .symbol _ => true
  | _ => false

theorem Lexeme.bears_of_not_symbol {l : Lexeme} (h : l.isSymbol = false) (b : Char) :
    l.bears b = true := by
  cases l with
  | symbol s => cases h
  | _ => rfl

namespace Format

open Piece (firm Joins mark keyword named)

/-- What the first word of some pieces may be: a symbol, a word with a star in front, or neither. -/
inductive Front where
  | plain | symbol | star
  deriving DecidableEq

/-- The front of pieces that start with a symbol if `lead`. -/
def Front.of (lead : Bool) : Front := if lead then .symbol else .plain

/-- The characters that close or follow a type without a blank. -/
def closers : List Char := [',', ')', ']', '[']

def Begins (front : Front) (l : Lexeme) (w : List Char) : Prop :=
  (w.head? = some '*' → front = .star) ∧ (l.isSymbol = true → front = .symbol)

/-- A word that can stand in front of a closing; `tail` allows one that takes in a question mark. -/
def Finishes (tail : Bool) (l : Lexeme) : Prop :=
  (∀ c ∈ closers, l.accepts c = true) ∧ (tail = false → l.accepts '?' = true)

/-- Neat pieces from a word to a word. -/
structure Compact (front : Front) (tail : Bool) (ps : List Piece) : Prop where
  neat : Neat ps
  first : ∃ l w, (firm ps).head? = some (.word l w) ∧ Begins front l w
  last : ∃ l w, (firm ps).getLast? = some (.word l w) ∧ Finishes tail l

/-- Neat pieces, if any, that a word with the front `inner` may follow. -/
structure Opening (front inner : Front) (ps : List Piece) : Prop where
  neat : Neat ps
  first : ps = [] ∨ ∃ l w, (firm ps).head? = some (.word l w) ∧ Begins front l w
  fits : ∀ p ∈ (firm ps).getLast?, ∀ l w, Begins inner l w → Joins p (.word l w)

/-- Neat pieces, if any, that may follow a word. -/
structure Closing (ps : List Piece) : Prop where
  neat : Neat ps
  last : ps = [] ∨ ∃ l w, (firm ps).getLast? = some (.word l w) ∧ Finishes false l
  fits : ∀ q ∈ (firm ps).head?, ∀ l w, Finishes true l → Joins (.word l w) q

theorem Begins.mono {front : Front} {l : Lexeme} {w : List Char} (h : Begins .plain l w) :
    Begins front l w :=
  ⟨fun hs => absurd (h.1 hs) (by decide), fun hs => absurd (h.2 hs) (by decide)⟩

theorem Finishes.mono {tail : Bool} {l : Lexeme} (h : Finishes tail l) : Finishes true l :=
  ⟨h.1, fun ht => absurd ht (by decide)⟩

theorem head?_firm_append {ps qs : List Piece} {p : Piece} (h : (firm ps).head? = some p) :
    (firm (ps ++ qs)).head? = some p := by
  rw [Piece.firm_append, List.head?_append, h]
  rfl

theorem getLast?_firm_append {ps qs : List Piece} {p : Piece} (h : (firm qs).getLast? = some p) :
    (firm (ps ++ qs)).getLast? = some p := by
  rw [Piece.firm_append, List.getLast?_append, h]
  rfl

namespace Compact

variable {front : Front} {tail : Bool} {ps qs : List Piece}

theorem mono (h : Compact .plain false ps) : Compact front tail ps := by
  obtain ⟨l, w, hf, hb⟩ := h.first
  obtain ⟨l', w', hl, he⟩ := h.last
  exact ⟨h.neat, ⟨l, w, hf, hb.mono⟩, ⟨l', w', hl, he.1, fun _ => he.2 rfl⟩⟩

theorem free (h : Compact front tail ps) : Compact front true ps := by
  obtain ⟨l, w, hf, hb⟩ := h.last
  exact ⟨h.neat, h.first, ⟨l, w, hf, hb.mono⟩⟩

theorem anyTail (h : Compact front false ps) : Compact front tail ps := by
  obtain ⟨l, w, hf, hb⟩ := h.last
  exact ⟨h.neat, h.first, ⟨l, w, hf, hb.1, fun _ => hb.2 rfl⟩⟩

theorem word {l : Lexeme} {w : List Char} (hs : Spelled l w) (hb : Begins front l w)
    (hf : Finishes tail l) : Compact front tail [.word l w] :=
  ⟨.word hs, ⟨l, w, rfl, hb⟩, ⟨l, w, rfl, hf⟩⟩

theorem append {inner : Front} {other : Bool} (h : Compact front other ps)
    (k : Compact inner tail qs) (hm : Meets ps qs) : Compact front tail (ps ++ qs) := by
  obtain ⟨l, w, hf, hb⟩ := h.first
  obtain ⟨l', w', hl, he⟩ := k.last
  exact ⟨h.neat.append k.neat hm, ⟨l, w, head?_firm_append hf, hb⟩,
    ⟨l', w', getLast?_firm_append hl, he⟩⟩

theorem close (h : Compact front tail ps) (k : Closing qs) :
    Compact front (qs.isEmpty && tail) (ps ++ qs) := by
  obtain ⟨l, w, hf, hb⟩ := h.first
  obtain ⟨l', w', hl, he⟩ := h.last
  have hm : Meets ps qs := by
    intro p hp q hq
    obtain rfl : Piece.word l' w' = p := Option.some.inj (hl.symm.trans hp)
    exact k.fits q hq l' w' he.mono
  rcases k.last with rfl | ⟨m, v, hv, hfin⟩
  · rw [List.append_nil]
    exact h
  · exact ⟨h.neat.append k.neat hm, ⟨l, w, head?_firm_append hf, hb⟩,
      ⟨m, v, getLast?_firm_append hv, hfin.1, fun _ => hfin.2 rfl⟩⟩

end Compact

theorem Opening.compact {front inner : Front} {tail : Bool} {ps qs : List Piece}
    (h : Opening front inner ps) (k : Compact inner tail qs) :
    Compact (if ps.isEmpty then inner else front) tail (ps ++ qs) := by
  obtain ⟨l, w, hf, hb⟩ := k.first
  obtain ⟨l', w', hl, he⟩ := k.last
  have hm : Meets ps qs := by
    intro p hp q hq
    obtain rfl : Piece.word l w = q := Option.some.inj (hf.symm.trans hq)
    exact h.fits p hp l w hb
  rcases h.first with rfl | ⟨m, v, hv, hbeg⟩
  · exact k
  · have hne : ps.isEmpty = false := by
      cases ps with
      | nil => cases hv
      | cons p ps => rfl
    rw [hne]
    exact ⟨h.neat.append k.neat hm, ⟨m, v, head?_firm_append hv, hbeg⟩,
      ⟨l', w', getLast?_firm_append hl, he⟩⟩

/-- Openings one behind the other, the second not empty. -/
theorem Opening.append {front middle inner : Front} {ps qs : List Piece}
    (h : Opening front middle ps) (k : Opening middle inner qs) (hne : qs ≠ []) :
    Opening (if ps.isEmpty then middle else front) inner (ps ++ qs) := by
  obtain ⟨l, w, hf, hb⟩ := k.first.resolve_left hne
  have hm : Meets ps qs := by
    intro p hp q hq
    obtain rfl : Piece.word l w = q := Option.some.inj (hf.symm.trans hq)
    exact h.fits p hp l w hb
  refine ⟨h.neat.append k.neat hm, ?_, ?_⟩
  · rcases h.first with rfl | ⟨m, v, hv, hbeg⟩
    · exact .inr ⟨l, w, hf, hb⟩
    · have hps : ps.isEmpty = false := by
        cases ps with
        | nil => cases hv
        | cons p ps => rfl
      rw [hps]
      exact .inr ⟨m, v, head?_firm_append hv, hbeg⟩
  · intro p hp
    refine k.fits p ?_
    cases hq : (firm qs).getLast? with
    | none =>
      rw [List.getLast?_eq_none_iff] at hq
      rw [hq] at hf
      cases hf
    | some q =>
      rw [getLast?_firm_append hq] at hp
      exact hp

theorem Opening.nil (front inner : Front) : Opening front inner [] :=
  ⟨.nil, .inl rfl, by simp⟩

theorem begins_mark {m : Mark} (h : m ≠ .star ∧ m ≠ .doubleStar) :
    Begins .plain (.mark m) m.text.toList := by
  refine ⟨?_, fun hs => by cases hs⟩
  cases m <;> simp [Mark.text] at h ⊢

/-- The marks that words can follow without a blank. -/
def openers : List Mark := [.lparen, .lbracket, .caret, .doubleColon]

theorem joins_mark {m : Mark} {l : Lexeme} {w : List Char} {inner : Front}
    (hm : m ∈ openers ∨ m = .question ∧ inner ≠ .symbol ∨
      (m = .star ∨ m = .doubleStar) ∧ inner ≠ .star) (h : Begins inner l w) :
    Joins (mark m) (.word l w) := by
  simp only [openers, List.mem_cons, List.not_mem_nil, or_false] at hm
  refine ⟨fun c hc => ?_, fun b hb => ?_⟩
  · rcases hm with hm | ⟨rfl, -⟩ | ⟨hm, hs⟩
    · rcases hm with rfl | rfl | rfl | rfl <;> rfl
    · rfl
    · have hstar : c ≠ '*' := by
        rintro rfl
        exact hs (h.1 hc)
      rcases hm with rfl | rfl <;> simp [Lexeme.accepts, hstar]
  · cases hl : l.isSymbol with
    | false => exact Lexeme.bears_of_not_symbol hl b
    | true =>
      cases l with
      | symbol s =>
        rcases hm with hm | ⟨rfl, hs⟩ | ⟨hm, -⟩
        · rcases hm with rfl | rfl | rfl | rfl <;> simp [Mark.text] at hb <;> subst hb <;> rfl
        · exact absurd (h.2 rfl) hs
        · rcases hm with rfl | rfl <;> simp [Mark.text] at hb <;> subst hb <;> rfl
      | _ => cases hl

theorem Opening.mark {m : Mark} {inner : Front} (h : m ∈ openers) :
    Opening .plain inner [Piece.mark m] := by
  refine ⟨.word (spelled_mark m), .inr ⟨_, _, rfl, begins_mark ⟨?_, ?_⟩⟩, ?_⟩
  · rintro rfl
    exact absurd h (by decide)
  · rintro rfl
    exact absurd h (by decide)
  · rintro p ⟨⟩ l w hb
    exact joins_mark (.inl h) hb

theorem Opening.question {inner : Front} (h : inner ≠ .symbol) :
    Opening .plain inner [Piece.mark .question] := by
  refine ⟨.word (spelled_mark _), .inr ⟨_, _, rfl, begins_mark (by decide)⟩, ?_⟩
  rintro p ⟨⟩ l w hb
  exact joins_mark (.inr (.inl ⟨rfl, h⟩)) hb

theorem Opening.star {m : Mark} {inner : Front} (h : m = .star ∨ m = .doubleStar)
    (hi : inner ≠ .star) : Opening .star inner [Piece.mark m] := by
  refine ⟨.word (spelled_mark m), .inr ⟨_, _, rfl, fun _ => rfl, fun hs => by cases hs⟩, ?_⟩
  rintro p ⟨⟩ l w hb
  exact joins_mark (.inr (.inr ⟨h, hi⟩)) hb

theorem Closing.mark {m : Mark} (h : m ∈ [.rparen, .rbracket]) : Closing [Piece.mark m] := by
  simp only [List.mem_cons, List.not_mem_nil, or_false] at h
  refine ⟨.word (spelled_mark m), .inr ⟨_, _, rfl, ?_⟩, ?_⟩
  · rcases h with rfl | rfl <;> exact ⟨by decide, by decide⟩
  · rintro q ⟨⟩ l w hf
    refine ⟨fun c hc => hf.1 c ?_, fun _ _ => rfl⟩
    rcases h with rfl | rfl <;> simp [Mark.text] at hc <;> subst hc <;> decide

theorem joins_gap (g : Gap) (l : Lexeme) (w : List Char) : Joins (.gap g) (.word l w) := by
  cases g <;> trivial

/-- Pieces with a gap in front of them can follow any word. -/
theorem Closing.gap {ps : List Piece} {g : Gap} (h : Neat ps) (hg : g ≠ .soft)
    (hf : ∀ p ∈ (firm ps).head?, ∃ l w, p = .word l w)
    (hl : ∃ l w, (firm ps).getLast? = some (.word l w) ∧ Finishes false l) :
    Closing (.gap g :: ps) := by
  have hfirm : firm [.gap g] = [.gap g] := by cases g <;> first | rfl | exact absurd rfl hg
  have hcons : firm (.gap g :: ps) = .gap g :: firm ps := by
    rw [← List.singleton_append, Piece.firm_append, hfirm, List.singleton_append]
  refine ⟨(Neat.gap g).append h ?_, .inr ?_, ?_⟩
  · intro p hp q hq
    rw [hfirm] at hp
    obtain rfl : Piece.gap g = p := Option.some.inj hp
    obtain ⟨l, w, rfl⟩ := hf q hq
    exact joins_gap g l w
  · obtain ⟨l, w, hl, hfin⟩ := hl
    exact ⟨l, w, by rw [← List.singleton_append]; exact getLast?_firm_append hl, hfin⟩
  · intro q hq
    rw [hcons] at hq
    obtain rfl : Piece.gap g = q := Option.some.inj hq
    intro l w _
    cases g <;> trivial

theorem joins_word_gap (l : Lexeme) (w : List Char) (g : Gap) : Joins (.word l w) (.gap g) := by
  cases g <;> trivial

theorem joins_word_mark {l : Lexeme} {w : List Char} {m : Mark}
    (h : ∀ c ∈ m.text.toList.head?, l.accepts c = true) : Joins (.word l w) (mark m) :=
  ⟨h, fun _ _ => rfl⟩

theorem Compact.opening {front other inner : Front} {tail : Bool} {ps qs : List Piece}
    (h : Compact front tail ps) (k : Opening other inner qs) (hne : qs ≠ []) (hm : Meets ps qs) :
    Opening front inner (ps ++ qs) := by
  obtain ⟨l, w, hf, hb⟩ := h.first
  refine ⟨h.neat.append k.neat hm, .inr ⟨l, w, head?_firm_append hf, hb⟩, ?_⟩
  intro p hp
  refine k.fits p ?_
  obtain ⟨l, w, hf, -⟩ := k.first.resolve_left hne
  cases hq : (firm qs).getLast? with
  | none =>
    rw [List.getLast?_eq_none_iff] at hq
    rw [hq] at hf
    cases hf
  | some q =>
    rw [getLast?_firm_append hq] at hp
    exact hp

theorem Compact.opening_blank {front inner : Front} {tail : Bool} {ps : List Piece}
    (h : Compact front tail ps) : Opening front inner (ps ++ [.gap .blank]) := by
  obtain ⟨l, w, hf, hb⟩ := h.first
  obtain ⟨l', w', hl, -⟩ := h.last
  refine ⟨h.neat.append (.gap .blank) ?_, .inr ⟨l, w, head?_firm_append hf, hb⟩, ?_⟩
  · rintro p hp q ⟨⟩
    obtain rfl : Piece.word l' w' = p := Option.some.inj (hl.symm.trans hp)
    trivial
  · intro p hp
    have hlast : (firm [Piece.gap .blank]).getLast? = some (.gap .blank) := rfl
    rw [getLast?_firm_append hlast] at hp
    obtain rfl : Piece.gap .blank = p := Option.some.inj hp
    exact fun l w _ => joins_gap .blank l w

/-- What may stand between compact pieces. -/
structure Separates (sep : List Piece) : Prop where
  neat : Neat sep
  opens : ∀ q ∈ (firm sep).head?, ∀ l w, Finishes true l → Joins (.word l w) q
  closes : ∃ g, (firm sep).getLast? = some (.gap g)

theorem Separates.compact {sep ps qs : List Piece} {front inner : Front} {other tail : Bool}
    (hs : Separates sep) (h : Compact front other ps) (k : Compact inner tail qs) :
    Compact front tail (ps ++ sep ++ qs) := by
  obtain ⟨g, hg⟩ := hs.closes
  obtain ⟨l, w, hf, hb⟩ := h.first
  obtain ⟨l', w', hl, he⟩ := h.last
  obtain ⟨m, v, hk, -⟩ := k.first
  obtain ⟨m', v', hk', hfin⟩ := k.last
  have h₁ : Meets ps sep := by
    intro p hp q hq
    obtain rfl : Piece.word l' w' = p := Option.some.inj (hl.symm.trans hp)
    exact hs.opens q hq l' w' he.mono
  have h₂ : Meets (ps ++ sep) qs := by
    intro p hp q hq
    rw [getLast?_firm_append hg] at hp
    obtain rfl : Piece.gap g = p := Option.some.inj hp
    obtain rfl : Piece.word m v = q := Option.some.inj (hk.symm.trans hq)
    exact joins_gap g m v
  exact ⟨(h.neat.append hs.neat h₁).append k.neat h₂,
    ⟨l, w, head?_firm_append (head?_firm_append hf), hb⟩,
    ⟨m', v', getLast?_firm_append hk', hfin⟩⟩

theorem Separates.intercalate {sep : List Piece} (hs : Separates sep) {front : Front}
    {ps : List Piece} {pss : List (List Piece)} (h : Compact front true ps)
    (hp : ∀ qs ∈ pss, ∃ f, Compact f true qs) :
    Compact front true (sep.intercalate (ps :: pss)) := by
  induction pss generalizing front ps with
  | nil => simpa using h
  | cons qs pss ih =>
    obtain ⟨f, hq⟩ := hp qs (List.mem_cons_self ..)
    rw [List.intercalate_cons_cons]
    exact hs.compact h (ih hq fun rs hr => hp rs (List.mem_cons_of_mem _ hr))

theorem separates_comma {g : Gap} (hg : g ≠ .soft) : Separates [mark .comma, .gap g] := by
  have hfirm : firm [mark .comma, .gap g] = [mark .comma, .gap g] := by
    cases g <;> first | rfl | exact absurd rfl hg
  refine ⟨(Neat.word (spelled_mark .comma)).append (.gap g) ?_, ?_, ⟨g, by rw [hfirm]; rfl⟩⟩
  · rintro p ⟨⟩ q hq
    cases g with
    | soft => exact absurd rfl hg
    | _ => cases hq; trivial
  · rw [hfirm]
    rintro q ⟨⟩ l w hf
    refine joins_word_mark ?_
    rintro c ⟨⟩
    exact hf.1 _ (by decide)

theorem separates_mark {g : Gap} (hg : g ≠ .soft) (m : Mark) :
    Separates [.gap g, mark m, .gap .blank] := by
  have hfirm : firm [.gap g, mark m, .gap .blank] = [.gap g, mark m, .gap .blank] := by
    cases g <;> first | rfl | exact absurd rfl hg
  refine ⟨⟨?_, ?_⟩, ?_, ⟨.blank, by rw [hfirm]; rfl⟩⟩
  · intro p hp
    simp only [List.mem_cons, List.not_mem_nil, or_false] at hp
    rcases hp with rfl | rfl | rfl
    · trivial
    · exact spelled_mark m
    · trivial
  · rw [hfirm]
    simp only [List.isChain_cons, List.head?_cons, Option.mem_def, Option.some.injEq,
      forall_eq', List.head?_nil]
    exact ⟨joins_gap g _ _, trivial, by simp⟩
  · rw [hfirm]
    rintro q ⟨⟩ l w -
    exact joins_word_gap l w g

theorem Opening.compact_plain {tail : Bool} {ps qs : List Piece} (h : Opening .plain .plain ps)
    (k : Compact .plain tail qs) : Compact .plain tail (ps ++ qs) := by
  have := h.compact k
  rwa [ite_self] at this

theorem Opening.markGap {m : Mark} {inner : Front} (g : Gap) (hg : g ≠ .soft)
    (hm : m ≠ .star ∧ m ≠ .doubleStar) : Opening .plain inner [Piece.mark m, .gap g] := by
  have hfirm : firm [Piece.mark m, .gap g] = [Piece.mark m, .gap g] := by
    cases g <;> first | rfl | exact absurd rfl hg
  refine ⟨(Neat.word (spelled_mark m)).append (.gap g) ?_, .inr ⟨_, _, ?_, begins_mark hm⟩, ?_⟩
  · rintro p ⟨⟩ q hq
    cases g with
    | soft => exact absurd rfl hg
    | _ => cases hq; trivial
  · rw [hfirm]
    rfl
  · rw [hfirm]
    rintro p ⟨⟩ l w -
    exact joins_gap g l w

theorem Closing.gapMark {m : Mark} (g : Gap) (hg : g ≠ .soft) (hm : Finishes false (.mark m)) :
    Closing [.gap g, Piece.mark m] :=
  .gap (.word (spelled_mark m)) hg (by rintro p ⟨⟩; exact ⟨_, _, rfl⟩) ⟨_, _, rfl, hm⟩

theorem Compact.parens {front : Front} {tail : Bool} {ps : List Piece} (h : Compact front tail ps) :
    Compact .plain false (Piece.mark .lparen :: ps ++ [Piece.mark .rparen]) :=
  (Opening.mark (by decide)).compact (h.close (.mark (by decide)))

theorem Compact.brackets {front : Front} {tail : Bool} {ps : List Piece}
    (h : Compact front tail ps) :
    Compact .plain false (Piece.mark .lbracket :: ps ++ [Piece.mark .rbracket]) :=
  (Opening.mark (by decide)).compact (h.close (.mark (by decide)))

theorem Compact.braces {front : Front} {tail : Bool} {ps : List Piece} (h : Compact front tail ps) :
    Compact .plain false
      (Piece.mark .lbrace :: .gap .space :: ps ++ [.gap .space, Piece.mark .rbrace]) :=
  (Opening.markGap .space (by decide) (by decide)).compact
    (h.close (.gapMark .space (by decide) ⟨by decide, by decide⟩))

/-- Soft gaps change nothing. -/
theorem Compact.of_firm {front : Front} {tail : Bool} {ps qs : List Piece}
    (h : Compact front tail ps) (hf : firm qs = firm ps) (hm : ∀ q ∈ qs, q ∈ ps ∨ q = .gap .soft) :
    Compact front tail qs where
  neat := by
    refine ⟨fun q hq => ?_, hf ▸ h.neat.chain⟩
    rcases hm q hq with hq | rfl
    · exact h.neat.sound q hq
    · trivial
  first := hf ▸ h.first
  last := hf ▸ h.last

end Format
end RubySig
