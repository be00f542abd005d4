import Mathlib.Data.List.Chain
import Mathlib.Data.List.TakeWhile
import RubySig.Proofs.Layout.Stroke
import RubySig.Proofs.Token.Chunk
import RubySig.Spell.Literal

/-!
Printed text as pieces: words, the gaps between them and comment lines. A piece list leaves open
where the lines end; the words and the order of the pieces are the same for every width.
-/
namespace RubySig

/-- Whether a token may stand right behind a character. -/
def Lexeme.bears (b : Char) : Lexeme → Bool
  | .symbol _ => !(Lexer.isNamePart b || [')', ']', '?', '!', '=', '`'].contains b)
  | _ => true

/-- Whether a token stays the same when a character follows it without white space. -/
def Lexeme.accepts (c : Char) : Lexeme → Bool
  | .integer _ => !(Text.isDigit c || c == '_')
  | .identifier _ | .constant _ | .interfaceName _ | .keyword _ => !Lexer.isNamePart c
  | .instanceVariable _ | .classVariable _ | .globalVariable _ => !Lexer.isNamePart c
  | .string _ | .quotedIdentifier _ | .note _ => true
  | .symbol s => !Spell.isPlainSymbol s.toList || !Lexer.isNamePart c &&
      !(['=', '>', '~', '<', '@', '*', '!'].contains c) &&
      (c != '?' || !MethodName.isIdentifier s.toList)
  | .mark .dot => c != '.'
  | .mark .star => c != '*'
  | .mark .eq => c != '>'
  | .mark .colon => false
  | .mark _ => true
  | .operator o => if o == '!' || o == '~' || o == '>' || o == '/' then true else
      c == ':' || c == '@' && (o == '+' || o == '-')

namespace Format

open Doc (Stroke plain endsLine settle isTrailing Lays)
open Lexer (Chunk isSpace Legible Splits)

/-- White space in printed text. -/
inductive Gap where
  /-- One blank. -/
  | blank
  /-- A blank or a line end. -/
  | space
  /-- Nothing or a line end. -/
  | soft
  /-- A line end. -/
  | line
  deriving DecidableEq

/-- A word with what it says, a gap, or a comment line with the line end behind it. -/
inductive Piece where
  | word (lexeme : Lexeme) (text : List Char)
  | gap (gap : Gap)
  | remark (line : List Char)
  deriving DecidableEq

/-- A token is read from its spelling wherever its neighbours let it stand. -/
structure Spelled (l : Lexeme) (w : List Char) : Prop where
  solid : ∀ c ∈ w.getLast?, isTrailing c = false
  splits : ∀ (before : Option Char) (rest : List Char), (∀ b ∈ before, l.bears b = true) →
    (∀ c ∈ rest.head?, isSpace c = true ∨ l.accepts c = true) → Splits before l w rest

theorem Spelled.head {l : Lexeme} {w : List Char} (h : Spelled l w) :
    ∃ c cs, w = c :: cs ∧ isSpace c = false := by
  obtain ⟨c, cs, hw, hc, -⟩ := h.splits none [] (by simp) (by simp)
  exact ⟨c, cs, hw, hc⟩

namespace Piece

def isSoft : Piece → Bool
  | .gap .soft => true
  | _ => false

/-- What a piece needs on its own. -/
def Sound : Piece → Prop
  | .word l w => Spelled l w
  | .gap _ => True
  | .remark line => '\n' ∉ line

/-- Whether a piece may stand right behind another one. -/
def Joins : Piece → Piece → Prop
  | .word l w, .word k v =>
    (∀ c ∈ v.head?, l.accepts c = true) ∧ (∀ b ∈ w.getLast?, k.bears b = true)
  | .word _ _, .remark _ => False
  | .gap .line, .remark _ | .remark _, .remark _ => True
  | .gap _, .remark _ => False
  | _, _ => True

/-- The pieces that are there for every width. -/
def firm (ps : List Piece) : List Piece := ps.filter (!·.isSoft)

@[simp] theorem firm_nil : firm [] = [] := rfl

@[simp] theorem firm_append (ps qs : List Piece) : firm (ps ++ qs) = firm ps ++ firm qs :=
  List.filter_append ..

@[simp] theorem firm_word (l : Lexeme) (w : List Char) (ps : List Piece) :
    firm (.word l w :: ps) = .word l w :: firm ps := rfl

@[simp] theorem firm_remark (line : List Char) (ps : List Piece) :
    firm (.remark line :: ps) = .remark line :: firm ps := rfl

@[simp] theorem firm_blank (ps : List Piece) : firm (.gap .blank :: ps) = .gap .blank :: firm ps :=
  rfl

@[simp] theorem firm_space (ps : List Piece) : firm (.gap .space :: ps) = .gap .space :: firm ps :=
  rfl

@[simp] theorem firm_line (ps : List Piece) : firm (.gap .line :: ps) = .gap .line :: firm ps := rfl

@[simp] theorem firm_soft (ps : List Piece) : firm (.gap .soft :: ps) = firm ps := rfl

end Piece

/-- The strokes that a gap can be drawn as. -/
def Gap.Drawn : Gap → List Stroke → Prop
  | .blank, ts => ts = plain [' ']
  | .space, ts => ts = plain [' '] ∨ ∃ n, ts = [.newline n]
  | .soft, ts => ts = [] ∨ ∃ n, ts = [.newline n]
  | .line, ts => ∃ n, ts = [.newline n]

/-- The strokes that pieces can be drawn as. -/
inductive Draft : List Piece → List Stroke → Prop where
  | nil : Draft [] []
  | word {l w ps ss} : Draft ps ss → Draft (.word l w :: ps) (plain w ++ ss)
  | gap {g ts ps ss} : g.Drawn ts → Draft ps ss → Draft (.gap g :: ps) (ts ++ ss)
  | remark {line n ps ss} : Draft ps ss →
      Draft (.remark line :: ps) (plain ('#' :: ' ' :: line) ++ .newline n :: ss)

theorem Draft.append {ps qs ss ts} (h : Draft ps ss) (k : Draft qs ts) :
    Draft (ps ++ qs) (ss ++ ts) := by
  induction h with
  | nil => exact k
  | word _ ih => rw [List.append_assoc]; exact .word ih
  | gap hg _ ih => rw [List.append_assoc]; exact .gap hg ih
  | remark _ ih => rw [List.append_assoc]; exact .remark ih

/-- The white space that a gap can be in front of a text. -/
def Gap.Admits : Gap → List Char → List Char → Prop
  | .blank, s, rest => s = [' '] ∨ s = [] ∧ rest.head? = some '\n'
  | .space, s, rest =>
    s = [' '] ∨ s = [] ∧ rest.head? = some '\n' ∨ ∃ n, s = '\n' :: List.replicate n ' '
  | .soft, s, _ => s = [] ∨ ∃ n, s = '\n' :: List.replicate n ' '
  | .line, s, _ => ∃ n, s = '\n' :: List.replicate n ' '

/-- A line without the blanks at its end. -/
def trimEnd (line : List Char) : List Char := (line.reverse.dropWhile isTrailing).reverse

/-- The chunks that pieces can come out as. -/
inductive Realizes : List Piece → List Chunk → Prop where
  | nil : Realizes [] []
  | word {l w ps cs} : Realizes ps cs → Realizes (.word l w :: ps) (.token l w :: cs)
  | gap {g s ps cs} : g.Admits s (Chunk.textOf cs) → Realizes ps cs →
      Realizes (.gap g :: ps) (.white s :: cs)
  | remark {line n ps cs} : Realizes ps cs → Realizes (.remark line :: ps)
      (.comment (trimEnd (' ' :: line)) :: .white ('\n' :: List.replicate n ' ') :: cs)

theorem settle_of_endsLine {ss : List Stroke} (h : endsLine ss = true) :
    (settle ss).head? = some '\n' := by
  induction ss with
  | nil => cases h
  | cons s ss ih =>
    cases s with
    | newline n => rfl
    | char c =>
      rw [settle, if_pos h]
      simp only [endsLine, Bool.and_eq_true] at h
      exact ih h.2

theorem endsLine_plain {w : List Char} (hw : w ≠ []) (h : ∀ c ∈ w.getLast?, isTrailing c = false)
    (ss : List Stroke) : endsLine (plain w ++ ss) = false := by
  induction w with
  | nil => exact absurd rfl hw
  | cons c w ih =>
    change (isTrailing c && endsLine (plain w ++ ss)) = false
    cases w with
    | nil => rw [h c rfl, Bool.false_and]
    | cons d w => rw [ih (by simp) (by simpa using h), Bool.and_false]

/-- Text that ends in no blank stays as it is. -/
theorem settle_plain {w : List Char} (h : ∀ c ∈ w.getLast?, isTrailing c = false)
    (ss : List Stroke) : settle (plain w ++ ss) = w ++ settle ss := by
  induction w with
  | nil => rfl
  | cons c w ih =>
    have hc : endsLine (.char c :: (plain w ++ ss)) = false := endsLine_plain (by simp) h ss
    change settle (.char c :: (plain w ++ ss)) = _
    rw [settle, hc]
    cases w with
    | nil => rfl
    | cons d w => rw [ih (by simpa using h)]; rfl

theorem settle_trimmed {w : List Char} (h : ∀ c ∈ w, isTrailing c = true) {ss : List Stroke}
    (hs : endsLine ss = true) : endsLine (plain w ++ ss) = true ∧
      settle (plain w ++ ss) = settle ss := by
  induction w with
  | nil => exact ⟨hs, rfl⟩
  | cons c w ih =>
    obtain ⟨h₁, h₂⟩ := ih fun d hd => h d (List.mem_cons_of_mem _ hd)
    have hc : endsLine (.char c :: (plain w ++ ss)) = true := by
      rw [endsLine, h c (List.mem_cons_self ..), h₁, Bool.true_and]
    refine ⟨hc, ?_⟩
    change settle (.char c :: (plain w ++ ss)) = _
    rw [settle, if_pos hc, h₂]

theorem trimEnd_append (line : List Char) : ∃ blanks, line = trimEnd line ++ blanks ∧
    ∀ c ∈ blanks, isTrailing c = true := by
  refine ⟨(line.reverse.takeWhile isTrailing).reverse, ?_, ?_⟩
  · rw [trimEnd, ← List.reverse_append, List.takeWhile_append_dropWhile, List.reverse_reverse]
  · intro c hc
    exact List.mem_takeWhile_imp (List.mem_reverse.mp hc)

theorem trimEnd_getLast (line : List Char) :
    ∀ c ∈ (trimEnd line).getLast?, isTrailing c = false := by
  intro c hc
  rw [trimEnd, List.getLast?_reverse] at hc
  have h := List.head?_dropWhile_not isTrailing line.reverse
  rwa [Option.mem_def.mp hc] at h

/-- Text in front of a line end is written without the blanks at its end. -/
theorem settle_trimEnd (w : List Char) {ss : List Stroke} (hs : endsLine ss = true) :
    settle (plain w ++ ss) = trimEnd w ++ settle ss := by
  obtain ⟨blanks, hw, hb⟩ := trimEnd_append w
  have hp : plain w = plain (trimEnd w) ++ plain blanks := by
    conv => lhs; rw [hw]
    simp [plain]
  rw [hp, List.append_assoc, settle_plain (trimEnd_getLast w), (settle_trimmed hb hs).2]

theorem trimEnd_cons {c : Char} (hc : isTrailing c = false) (line : List Char) :
    trimEnd (c :: line) = c :: trimEnd line := by
  unfold trimEnd
  rw [List.reverse_cons, List.dropWhile_append]
  split
  case isTrue h => simp [List.isEmpty_iff.mp h, hc]
  case isFalse => simp

theorem settle_newline (n : Nat) (ss : List Stroke) :
    ∃ m, settle (.newline n :: ss) = '\n' :: List.replicate m ' ' ++ settle ss := by
  rw [settle]
  split
  · exact ⟨0, rfl⟩
  · exact ⟨n, rfl⟩

/-- A gap comes out as white space that it can be. -/
theorem Gap.Drawn.settles {g : Gap} {ts : List Stroke} (hg : g.Drawn ts) (ss : List Stroke) :
    ∃ s, g.Admits s (settle ss) ∧ settle (ts ++ ss) = s ++ settle ss := by
  have blank : ∃ s, Gap.blank.Admits s (settle ss) ∧
      settle (plain [' '] ++ ss) = s ++ settle ss := by
    by_cases he : endsLine ss = true
    · exact ⟨[], .inr ⟨rfl, settle_of_endsLine he⟩,
        (settle_trimmed (by simp [isTrailing]) he).2⟩
    · refine ⟨[' '], .inl rfl, ?_⟩
      change settle (.char ' ' :: ss) = _
      rw [settle, if_neg (by simpa [endsLine] using fun _ => he)]
      rfl
  have line (n : Nat) : ∃ m, settle ([.newline n] ++ ss) =
      '\n' :: List.replicate m ' ' ++ settle ss := settle_newline n ss
  cases g with
  | blank =>
    obtain rfl := hg
    exact blank
  | space =>
    rcases hg with rfl | ⟨n, rfl⟩
    · obtain ⟨s, hs, h⟩ := blank
      exact ⟨s, hs.imp id .inl, h⟩
    · obtain ⟨m, h⟩ := line n
      exact ⟨_, .inr (.inr ⟨m, rfl⟩), h⟩
  | soft =>
    rcases hg with rfl | ⟨n, rfl⟩
    · exact ⟨[], .inl rfl, rfl⟩
    · obtain ⟨m, h⟩ := line n
      exact ⟨_, .inr ⟨m, rfl⟩, h⟩
  | line =>
    obtain ⟨n, rfl⟩ := hg
    obtain ⟨m, h⟩ := line n
    exact ⟨_, ⟨m, rfl⟩, h⟩

/-- What is drawn comes out as chunks. -/
theorem Draft.realizes {ps : List Piece} {ss : List Stroke} (h : Draft ps ss)
    (hp : ∀ p ∈ ps, p.Sound) : ∃ cs, Realizes ps cs ∧ Chunk.textOf cs = settle ss := by
  induction h with
  | nil => exact ⟨[], .nil, rfl⟩
  | @word l w ps ss _ ih =>
    obtain ⟨cs, hc, ht⟩ := ih fun p hm => hp p (List.mem_cons_of_mem _ hm)
    have hw : Spelled l w := hp _ (List.mem_cons_self ..)
    exact ⟨_, .word hc, by rw [Chunk.textOf_cons, ht, settle_plain hw.solid]; rfl⟩
  | @gap g ts ps ss hg _ ih =>
    obtain ⟨cs, hc, ht⟩ := ih fun p hm => hp p (List.mem_cons_of_mem _ hm)
    obtain ⟨s, hs, h⟩ := hg.settles ss
    rw [← ht] at hs h
    exact ⟨_, .gap hs hc, h.symm⟩
  | @remark line n ps ss _ ih =>
    obtain ⟨cs, hc, ht⟩ := ih fun p hm => hp p (List.mem_cons_of_mem _ hm)
    obtain ⟨m, hm⟩ := settle_newline n ss
    refine ⟨_, .remark (n := m) hc, ?_⟩
    rw [settle_trimEnd _ rfl, trimEnd_cons (c := '#') rfl, hm, ← ht]
    simp [Chunk.text]

end Format
end RubySig
