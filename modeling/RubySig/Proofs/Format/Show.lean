import RubySig.Layout.Doc
import RubySig.Proofs.Format.Legible

/-!
Documents that come out as pieces, and piece lists whose neighbours fit: how both are put together.
-/
namespace RubySig.Format

open Doc (Lays Stroke plain)
open Piece (firm Joins)

namespace Piece

/-- The characters of a piece that stays on its line. -/
def ink : Piece → List Char
  | .word _ w => w
  | .gap .blank => [' ']
  | _ => []

def isInline : Piece → Bool
  | .word _ _ | .gap .blank => true
  | _ => false

def mark (m : Mark) : Piece := .word (.mark m) m.text.toList

def keyword (k : Keyword) : Piece := .word (.keyword k) k.text.toList

/-- A name, read as whatever kind of name it is. -/
def named (name : String) : Piece := .word (Lexer.nameLexeme name.toList) name.toList

@[simp] theorem isInline_mark (m : Mark) : (mark m).isInline = true := rfl

@[simp] theorem isInline_keyword (k : Keyword) : (keyword k).isInline = true := rfl

@[simp] theorem isInline_named (s : String) : (named s).isInline = true := rfl

@[simp] theorem isInline_word (l : Lexeme) (w : List Char) : (word l w).isInline = true := rfl

@[simp] theorem isInline_blank : (gap .blank).isInline = true := rfl

@[simp] theorem ink_mark (m : Mark) : (mark m).ink = m.text.toList := rfl

@[simp] theorem ink_keyword (k : Keyword) : (keyword k).ink = k.text.toList := rfl

@[simp] theorem ink_named (s : String) : (named s).ink = s.toList := rfl

@[simp] theorem ink_word (l : Lexeme) (w : List Char) : (word l w).ink = w := rfl

@[simp] theorem ink_blank : (gap .blank).ink = [' '] := rfl

@[simp] theorem firm_mark (m : Mark) (ps : List Piece) :
    firm (mark m :: ps) = mark m :: firm ps := rfl

@[simp] theorem firm_keyword (k : Keyword) (ps : List Piece) :
    firm (keyword k :: ps) = keyword k :: firm ps := rfl

@[simp] theorem firm_named (s : String) (ps : List Piece) :
    firm (named s :: ps) = named s :: firm ps := rfl

end Piece

/-- Whatever a document is printed as comes out as these pieces. -/
def Shows (ds : List Doc) (ps : List Piece) : Prop :=
  ∀ i ss, Lays i ds ss → Draft ps ss

theorem Draft.inline {ps : List Piece} (h : ∀ p ∈ ps, p.isInline = true) :
    Draft ps (plain (ps.flatMap Piece.ink)) := by
  induction ps with
  | nil => exact .nil
  | cons p ps ih =>
    have ih := ih fun q hq => h q (List.mem_cons_of_mem _ hq)
    rw [List.flatMap_cons, plain, List.map_append]
    cases p with
    | word l w => exact .word ih
    | gap g =>
      cases g with
      | blank => exact .gap (g := .blank) rfl ih
      | _ => cases h _ (List.mem_cons_self ..)
    | remark line => cases h _ (List.mem_cons_self ..)

namespace Shows

theorem nil : Shows [] [] := by
  intro i ss h
  cases h
  exact .nil

theorem append {ds es : List Doc} {ps qs : List Piece} (h : Shows ds ps) (k : Shows es qs) :
    Shows (ds ++ es) (ps ++ qs) := by
  intro i us hu
  obtain ⟨ss, ts, rfl, hs, ht⟩ := hu.split
  exact (h i ss hs).append (k i ts ht)

theorem cons {d : Doc} {ds : List Doc} {ps qs : List Piece} (h : Shows [d] ps) (k : Shows ds qs) :
    Shows (d :: ds) (ps ++ qs) :=
  h.append k

/-- A text shows words and blanks that are spelled like it. -/
theorem text {s : String} {ps : List Piece} (hp : ∀ p ∈ ps, p.isInline = true)
    (hs : s.toList = ps.flatMap Piece.ink) : Shows [.text s] ps := by
  intro i ss h
  cases h with
  | text h =>
    cases h
    rw [List.append_nil, hs]
    exact Draft.inline hp

theorem word {s : String} (l : Lexeme) : Shows [.text s] [.word l s.toList] :=
  text (by simp) (by simp)

theorem mark {s : String} (m : Mark) (h : s = m.text) : Shows [.text s] [.mark m] := by
  subst h
  exact text (by simp) (by simp)

theorem empty : Shows [.text ""] [] :=
  text (by simp) (by simp)

theorem group {b : Bool} {ds : List Doc} {ps : List Piece} (h : Shows ds ps) :
    Shows [.group b ds] ps := by
  intro i ss hs
  cases hs with
  | group hg hn =>
    cases hn
    rw [List.append_nil]
    exact h i _ hg

theorem grouped {ds : List Doc} {ps : List Piece} (h : Shows ds ps) : Shows [Doc.grouped ds] ps :=
  h.group

theorem indent {k : Int} {ds : List Doc} {ps : List Piece} (h : Shows ds ps) :
    Shows [.indent k ds] ps := by
  intro i ss hs
  cases hs with
  | indent hg hn =>
    cases hn
    rw [List.append_nil]
    exact h _ _ hg

theorem space : Shows [Doc.space] [.gap .space] := by
  intro i ss h
  cases h with
  | flat h =>
    cases h
    exact .gap (g := .space) (.inl rfl) .nil
  | newline h =>
    cases h
    exact .gap (g := .space) (.inr ⟨_, rfl⟩) .nil

theorem softBreak : Shows [Doc.softBreak] [.gap .soft] := by
  intro i ss h
  cases h with
  | flat h =>
    cases h
    exact .gap (g := .soft) (.inl rfl) .nil
  | newline h =>
    cases h
    exact .gap (g := .soft) (.inr ⟨_, rfl⟩) .nil

theorem hardBreak : Shows [Doc.hardBreak] [.gap .line] := by
  intro i ss h
  cases h with
  | newline h =>
    cases h
    exact .gap (g := .line) ⟨_, rfl⟩ .nil

theorem separated {sep : List Doc} {sp : List Piece} (hs : Shows sep sp) {items : List (List Doc)}
    {pss : List (List Piece)} (h : List.Forall₂ Shows items pss) :
    Shows (Doc.separated sep items) (sp.intercalate pss) := by
  unfold Doc.separated
  induction h with
  | nil => exact nil
  | @cons d ps items pss h hrest ih =>
    cases hrest with
    | nil => simpa using h
    | cons h₁ h₂ =>
      rw [List.intercalate_cons_cons, List.intercalate_cons_cons]
      exact (h.append hs).append ih

end Shows

/-- Every piece is sound, and fits the one behind it. -/
structure Neat (ps : List Piece) : Prop where
  sound : ∀ p ∈ ps, p.Sound
  chain : (firm ps).IsChain Joins

/-- The last of some pieces fits the first of others. -/
def Meets (ps qs : List Piece) : Prop :=
  ∀ p ∈ (firm ps).getLast?, ∀ q ∈ (firm qs).head?, Joins p q

theorem meets_gap (ps : List Piece) (g : Gap) : Meets ps [.gap g] := by
  intro p _ q hq
  cases g with
  | soft => cases hq
  | _ =>
    cases hq
    cases p with
    | gap h => cases h <;> trivial
    | _ => trivial

theorem Neat.nil : Neat [] := ⟨by simp, .nil⟩

theorem Neat.append {ps qs : List Piece} (hp : Neat ps) (hq : Neat qs) (h : Meets ps qs) :
    Neat (ps ++ qs) where
  sound p hm := (List.mem_append.mp hm).elim (hp.sound p) (hq.sound p)
  chain := by
    rw [Piece.firm_append]
    exact List.isChain_append.mpr ⟨hp.chain, hq.chain, h⟩

theorem Neat.word {l : Lexeme} {w : List Char} (h : Spelled l w) : Neat [.word l w] where
  sound p hp := by
    obtain rfl := List.mem_singleton.mp hp
    exact h
  chain := List.isChain_singleton _

theorem Neat.gap (g : Gap) : Neat [.gap g] where
  sound p hp := by
    obtain rfl := List.mem_singleton.mp hp
    trivial
  chain := by
    cases g with
    | soft => exact .nil
    | _ => exact List.isChain_singleton _

end RubySig.Format
