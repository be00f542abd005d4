/-! Places in a source text: lines and columns count from one, offsets from zero. -/
namespace RubySig

/-- A place in a text. -/
structure Position where
  line : Nat
  column : Nat
  offset : Nat
  deriving DecidableEq, Repr, Inhabited

namespace Position

def first : Position := ⟨1, 1, 0⟩

/-- The place behind a character; only a line feed starts a new line. -/
def step (p : Position) (c : Char) : Position :=
  if c == '\n' then ⟨p.line + 1, 1, p.offset + 1⟩ else ⟨p.line, p.column + 1, p.offset + 1⟩

/-- The place behind a piece of text. -/
def after (p : Position) (cs : List Char) : Position :=
  cs.foldl step p

theorem after_append (p : Position) (xs ys : List Char) :
    p.after (xs ++ ys) = (p.after xs).after ys := by
  simp [after]

theorem offset_step (p : Position) (c : Char) : (p.step c).offset = p.offset + 1 := by
  unfold step; split <;> rfl

theorem offset_after (p : Position) (cs : List Char) :
    (p.after cs).offset = p.offset + cs.length := by
  induction cs generalizing p with
  | nil => rfl
  | cons c cs ih =>
    show ((p.step c).after cs).offset = _
    rw [ih, offset_step, List.length_cons]
    omega

end Position

/-- A range of the source. A tree written by hand may carry any numbers. -/
structure Span where
  startLine : Int
  startColumn : Int
  endLine : Int
  endColumn : Int
  startOffset : Int
  endOffset : Int
  deriving DecidableEq, Repr, Inhabited

namespace Span

def between (start stop : Position) : Span :=
  ⟨start.line, start.column, stop.line, stop.column, start.offset, stop.offset⟩

/-- An offset counted from the end when it is negative, and kept inside the text. -/
def clamp (length : Nat) (offset : Int) : Nat :=
  if offset < 0 then (offset + length).toNat else min offset.toNat length

/-- The part of a text that a range covers; what lies outside is left out. -/
def slice (s : Span) (text : List Char) : List Char :=
  let start := clamp text.length s.startOffset
  let stop := clamp text.length s.endOffset
  (text.take stop).drop start

end Span
end RubySig
