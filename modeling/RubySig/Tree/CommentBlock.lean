import RubySig.Tree.Fault

/-! Blocks of comment lines, which belong to what stands right below them. -/
namespace RubySig

/-- Comments on consecutive lines of their own. -/
structure CommentBlock where
  lines : List String
  start : Position
  stop : Position
  deriving DecidableEq, Repr

namespace CommentBlock

def comment (b : CommentBlock) : Comment :=
  ⟨"\n".intercalate b.lines, some (.between b.start b.stop)⟩

/-- Puts a line in front of the blocks below it. -/
def cons (c : CommentLine) : List CommentBlock → List CommentBlock
  | [] => [⟨[c.text], c.start, c.stop⟩]
  | b :: bs =>
    if b.start.line == c.start.line + 1 then ⟨c.text :: b.lines, c.start, b.stop⟩ :: bs
    else ⟨[c.text], c.start, c.stop⟩ :: b :: bs

def ofLines : List CommentLine → List CommentBlock
  | [] => []
  | c :: cs => cons c (ofLines cs)

def takeAbove (line : Nat) : List CommentBlock → Option CommentBlock × List CommentBlock
  | [] => (none, [])
  | b :: bs =>
    if b.stop.line + 1 == line then (some b, bs)
    else
      let (taken, left) := takeAbove line bs
      (taken, b :: left)

/-- The warnings about comments behind other text. -/
def trailing (comments : List CommentLine) : List Warning :=
  (comments.filter (!·.alone)).map fun c => .trailing c.start.line

/-- The warnings about blocks that nothing took. -/
def detached (blocks : List CommentBlock) : List Warning :=
  blocks.map fun b => .detached b.start.line

end CommentBlock
end RubySig
