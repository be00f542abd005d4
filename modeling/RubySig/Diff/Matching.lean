/-!
Matching blocks of two sequences of lines: the longest run that both have in common, the first one
of several, and then the same to its left and to its right. In long sequences, lines that occur
very often begin no run.
-/
namespace RubySig.Diff

/-- A run of `size` equal lines, from line `left` of the old and line `right` of the new text. -/
structure Block where
  left : Nat
  right : Nat
  size : Nat
  deriving DecidableEq, Repr

/-- A part of both texts: lines from the first bound up to the second one. -/
structure Region where
  left : Nat
  leftEnd : Nat
  right : Nat
  rightEnd : Nat
  deriving DecidableEq, Repr

/-- The texts, and for each old line the new lines where a run may begin or go on with it. -/
structure Pair where
  old : Array String
  new : Array String
  places : Array (List Nat)

/-- New texts shorter than this have no frequent lines. -/
def frequentFrom : Nat := 200

/-- Whether `count` lines of `total` are too many to begin a run. -/
def isFrequent (total count : Nat) : Bool :=
  total ≥ frequentFrom && count > total / 100 + 1

def placesOf (line : String) (new : List String) : List Nat :=
  let places := (new.zipIdx.filter fun (l, _) => l == line).map (·.2)
  if isFrequent new.length places.length then [] else places

def Pair.of (old new : List String) : Pair where
  old := old.toArray
  new := new.toArray
  places := (old.map fun line => placesOf line new).toArray

namespace Pair

/-- The runs that end with one old line, given those that ended with the line before: the new line
and the length of each. -/
def runsAt (r : Region) (before : List (Nat × Nat)) (places : List Nat) : List (Nat × Nat) :=
  (places.filter fun j => r.right ≤ j && j < r.rightEnd).map fun j =>
    (j, (if j == 0 then 0 else (before.lookup (j - 1)).getD 0) + 1)

/-- The longer of a block and the runs that end with old line `i`; the first of several. -/
def longer (i : Nat) (best : Block) (runs : List (Nat × Nat)) : Block :=
  runs.foldl (fun best (j, size) =>
    if size > best.size then ⟨i + 1 - size, j + 1 - size, size⟩ else best) best

/-- The longest run among the old lines from `i` on. -/
def longestFrom (p : Pair) (r : Region) :
    (count : Nat) → (i : Nat) → List (Nat × Nat) → Block → Block
  | 0, _, _, best => best
  | count + 1, i, before, best =>
    let runs := runsAt r before (p.places.getD i [])
    longestFrom p r count (i + 1) runs (longer i best runs)

/-- Makes a block longer at its start, over lines that begin no run. -/
def growLeft (p : Pair) (r : Region) : (fuel : Nat) → Block → Block
  | 0, b => b
  | fuel + 1, b =>
    if r.left < b.left && r.right < b.right &&
        p.old[b.left - 1]? == p.new[b.right - 1]? then
      growLeft p r fuel ⟨b.left - 1, b.right - 1, b.size + 1⟩
    else b

/-- Makes a block longer at its end, over lines that begin no run. -/
def growRight (p : Pair) (r : Region) : (fuel : Nat) → Block → Block
  | 0, b => b
  | fuel + 1, b =>
    if b.left + b.size < r.leftEnd && b.right + b.size < r.rightEnd &&
        p.old[b.left + b.size]? == p.new[b.right + b.size]? then
      growRight p r fuel ⟨b.left, b.right, b.size + 1⟩
    else b

def longest (p : Pair) (r : Region) : Block :=
  let lines := r.leftEnd - r.left
  let found := p.longestFrom r lines r.left [] ⟨r.left, r.right, 0⟩
  p.growRight r lines (p.growLeft r lines found)

def blocksIn (p : Pair) : (fuel : Nat) → Region → List Block
  | 0, _ => []
  | fuel + 1, r =>
    let b := p.longest r
    if b.size == 0 then []
    else
      let before :=
        if r.left < b.left && r.right < b.right then
          blocksIn p fuel ⟨r.left, b.left, r.right, b.right⟩
        else []
      let behind :=
        if b.left + b.size < r.leftEnd && b.right + b.size < r.rightEnd then
          blocksIn p fuel ⟨b.left + b.size, r.leftEnd, b.right + b.size, r.rightEnd⟩
        else []
      before ++ b :: behind

/-- Puts a block in front of others, as one block with the first if nothing lies between. -/
def joined (b : Block) : List Block → List Block
  | c :: rest =>
    if b.left + b.size == c.left && b.right + b.size == c.right then
      ⟨b.left, b.right, b.size + c.size⟩ :: rest
    else b :: c :: rest
  | [] => [b]

/-- The matching blocks of the whole texts, none touching the next. -/
def blocks (p : Pair) : List Block :=
  (p.blocksIn (p.old.size + 1) ⟨0, p.old.size, 0, p.new.size⟩).foldr joined []

end Pair
end RubySig.Diff
