import RubySig.Diff.Matching

/-! Differences of two texts as hunks, with three lines of context. -/
namespace RubySig.Diff

/-- A part of the edit from the old to the new text: lines that both have, or old lines that give
way to new ones. -/
structure Change where
  same : Bool
  left : Nat
  leftEnd : Nat
  right : Nat
  rightEnd : Nat
  deriving DecidableEq, Repr

/-- The lines of context around changes. -/
def context : Nat := 3

/-- What lies in front of a block, unless nothing does. -/
def gap (left leftEnd right rightEnd : Nat) : List Change :=
  if left < leftEnd || right < rightEnd then [⟨false, left, leftEnd, right, rightEnd⟩] else []

/-- The changes between matching blocks, from a pair of lines to the ends of the texts. -/
def changesFrom (left right leftEnd rightEnd : Nat) : List Block → List Change
  | [] => gap left leftEnd right rightEnd
  | b :: bs =>
    gap left b.left right b.right ++
      ⟨true, b.left, b.left + b.size, b.right, b.right + b.size⟩ ::
        changesFrom (b.left + b.size) (b.right + b.size) leftEnd rightEnd bs

/-- The whole edit from the old to the new text. -/
def Pair.changes (p : Pair) : List Change :=
  changesFrom 0 0 p.old.size p.new.size p.blocks

/-- The last lines of common ones. -/
def Change.tail (c : Change) : Change :=
  { c with left := max c.left (c.leftEnd - context), right := max c.right (c.rightEnd - context) }

/-- The first lines of common ones. -/
def Change.head (c : Change) : Change :=
  { c with leftEnd := min c.leftEnd (c.left + context),
           rightEnd := min c.rightEnd (c.right + context) }

/-- Leaves only context in front of the first change. -/
def trimFirst : List Change → List Change
  | c :: cs => (if c.same then c.tail else c) :: cs
  | [] => []

/-- Leaves only context behind the last change. -/
def trimLast (cs : List Change) : List Change :=
  match cs.getLast? with
  | some c => if c.same then cs.dropLast ++ [c.head] else cs
  | none => []

/-- Splits changes at long runs of common lines; `group` holds what belongs together so far. -/
def grouped (group : List Change) : List Change → List (List Change)
  | [] => [group]
  | c :: cs =>
    if c.same && c.leftEnd - c.left > 2 * context then
      (group ++ [c.head]) :: grouped [c.tail] cs
    else grouped (group ++ [c]) cs

/-- The hunks of a difference: groups with something else than common lines. -/
def hunks (changes : List Change) : List (List Change) :=
  (grouped [] (trimLast (trimFirst changes))).filter fun group =>
    group.any (!·.same)

/-- The lines of a range, as the head of a hunk gives them. -/
def rangeText (start stop : Nat) : String :=
  let length := stop - start
  if length == 1 then toString (start + 1)
  else if length == 0 then toString start ++ ",0"
  else toString (start + 1) ++ "," ++ toString length

def linesText (sign : String) (lines : Array String) (start stop : Nat) : String :=
  String.join ((lines.extract start stop).toList.map (sign ++ ·))

/-- The lines of a change: common ones behind a blank, old ones behind a minus, new ones behind a
plus. -/
def Pair.changeText (p : Pair) (c : Change) : String :=
  if c.same then linesText " " p.old c.left c.leftEnd
  else linesText "-" p.old c.left c.leftEnd ++ linesText "+" p.new c.right c.rightEnd

def Pair.hunkText (p : Pair) (hunk : List Change) : String :=
  match hunk.head?, hunk.getLast? with
  | some first, some last =>
    "@@ -" ++ rangeText first.left last.leftEnd ++ " +" ++ rangeText first.right last.rightEnd ++
      " @@\n" ++ String.join (hunk.map p.changeText)
  | _, _ => ""

def isLineEnd (c : Char) : Bool :=
  let n := c.toNat
  (0x0A ≤ n && n ≤ 0x0D) || (0x1C ≤ n && n ≤ 0x1E) || n == 0x85 || n == 0x2028 || n == 0x2029

def lines : List Char → List (List Char)
  | [] => []
  | '\r' :: '\n' :: cs => ['\r', '\n'] :: lines cs
  | c :: cs =>
    if isLineEnd c then [c] :: lines cs
    else match cs, lines cs with
      | [], _ => [[c]]
      | _, line :: rest => (c :: line) :: rest
      | _, [] => [[c]]

/-- The difference of two texts. A last line without an end runs into what follows it. -/
def text (oldName newName old new : String) : String :=
  let p := Pair.of ((lines old.toList).map String.ofList) ((lines new.toList).map String.ofList)
  match hunks p.changes with
  | [] => ""
  | hunks => "--- " ++ oldName ++ "\n+++ " ++ newName ++ "\n" ++ String.join (hunks.map p.hunkText)

end RubySig.Diff
