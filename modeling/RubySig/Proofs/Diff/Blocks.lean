import Mathlib.Data.List.Basic
import Mathlib.Tactic.Common
import RubySig.Diff.Matching

/-!
Matching blocks are sound: the lines of each stand in both texts, and each block begins behind the
one in front of it. Which run is taken for the longest one does not matter here.
-/
namespace RubySig.Diff

namespace Pair

variable {p : Pair} {left right leftMid rightMid leftEnd rightEnd : Nat}

/-- Both texts have the same lines from the first pair of lines up to the second. -/
def Alike (p : Pair) (left right leftEnd rightEnd : Nat) : Prop :=
  ∃ n, leftEnd = left + n ∧ rightEnd = right + n ∧ ∀ k < n, p.old[left + k]? = p.new[right + k]?

theorem Alike.nil (left right : Nat) : p.Alike left right left right :=
  ⟨0, rfl, rfl, fun _ hk => absurd hk (Nat.not_lt_zero _)⟩

theorem Alike.single (h : p.old[left]? = p.new[right]?) :
    p.Alike left right (left + 1) (right + 1) := by
  refine ⟨1, rfl, rfl, ?_⟩
  intro k hk
  obtain rfl : k = 0 := by omega
  exact h

theorem Alike.append (h : p.Alike left right leftMid rightMid)
    (h' : p.Alike leftMid rightMid leftEnd rightEnd) : p.Alike left right leftEnd rightEnd := by
  obtain ⟨m, rfl, rfl, hm⟩ := h
  obtain ⟨n, rfl, rfl, hn⟩ := h'
  refine ⟨m + n, by omega, by omega, ?_⟩
  intro k hk
  by_cases hkm : k < m
  · exact hm k hkm
  · have hshifted := hn (k - m) (by omega)
    rwa [Nat.add_assoc, Nat.add_assoc, Nat.add_sub_cancel' (by omega)] at hshifted

/-- Common lines are cut in two after their first `i`. -/
theorem Alike.split (h : p.Alike left right leftEnd rightEnd) {i : Nat} (hi : left + i ≤ leftEnd) :
    p.Alike left right (left + i) (right + i) ∧
    p.Alike (left + i) (right + i) leftEnd rightEnd := by
  obtain ⟨n, rfl, rfl, hn⟩ := h
  constructor
  · exact ⟨i, rfl, rfl, fun k hk => hn k (by omega)⟩
  · refine ⟨n - i, by omega, by omega, ?_⟩
    intro k hk
    rw [Nat.add_assoc, Nat.add_assoc]
    exact hn (i + k) (by omega)

end Pair

/-- Each place that is known of an old line has the same line in the new text. -/
def Pair.Listed (p : Pair) : Prop :=
  ∀ i, ∀ j ∈ p.places.getD i [], p.old[i]? = p.new[j]?

theorem placesOf_line {line : String} {new : List String} {j : Nat} (h : j ∈ placesOf line new) :
    new[j]? = some line := by
  simp only [placesOf] at h
  split at h
  case isTrue => cases h
  case isFalse =>
    obtain ⟨⟨l, j'⟩, hmem, rfl⟩ := List.mem_map.mp h
    obtain ⟨hmem, heq⟩ := List.mem_filter.mp hmem
    have hline : l = line := eq_of_beq heq
    rw [← hline]
    exact List.mem_zipIdx_iff_getElem?.mp hmem

theorem Pair.of_listed (old new : List String) : (Pair.of old new).Listed := by
  intro i j hj
  simp only [Pair.of, Array.getD_eq_getD_getElem?, List.getElem?_toArray, List.getElem?_map] at hj ⊢
  cases hline : old[i]? with
  | none =>
    rw [hline] at hj
    cases hj
  | some line =>
    rw [hline] at hj
    exact (placesOf_line hj).symm

/-- A block of common lines within a region. -/
structure Block.Within (p : Pair) (r : Region) (b : Block) : Prop where
  left_le : r.left ≤ b.left
  right_le : r.right ≤ b.right
  leftEnd_le : b.left + b.size ≤ r.leftEnd
  rightEnd_le : b.right + b.size ≤ r.rightEnd
  alike : p.Alike b.left b.right (b.left + b.size) (b.right + b.size)

variable {p : Pair} {r : Region}

theorem Block.Within.nil {left right : Nat} (hleft : r.left ≤ left) (hright : r.right ≤ right)
    (hleftEnd : left ≤ r.leftEnd) (hrightEnd : right ≤ r.rightEnd) :
    Block.Within p r ⟨left, right, 0⟩ :=
  ⟨hleft, hright, hleftEnd, hrightEnd, .nil left right⟩

theorem Block.Within.grow {left right size : Nat} (h : Block.Within p r ⟨left, right, size⟩)
    (hleft : left + size < r.leftEnd) (hright : right + size < r.rightEnd)
    (hline : p.old[left + size]? = p.new[right + size]?) :
    Block.Within p r ⟨left, right, size + 1⟩ :=
  ⟨h.left_le, h.right_le, hleft, hright, h.alike.append (.single hline)⟩

namespace Pair

/-- Runs that end in front of old line `i`, as blocks. -/
def Runs (p : Pair) (r : Region) (i : Nat) (runs : List (Nat × Nat)) : Prop :=
  ∀ run ∈ runs, run.2 ≤ i ∧ run.2 ≤ run.1 + 1 ∧
    Block.Within p r ⟨i - run.2, run.1 + 1 - run.2, run.2⟩

/-- The run that ends in front of a pair of lines, if any. -/
theorem Runs.before {i j : Nat} {runs : List (Nat × Nat)} (h : p.Runs r i runs)
    (hi : r.left ≤ i ∧ i ≤ r.leftEnd) (hj : r.right ≤ j ∧ j ≤ r.rightEnd) {size : Nat}
    (hsize : size = if j == 0 then 0 else (runs.lookup (j - 1)).getD 0) :
    size ≤ i ∧ size ≤ j ∧ Block.Within p r ⟨i - size, j - size, size⟩ := by
  have hnone : Block.Within p r ⟨i, j, 0⟩ := .nil hi.1 hj.1 hi.2 hj.2
  split at hsize
  case isTrue =>
    subst hsize
    exact ⟨Nat.zero_le i, Nat.zero_le j, hnone⟩
  case isFalse hzero =>
    cases hlookup : runs.lookup (j - 1) with
    | none =>
      rw [hlookup] at hsize
      subst hsize
      exact ⟨Nat.zero_le i, Nat.zero_le j, hnone⟩
    | some run =>
      rw [hlookup, Option.getD_some] at hsize
      subst hsize
      have hpositive : j - 1 + 1 = j := by
        have : j ≠ 0 := fun hj => hzero (beq_iff_eq.mpr hj)
        omega
      obtain ⟨front, back, rfl, -⟩ := List.lookup_eq_some_iff.mp hlookup
      have hrun := h (j - 1, size) (List.mem_append_right _ List.mem_cons_self)
      dsimp only at hrun
      rwa [hpositive] at hrun

theorem Runs.next {i : Nat} {runs : List (Nat × Nat)} (hlisted : p.Listed) (h : p.Runs r i runs)
    (hi : r.left ≤ i ∧ i < r.leftEnd) : p.Runs r (i + 1) (runsAt r runs (p.places.getD i [])) := by
  intro run hrun
  obtain ⟨j, hj, rfl⟩ := List.mem_map.mp hrun
  obtain ⟨hj, hregion⟩ := List.mem_filter.mp hj
  simp only [Bool.and_eq_true, decide_eq_true_eq] at hregion
  obtain ⟨hsize, hsize', hwithin⟩ :=
    h.before ⟨hi.1, Nat.le_of_lt hi.2⟩ ⟨hregion.1, Nat.le_of_lt hregion.2⟩ rfl
  have hline := hlisted i j hj
  generalize hrun : (if j == 0 then 0 else (runs.lookup (j - 1)).getD 0) =
    size at hsize hsize' hwithin ⊢
  refine ⟨by omega, by omega, ?_⟩
  dsimp only
  rw [Nat.add_sub_add_right, Nat.add_sub_add_right]
  apply hwithin.grow
  · omega
  · omega
  · rwa [Nat.sub_add_cancel hsize, Nat.sub_add_cancel hsize']

theorem longer_within {i : Nat} {runs : List (Nat × Nat)} (h : p.Runs r (i + 1) runs) {best : Block}
    (hbest : best.Within p r) : (longer i best runs).Within p r := by
  induction runs generalizing best with
  | nil => exact hbest
  | cons run runs ih =>
    obtain ⟨hrun, hruns⟩ := List.forall_mem_cons.mp h
    refine ih hruns ?_
    dsimp only
    split
    case isTrue => exact hrun.2.2
    case isFalse => exact hbest

theorem longestFrom_within (hlisted : p.Listed) {count i : Nat} {runs : List (Nat × Nat)}
    {best : Block} (hi : r.left ≤ i) (hcount : i + count ≤ r.leftEnd) (h : p.Runs r i runs)
    (hbest : best.Within p r) :
    (p.longestFrom r count i runs best).Within p r := by
  induction count generalizing i runs best with
  | zero => exact hbest
  | succ count ih =>
    have hnext := h.next hlisted ⟨hi, by omega⟩
    exact ih (by omega) (by omega) hnext (longer_within hnext hbest)

theorem growLeft_within {fuel : Nat} {b : Block} (h : b.Within p r) :
    (p.growLeft r fuel b).Within p r := by
  induction fuel generalizing b with
  | zero => exact h
  | succ fuel ih =>
    rw [growLeft]
    split
    case isFalse => exact h
    case isTrue hgrow =>
      simp only [Bool.and_eq_true, decide_eq_true_eq, beq_iff_eq] at hgrow
      obtain ⟨⟨hleft, hright⟩, hline⟩ := hgrow
      have hleftEnd := h.leftEnd_le
      have hrightEnd := h.rightEnd_le
      have halike := Alike.single hline
      rw [Nat.sub_add_cancel (by omega), Nat.sub_add_cancel (by omega)] at halike
      apply ih
      constructor
      · exact Nat.le_sub_one_of_lt hleft
      · exact Nat.le_sub_one_of_lt hright
      · dsimp only
        omega
      · dsimp only
        omega
      · dsimp only
        rw [show b.left - 1 + (b.size + 1) = b.left + b.size by omega,
          show b.right - 1 + (b.size + 1) = b.right + b.size by omega]
        exact halike.append h.alike

theorem growRight_within {fuel : Nat} {b : Block} (h : b.Within p r) :
    (p.growRight r fuel b).Within p r := by
  induction fuel generalizing b with
  | zero => exact h
  | succ fuel ih =>
    rw [growRight]
    split
    case isFalse => exact h
    case isTrue hgrow =>
      simp only [Bool.and_eq_true, decide_eq_true_eq, beq_iff_eq] at hgrow
      exact ih (h.grow hgrow.1.1 hgrow.1.2 hgrow.2)

theorem longest_within (hlisted : p.Listed) (hleft : r.left ≤ r.leftEnd)
    (hright : r.right ≤ r.rightEnd) :
    (p.longest r).Within p r := by
  have hnone : Block.Within p r ⟨r.left, r.right, 0⟩ :=
    .nil (Nat.le_refl _) (Nat.le_refl _) hleft hright
  have hfound := longestFrom_within hlisted (Nat.le_refl _)
    (by omega : r.left + (r.leftEnd - r.left) ≤ r.leftEnd)
    (List.forall_mem_nil _) hnone
  exact growRight_within (growLeft_within hfound)

/-- Blocks of common lines, each behind the one before, from one pair of lines up to another. -/
inductive Follow (p : Pair) (leftEnd rightEnd : Nat) : (left right : Nat) → List Block → Prop
  | nil {left right} : left ≤ leftEnd → right ≤ rightEnd → Follow p leftEnd rightEnd left right []
  | cons {left right} {b : Block} {bs : List Block} : left ≤ b.left → right ≤ b.right →
      p.Alike b.left b.right (b.left + b.size) (b.right + b.size) →
      Follow p leftEnd rightEnd (b.left + b.size) (b.right + b.size) bs →
      Follow p leftEnd rightEnd left right (b :: bs)

variable {left right leftEnd rightEnd : Nat} {b : Block} {bs before behind : List Block}

/-- A block between the blocks in front of it and those behind it. -/
theorem Follow.around (hbefore : Follow p b.left b.right left right before)
    (hb : p.Alike b.left b.right (b.left + b.size) (b.right + b.size))
    (hbehind : Follow p leftEnd rightEnd (b.left + b.size) (b.right + b.size) behind) :
    Follow p leftEnd rightEnd left right (before ++ b :: behind) := by
  induction hbefore with
  | nil hleft hright => exact .cons hleft hright hb hbehind
  | cons hleft hright halike _ ih => exact .cons hleft hright halike ih

theorem blocksIn_follow (hlisted : p.Listed) {fuel : Nat} {r : Region} (hleft : r.left ≤ r.leftEnd)
    (hright : r.right ≤ r.rightEnd) :
    Follow p r.leftEnd r.rightEnd r.left r.right (p.blocksIn fuel r) := by
  induction fuel generalizing r with
  | zero => exact .nil hleft hright
  | succ fuel ih =>
    have hb := longest_within hlisted hleft hright
    rw [blocksIn]
    dsimp only
    split
    case isTrue => exact .nil hleft hright
    case isFalse =>
      refine .around ?before hb.alike ?behind
      case before =>
        split
        case isTrue => exact ih (r := ⟨_, _, _, _⟩) hb.left_le hb.right_le
        case isFalse => exact .nil hb.left_le hb.right_le
      case behind =>
        split
        case isTrue => exact ih (r := ⟨_, _, _, _⟩) hb.leftEnd_le hb.rightEnd_le
        case isFalse => exact .nil hb.leftEnd_le hb.rightEnd_le

theorem Follow.joined (h : Follow p leftEnd rightEnd left right (b :: bs)) :
    Follow p leftEnd rightEnd left right (joined b bs) := by
  cases h with
  | cons hleft hright halike hbs =>
    cases hbs with
    | nil hleftEnd hrightEnd => exact .cons hleft hright halike (.nil hleftEnd hrightEnd)
    | @cons _ _ c cs hleft' hright' halike' hcs =>
      rw [Pair.joined]
      split
      case isFalse => exact .cons hleft hright halike (.cons hleft' hright' halike' hcs)
      case isTrue htouch =>
        simp only [Bool.and_eq_true, beq_iff_eq] at htouch
        rw [← htouch.1, ← htouch.2, Nat.add_assoc, Nat.add_assoc] at halike' hcs
        exact .cons hleft hright (halike.append halike') hcs

theorem Follow.allJoined (h : Follow p leftEnd rightEnd left right bs) :
    Follow p leftEnd rightEnd left right (bs.foldr Pair.joined []) := by
  induction h with
  | nil hleft hright => exact .nil hleft hright
  | cons hleft hright halike _ ih => exact .joined (.cons hleft hright halike ih)

/-- The matching blocks of two texts are sound. -/
theorem blocks_follow (old new : List String) :
    Follow (of old new) (of old new).old.size (of old new).new.size 0 0 (of old new).blocks := by
  apply Follow.allJoined
  exact blocksIn_follow (of_listed old new) (r := ⟨0, _, 0, _⟩) (Nat.zero_le _) (Nat.zero_le _)

end Pair
end RubySig.Diff
