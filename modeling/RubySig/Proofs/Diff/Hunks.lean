import RubySig.Diff.Unified
import RubySig.Proofs.Diff.Blocks

/-!
What the hunks of a difference cover. The changes lead from the first lines of both texts to their
last ones; between two hunks, in front of the first and behind the last, both texts have the same
lines.
-/
namespace RubySig.Diff

namespace Pair

variable {p : Pair} {left right leftMid rightMid leftEnd rightEnd : Nat}

/-- Changes that lead from one pair of lines to another, each beginning where the one before
ends. -/
inductive Leads (p : Pair) (leftEnd rightEnd : Nat) : (left right : Nat) → List Change → Prop
  | nil : Leads p leftEnd rightEnd leftEnd rightEnd []
  | cons {c : Change} {cs : List Change} : c.left ≤ c.leftEnd → c.right ≤ c.rightEnd →
      (c.same = true → p.Alike c.left c.right c.leftEnd c.rightEnd) →
      Leads p leftEnd rightEnd c.leftEnd c.rightEnd cs →
      Leads p leftEnd rightEnd c.left c.right (c :: cs)

variable {c : Change} {cs ds group : List Change}

theorem Alike.le (h : p.Alike left right leftEnd rightEnd) : left ≤ leftEnd ∧ right ≤ rightEnd := by
  obtain ⟨n, rfl, rfl, -⟩ := h
  omega

theorem Leads.same (halike : p.Alike c.left c.right c.leftEnd c.rightEnd)
    (h : Leads p leftEnd rightEnd c.leftEnd c.rightEnd cs) :
    Leads p leftEnd rightEnd c.left c.right (c :: cs) :=
  .cons halike.le.1 halike.le.2 (fun _ => halike) h

theorem Leads.append (h : Leads p leftMid rightMid left right cs)
    (h' : Leads p leftEnd rightEnd leftMid rightMid ds) :
    Leads p leftEnd rightEnd left right (cs ++ ds) := by
  induction h with
  | nil => exact h'
  | cons hleft hright hsame _ ih => exact .cons hleft hright hsame ih

theorem Leads.of_append (h : Leads p leftEnd rightEnd left right (cs ++ ds)) :
    ∃ a b, Leads p a b left right cs ∧ Leads p leftEnd rightEnd a b ds := by
  induction cs generalizing left right with
  | nil => exact ⟨left, right, .nil, h⟩
  | cons c cs ih =>
    cases h with
    | cons hleft hright hsame hrest =>
      obtain ⟨a, b, hcs, hds⟩ := ih hrest
      exact ⟨a, b, .cons hleft hright hsame hcs, hds⟩

theorem Leads.of_nil (h : Leads p leftEnd rightEnd left right []) :
    left = leftEnd ∧ right = rightEnd := by
  cases h
  exact ⟨rfl, rfl⟩

theorem Leads.of_cons (h : Leads p leftEnd rightEnd left right (c :: cs)) :
    left = c.left ∧ right = c.right ∧
      (c.same = true → p.Alike c.left c.right c.leftEnd c.rightEnd) ∧
      Leads p leftEnd rightEnd c.leftEnd c.rightEnd cs := by
  cases h with
  | cons _ _ hsame hrest => exact ⟨rfl, rfl, hsame, hrest⟩

theorem Leads.le (h : Leads p leftEnd rightEnd left right cs) :
    left ≤ leftEnd ∧ right ≤ rightEnd := by
  induction h with
  | nil => exact ⟨Nat.le_refl _, Nat.le_refl _⟩
  | cons hleft hright _ _ ih => exact ⟨Nat.le_trans hleft ih.1, Nat.le_trans hright ih.2⟩

/-- Changes that change nothing lead over common lines. -/
theorem Leads.alike (h : Leads p leftEnd rightEnd left right cs) (hsame : ∀ c ∈ cs, c.same = true) :
    p.Alike left right leftEnd rightEnd := by
  induction h with
  | nil => exact .nil leftEnd rightEnd
  | cons _ _ halike _ ih =>
    obtain ⟨hc, hcs⟩ := List.forall_mem_cons.mp hsame
    exact (halike hc).append (ih hcs)

theorem gap_leads (hleft : left ≤ leftEnd) (hright : right ≤ rightEnd) :
    Leads p leftEnd rightEnd left right (gap left leftEnd right rightEnd) := by
  unfold gap
  split
  case isTrue => exact .cons (c := ⟨false, left, leftEnd, right, rightEnd⟩) hleft hright nofun .nil
  case isFalse hnone =>
    simp only [Bool.or_eq_true, decide_eq_true_eq] at hnone
    obtain rfl : left = leftEnd := by omega
    obtain rfl : right = rightEnd := by omega
    exact .nil

theorem changesFrom_leads {bs : List Block} (h : Follow p leftEnd rightEnd left right bs) :
    Leads p leftEnd rightEnd left right (changesFrom left right leftEnd rightEnd bs) := by
  induction h with
  | nil hleft hright => exact gap_leads hleft hright
  | cons hleft hright halike _ ih =>
    apply (gap_leads hleft hright).append
    exact .same (c := ⟨true, _, _, _, _⟩) halike ih

/-- Common lines end with those of their tail. -/
theorem Alike.tail (h : p.Alike c.left c.right c.leftEnd c.rightEnd) :
    p.Alike c.left c.right c.tail.left c.tail.right ∧
      p.Alike c.tail.left c.tail.right c.leftEnd c.rightEnd := by
  obtain ⟨n, hleft, hright, -⟩ := id h
  have hcut := h.split (i := n - context) (by omega)
  have hleft' : c.tail.left = c.left + (n - context) := by
    simp only [Change.tail]
    omega
  have hright' : c.tail.right = c.right + (n - context) := by
    simp only [Change.tail]
    omega
  rwa [hleft', hright']

/-- Common lines begin with those of their head. -/
theorem Alike.head (h : p.Alike c.left c.right c.leftEnd c.rightEnd) :
    p.Alike c.left c.right c.head.leftEnd c.head.rightEnd ∧
      p.Alike c.head.leftEnd c.head.rightEnd c.leftEnd c.rightEnd := by
  obtain ⟨n, hleft, hright, -⟩ := id h
  have hcut := h.split (i := min n context) (by omega)
  have hleft' : c.head.leftEnd = c.left + min n context := by
    simp only [Change.head]
    omega
  have hright' : c.head.rightEnd = c.right + min n context := by
    simp only [Change.head]
    omega
  rwa [hleft', hright']

/-- Between the head and the tail of many common lines there are common lines. -/
theorem Alike.middle (h : p.Alike c.left c.right c.leftEnd c.rightEnd)
    (hlong : c.leftEnd - c.left > 2 * context) :
    p.Alike c.head.leftEnd c.head.rightEnd c.tail.left c.tail.right := by
  obtain ⟨n, hleft, hright, -⟩ := id h
  have hmiddle := ((h.split (i := n - context) (by omega)).1.split (i := context) (by omega)).2
  have hhead : c.head.leftEnd = c.left + context ∧ c.head.rightEnd = c.right + context := by
    simp only [Change.head]
    omega
  have htail : c.tail.left = c.left + (n - context) ∧ c.tail.right = c.right + (n - context) := by
    simp only [Change.tail]
    omega
  rwa [hhead.1, hhead.2, htail.1, htail.2]

theorem trimFirst_leads (h : Leads p leftEnd rightEnd left right cs) :
    ∃ a b, p.Alike left right a b ∧ Leads p leftEnd rightEnd a b (trimFirst cs) := by
  cases h with
  | nil => exact ⟨_, _, .nil _ _, .nil⟩
  | @cons c cs hleft hright hsame hcs =>
    rw [trimFirst]
    split
    case isTrue hc =>
      obtain ⟨hfront, htail⟩ := (hsame hc).tail
      exact ⟨_, _, hfront, .same (c := c.tail) htail hcs⟩
    case isFalse => exact ⟨_, _, .nil _ _, .cons hleft hright hsame hcs⟩

theorem trimLast_leads (h : Leads p leftEnd rightEnd left right cs) :
    ∃ a b, Leads p a b left right (trimLast cs) ∧ p.Alike a b leftEnd rightEnd := by
  rcases List.eq_nil_or_concat' cs with rfl | ⟨cs, c, rfl⟩
  · exact ⟨_, _, h, .nil _ _⟩
  · rw [trimLast, List.getLast?_concat]
    dsimp only
    split
    case isFalse => exact ⟨_, _, h, .nil _ _⟩
    case isTrue hc =>
      obtain ⟨a, b, hcs, hlast⟩ := h.of_append
      obtain ⟨rfl, rfl, hsame, hnil⟩ := hlast.of_cons
      obtain ⟨rfl, rfl⟩ := hnil.of_nil
      obtain ⟨hhead, hback⟩ := (hsame hc).head
      rw [List.dropLast_concat]
      exact ⟨_, _, hcs.append (.same (c := c.head) hhead .nil), hback⟩

/-- Hunks that lead from one pair of lines to another, over common lines between them. -/
inductive Spans (p : Pair) (leftEnd rightEnd : Nat) : (left right : Nat) → List (List Change) → Prop
  | nil {a b} : p.Alike a b leftEnd rightEnd → Spans p leftEnd rightEnd a b []
  | cons {i j a b c d} {group : List Change} {groups : List (List Change)} :
      p.Alike i j a b → Leads p c d a b group → Spans p leftEnd rightEnd c d groups →
      Spans p leftEnd rightEnd i j (group :: groups)

variable {groups : List (List Change)}

theorem Spans.before (halike : p.Alike left right leftMid rightMid)
    (h : Spans p leftEnd rightEnd leftMid rightMid groups) :
    Spans p leftEnd rightEnd left right groups := by
  cases h with
  | nil halike' => exact .nil (halike.append halike')
  | cons halike' hgroup hgroups => exact .cons (halike.append halike') hgroup hgroups

theorem Spans.le (h : Spans p leftEnd rightEnd left right groups) :
    left ≤ leftEnd ∧ right ≤ rightEnd := by
  induction h with
  | nil halike => exact halike.le
  | cons halike hgroup _ ih =>
    obtain ⟨hleft, hright⟩ := halike.le
    obtain ⟨hleft', hright'⟩ := hgroup.le
    omega

/-- What is grouped so far leads to where the other changes begin. -/
theorem grouped_spans {a b a' b' a'' b'' : Nat} (hfront : p.Alike left right a b)
    (hgroup : Leads p a' b' a b group) (hcs : Leads p a'' b'' a' b' cs)
    (hback : p.Alike a'' b'' leftEnd rightEnd) :
    Spans p leftEnd rightEnd left right (grouped group cs) := by
  induction cs generalizing left right a b a' b' group with
  | nil =>
    cases hcs
    exact .cons hfront hgroup (.nil hback)
  | cons c cs ih =>
    cases hcs with
    | cons hleft hright hsame hrest =>
      rw [grouped]
      split
      case isFalse => exact ih hfront (hgroup.append (.cons hleft hright hsame .nil)) hrest
      case isTrue hlong =>
        rw [Bool.and_eq_true, decide_eq_true_eq] at hlong
        obtain ⟨hc, hlong⟩ := hlong
        have halike := hsame hc
        have htail : Leads p c.leftEnd c.rightEnd c.tail.left c.tail.right [c.tail] :=
          .same (c := c.tail) halike.tail.2 .nil
        have hhead := hgroup.append (.same (c := c.head) halike.head.1 .nil)
        exact .cons hfront hhead (ih (halike.middle hlong) htail hrest)

/-- Groups without a change are common lines. -/
theorem Spans.filter (h : Spans p leftEnd rightEnd left right groups) :
    Spans p leftEnd rightEnd left right (groups.filter fun group => group.any (!·.same)) := by
  induction h with
  | nil halike => exact .nil halike
  | cons halike hgroup _ ih =>
    rw [List.filter_cons]
    split
    case isTrue => exact .cons halike hgroup ih
    case isFalse hnone =>
      refine .before (halike.append (hgroup.alike ?_)) ih
      intro c hc
      rw [List.any_eq_true] at hnone
      by_contra hchange
      exact hnone ⟨c, hc, by simpa using hchange⟩

theorem hunks_spans (h : Leads p leftEnd rightEnd left right cs) :
    Spans p leftEnd rightEnd left right (hunks cs) := by
  obtain ⟨a, b, hfront, htrimmed⟩ := trimFirst_leads h
  obtain ⟨a', b', hgroup, hback⟩ := trimLast_leads htrimmed
  exact (grouped_spans hfront .nil hgroup hback).filter

/-- The hunks of the difference of two texts lead over the whole of them. -/
theorem changes_spans (old new : List String) :
    Spans (of old new) (of old new).old.size (of old new).new.size 0 0
      (hunks (of old new).changes) :=
  hunks_spans (changesFrom_leads (blocks_follow old new))

end Pair
end RubySig.Diff
