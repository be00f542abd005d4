import RubySig.Proofs.Tree.Items
import RubySig.Tree.CommentBlock

/-!
Which comment goes to which item. Items take the blocks right above them in the order in which they
end, so that a block above a line goes to the item that ends first of those that start on the line.
-/
namespace RubySig

def Item.topLine (item : Item) : Nat :=
  ({ item.lead with comment := none }.firstLine item.location).toNat

namespace CommentBlock

def isAbove (line : Nat) (b : CommentBlock) : Bool := b.stop.line + 1 == line

/-- Items take the blocks right above them one after the other, and other blocks are left. -/
inductive Attached : List CommentBlock → List Item → List CommentBlock → Prop where
  | nil {bs} : Attached bs [] bs
  | cons {bs item items left} :
      item.lead.comment = (takeAbove item.topLine bs).1.map comment →
      Attached (takeAbove item.topLine bs).2 items left → Attached bs (item :: items) left

variable {bs mid left : List CommentBlock} {item : Item} {items front back : List Item}

theorem Attached.single (h : item.lead.comment = (takeAbove item.topLine bs).1.map comment) :
    Attached bs [item] (takeAbove item.topLine bs).2 :=
  .cons h .nil

theorem Attached.append (h : Attached bs front mid) (h' : Attached mid back left) :
    Attached bs (front ++ back) left := by
  induction h with
  | nil => exact h'
  | cons hcomment _ ih => exact .cons hcomment (ih h')

theorem Attached.split (h : Attached bs (front ++ back) left) :
    ∃ mid, Attached bs front mid ∧ Attached mid back left := by
  induction front generalizing bs with
  | nil => exact ⟨bs, .nil, h⟩
  | cons item front ih =>
    cases h with
    | cons hcomment hrest =>
      obtain ⟨mid, hfront, hback⟩ := ih hrest
      exact ⟨mid, .cons hcomment hfront, hback⟩

theorem takeAbove_perm (line : Nat) (blocks : List CommentBlock) :
    ((takeAbove line blocks).1.toList ++ (takeAbove line blocks).2).Perm blocks := by
  induction blocks with
  | nil => exact .refl _
  | cons b bs ih =>
    rw [takeAbove]
    split
    · exact .refl _
    · exact List.perm_middle.trans (ih.cons b)

/-- Each block goes to one item or is left. -/
theorem Attached.perm (h : Attached bs items left) : ∃ taken : List CommentBlock,
    taken.map comment = items.filterMap (·.lead.comment) ∧ (taken ++ left).Perm bs := by
  induction h with
  | nil => exact ⟨[], rfl, .refl _⟩
  | @cons bs item items left hcomment _ ih =>
    obtain ⟨taken, htaken, hperm⟩ := ih
    refine ⟨(takeAbove item.topLine bs).1.toList ++ taken, ?_, ?_⟩
    · rw [List.map_append, htaken, List.filterMap_cons, hcomment]
      cases (takeAbove item.topLine bs).1 <;> rfl
    · rw [List.append_assoc]
      exact (hperm.append_left _).trans (takeAbove_perm item.topLine bs)

/-- No two blocks end on one line. -/
def Apart (bs : List CommentBlock) : Prop := (bs.map (·.stop.line)).Nodup

variable {b : CommentBlock} {line : Nat}

theorem apart_cons {first : CommentBlock} :
    Apart (first :: bs) ↔ (∀ b ∈ bs, b.stop.line ≠ first.stop.line) ∧ Apart bs := by
  simp [Apart]

theorem Apart.filter (h : Apart bs) (p : CommentBlock → Bool) : Apart (bs.filter p) :=
  h.sublist (List.filter_sublist.map _)

@[simp] theorem isAbove_iff : b.isAbove line = true ↔ line = b.stop.line + 1 := by
  rw [isAbove, beq_iff_eq, eq_comm]

theorem isAbove_eq_false : b.isAbove line = false ↔ line ≠ b.stop.line + 1 := by
  rw [← Bool.not_eq_true, isAbove_iff]

/-- Above a line ends at most one block. -/
theorem Apart.find (h : Apart bs) (hb : b ∈ bs) :
    bs.find? (isAbove (b.stop.line + 1)) = some b := by
  induction bs with
  | nil => cases hb
  | cons first bs ih =>
    obtain ⟨hfirst, hbs⟩ := apart_cons.mp h
    obtain rfl | hb := List.mem_cons.mp hb
    · exact List.find?_cons_of_pos (isAbove_iff.mpr rfl)
    · rw [List.find?_cons_of_neg, ih hbs hb]
      rw [isAbove_iff, Nat.add_right_cancel_iff]
      exact hfirst b hb

theorem Apart.takeAbove_eq (h : Apart bs) (line : Nat) :
    takeAbove line bs = (bs.find? (isAbove line), bs.filter fun b => !isAbove line b) := by
  induction bs with
  | nil => rfl
  | cons first bs ih =>
    obtain ⟨hfirst, hbs⟩ := apart_cons.mp h
    by_cases habove : first.isAbove line = true
    · have hrest : ∀ b ∈ bs, (!isAbove line b) = true := by
        intro b hb
        rw [Bool.not_eq_true', isAbove_eq_false, isAbove_iff.mp habove, Ne,
          Nat.add_right_cancel_iff]
        exact (hfirst b hb).symm
      rw [List.find?_cons_of_pos habove, List.filter_cons_of_neg (by simp [habove]),
        List.filter_eq_self.mpr hrest]
      exact if_pos habove
    · rw [List.find?_cons_of_neg habove, List.filter_cons_of_pos (by simp [habove]),
        takeAbove, ih hbs]
      exact if_neg habove

/-- What is left are the blocks that end above none of the items. -/
theorem Attached.left_eq (h : Attached bs items left) (hbs : Apart bs) :
    left = bs.filter fun b => items.all fun i => !isAbove i.topLine b := by
  induction h with
  | nil => exact (List.filter_eq_self.mpr fun _ _ => rfl).symm
  | @cons bs item items left _ _ ih =>
    have hrest : (takeAbove item.topLine bs).2 = bs.filter fun b => !isAbove item.topLine b := by
      rw [hbs.takeAbove_eq]
    rw [ih (hrest ▸ hbs.filter _), hrest, List.filter_filter]
    simp [Bool.and_comm]

theorem stop_line_of_comment {b' : CommentBlock} (h : b'.comment = b.comment) :
    b'.stop.line = b.stop.line := by
  have hlocation : Span.between b'.start b'.stop = Span.between b.start b.stop :=
    Option.some.inj (congrArg Comment.location h)
  exact Int.ofNat_inj.mp (congrArg Span.endLine hlocation)

/-- A block goes to an item where it ends right above the item and nothing that ends before the item
starts on the same line. -/
theorem Attached.comment_iff (h : Attached bs (front ++ item :: back) left) (hbs : Apart bs)
    (hb : b ∈ bs) : item.lead.comment = some b.comment ↔
      item.topLine = b.stop.line + 1 ∧ ∀ i ∈ front, i.topLine ≠ item.topLine := by
  obtain ⟨mid, hfront, hrest⟩ := h.split
  have hmid := hfront.left_eq hbs
  have hmem (b : CommentBlock) : b ∈ mid ↔ b ∈ bs ∧ ∀ i ∈ front, i.topLine ≠ b.stop.line + 1 := by
    simp [hmid, isAbove_eq_false]
  have hapart : Apart mid := hmid ▸ hbs.filter _
  cases hrest with
  | cons hcomment _ =>
    rw [hcomment, hapart.takeAbove_eq, Option.map_eq_some_iff]
    constructor
    · rintro ⟨b', hfound, heq⟩
      have hline := stop_line_of_comment heq
      have habove : item.topLine = b'.stop.line + 1 := isAbove_iff.mp (List.find?_some hfound)
      refine ⟨hline ▸ habove, ?_⟩
      rw [habove]
      exact ((hmem b').mp (List.mem_of_find?_eq_some hfound)).2
    · rintro ⟨hline, hfirst⟩
      have hb : b ∈ mid := (hmem b).mpr ⟨hb, hline ▸ hfirst⟩
      exact ⟨b, hline ▸ hapart.find hb, rfl⟩

end CommentBlock
end RubySig
