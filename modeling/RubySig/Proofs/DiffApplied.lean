import RubySig.Proofs.CanonicalShape
import RubySig.Proofs.Diff.Hunks
import RubySig.Proofs.Diff.Patch
import RubySig.Proofs.FilesRewritten

/-!
A difference is a patch: applied to the old text, line by line, it gives the new one. The last lines
of both texts must have ends, for a line without one runs into the next line of the difference.
-/
namespace RubySig.Diff

/-- How far a patch is applied: the new lines so far, how many old lines are gone through, those to
come, and how many lines of each text the hunk still owes. -/
structure Progress where
  made : List (List Char)
  used : Nat
  left : List (List Char)
  oldOwed : Nat
  newOwed : Nat
  deriving DecidableEq, Repr

namespace Progress

/-- Keeps the lines in front of a hunk. -/
def enter (s : Progress) (old new : Extent) : Option Progress :=
  let common := old.before - s.used
  if s.used ≤ old.before ∧ common ≤ s.left.length ∧ new.before = s.made.length + common then
    some ⟨s.made ++ s.left.take common, old.before, s.left.drop common, old.count, new.count⟩
  else none

/-- Goes through an old line, which must be the one that the patch has. -/
def pass (s : Progress) (line : List Char) : Option Progress :=
  match s.left, s.oldOwed with
  | l :: left, owed + 1 =>
    if l = line then some { s with used := s.used + 1, left := left, oldOwed := owed } else none
  | _, _ => none

def add (s : Progress) (line : List Char) : Option Progress :=
  match s.newOwed with
  | owed + 1 => some { s with made := s.made ++ [line], newOwed := owed }
  | 0 => none

/-- Reads one line of a patch: a line of a hunk as long as one is owed, then the head of the
next. -/
def step (s : Progress) (line : List Char) : Option Progress :=
  if s.oldOwed = 0 ∧ s.newOwed = 0 then do
    let (old, new) ← head? line
    s.enter old new
  else
    match line with
    | ' ' :: line => do (← s.pass line).add line
    | '-' :: line => s.pass line
    | '+' :: line => s.add line
    | _ => none

/-- Keeps the lines behind the last hunk. -/
def finish (s : Progress) : Option (List (List Char)) :=
  if s.oldOwed = 0 ∧ s.newOwed = 0 then some (s.made ++ s.left) else none

end Progress

/-- A text with a patch applied to it; the first two lines of a patch name the texts. -/
def patched (patch old : List Char) : Option (List Char) :=
  match lines patch with
  | [] => some old
  | oldName :: newName :: hunks =>
    if ['-', '-', '-', ' '] <+: oldName ∧ ['+', '+', '+', ' '] <+: newName then do
      let s ← hunks.foldlM Progress.step ⟨[], 0, lines old, 0, 0⟩
      return (← s.finish).flatten
    else none
  | _ => none

section Runs

variable {made left : List (List Char)} {used m n : Nat}

theorem step_head {line : List Char} {old new : Extent} (h : head? line = some (old, new)) :
    Progress.step ⟨made, used, left, 0, 0⟩ line =
      Progress.enter ⟨made, used, left, 0, 0⟩ old new := by
  simp [Progress.step, h]

theorem step_keep (l : List Char) : Progress.step ⟨made, used, l :: left, m + 1, n + 1⟩ (' ' :: l) =
    some ⟨made ++ [l], used + 1, left, m, n⟩ := by
  simp [Progress.step, Progress.pass, Progress.add]

theorem step_drop (l : List Char) : Progress.step ⟨made, used, l :: left, m + 1, n⟩ ('-' :: l) =
    some ⟨made, used + 1, left, m, n⟩ := by
  simp [Progress.step, Progress.pass]

theorem step_add (l : List Char) : Progress.step ⟨made, used, left, m, n + 1⟩ ('+' :: l) =
    some ⟨made ++ [l], used, left, m, n⟩ := by
  simp [Progress.step, Progress.add]

theorem keep_run (ls : List (List Char)) :
    (ls.map (' ' :: ·)).foldlM Progress.step
      ⟨made, used, ls ++ left, ls.length + m, ls.length + n⟩ =
      some ⟨made ++ ls, used + ls.length, left, m, n⟩ := by
  induction ls generalizing made used with
  | nil => simp
  | cons l ls ih =>
    rw [List.map_cons, List.foldlM_cons, List.length_cons, Nat.add_right_comm ls.length 1 m,
      Nat.add_right_comm ls.length 1 n, List.cons_append, step_keep, Option.bind_eq_bind,
      Option.bind_some,
      ih]
    simp [Nat.add_assoc, Nat.add_comm 1]

theorem drop_run (ls : List (List Char)) :
    (ls.map ('-' :: ·)).foldlM Progress.step ⟨made, used, ls ++ left, ls.length + m, n⟩ =
      some ⟨made, used + ls.length, left, m, n⟩ := by
  induction ls generalizing used with
  | nil => simp
  | cons l ls ih =>
    rw [List.map_cons, List.foldlM_cons, List.length_cons, Nat.add_right_comm, List.cons_append,
      step_drop, Option.bind_eq_bind, Option.bind_some, ih]
    simp [Nat.add_assoc, Nat.add_comm 1]

theorem add_run (ls : List (List Char)) :
    (ls.map ('+' :: ·)).foldlM Progress.step ⟨made, used, left, m, ls.length + n⟩ =
      some ⟨made ++ ls, used, left, m, n⟩ := by
  induction ls generalizing made with
  | nil => simp
  | cons l ls ih =>
    rw [List.map_cons, List.foldlM_cons, List.length_cons, Nat.add_right_comm, step_add,
      Option.bind_eq_bind, Option.bind_some, ih]
    simp

end Runs

/-- Lines of a text, from one up to another. -/
def slice (ls : Array String) (start stop : Nat) : List (List Char) :=
  ((ls.toList.drop start).take (stop - start)).map String.toList

section Slices

variable {ls : Array String} {i j k : Nat}

theorem slice_append (hij : i ≤ j) (hjk : j ≤ k) : slice ls i j ++ slice ls j k = slice ls i k := by
  obtain ⟨m, rfl⟩ := Nat.exists_eq_add_of_le hij
  obtain ⟨n, rfl⟩ := Nat.exists_eq_add_of_le hjk
  simp only [slice, ← List.map_append]
  rw [Nat.add_sub_cancel_left, Nat.add_sub_cancel_left, Nat.add_assoc, Nat.add_sub_cancel_left,
    ← List.drop_drop, ← List.take_add]

theorem length_slice (h : j ≤ ls.size) : (slice ls i j).length = j - i := by
  simp [slice]
  omega

theorem slice_self : slice ls i i = [] := by
  simp [slice]

theorem slice_all : slice ls 0 ls.size = ls.toList.map String.toList := by
  simp [slice]

end Slices

namespace Pair

variable {p : Pair} {left right leftEnd rightEnd : Nat}

theorem Alike.slice (h : p.Alike left right leftEnd rightEnd) :
    slice p.old left leftEnd = slice p.new right rightEnd := by
  obtain ⟨n, rfl, rfl, hsame⟩ := h
  rw [Diff.slice, Diff.slice, Nat.add_sub_cancel_left, Nat.add_sub_cancel_left]
  congr 1
  apply List.ext_getElem?
  intro k
  rw [List.getElem?_take, List.getElem?_take]
  split
  case isTrue hk =>
    rw [List.getElem?_drop, List.getElem?_drop, Array.getElem?_toList, Array.getElem?_toList]
    exact hsame k hk
  case isFalse => rfl

def changeLines (p : Pair) (c : Change) : List (List Char) :=
  if c.same then (slice p.old c.left c.leftEnd).map (' ' :: ·)
  else (slice p.old c.left c.leftEnd).map ('-' :: ·) ++
    (slice p.new c.right c.rightEnd).map ('+' :: ·)

variable {made rest : List (List Char)} {c : Change} {group : List Change} {m n : Nat}

/-- Behind its lines, a change has been made. -/
theorem change_run (made rest : List (List Char))
    (halike : c.same = true → p.Alike c.left c.right c.leftEnd c.rightEnd)
    (hleft : c.left ≤ c.leftEnd) (hleftEnd : c.leftEnd ≤ p.old.size)
    (hrightEnd : c.rightEnd ≤ p.new.size) :
    (p.changeLines c).foldlM Progress.step
        ⟨made, c.left, slice p.old c.left c.leftEnd ++ rest, (c.leftEnd - c.left) + m,
          (c.rightEnd - c.right) + n⟩ =
      some ⟨made ++ slice p.new c.right c.rightEnd, c.leftEnd, rest, m, n⟩ := by
  have hold := length_slice (i := c.left) hleftEnd
  have hnew := length_slice (i := c.right) hrightEnd
  rw [changeLines]
  split
  case isTrue hsame =>
    have hslice := (halike hsame).slice
    rw [← hnew, ← hslice, ← hold, keep_run, hold, Nat.add_sub_cancel' hleft]
  case isFalse =>
    rw [List.foldlM_append, ← hold, drop_run, Option.bind_eq_bind,
      Option.bind_some, ← hnew, add_run,
      hold, Nat.add_sub_cancel' hleft]

/-- Behind its lines, a hunk owes nothing. -/
theorem group_run (made rest : List (List Char)) (h : Leads p leftEnd rightEnd left right group)
    (hleft : leftEnd ≤ p.old.size) (hright : rightEnd ≤ p.new.size) :
    (group.flatMap p.changeLines).foldlM Progress.step
        ⟨made, left, slice p.old left leftEnd ++ rest, leftEnd - left, rightEnd - right⟩ =
      some ⟨made ++ slice p.new right rightEnd, leftEnd, rest, 0, 0⟩ := by
  induction h generalizing made with
  | nil => simp [slice_self]
  | @cons c cs hleft' hright' halike hcs ih =>
    obtain ⟨hold, hnew⟩ := hcs.le
    have hchange := change_run (m := leftEnd - c.leftEnd) (n := rightEnd - c.rightEnd) made
      (slice p.old c.leftEnd leftEnd ++ rest) halike hleft' (Nat.le_trans hold hleft)
      (Nat.le_trans hnew hright)
    rw [← List.append_assoc, slice_append hleft' hold,
      show c.leftEnd - c.left + (leftEnd - c.leftEnd) = leftEnd - c.left by omega,
      show c.rightEnd - c.right + (rightEnd - c.rightEnd) = rightEnd - c.right by omega] at hchange
    rw [List.flatMap_cons, List.foldlM_append, hchange, Option.bind_eq_bind, Option.bind_some, ih,
      List.append_assoc, slice_append hright' hnew]

def headLine (first last : Change) : List Char :=
  '@' :: '@' :: ' ' :: '-' :: ((rangeText first.left last.leftEnd).toList ++
    ' ' :: '+' :: ((rangeText first.right last.rightEnd).toList ++ [' ', '@', '@', '\n']))

def hunkLines (p : Pair) (group : List Change) : List (List Char) :=
  match group.head?, group.getLast? with
  | some first, some last => headLine first last :: group.flatMap p.changeLines
  | _, _ => []

theorem head_headLine (first last : Change) : head? (headLine first last) =
    some (⟨first.left, last.leftEnd - first.left⟩, ⟨first.right, last.rightEnd - first.right⟩) := by
  have hnew := extent_rangeText first.right last.rightEnd [' ', '@', '@', '\n'] (by simp)
  have hold := extent_rangeText first.left last.leftEnd
    (' ' :: '+' :: ((rangeText first.right last.rightEnd).toList ++ [' ', '@', '@', '\n']))
      (by simp)
  simp only [headLine, head?, hold, Option.bind_eq_bind, Option.bind_some, hnew, if_true]

theorem Leads.ends {first last : Change} (h : Leads p leftEnd rightEnd left right group)
    (hfirst : group.head? = some first) (hlast : group.getLast? = some last) :
    first.left = left ∧ first.right = right ∧ last.leftEnd = leftEnd ∧
    last.rightEnd = rightEnd := by
  obtain ⟨tail, htail⟩ := List.head?_eq_some_iff.mp hfirst
  obtain ⟨front, hfront⟩ := List.getLast?_eq_some_iff.mp hlast
  obtain ⟨hleft, hright, -⟩ := (htail ▸ h).of_cons
  obtain ⟨a, b, -, hend⟩ := (hfront ▸ h).of_append
  obtain ⟨-, -, -, hnil⟩ := hend.of_cons
  obtain ⟨hleftEnd, hrightEnd⟩ := hnil.of_nil
  exact ⟨hleft.symm, hright.symm, hleftEnd, hrightEnd⟩

/-- Between two hunks, the lines that both texts have are kept. -/
theorem enter_alike {leftMid rightMid : Nat} (h : p.Alike left right leftMid rightMid)
    (hleft : leftMid ≤ p.old.size) (hright : rightMid ≤ p.new.size) (oldCount newCount : Nat) :
    Progress.enter ⟨slice p.new 0 right, left, slice p.old left p.old.size, m, n⟩
      ⟨leftMid, oldCount⟩
        ⟨rightMid, newCount⟩ =
      some ⟨slice p.new 0 rightMid, leftMid, slice p.old leftMid p.old.size,
        oldCount, newCount⟩ := by
  obtain ⟨hleft', hright'⟩ := h.le
  have hsame := h.slice
  have hlength : (slice p.old left leftMid).length = leftMid - left := length_slice hleft
  have hmade : (slice p.new 0 right).length = right := length_slice (Nat.le_trans hright' hright)
  have hcut : slice p.old left p.old.size =
      slice p.old left leftMid ++ slice p.old leftMid p.old.size :=
    (slice_append hleft' hleft).symm
  have hequal : rightMid = right + (leftMid - left) := by
    obtain ⟨k, rfl, rfl, -⟩ := h
    omega
  rw [Progress.enter]
  dsimp only
  rw [if_pos]
  · rw [hcut, ← hlength, List.take_left, List.drop_left, hsame,
      slice_append (Nat.zero_le _) hright']
  · rw [hmade, length_slice (Nat.le_refl _)]
    exact ⟨hleft', by omega, hequal⟩

/-- Behind its head and its lines, a hunk has been made. -/
theorem hunk_run {leftMid rightMid : Nat} (halike : p.Alike left right leftMid rightMid)
    (h : Leads p leftEnd rightEnd leftMid rightMid group) (hne : group ≠ [])
    (hleft : leftEnd ≤ p.old.size) (hright : rightEnd ≤ p.new.size) :
    (p.hunkLines group).foldlM Progress.step
        ⟨slice p.new 0 right, left, slice p.old left p.old.size, 0, 0⟩ =
      some ⟨slice p.new 0 rightEnd, leftEnd, slice p.old leftEnd p.old.size, 0, 0⟩ := by
  obtain ⟨hleft', hright'⟩ := h.le
  have hfirst := List.head?_eq_some_head hne
  have hlast := List.getLast?_eq_some_getLast hne
  obtain ⟨hstart, hstart', hstop, hstop'⟩ := h.ends hfirst hlast
  have henter := enter_alike (m := 0) (n := 0) halike (Nat.le_trans hleft' hleft)
    (Nat.le_trans hright' hright) (leftEnd - leftMid) (rightEnd - rightMid)
  have hgroup := group_run (slice p.new 0 rightMid) (slice p.old leftEnd p.old.size) h hleft hright
  rw [slice_append hleft' hleft, slice_append (Nat.zero_le _) hright'] at hgroup
  rw [hunkLines, hfirst, hlast]
  dsimp only
  rw [List.foldlM_cons, step_head (head_headLine _ _), hstart, hstart', hstop, hstop', henter,
    Option.bind_eq_bind, Option.bind_some, hgroup]

/-- Behind all hunks, the rest of both texts is the same. -/
theorem spans_run {groups : List (List Change)}
    (h : Spans p p.old.size p.new.size left right groups) :
    ∃ s, (groups.flatMap p.hunkLines).foldlM Progress.step
        ⟨slice p.new 0 right, left, slice p.old left p.old.size, 0, 0⟩ = some s ∧
      s.finish = some (p.new.toList.map String.toList) := by
  induction groups generalizing left right with
  | nil =>
    cases h with
    | nil halike =>
      refine ⟨_, rfl, ?_⟩
      rw [Progress.finish, if_pos ⟨rfl, rfl⟩]
      dsimp only
      rw [halike.slice, slice_append (Nat.zero_le _) halike.le.2, slice_all]
  | cons group groups ih =>
    cases h with
    | @cons _ _ a b c d _ _ halike hgroup hgroups =>
      by_cases hne : group = []
      · subst hne
        obtain ⟨rfl, rfl⟩ := hgroup.of_nil
        exact ih (hgroups.before halike)
      · obtain ⟨hleft, hright⟩ := hgroups.le
        obtain ⟨s, hrun, hfinish⟩ := ih hgroups
        refine ⟨s, ?_, hfinish⟩
        rw [List.flatMap_cons, List.foldlM_append, hunk_run halike hgroup hne hleft hright,
          Option.bind_eq_bind, Option.bind_some, hrun]

theorem linesText_toList {sign : String} {c : Char} (h : sign.toList = [c]) (ls : Array String)
    (start stop : Nat) :
    (linesText sign ls start stop).toList = ((slice ls start stop).map (c :: ·)).flatten := by
  rw [linesText, String.toList_join, List.flatMap_map, Array.toList_extract,
    List.extract_eq_take_drop,
    slice, List.map_map, List.flatMap_def]
  congr 1
  apply List.map_congr_left
  intro line _
  rw [String.toList_append, h]
  rfl

theorem changeText_toList (p : Pair) (c : Change) :
    (p.changeText c).toList = (p.changeLines c).flatten := by
  rw [changeText, changeLines]
  split
  case isTrue => exact linesText_toList rfl ..
  case isFalse =>
    rw [String.toList_append, linesText_toList (c := '-') rfl, linesText_toList (c := '+') rfl,
      List.flatten_append]

theorem hunkText_toList (p : Pair) (group : List Change) :
    (p.hunkText group).toList = (p.hunkLines group).flatten := by
  have hbody : (String.join (group.map p.changeText)).toList =
      (group.flatMap p.changeLines).flatten := by
    rw [String.toList_join, List.flatMap_map, ← List.flatMap_id, List.flatMap_assoc]
    simp only [changeText_toList, List.flatMap_id]
  rw [hunkText, hunkLines]
  cases hfirst : group.head? with
  | none => rfl
  | some first =>
    cases hlast : group.getLast? with
    | none => rfl
    | some last =>
      simp only [String.toList_append, hbody, List.flatten_cons, headLine]
      simp only [List.append_assoc, List.cons_append]
      rfl

/-- The first line of a difference, and the second. -/
def nameLine (sign : Char) (name : String) : List Char :=
  sign :: sign :: sign :: ' ' :: (name.toList ++ ['\n'])

def patchLines (p : Pair) (oldName newName : String) : List (List Change) → List (List Char)
  | [] => []
  | hunk :: hunks =>
    nameLine '-' oldName :: nameLine '+' newName :: (hunk :: hunks).flatMap p.hunkLines

end Pair

theorem text_toList (oldName newName old new : String) :
    (text oldName newName old new).toList =
      ((Pair.of ((lines old.toList).map String.ofList)
        ((lines new.toList).map String.ofList)).patchLines
        oldName newName (hunks (Pair.of ((lines old.toList).map String.ofList)
          ((lines new.toList).map String.ofList)).changes)).flatten := by
  generalize hp : Pair.of ((lines old.toList).map String.ofList)
    ((lines new.toList).map String.ofList) = p
  simp only [text, hp]
  cases hunks p.changes with
  | nil => rfl
  | cons group groups =>
    have hbody : (String.join ((group :: groups).map p.hunkText)).toList =
        ((group :: groups).flatMap p.hunkLines).flatten := by
      rw [String.toList_join, List.flatMap_map, ← List.flatMap_id, List.flatMap_assoc]
      simp only [Pair.hunkText_toList, List.flatMap_id]
    simp only [String.toList_append, hbody, Pair.patchLines, List.flatten_cons, Pair.nameLine]
    simp only [List.append_assoc, List.cons_append]
    rfl

def Signed (line : List Char) : Prop :=
  ['@', '@'] <+: line ∨ ∃ sign rest, line = sign :: rest ∧ (sign = ' ' ∨ sign = '-' ∨ sign = '+')

theorem Signed.head {line : List Char} (h : Signed line) : line.head? ≠ some '\n' := by
  rcases h with ⟨rest, rfl⟩ | ⟨sign, rest, rfl, rfl | rfl | rfl⟩
  all_goals simp

theorem isLineEnd_of_isDigit {c : Char} (h : c.isDigit = true) : isLineEnd c = false := by
  simp only [Char.isDigit, Bool.and_eq_true, decide_eq_true_eq, UInt32.le_iff_toNat_le] at h
  obtain ⟨hlow, hhigh⟩ : 48 ≤ c.toNat ∧ c.toNat ≤ 57 := h
  simp [isLineEnd]
  omega

theorem rangeText_word {start stop : Nat} {c : Char} (h : c ∈ (rangeText start stop).toList) :
    isLineEnd c = false := by
  have hdigits {n : Nat} (hc : c ∈ (toString n).toList) : isLineEnd c = false :=
    isLineEnd_of_isDigit (Format.toDigits_isDigit (n := n) (by simpa using hc))
  simp only [rangeText] at h
  split at h
  case isTrue => exact hdigits h
  case isFalse =>
    split at h
    case isTrue =>
      rw [String.toList_append, List.mem_append] at h
      rcases h with h | h
      · exact hdigits h
      · have hword : ∀ c ∈ [',', '0'], isLineEnd c = false := by decide
        exact hword c h
    case isFalse =>
      rw [String.toList_append, String.toList_append, List.mem_append, List.mem_append] at h
      rcases h with (h | h) | h
      · exact hdigits h
      · have hword : ∀ c ∈ [','], isLineEnd c = false := by decide
        exact hword c h
      · exact hdigits h

namespace Pair

variable {p : Pair}

theorem mem_slice {ls : Array String} {start stop : Nat} {line : List Char}
    (h : line ∈ slice ls start stop) :
    line ∈ ls.toList.map String.toList :=
  List.map_subset _ (List.Subset.trans (List.take_subset ..) (List.drop_subset ..)) h

theorem changeLines_closed (hold : ∀ line ∈ p.old.toList.map String.toList, Closed line)
    (hnew : ∀ line ∈ p.new.toList.map String.toList, Closed line) (c : Change) :
    ∀ line ∈ p.changeLines c, Closed line ∧ Signed line := by
  have hsigned {ls : Array String} (hls : ∀ line ∈ ls.toList.map String.toList, Closed line)
      {sign : Char} (hsign : sign = ' ' ∨ sign = '-' ∨ sign = '+') {start stop : Nat} :
      ∀ line ∈ (slice ls start stop).map (sign :: ·), Closed line ∧ Signed line := by
    intro line hline
    obtain ⟨l, hl, rfl⟩ := List.mem_map.mp hline
    have hword : isLineEnd sign = false := by
      rcases hsign with rfl | rfl | rfl <;> decide
    exact ⟨.cons hword (hls l (mem_slice hl)), .inr ⟨sign, l, rfl, hsign⟩⟩
  rw [changeLines]
  split
  case isTrue => exact hsigned hold (.inl rfl)
  case isFalse =>
    rw [List.forall_mem_append]
    exact ⟨hsigned hold (.inr (.inl rfl)), hsigned hnew (.inr (.inr rfl))⟩

theorem headLine_closed (first last : Change) : Closed (headLine first last) := by
  have hsplit : headLine first last =
      ('@' :: '@' :: ' ' :: '-' :: ((rangeText first.left last.leftEnd).toList ++
      ' ' :: '+' :: ((rangeText first.right last.rightEnd).toList ++ [' ', '@', '@']))) ++
        ['\n'] := by
    simp [headLine]
  rw [hsplit]
  apply Closed.of_word
  simp only [List.forall_mem_cons, List.forall_mem_append]
  have hold : ∀ c ∈ (rangeText first.left last.leftEnd).toList, isLineEnd c = false :=
    fun _ => rangeText_word
  have hnew : ∀ c ∈ (rangeText first.right last.rightEnd).toList, isLineEnd c = false :=
    fun _ => rangeText_word
  exact ⟨by
    decide, by decide, by decide, by decide, hold, by decide, by decide, hnew, by decide, by decide,
    by decide, List.forall_mem_nil _⟩

theorem patchLines_closed {oldName newName : String}
    (hold : ∀ line ∈ p.old.toList.map String.toList, Closed line)
    (hnew : ∀ line ∈ p.new.toList.map String.toList, Closed line)
    (holdName : ∀ c ∈ oldName.toList, isLineEnd c = false)
    (hnewName : ∀ c ∈ newName.toList, isLineEnd c = false) (hunks : List (List Change)) :
    ∀ line ∈ p.patchLines oldName newName hunks, Closed line ∧ Signed line := by
  have hname {sign : Char} (hsign : isLineEnd sign = false) {name : String}
      (h : ∀ c ∈ name.toList, isLineEnd c = false) : Closed (nameLine sign name) :=
    .cons hsign (.cons hsign (.cons hsign (.cons (by decide) (.of_word h))))
  cases hunks with
  | nil => exact List.forall_mem_nil _
  | cons group groups =>
    rw [patchLines, List.forall_mem_cons, List.forall_mem_cons]
    refine ⟨⟨hname (by decide) holdName, .inr ⟨_, _, rfl, .inr (.inl rfl)⟩⟩,
      ⟨hname (by decide) hnewName, .inr ⟨_, _, rfl, .inr (.inr rfl)⟩⟩, ?_⟩
    intro line hline
    obtain ⟨hunk, -, hline⟩ := List.mem_flatMap.mp hline
    rw [hunkLines] at hline
    split at hline
    case h_1 first last _ _ =>
      rcases List.mem_cons.mp hline with rfl | hline
      · exact ⟨headLine_closed first last, .inl ⟨_, rfl⟩⟩
      · obtain ⟨c, -, hline⟩ := List.mem_flatMap.mp hline
        exact changeLines_closed hold hnew c line hline
    case h_2 => cases hline

end Pair

/-- The difference of two texts whose last lines have ends is a patch: each of its lines begins with
its sign, and applied to the old text it gives the new one. -/
theorem text_patches {old new oldName newName : String} (hold : Ended old.toList)
    (hnew : Ended new.toList) (holdName : ∀ c ∈ oldName.toList, isLineEnd c = false)
    (hnewName : ∀ c ∈ newName.toList, isLineEnd c = false) :
    (∀ line ∈ lines (text oldName newName old new).toList, Signed line) ∧
      patched (text oldName newName old new).toList old.toList = some new.toList := by
  have hcut (cs : List Char) :
      ((lines cs).map String.ofList).toArray.toList.map String.toList = lines cs := by
    simp [Function.comp_def]
  have hspans := Pair.changes_spans ((lines old.toList).map String.ofList)
    ((lines new.toList).map String.ofList)
  rw [text_toList]
  generalize hp : Pair.of ((lines old.toList).map String.ofList)
    ((lines new.toList).map String.ofList) = p
    at hspans ⊢
  have holdLines : p.old.toList.map String.toList = lines old.toList := hp ▸ hcut _
  have hnewLines : p.new.toList.map String.toList = lines new.toList := hp ▸ hcut _
  have hclosed := Pair.patchLines_closed (p := p) (holdLines ▸ closed_lines hold)
    (hnewLines ▸ closed_lines hnew) holdName hnewName (hunks p.changes)
  have hlines := lines_flatten fun line hline =>
    ⟨(hclosed line hline).1, (hclosed line hline).2.head⟩
  refine ⟨fun line hline => (hclosed line (hlines ▸ hline)).2, ?_⟩
  obtain ⟨s, hrun, hfinish⟩ := Pair.spans_run hspans
  rw [hnewLines] at hfinish
  rw [slice_all, holdLines, slice_self] at hrun
  rw [patched, hlines]
  cases hhunks : hunks p.changes with
  | nil =>
    rw [hhunks] at hrun
    cases hrun
    have hsame : lines old.toList = lines new.toList := Option.some.inj hfinish
    have htext := congrArg List.flatten hsame
    rw [flatten_lines, flatten_lines] at htext
    exact congrArg some htext
  | cons hunk hunks =>
    rw [hhunks] at hrun
    have hnames : ['-', '-', '-', ' '] <+: Pair.nameLine '-' oldName ∧
        ['+', '+', '+', ' '] <+: Pair.nameLine '+' newName := ⟨⟨_, rfl⟩, ⟨_, rfl⟩⟩
    simp only [Pair.patchLines, if_pos hnames, hrun, Option.bind_eq_bind, Option.bind_some, hfinish,
      flatten_lines, Option.pure_def]

/-- The last line of a formatted text has an end. -/
theorem formatted_ended (root : Root) (settings : Settings) (source : String) :
    Ended (root.formatted settings source).toList := by
  obtain ⟨strokes, htext, -⟩ := Format.formatted_drawn root settings source
  have hsettle := Doc.reverse_draw [] (strokes ++ [.newline 0])
  rw [List.dropWhile_nil, ite_self, List.reverse_nil, List.nil_append, ← htext,
    Doc.draw_append] at hsettle
  intro c hc
  rw [← hsettle] at hc
  simp only [Doc.draw, List.foldl_cons, List.foldl_nil, Doc.Stroke.onto, List.replicate_zero,
    List.nil_append,
    List.reverse_cons, List.getLast?_concat, Option.mem_some_iff] at hc
  rw [← hc]
  decide

/-- What has been formatted is told by a patch, if the last line of the source has an end. -/
theorem reformat_patches {settings : Settings} {source new name : String}
    (h : reformat settings source = .ok new) (hsource : Ended source.toList)
    (hname : ∀ c ∈ name.toList, isLineEnd c = false) :
    (∀ line ∈ lines (text (name ++ " (original)") (name ++ " (formatted)") source new).toList,
      Signed line) ∧
      patched
        (text (name ++ " (original)") (name ++ " (formatted)") source new).toList source.toList =
        some new.toList := by
  have hnew : Ended new.toList := by
    obtain ⟨root, -, rfl⟩ := Command.reformat_eq_ok_iff.mp h
    exact formatted_ended root settings source
  have hword {note : String} (hnote : ∀ c ∈ note.toList, isLineEnd c = false) :
      ∀ c ∈ (name ++ note).toList, isLineEnd c = false := by
    rw [String.toList_append, List.forall_mem_append]
    exact ⟨hname, hnote⟩
  exact text_patches hsource hnew (hword (by decide)) (hword (by decide))

/-- A last line without an end runs into the line behind it, and the difference is no patch. -/
example : lines (text "a" "b" "T:   X" "T: X\n").toList =
      ["--- a\n", "+++ b\n", "@@ -1 +1 @@\n", "-T:   X+T: X\n"].map String.toList ∧
    patched (text "a" "b" "T:   X" "T: X\n").toList "T:   X".toList = none := by
  decide +kernel

end RubySig.Diff
