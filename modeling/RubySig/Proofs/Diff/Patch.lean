import RubySig.Diff.Unified
import RubySig.Proofs.Format.Words

/-!
Reading a difference as a patch. The heads of its hunks tell how many lines of each text a hunk
covers and how many stand in front of them; a line of a hunk keeps, drops or adds a line.
-/
namespace RubySig.Diff

open Format (takeWhile_append toDigits_isDigit)

inductive Closed : List Char → Prop
  | single {c} : isLineEnd c = true → Closed [c]
  | pair : Closed ['\r', '\n']
  | cons {c cs} : isLineEnd c = false → Closed cs → Closed (c :: cs)

theorem Closed.ne_nil {cs : List Char} (h : Closed cs) : cs ≠ [] := by
  cases h <;> exact List.cons_ne_nil _ _

/-- A word without line ends is closed by a line feed. -/
theorem Closed.of_word {word : List Char} (h : ∀ c ∈ word, isLineEnd c = false) :
    Closed (word ++ ['\n']) := by
  induction word with
  | nil => exact .single (by decide)
  | cons c word ih =>
    obtain ⟨hc, hword⟩ := List.forall_mem_cons.mp h
    exact .cons hc (ih hword)

/-- A character in front of lines: in front of the first one, if there is one. -/
def ahead (c : Char) : List (List Char) → List (List Char)
  | line :: rest => (c :: line) :: rest
  | [] => [[c]]

theorem lines_step {c : Char} {cs : List Char}
    (hpair : ∀ cs', c = '\r' → cs = '\n' :: cs' → False) :
    lines (c :: cs) = if isLineEnd c = true then [c] :: lines cs else ahead c (lines cs) := by
  cases cs with
  | nil => rw [lines.eq_3 c hpair, lines, ahead]
  | cons d cs =>
    cases hlines : lines (d :: cs) with
    | nil => rw [lines.eq_5 c (d :: cs) nofun hpair hlines, hlines, ahead]
    | cons line rest => rw [lines.eq_4 c (d :: cs) line rest nofun hpair hlines, hlines, ahead]

theorem lines_end {c : Char} (h : isLineEnd c = true) {cs : List Char}
    (hpair : ∀ cs', c = '\r' → cs = '\n' :: cs' → False) : lines (c :: cs) = [c] :: lines cs := by
  rw [lines_step hpair, if_pos h]

theorem lines_cons {c : Char} (h : isLineEnd c = false) (cs : List Char) :
    lines (c :: cs) = ahead c (lines cs) := by
  have hpair : ∀ cs', c = '\r' → cs = '\n' :: cs' → False := by
    rintro cs' rfl
    exact absurd h (by decide)
  rw [lines_step hpair, if_neg (by simp [h])]

/-- A closed line is the first one of a text, unless its end goes on there. -/
theorem Closed.lines_append {line rest : List Char} (h : Closed line)
    (hrest : rest.head? ≠ some '\n') :
    lines (line ++ rest) = line :: lines rest := by
  induction h with
  | single hc =>
    rename_i c
    have hpair : ∀ cs', c = '\r' → rest = '\n' :: cs' → False := by
      rintro cs' - rfl
      exact hrest rfl
    exact lines_end hc hpair
  | pair => rfl
  | cons hc _ ih => rw [List.cons_append, lines_cons hc, ih, ahead]

/-- A text of closed lines has these lines. -/
theorem lines_flatten {ls : List (List Char)} (h : ∀ l ∈ ls, Closed l ∧ l.head? ≠ some '\n') :
    lines ls.flatten = ls := by
  induction ls with
  | nil => rfl
  | cons l ls ih =>
    obtain ⟨hl, hls⟩ := List.forall_mem_cons.mp h
    have hrest : ls.flatten.head? ≠ some '\n' := by
      cases ls with
      | nil => simp
      | cons l' ls =>
        obtain ⟨hl', -⟩ := List.forall_mem_cons.mp hls
        rw [List.flatten_cons, List.head?_append_of_ne_nil _ hl'.1.ne_nil]
        exact hl'.2
    rw [List.flatten_cons, hl.1.lines_append hrest, ih hls]

def Ended (cs : List Char) : Prop :=
  ∀ c ∈ cs.getLast?, isLineEnd c = true

theorem flatten_lines (cs : List Char) : (lines cs).flatten = cs := by
  induction cs using lines.induct with
  | case1 => rfl
  | case2 cs ih => rw [lines, List.flatten_cons, ih]; rfl
  | case3 c cs hpair hc ih => rw [lines_end hc hpair, List.flatten_cons, ih]; rfl
  | case4 c hc => rw [lines_cons (by simpa using hc)]; rfl
  | case5 c cs _ hc line rest hlines _ ih =>
    rw [lines_cons (by simpa using hc), hlines]
    rw [hlines] at ih
    rw [ahead, List.flatten_cons, List.cons_append, ← List.flatten_cons, ih]
  | case6 c cs _ hc hlines hne ih =>
    rw [hlines] at ih
    exact absurd ih.symm hne

theorem closed_lines {cs : List Char} (h : Ended cs) : ∀ line ∈ lines cs, Closed line := by
  induction cs using lines.induct with
  | case1 => exact List.forall_mem_nil _
  | case2 cs ih =>
    rw [lines, List.forall_mem_cons]
    refine ⟨.pair, ih fun c hc => h c ?_⟩
    rw [List.getLast?_cons_cons, List.getLast?_cons, hc]
    rfl
  | case3 c cs hpair hc ih =>
    rw [lines_end hc hpair, List.forall_mem_cons]
    refine ⟨.single hc, ih fun d hd => h d ?_⟩
    rw [List.getLast?_cons, hd]
    rfl
  | case4 c hc => exact absurd (h c rfl) hc
  | case5 c cs _ hc line rest hlines hne ih =>
    have hends : Ended cs := by
      intro d hd
      apply h d
      rw [List.getLast?_cons, hd]
      rfl
    have hclosed := ih hends
    rw [hlines, List.forall_mem_cons] at hclosed
    rw [lines_cons (by simpa using hc), hlines, ahead, List.forall_mem_cons]
    exact ⟨.cons (by simpa using hc) hclosed.1, hclosed.2⟩
  | case6 c cs _ hc hlines hne ih =>
    have hflat := flatten_lines cs
    rw [hlines] at hflat
    exact absurd hflat.symm hne

/-- The lines of a text that a hunk covers: how many stand in front of them, and how many they
are. -/
structure Extent where
  before : Nat
  count : Nat
  deriving DecidableEq, Repr

def number? (cs : List Char) : Option (Nat × List Char) :=
  let digits := cs.takeWhile Char.isDigit
  if digits.isEmpty then none else some (Nat.ofDigitChars 10 digits 0, cs.drop digits.length)

/-- Reads how many lines a hunk covers, unless it is one. -/
def count? : List Char → Option (Nat × List Char)
  | ',' :: rest => number? rest
  | rest => some (1, rest)

/-- Reads the number of the first line that a hunk covers and how many they are. If there are none,
the number is that of the line in front. -/
def extent? (cs : List Char) : Option (Extent × List Char) := do
  let (first, rest) ← number? cs
  let (count, rest) ← count? rest
  if count = 0 then some (⟨first, 0⟩, rest)
  else if first = 0 then none
  else some (⟨first - 1, count⟩, rest)

/-- Reads the head of a hunk. -/
def head? : List Char → Option (Extent × Extent)
  | '@' :: '@' :: ' ' :: '-' :: rest => do
    let (old, rest) ← extent? rest
    match rest with
    | ' ' :: '+' :: rest =>
      let (new, rest) ← extent? rest
      if rest = [' ', '@', '@', '\n'] then some (old, new) else none
    | _ => none
  | _ => none

theorem number_digits (n : Nat) {rest : List Char} (h : ∀ c ∈ rest.head?, c.isDigit = false) :
    number? ((toString n).toList ++ rest) = some (n, rest) := by
  have hdigits : (toString n).toList = Nat.toDigits 10 n := by simp
  have hread : (Nat.toDigits 10 n ++ rest).takeWhile Char.isDigit = Nat.toDigits 10 n :=
    (takeWhile_append (fun _ => toDigits_isDigit) h).1
  simp only [number?, hdigits, hread, List.isEmpty_iff, Nat.toDigits_ne_nil, if_false,
    List.drop_left, Nat.ofDigitChars_ten_toDigits]

theorem count_one {rest : List Char} (h : ∀ c ∈ rest.head?, c ≠ ',') :
    count? rest = some (1, rest) := by
  cases rest with
  | nil => rfl
  | cons c rest =>
    rw [count?]
    rintro rest' heq
    exact h c rfl (List.cons.inj heq).1

theorem extent_read {cs rest rest' : List Char} {first count : Nat}
    (h : number? cs = some (first, rest)) (h' : count? rest = some (count, rest')) : extent? cs =
      if count = 0 then some (⟨first, 0⟩, rest') else if first = 0 then none
        else some (⟨first - 1, count⟩, rest') := by
  simp only [extent?, h, Option.bind_eq_bind, Option.bind_some, h']

/-- The range of a hunk is read as what it covers. -/
theorem extent_rangeText (start stop : Nat) (rest : List Char)
    (h : ∀ c ∈ rest.head?, c.isDigit = false ∧ c ≠ ',') :
    extent? ((rangeText start stop).toList ++ rest) = some (⟨start, stop - start⟩, rest) := by
  have hdigit : ∀ c ∈ rest.head?, c.isDigit = false := fun c hc => (h c hc).1
  have hone := count_one fun c hc => (h c hc).2
  -- with more lines than one, or none, their number stands behind a comma
  have hcount (first n : Nat) :
      extent? ((toString first).toList ++ ',' :: ((toString n).toList ++ rest)) =
        if n = 0 then some (⟨first, 0⟩, rest) else if first = 0 then none
          else some (⟨first - 1, n⟩, rest) :=
    extent_read (number_digits first (by simp)) (number_digits n hdigit)
  simp only [rangeText]
  split
  case isTrue hlength =>
    rw [eq_of_beq hlength, extent_read (number_digits (start + 1) hdigit) hone,
      if_neg Nat.one_ne_zero,
      if_neg (Nat.succ_ne_zero start), Nat.add_sub_cancel]
  case isFalse hlength =>
    split
    case isTrue hnone =>
      rw [eq_of_beq hnone, String.toList_append, List.append_assoc]
      exact hcount start 0
    case isFalse hsome =>
      rw [beq_iff_eq] at hsome
      have hread := hcount (start + 1) (stop - start)
      rw [if_neg hsome, if_neg (Nat.succ_ne_zero start), Nat.add_sub_cancel] at hread
      rw [← hread]
      simp only [String.toList_append, List.append_assoc]
      rfl

end RubySig.Diff
