import RubySig.Proofs.Format.Written

/-!
Printed text line by line: strokes as lines behind line ends, and pieces that leave none of their
lines empty, wherever their gaps end a line.
-/
namespace RubySig.Format

open Doc (Stroke plain endsLine settle isTrailing)

theorem trimEnd_subset (w : List Char) : ∀ c ∈ trimEnd w, c ∈ w := by
  intro c hc
  obtain ⟨blanks, hw, -⟩ := trimEnd_append w
  rw [hw]
  exact List.mem_append_left _ hc

/-- Strokes that draw lines, each behind a line end and without the blanks at its end. -/
inductive Ruled : List Stroke → List (List Char) → Prop where
  | nil : Ruled [] []
  | cons {n w ss lines} : '\n' ∉ w → Ruled ss lines →
      Ruled (.newline n :: (plain w ++ ss)) (trimEnd (List.replicate n ' ' ++ w) :: lines)

variable {ss ts : List Stroke} {lines more : List (List Char)}

namespace Ruled

theorem append (h : Ruled ss lines) (k : Ruled ts more) : Ruled (ss ++ ts) (lines ++ more) := by
  induction h with
  | nil => exact k
  | cons hw _ ih =>
    rw [List.cons_append, List.append_assoc, List.cons_append]
    exact .cons hw ih

/-- A line end in front of another one leaves an empty line. -/
theorem blank (n : Nat) : Ruled [.newline n] [[]] := by
  have h : Ruled (.newline n :: (plain [] ++ [])) [trimEnd (List.replicate n ' ' ++ [])] :=
    .cons (by simp) .nil
  have hempty : trimEnd (List.replicate n ' ' ++ []) = [] := by
    rw [List.append_nil, trimEnd, List.reverse_replicate, List.reverse_eq_nil_iff,
      List.dropWhile_eq_nil_iff]
    intro c hc
    rw [List.eq_of_mem_replicate hc]
    rfl
  rwa [hempty] at h

theorem trimmed (h : Ruled ss lines) : ∀ l ∈ lines, ∀ c ∈ l.getLast?, isTrailing c = false := by
  induction h with
  | nil => simp
  | cons _ _ ih =>
    intro l hl
    obtain rfl | hl := List.mem_cons.mp hl
    · exact trimEnd_getLast _
    · exact ih l hl

theorem oneLine (h : Ruled ss lines) : ∀ l ∈ lines, '\n' ∉ l := by
  induction h with
  | nil => simp
  | cons hw _ ih =>
    intro l hl
    obtain rfl | hl := List.mem_cons.mp hl
    · intro hmem
      rcases List.mem_append.mp (trimEnd_subset _ _ hmem) with hmem | hmem
      · cases List.eq_of_mem_replicate hmem
      · exact hw hmem
    · exact ih l hl

theorem endsLine_append (h : Ruled ss lines) (ht : endsLine ts = true) :
    endsLine (ss ++ ts) = true := by
  cases h with
  | nil => exact ht
  | cons _ _ => rfl

/-- The indentation of a line is drawn as blanks in front of it. -/
theorem settle_indented (n : Nat) (ss : List Stroke) :
    settle (.newline n :: ss) = '\n' :: settle (plain (List.replicate n ' ') ++ ss) := by
  rw [settle, List.cons_append, List.cons.injEq]
  refine ⟨rfl, ?_⟩
  by_cases hs : endsLine ss = true
  · have hblank : ∀ c ∈ List.replicate n ' ', isTrailing c = true := by
      intro c hc
      rw [List.eq_of_mem_replicate hc]
      rfl
    rw [if_pos hs, (settle_trimmed hblank hs).2, List.nil_append]
  · rw [if_neg hs, settle_standing _ (Bool.eq_false_iff.mpr hs)]

/-- The text of lines in front of one more line end. -/
theorem settle_append (h : Ruled ss lines) (ht : endsLine ts = true) :
    settle (ss ++ ts) = lines.flatMap ('\n' :: ·) ++ settle ts := by
  induction h with
  | nil => rfl
  | @cons n w ss lines _ h ih =>
    have hplain : plain (List.replicate n ' ') ++ (plain w ++ (ss ++ ts)) =
        plain (List.replicate n ' ' ++ w) ++ (ss ++ ts) := by
      rw [plain, plain, plain, List.map_append, List.append_assoc]
    rw [List.cons_append, List.append_assoc, settle_indented, hplain,
      settle_trimEnd _ (h.endsLine_append ht), ih, List.flatMap_cons, List.cons_append,
      List.cons_append, List.append_assoc]

end Ruled

/-- A text that shows on one line. -/
structure Solid (w : List Char) : Prop where
  oneLine : '\n' ∉ w
  visible : ∃ c ∈ w, isTrailing c = false

namespace Piece

/-- A word that shows on one line, or a comment line that is one. -/
def Fair : Piece → Prop
  | .word _ w => Solid w
  | .gap _ => True
  | .remark line => '\n' ∉ line

/-- Whether a word stands on every line, wherever the gaps end lines; `here` says whether one stands
on the line that the pieces go on with. -/
def fill (here : Bool) : List Piece → Bool
  | [] => here
  | .word _ _ :: ps => fill true ps
  | .gap .blank :: ps => fill here ps
  | .gap _ :: ps => here && fill false ps
  | .remark _ :: ps => fill false ps

end Piece

open Piece (fill)

/-- Pieces that leave no line empty. -/
structure Full (ps : List Piece) : Prop where
  fair : ∀ p ∈ ps, p.Fair
  fill : fill false ps = true

variable {ps qs : List Piece}

theorem fill_mono (h : fill false ps = true) : fill true ps = true := by
  induction ps with
  | nil => rfl
  | cons p ps ih =>
    cases p with
    | word l w => exact h
    | gap g =>
      cases g with
      | blank => exact ih h
      | space => cases h
      | soft => cases h
      | line => cases h
    | remark line => exact h

theorem fill_append {here : Bool} (h : fill here ps = true) (k : fill true qs = true) :
    fill here (ps ++ qs) = true := by
  induction ps generalizing here with
  | nil =>
    cases here with
    | true => exact k
    | false => cases h
  | cons p ps ih =>
    cases p with
    | word l w => exact ih h
    | gap g =>
      cases g with
      | blank => exact ih h
      | space | soft | line =>
        obtain ⟨hhere, hps⟩ := Bool.and_eq_true_iff.mp h
        exact Bool.and_eq_true_iff.mpr ⟨hhere, ih hps⟩
    | remark line => exact ih h

theorem trimEnd_ne_nil {w : List Char} (h : ∃ c ∈ w, isTrailing c = false) : trimEnd w ≠ [] := by
  obtain ⟨c, hc, hshown⟩ := h
  intro hempty
  obtain ⟨blanks, hw, hblanks⟩ := trimEnd_append w
  rw [hempty, List.nil_append] at hw
  rw [hw] at hc
  rw [hblanks c hc] at hshown
  cases hshown

/-- What is drawn on the line that is begun, and the lines below it. -/
structure Begun (here : Bool) (ss : List Stroke) (w : List Char) (ts : List Stroke)
    (lines : List (List Char)) : Prop where
  split : ss = plain w ++ ts
  ruled : Ruled ts lines
  oneLine : '\n' ∉ w
  visible : here = false → ∃ c ∈ w, isTrailing c = false
  full : ∀ l ∈ lines, l ≠ []

namespace Begun

variable {w v : List Char} {here : Bool}

/-- The line that is begun stands behind a line end. -/
theorem below (h : Begun false ss w ts lines) (n : Nat) :
    ∃ lines, Ruled (.newline n :: ss) lines ∧ ∀ l ∈ lines, l ≠ [] := by
  obtain ⟨c, hc, hshown⟩ := h.visible rfl
  rw [h.split]
  refine ⟨_, .cons h.oneLine h.ruled, ?_⟩
  intro l hl
  obtain rfl | hl := List.mem_cons.mp hl
  · exact trimEnd_ne_nil ⟨c, List.mem_append_right _ hc, hshown⟩
  · exact h.full l hl

theorem word (h : Begun true ss w ts lines) (hv : Solid v) :
    Begun here (plain v ++ ss) (v ++ w) ts lines where
  split := by rw [h.split, ← List.append_assoc, plain, plain, plain, List.map_append]
  ruled := h.ruled
  oneLine hmem := (List.mem_append.mp hmem).elim hv.oneLine h.oneLine
  visible _ := by
    obtain ⟨c, hc, hshown⟩ := hv.visible
    exact ⟨c, List.mem_append_left _ hc, hshown⟩
  full := h.full

theorem blank (h : Begun here ss w ts lines) :
    Begun here (plain [' '] ++ ss) (' ' :: w) ts lines where
  split := by
    rw [h.split]
    rfl
  ruled := h.ruled
  oneLine hmem := by
    rcases List.mem_cons.mp hmem with hmem | hmem
    · cases hmem
    · exact h.oneLine hmem
  visible hhere := by
    obtain ⟨c, hc, hshown⟩ := h.visible hhere
    exact ⟨c, List.mem_cons_of_mem _ hc, hshown⟩
  full := h.full

theorem weaken (h : Begun false ss w ts lines) : Begun true ss w ts lines :=
  ⟨h.split, h.ruled, h.oneLine, nofun, h.full⟩

/-- A line that ends at once, below which another one is begun. -/
theorem ended (h : Begun false ss w ts lines) (n : Nat) :
    ∃ w ts lines, Begun true (.newline n :: ss) w ts lines := by
  obtain ⟨lines, hruled, hfull⟩ := h.below n
  exact ⟨[], _, lines, rfl, hruled, by simp, nofun, hfull⟩

end Begun

/-- The drafts of pieces that fill their lines. -/
theorem Draft.begun (h : Draft ps ss) (hfair : ∀ p ∈ ps, p.Fair) {here : Bool}
    (hfill : fill here ps = true) : ∃ w ts lines, Begun here ss w ts lines := by
  induction h generalizing here with
  | nil =>
    cases hfill
    exact ⟨[], [], [], rfl, .nil, by simp, nofun, by simp⟩
  | @word l v ps ss _ ih =>
    obtain ⟨w, ts, lines, hbegun⟩ := ih (fun p hp => hfair p (List.mem_cons_of_mem _ hp)) hfill
    exact ⟨_, _, _, hbegun.word (hfair _ List.mem_cons_self)⟩
  | @gap g us ps ss hg _ ih =>
    have ih {here : Bool} := @ih (fun p hp => hfair p (List.mem_cons_of_mem _ hp)) here
    cases g with
    | blank =>
      obtain rfl := hg
      obtain ⟨w, ts, lines, hbegun⟩ := ih hfill
      exact ⟨_, _, _, hbegun.blank⟩
    | space =>
      obtain ⟨rfl, hps⟩ := Bool.and_eq_true_iff.mp hfill
      obtain ⟨w, ts, lines, hbegun⟩ := ih hps
      obtain rfl | ⟨n, rfl⟩ := hg
      · exact ⟨_, _, _, hbegun.weaken.blank⟩
      · exact hbegun.ended n
    | soft =>
      obtain ⟨rfl, hps⟩ := Bool.and_eq_true_iff.mp hfill
      obtain ⟨w, ts, lines, hbegun⟩ := ih hps
      obtain rfl | ⟨n, rfl⟩ := hg
      · exact ⟨_, _, _, hbegun.weaken⟩
      · exact hbegun.ended n
    | line =>
      obtain ⟨rfl, hps⟩ := Bool.and_eq_true_iff.mp hfill
      obtain ⟨w, ts, lines, hbegun⟩ := ih hps
      obtain ⟨n, rfl⟩ := hg
      exact hbegun.ended n
  | @remark line n ps ss _ ih =>
    obtain ⟨w, ts, lines, hbegun⟩ := ih (fun p hp => hfair p (List.mem_cons_of_mem _ hp)) hfill
    obtain ⟨_, _, _, hended⟩ := hbegun.ended n
    have hline : '\n' ∉ line := hfair _ List.mem_cons_self
    have hsolid : Solid ('#' :: ' ' :: line) := ⟨by simpa using hline, '#', by simp, rfl⟩
    exact ⟨_, _, _, hended.word hsolid⟩

/-- Behind a line end, full pieces are drawn as lines that are not empty. -/
theorem Draft.ruled (h : Draft (.gap .line :: ps) ss) (hps : Full ps) :
    ∃ lines, Ruled ss lines ∧ ∀ l ∈ lines, l ≠ [] := by
  cases h with
  | gap hg h =>
    obtain ⟨n, rfl⟩ := hg
    obtain ⟨w, ts, lines, hbegun⟩ := h.begun hps.fair hps.fill
    exact hbegun.below n

theorem Draft.split (h : Draft (ps ++ qs) ss) :
    ∃ ts us, ss = ts ++ us ∧ Draft ps ts ∧ Draft qs us := by
  induction ps generalizing ss with
  | nil => exact ⟨[], ss, rfl, .nil, h⟩
  | cons p ps ih =>
    cases h with
    | word h =>
      obtain ⟨ts, us, rfl, hts, hus⟩ := ih h
      exact ⟨_, us, (List.append_assoc ..).symm, .word hts, hus⟩
    | gap hg h =>
      obtain ⟨ts, us, rfl, hts, hus⟩ := ih h
      exact ⟨_, us, (List.append_assoc ..).symm, .gap hg hts, hus⟩
    | @remark line n _ _ h =>
      obtain ⟨ts, us, rfl, hts, hus⟩ := ih h
      refine ⟨plain ('#' :: ' ' :: line) ++ .newline n :: ts, us, ?_, .remark hts, hus⟩
      rw [List.append_assoc, List.cons_append]

end RubySig.Format
