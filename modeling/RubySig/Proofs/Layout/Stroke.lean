import RubySig.Layout.Doc

/-!
What a document can be printed as, whatever the width: a list of strokes, each a character or a
line end that trims the line before it. The widths only choose among these lists.
-/
namespace RubySig.Doc

/-- A character, or the start of a new line behind a trimmed one. -/
inductive Stroke where
  | char (c : Char)
  | newline (indent : Nat)

/-- The blanks that a line end removes. -/
def isTrailing (c : Char) : Bool := c == ' ' || c == '\t'

/-- A stroke behind what was written, which stands in reverse. -/
def Stroke.onto (written : List Char) : Stroke → List Char
  | .char c => c :: written
  | .newline n => List.replicate n ' ' ++ '\n' :: written.dropWhile isTrailing

def draw (written : List Char) (strokes : List Stroke) : List Char :=
  strokes.foldl Stroke.onto written

theorem draw_append (w : List Char) (s t : List Stroke) : draw w (s ++ t) = draw (draw w s) t := by
  simp [draw]

def plain (cs : List Char) : List Stroke := cs.map .char

theorem draw_plain (w cs : List Char) : draw w (plain cs) = cs.reverseAux w := by
  induction cs generalizing w with
  | nil => rfl
  | cons c cs ih => exact ih (c :: w)

/-- The stroke lists that a list of documents allows, at an indentation. -/
inductive Lays : Int → List Doc → List Stroke → Prop where
  | nil {i} : Lays i [] []
  | text {i s ds ss} : Lays i ds ss → Lays i (.text s :: ds) (plain s.toList ++ ss)
  | group {i b inner ds ts ss} : Lays i inner ts → Lays i ds ss →
      Lays i (.group b inner :: ds) (ts ++ ss)
  | indent {i k inner ds ts ss} : Lays (i + k) inner ts → Lays i ds ss →
      Lays i (.indent k inner :: ds) (ts ++ ss)
  | flat {i s m ds ss} : Lays i ds ss →
      Lays i (.breakable s false m :: ds) (plain s.toList ++ ss)
  | newline {i s f ds ss} : Lays i ds ss →
      Lays i (.breakable s f true :: ds) (.newline i.toNat :: ss)
  | raw {i s f ds ss} : Lays i ds ss →
      Lays i (.breakable s f false :: ds) (.char '\n' :: ss)

theorem Lays.append {i ds es ss ts} (h : Lays i ds ss) (k : Lays i es ts) :
    Lays i (ds ++ es) (ss ++ ts) := by
  induction h with
  | nil => exact k
  | text _ ih => rw [List.append_assoc]; exact .text (ih k)
  | group hg _ _ ih => rw [List.append_assoc]; exact .group hg (ih k)
  | indent hg _ _ ih => rw [List.append_assoc]; exact .indent hg (ih k)
  | flat _ ih => rw [List.append_assoc]; exact .flat (ih k)
  | newline _ ih => exact .newline (ih k)
  | raw _ ih => exact .raw (ih k)

theorem Lays.split {i ds es us} (h : Lays i (ds ++ es) us) :
    ∃ ss ts, us = ss ++ ts ∧ Lays i ds ss ∧ Lays i es ts := by
  induction ds generalizing us with
  | nil => exact ⟨[], us, rfl, .nil, h⟩
  | cons d ds ih =>
    cases h with
    | text h =>
      obtain ⟨ss, ts, rfl, hs, ht⟩ := ih h
      exact ⟨_, ts, (List.append_assoc ..).symm, .text hs, ht⟩
    | group hg h =>
      obtain ⟨ss, ts, rfl, hs, ht⟩ := ih h
      exact ⟨_, ts, (List.append_assoc ..).symm, .group hg hs, ht⟩
    | indent hg h =>
      obtain ⟨ss, ts, rfl, hs, ht⟩ := ih h
      exact ⟨_, ts, (List.append_assoc ..).symm, .indent hg hs, ht⟩
    | flat h =>
      obtain ⟨ss, ts, rfl, hs, ht⟩ := ih h
      exact ⟨_, ts, (List.append_assoc ..).symm, .flat hs, ht⟩
    | newline h =>
      obtain ⟨ss, ts, rfl, hs, ht⟩ := ih h
      exact ⟨_, ts, rfl, .newline hs, ht⟩
    | raw h =>
      obtain ⟨ss, ts, rfl, hs, ht⟩ := ih h
      exact ⟨_, ts, rfl, .raw hs, ht⟩

theorem Output.reversed_write (o : Output) (s : String) :
    (o.write s).reversed = draw o.reversed (plain s.toList) :=
  (draw_plain _ _).symm

mutual

/-- Whatever the width and the room, a document is written as strokes that it allows. -/
theorem write_lays (width : Int) (following : Following) (i : Int) (mode : Mode) :
    (d : Doc) → (o : Output) →
      ∃ ss, Lays i [d] ss ∧ (d.write width following i mode o).reversed = draw o.reversed ss
  | .text s, o => ⟨_, .text .nil, by simp [write, Output.reversed_write]⟩
  | .group b inner, o => by
    obtain ⟨ss, hs, h⟩ := writeAll_lays width following i
      (if b then .broken else if mode == .flat || fits inner following (width - o.column) then .flat
        else .broken) inner o
    exact ⟨_, .group hs .nil, by rw [List.append_nil]; exact h⟩
  | .indent k inner, o => by
    obtain ⟨ss, hs, h⟩ := writeAll_lays width following (i + k) mode inner o
    exact ⟨_, .indent hs .nil, by rw [List.append_nil]; exact h⟩
  | .breakable s f m, o => by
    rw [write]
    split
    case isTrue hf =>
      obtain rfl : f = false := by simp_all
      exact ⟨_, .flat .nil, by simp [Output.reversed_write]⟩
    case isFalse =>
      cases m with
      | true => exact ⟨_, .newline .nil, rfl⟩
      | false => exact ⟨_, .raw .nil, rfl⟩

theorem writeAll_lays (width : Int) (following : Following) (i : Int) (mode : Mode) :
    (ds : List Doc) → (o : Output) →
      ∃ ss, Lays i ds ss ∧ (writeAll width following i mode ds o).reversed = draw o.reversed ss
  | [], o => ⟨[], .nil, rfl⟩
  | d :: ds, o => by
    obtain ⟨ss, hs, h⟩ := write_lays width ((mode, ds) :: following) i mode d o
    obtain ⟨ts, ht, k⟩ := writeAll_lays width following i mode ds
      (d.write width ((mode, ds) :: following) i mode o)
    exact ⟨ss ++ ts, hs.append ht, by rw [writeAll, k, h, draw_append]⟩

end

/-- Whether only blanks stand before the next line end. -/
def endsLine : List Stroke → Bool
  | .newline _ :: _ => true
  | .char c :: ss => isTrailing c && endsLine ss
  | [] => false

/-- The text of strokes, with the blanks before line ends left out. -/
def settle : List Stroke → List Char
  | [] => []
  | .char c :: ss => if endsLine (.char c :: ss) then settle ss else c :: settle ss
  | .newline n :: ss => '\n' :: (if endsLine ss then [] else List.replicate n ' ') ++ settle ss

theorem dropWhile_replicate_append (n : Nat) (cs : List Char) :
    (List.replicate n ' ' ++ '\n' :: cs).dropWhile isTrailing = '\n' :: cs := by
  induction n with
  | zero => rfl
  | succ n ih => rw [List.replicate_succ, List.cons_append, List.dropWhile_cons_of_pos rfl, ih]

/-- Drawing forwards and settling backwards give one text. -/
theorem reverse_draw (w : List Char) (ss : List Stroke) :
    (draw w ss).reverse =
      (if endsLine ss then w.dropWhile isTrailing else w).reverse ++ settle ss := by
  induction ss generalizing w with
  | nil => simp [draw, settle, endsLine]
  | cons s ss ih =>
    change (draw (s.onto w) ss).reverse = _
    rw [ih]
    cases s with
    | char c =>
      simp only [Stroke.onto, settle, endsLine]
      by_cases hc : isTrailing c = true <;> by_cases he : endsLine ss = true <;>
        simp [hc, he]
    | newline n =>
      simp only [Stroke.onto, settle, endsLine, if_true]
      by_cases he : endsLine ss = true
      · simp [he, dropWhile_replicate_append]
      · simp [he]

/-- A rendered document is the text of strokes that it allows. -/
theorem render_lays (width : Int) (d : Doc) :
    ∃ ss, Lays 0 [d] ss ∧ (d.render width).toList = settle ss := by
  obtain ⟨ss, hs, h⟩ := write_lays width [] 0 .broken d ⟨[], 0⟩
  refine ⟨ss, hs, ?_⟩
  rw [render, String.toList_ofList, h, reverse_draw]
  simp

end RubySig.Doc
