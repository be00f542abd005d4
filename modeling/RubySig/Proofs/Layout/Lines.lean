import RubySig.Proofs.Format.Piece
import RubySig.Proofs.Layout.Visit

/-!
The lines of a run: what is taken up between one line end and the next. The text of a document is
its lines, those that end at an indenting break without the blanks at their end.
-/
namespace RubySig.Doc

/-- A line: the column it starts in, what is taken up on it, and whether its end trims it. -/
structure Line where
  start : Int
  visits : List Visit
  trimmed : Bool

namespace Line

/-- The line as it is before the blanks at its end go. -/
def text (l : Line) : List Char :=
  List.replicate l.start.toNat ' ' ++ l.visits.flatMap Visit.written

def shown (l : Line) : List Char :=
  if l.trimmed then Format.trimEnd l.text else l.text

def push (l : Line) (v : Visit) : Line := { l with visits := l.visits ++ [v] }

/-- The column that a line reaches. -/
def width (l : Line) : Int := l.start + (l.visits.flatMap Visit.written).length

end Line

/-- The lines of some visits, the first of which goes on with `line`. -/
def linesFrom (line : Line) : List Visit → List Line
  | [] => [line]
  | v :: vs =>
    if v.endsLine then { line with trimmed := v.trims } :: linesFrom ⟨v.margin, [], false⟩ vs
    else linesFrom (line.push v) vs

def lines (width : Int) (d : Doc) : List Line :=
  linesFrom ⟨0, [], false⟩ (d.run width)

theorem dropWhile_behind_newline (x y : List Char) :
    (x ++ '\n' :: y).dropWhile isTrailing = x.dropWhile isTrailing ++ '\n' :: y := by
  induction x with
  | nil => rfl
  | cons c x ih =>
    by_cases h : isTrailing c = true
    · simpa [h] using ih
    · simp [h]

/-- Nothing that is drawn reaches over the line end in front of it. -/
theorem draw_behind_newline (x y : List Char) (ss : List Stroke) :
    draw (x ++ '\n' :: y) ss = draw x ss ++ '\n' :: y := by
  induction ss generalizing x with
  | nil => rfl
  | cons s ss ih =>
    cases s with
    | char c => exact ih (c :: x)
    | newline n =>
      change draw (List.replicate n ' ' ++ '\n' :: (x ++ '\n' :: y).dropWhile isTrailing) ss = _
      rw [dropWhile_behind_newline]
      have := ih (List.replicate n ' ' ++ '\n' :: x.dropWhile isTrailing)
      rw [List.append_assoc] at this
      exact this

theorem Line.text_push (l : Line) (v : Visit) : (l.push v).text = l.text ++ v.written := by
  simp [text, push]

theorem linesFrom_ne_nil (line : Line) (vs : List Visit) : linesFrom line vs ≠ [] := by
  induction vs generalizing line with
  | nil => simp [linesFrom]
  | cons v vs ih =>
    rw [linesFrom]
    split
    · simp
    · exact ih (line.push v)

/-- What is drawn behind the beginning of a line is the rest of that line and the lines below. -/
theorem draw_lines (line : Line) (vs : List Visit) (h : line.trimmed = false) :
    (draw line.text.reverse (vs.flatMap Visit.strokes)).reverse =
      ['\n'].intercalate ((linesFrom line vs).map Line.shown) := by
  induction vs generalizing line with
  | nil => simp [linesFrom, Line.shown, h, draw]
  | cons v vs ih =>
    rw [List.flatMap_cons, draw_append, linesFrom]
    by_cases he : v.endsLine = true
    · have hnext := ih ⟨v.margin, [], false⟩ rfl
      rw [if_pos he, List.map_cons,
        List.intercalate_cons_of_ne_nil (by simp [linesFrom_ne_nil]), ← hnext]
      cases ht : v.trims with
      | true =>
        have hstroke : draw line.text.reverse v.strokes =
            List.replicate v.indent.toNat ' ' ++ '\n' ::
              line.text.reverse.dropWhile isTrailing := by
          simp [Visit.strokes, ht, draw, Stroke.onto]
        rw [hstroke, draw_behind_newline]
        simp [Line.shown, Format.trimEnd, Line.text, Visit.margin, ht]
      | false =>
        have hstroke : draw line.text.reverse v.strokes = [] ++ '\n' :: line.text.reverse := by
          simp [Visit.strokes, ht, he, draw, Stroke.onto]
        rw [hstroke, draw_behind_newline]
        simp [Line.shown, Line.text, Visit.margin, ht]
    · rw [if_neg he, ← ih (line.push v) h, Line.text_push]
      have ht : v.trims = false := Bool.eq_false_iff.mpr fun ht => he (Visit.endsLine_of_trims ht)
      simp [Visit.strokes, ht, he, draw_plain]

/-- A document is printed as its lines. -/
theorem render_lines (width : Int) (d : Doc) :
    (d.render width).toList = ['\n'].intercalate ((d.lines width).map Line.shown) := by
  rw [lines, ← draw_lines _ _ rfl, render_run, reverse_draw]
  simp [Line.text]

/-- Where nothing is written and no line ends, the column stays. -/
theorem Visit.after_silent {v : Visit} (he : v.endsLine = false) (hw : v.written = []) :
    v.after = v.column := by
  simp [after, he, hw]

theorem columnAfter_silent {v : Visit} (he : v.endsLine = false) (hw : v.written = [])
    (column : Int) (vs : List Visit) : columnAfter column (v :: vs) = columnAfter v.column vs := by
  rw [columnAfter, List.foldl_cons, Visit.after_silent he hw]
  rfl

/-- Each visit is in the column in which the one before it ends. -/
def Chained (column : Int) : List Visit → Prop
  | [] => True
  | v :: vs => v.column = column ∧ Chained v.after vs

theorem Chained.append {column : Int} {vs ws : List Visit} (h : Chained column vs)
    (k : Chained (columnAfter column vs) ws) : Chained column (vs ++ ws) := by
  induction vs generalizing column with
  | nil => exact k
  | cons v vs ih => exact ⟨h.1, ih h.2 k⟩

mutual

theorem chained_visits (width : Int) (following : Following) (i : Int) (mode : Mode)
    (column : Int) :
    (d : Doc) → Chained column (d.visits width following i mode column)
  | .text _ => ⟨rfl, trivial⟩
  | .group broken contents => by
    have h := chained_visitsAll width following i
      (groupMode width following mode column broken contents) column contents
    rw [visits]
    constructor
    · rfl
    · rwa [Visit.after_silent rfl rfl]
  | .indent extra contents => by
    have h := chained_visitsAll width following (i + extra) mode column contents
    rw [visits]
    constructor
    · rfl
    · rwa [Visit.after_silent rfl rfl]
  | .breakable _ _ _ => ⟨rfl, trivial⟩

theorem chained_visitsAll (width : Int) (following : Following) (i : Int) (mode : Mode)
    (column : Int) :
    (ds : List Doc) → Chained column (visitsAll width following i mode column ds)
  | [] => trivial
  | d :: ds => by
    rw [visitsAll]
    apply Chained.append
    · exact chained_visits width ((mode, ds) :: following) i mode column d
    · exact chained_visitsAll width following i mode _ ds

end

/-- The column that the line reaches on which some visits start. -/
def lineEnd (column : Int) : List Visit → Int
  | [] => column
  | v :: vs => if v.endsLine then column else lineEnd v.after vs

theorem lineEnd_append {column : Int} {vs : List Visit} (h : ∀ v ∈ vs, v.endsLine = false)
    (ws : List Visit) : lineEnd column (vs ++ ws) = lineEnd (columnAfter column vs) ws := by
  induction vs generalizing column with
  | nil => rfl
  | cons v vs ih =>
    rw [List.cons_append, lineEnd, h v List.mem_cons_self]
    exact ih fun u hu => h u (List.mem_cons_of_mem v hu)

theorem Line.width_push (l : Line) (v : Visit) :
    (l.push v).width = l.width + v.written.length := by
  simp [width, push]
  omega

end RubySig.Doc
