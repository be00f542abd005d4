import Mathlib.Algebra.GroupWithZero.Nat
import RubySig.Proofs.Layout.Fits

/-!
What a group is measured against. It fits exactly when the line that it would be put on is short
enough: its contents on one line and behind them what follows, up to the first line end that is
certain.
-/
namespace RubySig.Doc

/-- What is written: a text or a separator on the line, or the end of the line. -/
inductive Entry where
  | text (s : String)
  | lineEnd
  deriving DecidableEq

namespace Entry

def isText : Entry → Bool
  | .text _ => true
  | .lineEnd => false

def length : Entry → Nat
  | .text s => s.length
  | .lineEnd => 0

end Entry

mutual

/-- What a document writes in a mode, in order. A broken group is printed broken in any mode, and
other groups are printed as what is around them. -/
def entries (mode : Mode) : Doc → List Entry
  | .text s => [.text s]
  | .group broken contents => entriesAll (if broken then .broken else mode) contents
  | .indent _ contents => entriesAll mode contents
  | .breakable separator force _ =>
    if mode = .flat ∧ force = false then [.text separator] else [.lineEnd]

def entriesAll (mode : Mode) : List Doc → List Entry
  | [] => []
  | d :: ds => d.entries mode ++ entriesAll mode ds

end

/-- What is written for what follows, each part in its own mode. -/
def Following.entries (following : Following) : List Entry :=
  following.flatMap fun part => entriesAll part.1 part.2

/-- The columns up to the first line end, or of all there is. -/
def lineLength (es : List Entry) : Nat :=
  ((es.takeWhile Entry.isText).map Entry.length).sum

/-- The columns that contents need on one line, with what follows them on that line. -/
def roomNeeded (contents : List Doc) (following : Following) : Nat :=
  lineLength (entriesAll .flat contents ++ following.entries)

theorem lineLength_nil : lineLength [] = 0 := rfl

theorem lineLength_lineEnd (es : List Entry) : lineLength (.lineEnd :: es) = 0 := rfl

theorem lineLength_text (s : String) (es : List Entry) :
    lineLength (.text s :: es) = s.length + lineLength es := rfl

/-- What follows is measured by the length of the line that goes on with it. -/
def Following.Measured (following : Following) : Prop :=
  ∀ room : Int, 0 ≤ room →
    (measureFollowing room following = true ↔ (lineLength following.entries : Int) ≤ room)

theorem spend_iff {following : Following} (h : following.Measured) (room : Int) (s : String) :
    (spend room s.length).suffices following = true ↔
      (lineLength (.text s :: following.entries) : Int) ≤ room := by
  rw [lineLength_text]
  by_cases hs : room - s.length < 0
  · have hlong : ¬ ((s.length + lineLength following.entries : Nat) : Int) ≤ room := by omega
    rw [spend, if_pos hs]
    simpa [Room.suffices] using hlong
  · have hleft : 0 ≤ room - s.length := by omega
    rw [spend, if_neg hs]
    apply (h (room - s.length) hleft).trans
    omega

mutual

/-- A document is measured by the length of the line that goes on with it and with what follows
it. -/
theorem measure_iff {following : Following} {mode : Mode} {room : Int} (h : following.Measured)
    (hr : 0 ≤ room) :
    (d : Doc) → ((measure mode room d).suffices following = true ↔
      (lineLength (d.entries mode ++ following.entries) : Int) ≤ room)
  | .text s => by
    rw [measure, entries]
    exact spend_iff h room s
  | .group _ contents => by
    rw [measure, entries]
    exact measureAll_iff h hr contents
  | .indent _ contents => by
    rw [measure, entries]
    exact measureAll_iff h hr contents
  | .breakable separator force _ => by
    rw [measure, entries]
    by_cases hflat : mode = .flat ∧ force = false
    · have hwritten : (mode == .flat && !force) = true := by simpa using hflat
      rw [if_pos hflat, if_pos hwritten]
      exact spend_iff h room separator
    · have hends : ¬ (mode == .flat && !force) = true := by simpa using hflat
      rw [if_neg hflat, if_neg hends, List.singleton_append, lineLength_lineEnd]
      simpa [Room.suffices] using hr

theorem measureAll_iff {following : Following} {mode : Mode} {room : Int} (h : following.Measured)
    (hr : 0 ≤ room) :
    (ds : List Doc) → ((measureAll mode room ds).suffices following = true ↔
      (lineLength (entriesAll mode ds ++ following.entries) : Int) ≤ room)
  | [] => h room hr
  | d :: ds => by
    -- Behind the first document its siblings are one more part of what follows.
    have hbehind : Following.Measured ((mode, ds) :: following) := by
      intro room hr
      rw [measureFollowing_cons]
      exact measureAll_iff h hr ds
    rw [measureAll_suffices, entriesAll, List.append_assoc]
    exact measure_iff hbehind hr d

end

theorem Following.measured (following : Following) : following.Measured := by
  induction following with
  | nil =>
    intro room hr
    simpa [measureFollowing, Following.entries, lineLength_nil] using hr
  | cons part following ih =>
    intro room hr
    rw [measureFollowing_cons]
    exact measureAll_iff ih hr part.2

theorem fits_iff (contents : List Doc) (following : Following) (width : Int) :
    fits contents following width = true ↔ (roomNeeded contents following : Int) ≤ width := by
  rw [fits_eq, Bool.and_eq_true, decide_eq_true_iff]
  constructor
  · rintro ⟨hw, hs⟩
    exact (measureAll_iff following.measured hw contents).mp hs
  · intro hneeded
    have hw : 0 ≤ width := by omega
    exact ⟨hw, (measureAll_iff following.measured hw contents).mpr hneeded⟩

/-- Where the mode leaves it to a group, it is put on one line if the columns that are left are as
many as it needs. -/
theorem write_group (contents : List Doc) (following : Following) (width i : Int) (o : Output) :
    (Doc.group false contents).write width following i .broken o =
      writeAll width following i
        (if (roomNeeded contents following : Int) ≤ width - o.column then .flat else .broken)
        contents o := by
  have hdecided := fits_iff contents following (width - o.column)
  rw [write]
  by_cases hfits : fits contents following (width - o.column) = true
  · rw [if_pos (hdecided.mp hfits), hfits]
    rfl
  · rw [if_neg (mt hdecided.mpr hfits), Bool.eq_false_iff.mpr hfits]
    rfl

/-- Contents fit a width exactly when no more columns are needed for them and for what follows them,
up to the first line end, each part of it in its mode; so nothing fits a negative width, and a group
that is not broken is put on one line exactly where the columns that are left are enough. -/
theorem fits_exactly (contents : List Doc) (following : Following) :
    (∀ width : Int,
      fits contents following width = true ↔ (roomNeeded contents following : Int) ≤ width) ∧
    (∀ width : Int, width < 0 → fits contents following width = false) ∧
    ∀ (width i : Int) (o : Output), (Doc.group false contents).write width following i .broken o =
      writeAll width following i
        (if (roomNeeded contents following : Int) ≤ width - o.column then .flat else .broken)
        contents o := by
  split_ands
  · exact fits_iff contents following
  · intro width hw
    apply Bool.eq_false_iff.mpr
    intro hfits
    have hneeded := (fits_iff contents following width).mp hfits
    omega
  · exact write_group contents following

/-- A group in an indented part, with a separator of its own. -/
def nestedContents : List Doc :=
  [.text "a", .indent 2 [.group false [.breakable ", " false true, .text "b"]]]

/-- Two texts in front of the line end of a broken group, and one behind it. -/
def brokenFollowing : Following :=
  [(.flat, [.breakable " " false true, .text "c"]),
    (.broken, [.group true [.text "d", .breakable " " false true], .text "e"])]

theorem fits_exactly_sample :
    entriesAll .flat nestedContents ++ brokenFollowing.entries =
        [.text "a", .text ", ", .text "b", .text " ", .text "c", .text "d", .lineEnd, .text "e"] ∧
      fits nestedContents brokenFollowing 7 = true ∧
      ¬ fits nestedContents brokenFollowing 6 = true ∧
      (-1 : Int) < 0 ∧ fits nestedContents brokenFollowing (-1) = false := by
  obtain ⟨hfits, hnegative, -⟩ := fits_exactly nestedContents brokenFollowing
  have hneeded : roomNeeded nestedContents brokenFollowing = 7 := by decide
  split_ands
  · decide
  · rw [hfits, hneeded]
    decide
  · rw [hfits, hneeded]
    decide
  · decide
  · exact hnegative (-1) (by decide)

end RubySig.Doc
