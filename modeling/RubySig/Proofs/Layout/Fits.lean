import RubySig.Proofs.Layout.Lines
import RubySig.Proofs.Layout.Marks

/-!
What measuring says about the line that is printed. Measuring takes every group that still has to be
decided as broken; such a group may be put on one line later, but only where it fits by a measure of
its own, so the line is never longer than was measured or is measured again.
-/
namespace RubySig.Doc

def Room.suffices (following : Following) : Room → Bool
  | .left columns => measureFollowing columns following
  | .decided fits => fits

theorem measureFollowing_cons (room : Int) (mode : Mode) (ds : List Doc) (following : Following) :
    measureFollowing room ((mode, ds) :: following) =
      (measureAll mode room ds).suffices following := by
  rw [measureFollowing]
  cases measureAll mode room ds <;> rfl

theorem measureAll_suffices (mode : Mode) (room : Int) (d : Doc) (ds : List Doc)
    (following : Following) :
    (measureAll mode room (d :: ds)).suffices following =
      (measure mode room d).suffices ((mode, ds) :: following) := by
  rw [measureAll]
  cases measure mode room d with
  | left columns => exact (measureFollowing_cons columns mode ds following).symm
  | decided fits => rfl

theorem fits_eq (contents : List Doc) (following : Following) (width : Int) :
    fits contents following width =
      (decide (0 ≤ width) && (measureAll .flat width contents).suffices following) := by
  rw [fits]
  by_cases h : width < 0
  · rw [if_pos h, decide_eq_false (by omega), Bool.false_and]
  · rw [if_neg h, decide_eq_true (by omega), Bool.true_and]
    cases measureAll .flat width contents <;> rfl

mutual

/-- How many columns a document takes on one line. -/
def flatLength : Doc → Nat
  | .text s => s.length
  | .group _ contents => flatLengthAll contents
  | .indent _ contents => flatLengthAll contents
  | .breakable separator _ _ => separator.length

def flatLengthAll : List Doc → Nat
  | [] => 0
  | d :: ds => d.flatLength + flatLengthAll ds

end

theorem spend_nothing {room : Int} (h : 0 ≤ room) : spend room 0 = .left room := by
  simp [spend]
  omega

mutual

/-- On one line a document without forced line ends takes its length. -/
theorem measure_flat {room : Int} (hr : 0 ≤ room) :
    (d : Doc) → d.Marked → d.forced = false → measure .flat room d = spend room d.flatLength
  | .text _, _, _ => rfl
  | .group broken contents, hm, hf => by
    obtain ⟨hb, hmarked⟩ := marked_group_iff.mp hm
    rw [measure, show broken = false from hb.trans hf]
    exact measureAll_flat hr contents hmarked hf
  | .indent _ contents, hm, hf => measureAll_flat hr contents (marked_indent_iff.mp hm) hf
  | .breakable _ force _, _, hf => by
    rw [measure, show force = false from hf]
    rfl

theorem measureAll_flat {room : Int} (hr : 0 ≤ room) :
    (ds : List Doc) → (∀ d ∈ ds, d.Marked) → anyForced ds = false →
      measureAll .flat room ds = spend room (flatLengthAll ds)
  | [], _, _ => (spend_nothing hr).symm
  | d :: ds, hm, hf => by
    obtain ⟨hd, hds⟩ := Bool.or_eq_false_iff.mp hf
    rw [measureAll, measure_flat hr d (hm d List.mem_cons_self) hd, flatLengthAll]
    have hrest := fun e he => hm e (List.mem_cons_of_mem d he)
    by_cases h : room - d.flatLength < 0
    · have : room - (d.flatLength + flatLengthAll ds : Nat) < 0 := by omega
      simp only [spend, if_pos h, if_pos this]
    · have hleft : 0 ≤ room - d.flatLength := by omega
      have ih := measureAll_flat hleft ds hrest hds
      simp only [spend, if_neg h, ih]
      rw [Int.natCast_add, Int.sub_sub]

end

/-- Visits of documents on one line: no line ends there, and they reach their length. -/
structure OnOneLine (column : Int) (length : Nat) (vs : List Visit) : Prop where
  flat : ∀ v ∈ vs, v.mode = .flat ∧ v.endsLine = false
  reach : columnAfter column vs = column + length

theorem OnOneLine.append {column : Int} {m n : Nat} {vs ws : List Visit} (h : OnOneLine column m vs)
    (k : OnOneLine (column + m) n ws) : OnOneLine column (m + n) (vs ++ ws) := by
  constructor
  · exact List.forall_mem_append.mpr ⟨h.flat, k.flat⟩
  · rw [columnAfter_append, h.reach, k.reach]
    omega

theorem OnOneLine.single {v : Visit} (hm : v.mode = .flat) (he : v.endsLine = false) :
    OnOneLine v.column v.written.length [v] := by
  constructor
  · simp [hm, he]
  · simp [columnAfter, Visit.after, he]

mutual

theorem visits_flat (width : Int) (following : Following) (i column : Int) :
    (d : Doc) → d.Marked → d.forced = false →
      OnOneLine column d.flatLength (d.visits width following i .flat column)
  | .text s, _, _ => OnOneLine.single (v := ⟨.text s, .flat, i, column, following⟩) rfl rfl
  | .group broken contents, hm, hf => by
    obtain ⟨hb, hmarked⟩ := marked_group_iff.mp hm
    obtain rfl : broken = false := hb.trans hf
    have hinner := visitsAll_flat width following i column contents hmarked hf
    have hmode : groupMode width following .flat column false contents = .flat := rfl
    have hself := OnOneLine.single
      (v := ⟨.group false contents, .flat, i, column, following⟩) rfl rfl
    rw [visits, hmode, flatLength, ← List.singleton_append, ← Nat.zero_add (flatLengthAll contents)]
    apply hself.append
    simpa [Visit.written] using hinner
  | .indent extra contents, hm, hf => by
    have hinner := visitsAll_flat width following (i + extra) column contents
      (marked_indent_iff.mp hm) hf
    have hself := OnOneLine.single
      (v := ⟨.indent extra contents, .flat, i, column, following⟩) rfl rfl
    rw [visits, flatLength, ← List.singleton_append, ← Nat.zero_add (flatLengthAll contents)]
    apply hself.append
    simpa [Visit.written] using hinner
  | .breakable separator force margin, _, hf => by
    obtain rfl : force = false := hf
    exact OnOneLine.single (v :=
      ⟨.breakable separator false margin, .flat, i, column, following⟩) rfl rfl

theorem visitsAll_flat (width : Int) (following : Following) (i column : Int) :
    (ds : List Doc) → (∀ d ∈ ds, d.Marked) → anyForced ds = false →
      OnOneLine column (flatLengthAll ds) (visitsAll width following i .flat column ds)
  | [], _, _ => ⟨by simp [visitsAll], by simp [visitsAll, columnAfter, flatLengthAll]⟩
  | d :: ds, hm, hf => by
    obtain ⟨hd, hds⟩ := Bool.or_eq_false_iff.mp hf
    have hfirst := visits_flat width ((.flat, ds) :: following) i column d
      (hm d List.mem_cons_self) hd
    rw [visitsAll, hfirst.reach]
    apply hfirst.append
    exact visitsAll_flat width following i _ ds (fun e he => hm e (List.mem_cons_of_mem d he)) hds

end

/-- Where what follows is measured to fit, the rest of the run ends its line in time. -/
def Covers (width : Int) (following : Following) (rest : Int → List Visit) : Prop :=
  ∀ column ≤ width, measureFollowing (width - column) following = true →
    lineEnd column (rest column) ≤ width

/-- Some visits, and behind them the rest of a run. -/
def runOn (vs : Int → List Visit) (rest : Int → List Visit) (column : Int) : List Visit :=
  vs column ++ rest (columnAfter column (vs column))

variable {width : Int} {following : Following} {rest : Int → List Visit}

/-- A group that is still to be decided is put on one line exactly where it fits and is not
marked. -/
theorem groupMode_broken (width : Int) (following : Following) (column : Int) (broken : Bool)
    (contents : List Doc) :
    groupMode width following .broken column broken contents =
      if (!broken && fits contents following (width - column)) = true then .flat else .broken := by
  cases broken with
  | true => rfl
  | false => simp [groupMode]

theorem runOn_group (i column : Int) (mode : Mode) (broken : Bool) (contents : List Doc) :
    runOn ((Doc.group broken contents).visits width following i mode ·) rest column =
      ⟨.group broken contents, mode, i, column, following⟩ ::
        runOn (visitsAll width following i (groupMode width following mode column broken contents) ·
          contents) rest column := by
  rw [runOn, visits, columnAfter_silent rfl rfl]
  rfl

theorem runOn_indent (i column : Int) (mode : Mode) (extra : Int) (contents : List Doc) :
    runOn ((Doc.indent extra contents).visits width following i mode ·) rest column =
      ⟨.indent extra contents, mode, i, column, following⟩ ::
        runOn (visitsAll width following (i + extra) mode · contents) rest column := by
  rw [runOn, visits, columnAfter_silent rfl rfl]
  rfl

theorem runOn_cons (i column : Int) (mode : Mode) (d : Doc) (ds : List Doc) :
    runOn (visitsAll width following i mode · (d :: ds)) rest column =
      runOn (d.visits width ((mode, ds) :: following) i mode ·)
        (runOn (visitsAll width following i mode · ds) rest) column := by
  simp [runOn, visitsAll, columnAfter_append]

theorem lineEnd_silent {v : Visit} {column : Int} {vs : List Visit} (he : v.endsLine = false)
    (hw : v.written = []) : lineEnd column (v :: vs) = lineEnd v.column vs := by
  rw [lineEnd, he, Visit.after_silent he hw]
  rfl

theorem spend_suffices {column : Int} {length : Nat} (h : Covers width following rest)
    (hs : (spend (width - column) length).suffices following = true) :
    lineEnd (column + length) (rest (column + length)) ≤ width := by
  by_cases hw : width - column - length < 0
  · rw [spend, if_pos hw] at hs
    cases hs
  · rw [spend, if_neg hw, Int.sub_sub] at hs
    apply h
    · omega
    · exact hs

/-- Contents that fit on one line with what follows end it in time. -/
theorem lineEnd_of_fits {contents : List Doc} {i column : Int} (h : Covers width following rest)
    (hm : ∀ d ∈ contents, d.Marked) (hf : anyForced contents = false)
    (hfits : fits contents following (width - column) = true) :
    lineEnd column (runOn (visitsAll width following i .flat · contents) rest column) ≤ width := by
  rw [fits_eq, Bool.and_eq_true, decide_eq_true_iff] at hfits
  obtain ⟨hroom, hs⟩ := hfits
  have hflat := visitsAll_flat width following i column contents hm hf
  rw [measureAll_flat hroom contents hm hf] at hs
  rw [runOn, lineEnd_append fun v hv => (hflat.flat v hv).2, hflat.reach]
  exact spend_suffices h hs

theorem covers_runOn {mode : Mode} {ds : List Doc} {vs : Int → List Visit}
    (h : ∀ column ≤ width, (measureAll mode (width - column) ds).suffices following = true →
      lineEnd column (runOn vs rest column) ≤ width) :
    Covers width ((mode, ds) :: following) (runOn vs rest) := by
  intro column hc hroom
  rw [measureFollowing_cons] at hroom
  exact h column hc hroom

mutual

/-- A document whose groups are decided one by one ends its line in time where it is measured to. -/
theorem lineEnd_broken {following : Following} {rest : Int → List Visit} {i column : Int}
    (h : Covers width following rest) (hc : column ≤ width) :
    (d : Doc) → d.Marked → (measure .broken (width - column) d).suffices following = true →
      lineEnd column (runOn (d.visits width following i .broken ·) rest column) ≤ width
  | .text s, _, hs => by
    simpa [runOn, visits, lineEnd, columnAfter, Visit.endsLine, Visit.after, Visit.written,
      String.length_toList] using spend_suffices h hs
  | .group broken contents, hm, hs => by
    obtain ⟨hb, hmarked⟩ := marked_group_iff.mp hm
    rw [runOn_group, lineEnd_silent rfl rfl, groupMode_broken]
    split
    case isTrue hfitted =>
      -- The group is put on one line, and it fits by its own measure.
      obtain ⟨hbroken, hfits⟩ := Bool.and_eq_true_iff.mp hfitted
      obtain rfl : broken = false := by simpa using hbroken
      exact lineEnd_of_fits h hmarked hb.symm hfits
    case isFalse =>
      apply lineEndAll_broken h hc contents hmarked
      simpa [measure] using hs
  | .indent extra contents, hm, hs => by
    rw [runOn_indent, lineEnd_silent rfl rfl]
    exact lineEndAll_broken h hc contents (marked_indent_iff.mp hm) hs
  | .breakable _ _ _, _, _ => by
    simpa [runOn, visits, lineEnd, Visit.endsLine] using hc

theorem lineEndAll_broken {following : Following} {rest : Int → List Visit} {i column : Int}
    (h : Covers width following rest) (hc : column ≤ width) :
    (ds : List Doc) → (∀ d ∈ ds, d.Marked) →
      (measureAll .broken (width - column) ds).suffices following = true →
      lineEnd column (runOn (visitsAll width following i .broken · ds) rest column) ≤ width
  | [], _, hs => h column hc hs
  | d :: ds, hm, hs => by
    rw [measureAll_suffices] at hs
    have hrest : Covers width ((.broken, ds) :: following)
        (runOn (visitsAll width following i .broken · ds) rest) := by
      apply covers_runOn
      intro column hc hs
      exact lineEndAll_broken h hc ds (fun e he => hm e (List.mem_cons_of_mem d he)) hs
    rw [runOn_cons]
    exact lineEnd_broken hrest hc d (hm d List.mem_cons_self) hs

end

theorem Covers.behind {i : Int} (h : Covers width following rest) (ds : List Doc)
    (hm : ∀ d ∈ ds, d.Marked) :
    Covers width ((.broken, ds) :: following)
      (runOn (visitsAll width following i .broken · ds) rest) :=
  covers_runOn fun _ hc hs => lineEndAll_broken h hc ds hm hs

end RubySig.Doc
