import RubySig.Proofs.Layout.Fits

/-!
Lines are as wide as they were measured to be. A group that is put on one line because it fits
stands on a line that is no wider than the text may be, whatever is decided behind it on that line.
-/
namespace RubySig.Doc

/-- The characters that a document writes itself, at most. -/
def ownText : Doc → List Char
  | .text s => s.toList
  | .breakable separator _ _ => separator.toList
  | .group _ _ | .indent _ _ => []

/-- How much further right lines begin inside. -/
def shift : Doc → Int
  | .indent extra _ => extra
  | .text _ | .breakable _ _ _ | .group _ _ => 0

/-- A document without negative indentation. -/
def ShiftsRight (d : Doc) : Prop := ∀ p ∈ d.parts, 0 ≤ p.shift

/-- A document whose texts and separators have no line ends in them. -/
def Unbroken (d : Doc) : Prop := ∀ p ∈ d.parts, '\n' ∉ p.ownText

instance (d : Doc) : Decidable d.ShiftsRight := inferInstanceAs (Decidable (∀ p ∈ _, _))

instance (d : Doc) : Decidable d.Unbroken := inferInstanceAs (Decidable (∀ p ∈ _, _))

/-- A visit of something that is printed on one line, or of a group that is put on one line. -/
def Visit.OneLine (width : Int) (v : Visit) : Prop := v.mode = .flat ∨ v.fitted width = true

/-- From each visit of this kind on, the line ends in time. -/
def Bounded (width : Int) : List Visit → Prop
  | [] => True
  | v :: vs => (v.OneLine width → lineEnd v.column (v :: vs) ≤ width) ∧ Bounded width vs

variable {width : Int}

theorem bounded_flat {column : Int} {vs ws : List Visit} (h : ∀ v ∈ vs, v.endsLine = false)
    (hend : lineEnd column (vs ++ ws) ≤ width) (hws : Bounded width ws) :
    Bounded width (vs ++ ws) := by
  induction vs generalizing column with
  | nil => exact hws
  | cons v vs ih =>
    have hv := h v List.mem_cons_self
    rw [List.cons_append, lineEnd, hv] at hend
    constructor
    · intro _
      rw [lineEnd, hv]
      exact hend
    · exact ih (fun u hu => h u (List.mem_cons_of_mem v hu)) hend

theorem Visit.not_oneLine {v : Visit} (hm : v.mode = .broken) (hf : v.fitted width = false) :
    ¬ v.OneLine width := by
  rintro (h | h)
  · rw [hm] at h
    cases h
  · rw [hf] at h
    cases h

theorem Visit.flat_of_softFlat {v : Visit} (h : v.softFlat = true) : v.mode = .flat := by
  unfold softFlat at h
  split at h
  · exact eq_of_beq (Bool.and_eq_true_iff.mp h).2
  · cases h

theorem Bounded.cons {v : Visit} {vs : List Visit} (h : Bounded width vs) (hv : ¬ v.OneLine width) :
    Bounded width (v :: vs) :=
  ⟨fun ho => absurd ho hv, h⟩

mutual

/-- The visits of a document whose groups are decided one by one, in front of the rest of a run. -/
theorem bounded_visits {following : Following} {rest : Int → List Visit} (i column : Int)
    (h : Covers width following rest) (hrest : ∀ column, Bounded width (rest column)) :
    (d : Doc) → d.Marked →
      Bounded width (runOn (d.visits width following i .broken ·) rest column)
  | .text s, _ => (hrest _).cons (Visit.not_oneLine rfl rfl)
  | .breakable s f m, _ => (hrest _).cons (Visit.not_oneLine rfl rfl)
  | .indent extra contents, hm => by
    rw [runOn_indent]
    apply Bounded.cons
    · exact bounded_visitsAll (i + extra) column h hrest contents (marked_indent_iff.mp hm)
    · exact Visit.not_oneLine rfl rfl
  | .group broken contents, hm => by
    obtain ⟨hb, hmarked⟩ := marked_group_iff.mp hm
    rw [runOn_group, groupMode_broken]
    split
    case isTrue hfitted =>
      -- The whole group is on the line that it starts on.
      obtain ⟨hbroken, hfits⟩ := Bool.and_eq_true_iff.mp hfitted
      obtain rfl : broken = false := by simpa using hbroken
      have hvisits := visitsAll_flat width following i column contents hmarked hb.symm
      have hend := lineEnd_of_fits (i := i) h hmarked hb.symm hfits
      have hbounded : Bounded width
          (runOn (visitsAll width following i .flat · contents) rest column) :=
        bounded_flat (fun v hv => (hvisits.flat v hv).2) hend (hrest _)
      constructor
      · intro _
        rw [lineEnd_silent rfl rfl]
        exact hend
      · exact hbounded
    case isFalse hfitted =>
      apply Bounded.cons
      · exact bounded_visitsAll i column h hrest contents hmarked
      · apply Visit.not_oneLine rfl
        simpa [Visit.fitted] using hfitted

theorem bounded_visitsAll {following : Following} {rest : Int → List Visit} (i column : Int)
    (h : Covers width following rest) (hrest : ∀ column, Bounded width (rest column)) :
    (ds : List Doc) → (∀ d ∈ ds, d.Marked) →
      Bounded width (runOn (visitsAll width following i .broken · ds) rest column)
  | [], _ => hrest _
  | d :: ds, hm => by
    have hds := fun e he => hm e (List.mem_cons_of_mem d he)
    rw [runOn_cons]
    apply bounded_visits i column (h.behind ds hds) _ d (hm d List.mem_cons_self)
    intro column
    exact bounded_visitsAll i column h hrest ds hds

end

/-- In a whole run, what is put on one line ends its line in time. -/
theorem bounded_run {d : Doc} (h : d.Marked) : Bounded width (d.run width) := by
  have hcovers : Covers width [] (fun _ => []) := fun _ hc _ => hc
  simpa [runOn, run] using bounded_visits 0 0 hcovers (fun _ => trivial) d h

theorem linesFrom_width {line : Line} {vs : List Visit} (hvs : Chained line.width vs)
    (hb : Bounded width vs)
    (hline : (∃ v ∈ line.visits, v.OneLine width) → lineEnd line.width vs ≤ width) :
    ∀ l ∈ linesFrom line vs, (∃ v ∈ l.visits, v.OneLine width) → l.width ≤ width := by
  induction vs generalizing line with
  | nil => simpa [linesFrom, lineEnd] using hline
  | cons v vs ih =>
    obtain ⟨hcolumn, hvs⟩ := hvs
    rw [linesFrom]
    by_cases he : v.endsLine = true
    · rw [if_pos he]
      rw [Visit.after, if_pos he] at hvs
      rw [List.forall_mem_cons]
      constructor
      · simpa [lineEnd, he, Line.width] using hline
      · apply ih
        · simpa [Line.width] using hvs
        · exact hb.2
        · rintro ⟨u, hu, -⟩
          cases hu
    · rw [if_neg he]
      have hwidth : (line.push v).width = v.after := by
        rw [Line.width_push, Visit.after, if_neg he, hcolumn]
      apply ih
      · rwa [hwidth]
      · exact hb.2
      · rintro ⟨u, hu, ho⟩
        rw [hwidth]
        obtain hu | hu := List.mem_append.mp hu
        · simpa [lineEnd, he] using hline ⟨u, hu, ho⟩
        · obtain rfl := List.mem_singleton.mp hu
          simpa [lineEnd, he] using hb.1 ho

theorem linesFrom_visits (line : Line) (vs : List Visit) :
    (linesFrom line vs).flatMap Line.visits = line.visits ++ vs.filter (!·.endsLine) := by
  induction vs generalizing line with
  | nil => simp [linesFrom]
  | cons v vs ih =>
    rw [linesFrom]
    by_cases he : v.endsLine = true
    · simp [he, ih]
    · simp [he, ih, Line.push]

theorem linesFrom_start {line : Line} {vs : List Visit} (hl : 0 ≤ line.start)
    (h : ∀ v ∈ vs, 0 ≤ v.indent) : ∀ l ∈ linesFrom line vs, 0 ≤ l.start := by
  induction vs generalizing line with
  | nil => simpa [linesFrom] using hl
  | cons v vs ih =>
    have hvs := fun u hu => h u (List.mem_cons_of_mem v hu)
    rw [linesFrom]
    split
    · rw [List.forall_mem_cons]
      constructor
      · exact hl
      · apply ih _ hvs
        rw [Visit.margin]
        split
        · exact h v List.mem_cons_self
        · exact Int.le_refl 0
    · exact ih hl hvs

mutual

theorem indent_visits {following : Following} {i column : Int} {mode : Mode} (hi : 0 ≤ i) :
    (d : Doc) → d.ShiftsRight → ∀ v ∈ d.visits width following i mode column, 0 ≤ v.indent
  | .text _, _ => by simpa [visits] using hi
  | .breakable _ _ _, _ => by simpa [visits] using hi
  | .group broken contents, h => by
    rw [visits]
    rw [List.forall_mem_cons]
    constructor
    · exact hi
    · exact indent_visitsAll hi contents fun p hp => h p (List.mem_cons_of_mem _ hp)
  | .indent extra contents, h => by
    have hextra : 0 ≤ extra := h (.indent extra contents) (by simp [parts])
    rw [visits]
    rw [List.forall_mem_cons]
    constructor
    · exact hi
    · exact indent_visitsAll (by omega) contents fun p hp => h p (List.mem_cons_of_mem _ hp)

theorem indent_visitsAll {following : Following} {i column : Int} {mode : Mode} (hi : 0 ≤ i) :
    (ds : List Doc) → (∀ p ∈ allParts ds, 0 ≤ p.shift) →
      ∀ v ∈ visitsAll width following i mode column ds, 0 ≤ v.indent
  | [], _ => by simp [visitsAll]
  | d :: ds, h => by
    rw [visitsAll]
    rw [List.forall_mem_append]
    constructor
    · exact indent_visits hi d fun p hp => h p (List.mem_append_left _ hp)
    · exact indent_visitsAll hi ds fun p hp => h p (List.mem_append_right _ hp)

end

theorem Visit.written_subset (v : Visit) : ∀ c ∈ v.written, c ∈ v.doc.ownText := by
  intro c hc
  unfold Visit.written at hc
  split at hc
  case h_1 s hd =>
    rw [hd]
    exact hc
  case h_2 separator force margin hd =>
    rw [hd]
    split at hc
    · cases hc
    · exact hc
  case h_3 => cases hc

theorem line_unbroken {d : Doc} (h : d.Unbroken) : ∀ l ∈ d.lines width, '\n' ∉ l.text := by
  intro l hl hmem
  rw [Line.text, List.mem_append] at hmem
  obtain hmem | hmem := hmem
  · have := (List.mem_replicate.mp hmem).2
    cases this
  · obtain ⟨v, hv, hc⟩ := List.mem_flatMap.mp hmem
    have hrun : v ∈ d.run width := by
      have hall : v ∈ (d.lines width).flatMap Line.visits := List.mem_flatMap.mpr ⟨l, hl, hv⟩
      rw [lines, linesFrom_visits, List.nil_append] at hall
      exact (List.mem_filter.mp hall).1
    have hpart : v.doc ∈ d.parts := by
      rw [← map_doc_run width d]
      exact List.mem_map_of_mem hrun
    exact h v.doc hpart (v.written_subset '\n' hc)

theorem Line.length_text {l : Line} (h : 0 ≤ l.start) : (l.text.length : Int) = l.width := by
  rw [Line.text, Line.width, List.length_append, List.length_replicate]
  omega

/-- The text of a document is its lines, on which everything is that ends no line; a line on which a
group is put that fits there is not too wide, and a line that is too wide has no place on it where
it could have been broken and was not. -/
theorem fitted_line_width (size : Int) (steps : List Step) (width : Int)
    (hshift : (ofSteps size steps).ShiftsRight) (htext : (ofSteps size steps).Unbroken) :
    ((ofSteps size steps).render width).toList =
        ['\n'].intercalate (((ofSteps size steps).lines width).map Line.shown) ∧
      ((ofSteps size steps).lines width).flatMap Line.visits =
        ((ofSteps size steps).run width).filter (!·.endsLine) ∧
      ∀ l ∈ (ofSteps size steps).lines width, '\n' ∉ l.text ∧
        ((∃ v ∈ l.visits, v.fitted width = true) → l.text.length ≤ width) ∧
        (width < l.text.length → ∀ v ∈ l.visits, v.softFlat = false) := by
  have hvisits := linesFrom_visits ⟨0, [], false⟩ ((ofSteps size steps).run width)
  refine ⟨render_lines width _, hvisits, ?_⟩
  intro l hl
  have hstart : 0 ≤ l.start := by
    apply linesFrom_start (Int.le_refl 0) _ l hl
    exact indent_visits (Int.le_refl 0) _ hshift
  have hchained : Chained (Line.width ⟨0, [], false⟩) ((ofSteps size steps).run width) :=
    chained_visits width [] 0 .broken 0 (ofSteps size steps)
  have hwidth : (∃ v ∈ l.visits, v.OneLine width) → l.text.length ≤ width := by
    rw [Line.length_text hstart]
    apply linesFrom_width hchained (bounded_run (marked_ofSteps size steps)) _ l hl
    rintro ⟨v, hv, -⟩
    cases hv
  refine ⟨line_unbroken htext l hl, ?_, ?_⟩
  · rintro ⟨v, hv, hfits⟩
    exact hwidth ⟨v, hv, .inr hfits⟩
  · intro hwide v hv
    apply Bool.eq_false_iff.mpr
    intro hsoft
    have := hwidth ⟨v, hv, .inl (Visit.flat_of_softFlat hsoft)⟩
    omega

/-- Two short groups in one that is too wide for them both, and a word that no line can hold. -/
def narrowSteps : List Step :=
  [.group [.group [.text "a", .breakable " " false true, .text "b"], .breakable " " false true,
    .nest 2 [.group [.text "c", .breakable " " false true, .text "d"], .breakable "" true true,
      .text "eeeeee"]]]

theorem fitted_line_width_sample :
    (ofSteps 2 narrowSteps).ShiftsRight ∧ (ofSteps 2 narrowSteps).Unbroken ∧
      ((ofSteps 2 narrowSteps).render 4).toList = "a b\nc d\n  eeeeee".toList ∧
      ((ofSteps 2 narrowSteps).run 4).countP (·.fitted 4) = 2 ∧
      ∀ l ∈ (ofSteps 2 narrowSteps).lines 4,
        ((∃ v ∈ l.visits, v.fitted 4 = true) → l.text.length ≤ (4 : Int)) ∧
        (4 < (l.text.length : Int) → ∀ v ∈ l.visits, v.softFlat = false) := by
  have hshift : (ofSteps 2 narrowSteps).ShiftsRight := by decide
  have htext : (ofSteps 2 narrowSteps).Unbroken := by decide
  obtain ⟨-, -, hlines⟩ := fitted_line_width 2 narrowSteps 4 hshift htext
  refine ⟨hshift, htext, by decide +kernel, by decide +kernel, ?_⟩
  intro l hl
  exact (hlines l hl).2

end RubySig.Doc
