import RubySig.Layout.Build
import RubySig.Proofs.Format.Written
import RubySig.Proofs.Layout.Visit

/-!
The width changes only white space. A rendered document is what its visits leave in the text one
after the other: a text all but its blanks before a line end, a line end itself and the blanks
behind it.
-/
namespace RubySig.Doc

open Format (trimEnd trimEnd_append settle_trimEnd settle_standing)

/-- White space in a document: a blank that a line end removes, or a line end. -/
def isBlank (c : Char) : Bool := isTrailing c || c == '\n'

/-- The characters that are no white space. -/
def visible (cs : List Char) : List Char := cs.filter (!isBlank ·)

/-- The characters of a text, and of nothing else. -/
def saying : Doc → List Char
  | .text s => s.toList
  | .group _ _ | .indent _ _ | .breakable _ _ _ => []

/-- All texts, in the order of the document. -/
def texts (d : Doc) : List Char := d.parts.flatMap saying

/-- The separator of a place where a line may end. -/
def separator : Doc → List Char
  | .breakable separator _ _ => separator.toList
  | .text _ | .group _ _ | .indent _ _ => []

/-- A document whose separators are spaces and tabs. -/
def BlankSeparators (d : Doc) : Prop := ∀ p ∈ d.parts, ∀ c ∈ p.separator, isTrailing c = true

instance (d : Doc) : Decidable d.BlankSeparators :=
  inferInstanceAs (Decidable (∀ p ∈ _, ∀ c ∈ _, _))

/-- Whether only blanks are written before the next line end, and that one removes them. -/
def trimsAhead : List Visit → Bool
  | [] => false
  | v :: vs => if v.endsLine then v.trims else v.written.all isTrailing && trimsAhead vs

/-- What a visit leaves in the text, in front of later ones. -/
def Visit.left (v : Visit) (later : List Visit) : List Char :=
  if v.endsLine then
    '\n' :: (if v.trims && !trimsAhead later then List.replicate v.indent.toNat ' ' else [])
  else if trimsAhead later then trimEnd v.written else v.written

/-- What visits leave in the text. -/
def printed : List Visit → List Char
  | [] => []
  | v :: vs => v.left vs ++ printed vs

/-- Whether the text goes on with the line end of an indenting break. -/
def MeetsLineEnd (later : List Visit) : Prop :=
  ∃ between v rest, later = between ++ v :: rest ∧ v.trims = true ∧
    printed later = printed (v :: rest)

/-- A document in which the width has changed only white space. -/
structure KeepsText (d : Doc) (width : Int) : Prop where
  order : (d.run width).map (·.doc) = d.parts
  text : (d.render width).toList = printed (d.run width)
  said : visible (d.render width).toList = visible d.texts
  /-- Where a line end is forced, the text has one line end, and the blanks of the next line. -/
  forced : ∀ earlier v later separator margin, d.run width = earlier ++ v :: later →
    v.doc = .breakable separator true margin → ∃ n, v.left later = '\n' :: List.replicate n ' '
  /-- A text loses at most the blanks at its end, and those only in front of a line end. -/
  kept : ∀ earlier v later s, d.run width = earlier ++ v :: later → v.doc = .text s →
    ∃ blanks, s.toList = v.left later ++ blanks ∧ (∀ c ∈ blanks, isTrailing c = true) ∧
      (blanks ≠ [] → MeetsLineEnd later)

theorem endsLine_strokes (vs : List Visit) :
    endsLine (vs.flatMap Visit.strokes) = trimsAhead vs := by
  induction vs with
  | nil => rfl
  | cons v vs ih =>
    rw [List.flatMap_cons, trimsAhead]
    by_cases he : v.endsLine = true
    · cases ht : v.trims <;> simp [Visit.strokes, he, ht, endsLine, isTrailing]
    · have ht : v.trims = false := Bool.eq_false_iff.mpr fun ht => he (Visit.endsLine_of_trims ht)
      simp only [Visit.strokes, he, ht, Bool.false_eq_true, if_false]
      rw [← ih]
      generalize v.written = w
      induction w with
      | nil => rfl
      | cons c w ihw =>
        change (isTrailing c && endsLine (plain w ++ _)) = _
        rw [ihw, List.all_cons, Bool.and_assoc]

theorem settle_printed (vs : List Visit) : settle (vs.flatMap Visit.strokes) = printed vs := by
  induction vs with
  | nil => rfl
  | cons v vs ih =>
    rw [List.flatMap_cons, printed, Visit.left, ← ih, ← endsLine_strokes]
    by_cases he : v.endsLine = true
    · cases ht : v.trims with
      | true =>
        cases hs : endsLine (vs.flatMap Visit.strokes) <;>
          simp [Visit.strokes, he, ht, hs, settle]
      | false => simp [Visit.strokes, he, ht, settle, endsLine, isTrailing]
    · have ht : v.trims = false := Bool.eq_false_iff.mpr fun ht => he (Visit.endsLine_of_trims ht)
      have hstrokes : v.strokes = plain v.written := by simp [Visit.strokes, he, ht]
      rw [hstrokes, if_neg he]
      by_cases hs : endsLine (vs.flatMap Visit.strokes) = true
      · rw [if_pos hs]
        exact settle_trimEnd v.written hs
      · rw [if_neg hs]
        exact settle_standing v.written (Bool.eq_false_iff.mpr hs)

/-- The text of a document is what its run leaves. -/
theorem render_printed (d : Doc) (width : Int) :
    (d.render width).toList = printed (d.run width) := by
  rw [render_run, settle_printed]

theorem visible_append (xs ys : List Char) : visible (xs ++ ys) = visible xs ++ visible ys :=
  List.filter_append ..

theorem visible_blanks {cs : List Char} (h : ∀ c ∈ cs, isBlank c = true) : visible cs = [] := by
  simpa [visible] using h

theorem visible_trimEnd (w : List Char) : visible (trimEnd w) = visible w := by
  obtain ⟨blanks, hw, hblanks⟩ := trimEnd_append w
  have hnone : visible blanks = [] := visible_blanks fun c hc => by simp [isBlank, hblanks c hc]
  calc visible (trimEnd w) = visible (trimEnd w) ++ visible blanks := by rw [hnone, List.append_nil]
    _ = visible w := by rw [← visible_append, ← hw]

theorem Visit.left_written {v : Visit} (he : v.endsLine = false) (later : List Visit) :
    ∃ blanks, v.written = v.left later ++ blanks ∧ (∀ c ∈ blanks, isTrailing c = true) ∧
      (blanks ≠ [] → trimsAhead later = true) := by
  rw [left, he]
  by_cases ht : trimsAhead later = true
  · obtain ⟨blanks, hw, hblanks⟩ := trimEnd_append v.written
    refine ⟨blanks, ?_, hblanks, fun _ => ht⟩
    simpa [ht] using hw
  · refine ⟨[], ?_, ?_, ?_⟩
    · simp [ht]
    · intro c hc
      cases hc
    · intro hne
      exact absurd rfl hne

theorem trimEnd_blanks {w : List Char} (h : ∀ c ∈ w, isTrailing c = true) : trimEnd w = [] := by
  simpa [trimEnd] using h

theorem Visit.left_endsLine {v : Visit} (he : v.endsLine = true) (later : List Visit) :
    ∃ n, v.left later = '\n' :: List.replicate n ' ' := by
  rw [left, if_pos he]
  split
  · exact ⟨_, rfl⟩
  · exact ⟨0, rfl⟩

theorem meetsLineEnd {vs : List Visit} (h : trimsAhead vs = true) : MeetsLineEnd vs := by
  induction vs with
  | nil => cases h
  | cons v vs ih =>
    rw [trimsAhead] at h
    by_cases he : v.endsLine = true
    · rw [if_pos he] at h
      exact ⟨[], v, vs, rfl, h, rfl⟩
    · rw [if_neg he, Bool.and_eq_true, List.all_eq_true] at h
      obtain ⟨hblank, hahead⟩ := h
      obtain ⟨between, u, rest, hvs, hu, hprinted⟩ := ih hahead
      refine ⟨v :: between, u, rest, ?_, hu, ?_⟩
      · rw [hvs, List.cons_append]
      · rw [printed, Visit.left, if_neg he, if_pos hahead, trimEnd_blanks hblank, hprinted,
          List.nil_append]

theorem Visit.visible_left {v : Visit} (h : ∀ c ∈ v.doc.separator, isTrailing c = true)
    (later : List Visit) : visible (v.left later) = visible v.doc.saying := by
  by_cases he : v.endsLine = true
  · obtain ⟨n, hn⟩ := v.left_endsLine he later
    have hsaid : v.doc.saying = [] := by
      unfold endsLine at he
      split at he
      case h_1 hd => rw [hd, saying]
      case h_2 => cases he
    rw [hn, hsaid]
    apply visible_blanks
    intro c hc
    obtain rfl | hc := List.mem_cons.mp hc
    · rfl
    · rw [(List.mem_replicate.mp hc).2]
      rfl
  · have hleft : visible (v.left later) = visible v.written := by
      rw [left, if_neg he]
      split
      · exact visible_trimEnd v.written
      · rfl
    rw [hleft]
    unfold written
    split
    case h_1 hd => rw [hd, saying]
    case h_2 separator force margin hd =>
      rw [hd] at h ⊢
      apply visible_blanks
      intro c hc
      split at hc
      · cases hc
      · simp [isBlank, h c hc]
    case h_3 htext hbreak =>
      cases hd : v.doc with
      | text s => exact absurd hd (htext s)
      | breakable separator force margin => exact absurd hd (hbreak separator force margin)
      | group broken contents => rfl
      | indent extra contents => rfl

theorem visible_printed {vs : List Visit}
    (h : ∀ v ∈ vs, ∀ c ∈ v.doc.separator, isTrailing c = true) :
    visible (printed vs) = visible ((vs.map (·.doc)).flatMap saying) := by
  induction vs with
  | nil => rfl
  | cons v vs ih =>
    have hv := Visit.visible_left (h v List.mem_cons_self) vs
    rw [printed, visible_append, hv, ih fun u hu => h u (List.mem_cons_of_mem v hu), List.map_cons,
      List.flatMap_cons, visible_append]

theorem keepsText {d : Doc} (h : d.BlankSeparators) (width : Int) : d.KeepsText width where
  order := map_doc_run width d
  text := render_printed d width
  said := by
    rw [render_printed, texts, ← map_doc_run width d]
    apply visible_printed
    intro v hv
    apply h v.doc
    rw [← map_doc_run width d]
    exact List.mem_map_of_mem hv
  forced := by
    intro earlier v later separator margin _ hd
    have he : v.endsLine = true := by simp [Visit.endsLine, hd]
    exact v.left_endsLine he later
  kept := by
    intro earlier v later s _ hd
    have he : v.endsLine = false := by rw [Visit.endsLine, hd]
    obtain ⟨blanks, hw, hblanks, hahead⟩ := Visit.left_written he later
    have hs : v.written = s.toList := by rw [Visit.written, hd]
    rw [hs] at hw
    exact ⟨blanks, hw, hblanks, fun hne => meetsLineEnd (hahead hne)⟩

/-- At every width a document is printed with the same visible characters: those of its texts. -/
theorem width_changes_blanks (d : Doc) (h : d.BlankSeparators) :
    (∀ width, d.KeepsText width) ∧
      ∀ width₁ width₂, visible (d.render width₁).toList = visible (d.render width₂).toList := by
  constructor
  · exact keepsText h
  · intro width₁ width₂
    rw [(keepsText h width₁).said, (keepsText h width₂).said]

/-- Texts with blanks at their ends in front of each kind of line end. -/
def blankSteps : List Step :=
  [.text "a \t", .breakable " \t" false true, .text " ", .breakable "" true true, .text "b ",
    .breakable "" true false, .nest 2 [.group [.text "c ", .breakable " " false true, .text "\td"]]]

theorem width_changes_blanks_sample :
    (ofSteps 2 blankSteps).BlankSeparators ∧
      ((ofSteps 2 blankSteps).render 80).toList = "a\n\nb \nc  \td".toList ∧
      ((ofSteps 2 blankSteps).render (-1)).toList = "a\n\nb \nc\n  \td".toList ∧
      (ofSteps 2 blankSteps).KeepsText 80 ∧
      visible ((ofSteps 2 blankSteps).render 80).toList =
        visible ((ofSteps 2 blankSteps).render (-1)).toList := by
  have hblank : (ofSteps 2 blankSteps).BlankSeparators := by decide
  obtain ⟨hkeeps, hsame⟩ := width_changes_blanks (ofSteps 2 blankSteps) hblank
  exact ⟨hblank, by decide +kernel, by decide +kernel, hkeeps 80, hsame 80 (-1)⟩

end RubySig.Doc
