import RubySig.Layout.Builder
import RubySig.Proofs.Layout.Fits

/-!
Forced line ends break what is around them. However a document is built, its broken groups are those
with a forced line end inside, and so no run of the printer takes one of these up on one line.
-/
namespace RubySig.Doc

theorem anyBreaks_append (ds es : List Doc) :
    anyBreaks (ds ++ es) = (anyBreaks ds || anyBreaks es) := by
  induction ds with
  | nil => rfl
  | cons d ds ih => rw [List.cons_append, anyBreaks, anyBreaks, ih, Bool.or_assoc]

theorem intercalate_cons_eq {α : Type} (sep xs : List α) (xss : List (List α)) :
    sep.intercalate (xs :: xss) = xs ++ xss.flatMap (sep ++ ·) := by
  induction xss generalizing xs with
  | nil => simp
  | cons ys yss ih =>
    rw [List.intercalate_cons_cons, ih, List.flatMap_cons, List.append_assoc, List.append_assoc]

namespace Unfinished

/-- A part that holds some more documents; what is forced in them breaks it. -/
def holding (u : Unfinished) (ds : List Doc) : Unfinished :=
  match u with
  | .group broken contents => .group (broken || anyBreaks ds) (contents ++ ds)
  | .indent width contents => .indent width (contents ++ ds)

/-- A part with one more open part in it, in which something is forced or not. -/
def around (u : Unfinished) (forced : Bool) : Unfinished :=
  if forced then u.broken else u

theorem holding_append (u : Unfinished) (ds es : List Doc) :
    (u.holding ds).holding es = u.holding (ds ++ es) := by
  cases u <;> simp [holding, anyBreaks_append, Bool.or_assoc]

theorem around_or (u : Unfinished) (p q : Bool) : (u.around p).around q = u.around (p || q) := by
  cases u <;> cases p <;> cases q <;> rfl

theorem put_around (u : Unfinished) (d : Doc) :
    (u.around d.breaks).put d = u.holding [d] := by
  cases hd : d.breaks <;> cases u <;> simp [around, put, broken, holding, anyBreaks, hd]

end Unfinished

namespace Builder

/-- A document under construction that is given some more documents. -/
def add (b : Builder) (ds : List Doc) : Builder :=
  ⟨b.inner.holding ds, b.outer.map (·.around (anyBreaks ds))⟩

theorem add_nil (b : Builder) : b.add [] = b := by
  obtain ⟨inner, outer⟩ := b
  cases inner <;> simp [add, Unfinished.holding, Unfinished.around, anyBreaks]

theorem add_append (b : Builder) (ds es : List Doc) : (b.add ds).add es = b.add (ds ++ es) := by
  simp only [add, Unfinished.holding_append, List.map_map, anyBreaks_append]
  congr 1
  apply List.map_congr_left
  intro u _
  exact u.around_or (anyBreaks ds) (anyBreaks es)

/-- A document that forces nothing is only put. -/
theorem put_eq_add (b : Builder) {d : Doc} (h : d.breaks = false) : b.put d = b.add [d] := by
  have hinner := b.inner.put_around d
  simp only [h, Unfinished.around] at hinner
  simp [put, add, anyBreaks, h, Unfinished.around, ← hinner]

theorem breakGroups_put (b : Builder) {d : Doc} (h : d.breaks = true) :
    (b.put d).breakGroups = b.add [d] := by
  obtain ⟨inner, outer⟩ := b
  cases inner <;>
    simp [put, breakGroups, add, Unfinished.put, Unfinished.broken, Unfinished.holding,
      Unfinished.around, anyBreaks, h]

/-- What is forced in an open part has broken those around it, when it is closed. -/
theorem leave_enter (b : Builder) (u : Unfinished) (ds : List Doc) (d : Doc)
    (hd : (u.holding ds).finished = d) (hb : d.breaks = anyBreaks ds) :
    ((b.enter u).add ds).leave = b.add [d] := by
  simp only [enter, add, leave, List.map_cons, hd, ← hb, Unfinished.put_around]
  simp [anyBreaks]

mutual

/-- Steps taken one after the other add what they build. -/
theorem take_eq (size : Int) :
    (steps : List Step) → (b : Builder) → take size b steps = b.add (built size steps)
  | [], b => by rw [take, built, add_nil]
  | s :: steps, b => by
    rw [take, takeOne_eq size s b, take_eq size steps, add_append, built]

theorem takeOne_eq (size : Int) :
    (s : Step) → (b : Builder) → takeOne size b s = b.add (builtBy size s)
  | .text s, b => b.put_eq_add rfl
  | .breakable separator force margin, b => by
    rw [takeOne, builtBy]
    cases force with
    | true => exact b.breakGroups_put rfl
    | false => exact b.put_eq_add rfl
  | .group steps, b => by
    rw [takeOne, take_eq size steps, builtBy]
    apply leave_enter
    · simp [Unfinished.holding, Unfinished.finished, grouped]
    · rfl
  | .indent steps, b => by
    rw [takeOne, take_eq size steps, builtBy]
    apply leave_enter
    · simp [Unfinished.holding, Unfinished.finished]
    · rfl
  | .nest width steps, b => by
    rw [takeOne, take_eq size steps, builtBy]
    apply leave_enter
    · simp [Unfinished.holding, Unfinished.finished]
    · rfl
  | .separated items none, b => by
    rw [takeOne, builtBy, commaSeparated]
    apply takeEach_eq
    intro b
    rw [put_eq_add b rfl, put_eq_add _ rfl, add_append]
    rfl
  | .separated items (some separator), b => by
    rw [takeOne, builtBy]
    apply takeEach_eq
    intro b
    exact take_eq size separator b

theorem takeEach_eq (size : Int) {separate : Builder → Builder} {sep : List Doc}
    (h : ∀ b, separate b = b.add sep) :
    (items : List (List Step)) → (b : Builder) →
      takeEach size separate b items = b.add (separated sep (builtEach size items))
  | [], b => by rw [takeEach, builtEach, separated, List.intercalate_nil, add_nil]
  | steps :: items, b => by
    rw [takeEach, take_eq size steps, takeRest_eq size h items, add_append, builtEach, separated,
      intercalate_cons_eq]

theorem takeRest_eq (size : Int) {separate : Builder → Builder} {sep : List Doc}
    (h : ∀ b, separate b = b.add sep) :
    (items : List (List Step)) → (b : Builder) →
      takeRest size separate b items = b.add ((builtEach size items).flatMap (sep ++ ·))
  | [], b => by rw [takeRest, builtEach, List.flatMap_nil, add_nil]
  | steps :: items, b => by
    rw [takeRest, h, take_eq size steps, takeRest_eq size h items, add_append,
      add_append, builtEach,
      List.flatMap_cons, List.append_assoc]

end

/-- Steps build the same document one after the other. -/
theorem document_eq (size : Int) (steps : List Step) :
    document size steps = ofSteps size steps := by
  rw [document, take_eq]
  simp [add, empty, Unfinished.holding, Unfinished.finished, ofSteps, grouped]

end Builder

mutual

theorem forced_iff :
    (d : Doc) → (d.forced = true ↔ ∃ separator margin, .breakable separator true margin ∈ d.parts)
  | .text _ => by simp [forced, parts]
  | .breakable _ force _ => by cases force <;> simp [forced, parts]
  | .group _ contents => by simpa [forced, parts] using anyForced_iff contents
  | .indent _ contents => by simpa [forced, parts] using anyForced_iff contents

theorem anyForced_iff :
    (ds : List Doc) →
      (anyForced ds = true ↔ ∃ separator margin, .breakable separator true margin ∈ allParts ds)
  | [] => by simp [anyForced, allParts]
  | d :: ds => by
    simp only [anyForced, allParts, Bool.or_eq_true, List.mem_append, exists_or, forced_iff d,
      anyForced_iff ds]

end

mutual

theorem parts_part {p q : Doc} (hq : q ∈ p.parts) : (d : Doc) → p ∈ d.parts → q ∈ d.parts
  | .text _, hp => by
    rw [parts, List.mem_singleton] at hp
    rwa [← hp]
  | .breakable _ _ _, hp => by
    rw [parts, List.mem_singleton] at hp
    rwa [← hp]
  | .group _ contents, hp => by
    rw [parts, List.mem_cons] at hp
    obtain rfl | hp := hp
    · exact hq
    · exact List.mem_cons_of_mem _ (allParts_part hq contents hp)
  | .indent _ contents, hp => by
    rw [parts, List.mem_cons] at hp
    obtain rfl | hp := hp
    · exact hq
    · exact List.mem_cons_of_mem _ (allParts_part hq contents hp)

theorem allParts_part {p q : Doc} (hq : q ∈ p.parts) :
    (ds : List Doc) → p ∈ allParts ds → q ∈ allParts ds
  | [], hp => by cases hp
  | d :: ds, hp => by
    rw [allParts, List.mem_append] at hp ⊢
    obtain hp | hp := hp
    · exact .inl (parts_part hq d hp)
    · exact .inr (allParts_part hq ds hp)

end

theorem Marked.part {d p : Doc} (h : d.Marked) (hp : p ∈ d.parts) : p.Marked :=
  fun broken contents hmem => h broken contents (parts_part hmem d hp)

/-- What is on one line forces no line end. -/
def Visit.Calm (v : Visit) : Prop := v.mode = .flat → v.doc.forced = false

theorem calm_single {v : Visit} (h : v.mode = .flat → v.doc.forced = false) :
    ∀ u ∈ [v], u.Calm := by
  intro u hu
  rw [List.mem_singleton] at hu
  rw [hu]
  exact h

/-- A group that is put on one line is not broken. -/
theorem unbroken_of_groupMode {width : Int} {following : Following} {mode : Mode} {column : Int}
    {broken : Bool} {contents : List Doc}
    (h : groupMode width following mode column broken contents = .flat) : broken = false := by
  cases broken with
  | false => rfl
  | true => cases h

mutual

theorem calm_visits (width : Int) (following : Following) (i : Int) (mode : Mode) (column : Int) :
    (d : Doc) → d.Marked → (mode = .flat → d.forced = false) →
      ∀ v ∈ d.visits width following i mode column, v.Calm
  | .text _, _, h => calm_single h
  | .breakable _ _ _, _, h => calm_single h
  | .group broken contents, hm, h => by
    obtain ⟨hb, hmarked⟩ := marked_group_iff.mp hm
    rw [visits, List.forall_mem_cons]
    constructor
    · exact h
    · apply calm_visitsAll width following i _ column contents hmarked
      intro hflat
      exact hb.symm.trans (unbroken_of_groupMode hflat)
  | .indent extra contents, hm, h => by
    rw [visits, List.forall_mem_cons]
    constructor
    · exact h
    · exact calm_visitsAll width following (i + extra) mode column contents
        (marked_indent_iff.mp hm) h

theorem calm_visitsAll (width : Int) (following : Following) (i : Int) (mode : Mode)
    (column : Int) :
    (ds : List Doc) → (∀ d ∈ ds, d.Marked) → (mode = .flat → anyForced ds = false) →
      ∀ v ∈ visitsAll width following i mode column ds, v.Calm
  | [], _, _ => by simp [visitsAll]
  | d :: ds, hm, h => by
    have hd : mode = .flat → d.forced = false := fun hf => (Bool.or_eq_false_iff.mp (h hf)).1
    have hds : mode = .flat → anyForced ds = false := fun hf => (Bool.or_eq_false_iff.mp (h hf)).2
    rw [visitsAll, List.forall_mem_append]
    constructor
    · exact calm_visits width _ i mode column d (hm d List.mem_cons_self) hd
    · exact calm_visitsAll width following i mode _ ds
        (fun e he => hm e (List.mem_cons_of_mem d he)) hds

end

/-- Behind each group stand the visits of what it holds. -/
def Unfolds (width : Int) : List Visit → Prop
  | [] => True
  | v :: vs =>
    (∀ broken contents, v.doc = .group broken contents →
      ∃ rest, vs = visitsAll width v.following v.indent
        (groupMode width v.following v.mode v.column broken contents) v.column contents ++ rest) ∧
    Unfolds width vs

theorem Unfolds.append {width : Int} {vs ws : List Visit} (h : Unfolds width vs)
    (k : Unfolds width ws) : Unfolds width (vs ++ ws) := by
  induction vs with
  | nil => exact k
  | cons v vs ih =>
    obtain ⟨hv, hvs⟩ := h
    constructor
    · intro broken contents hd
      obtain ⟨rest, hrest⟩ := hv broken contents hd
      rw [hrest]
      exact ⟨rest ++ ws, List.append_assoc _ rest ws⟩
    · exact ih hvs

theorem Unfolds.at {width : Int} {vs : List Visit} (h : Unfolds width vs)
    {earlier later : List Visit} {v : Visit} (hvs : vs = earlier ++ v :: later) :
    Unfolds width (v :: later) := by
  induction earlier generalizing vs with
  | nil =>
    rw [hvs] at h
    exact h
  | cons u earlier ih =>
    rw [hvs] at h
    exact ih h.2 rfl

mutual

theorem unfolds_visits (width : Int) (following : Following) (i : Int) (mode : Mode)
    (column : Int) :
    (d : Doc) → Unfolds width (d.visits width following i mode column)
  | .text _ => by simp [visits, Unfolds]
  | .breakable _ _ _ => by simp [visits, Unfolds]
  | .group broken contents => by
    rw [visits]
    constructor
    · intro b inner hd
      cases hd
      exact ⟨[], (List.append_nil _).symm⟩
    · exact unfolds_visitsAll width following i _ column contents
  | .indent extra contents => by
    rw [visits]
    constructor
    · intro b inner hd
      cases hd
    · exact unfolds_visitsAll width following (i + extra) mode column contents

theorem unfolds_visitsAll (width : Int) (following : Following) (i : Int) (mode : Mode)
    (column : Int) : (ds : List Doc) → Unfolds width (visitsAll width following i mode column ds)
  | [] => trivial
  | d :: ds => by
    rw [visitsAll]
    apply Unfolds.append
    · exact unfolds_visits width _ i mode column d
    · exact unfolds_visitsAll width following i mode _ ds

end

/-- A run that takes up nothing on one line that is forced to end it. -/
structure EndsForced (d : Doc) (width : Int) : Prop where
  drawn : (d.render width).toList = settle ((d.run width).flatMap Visit.strokes)
  unforced : ∀ v ∈ d.run width, v.mode = .flat →
    ∀ separator margin, v.doc ≠ .breakable separator true margin
  unbroken : ∀ v ∈ d.run width, v.mode = .flat → ∀ contents, v.doc ≠ .group true contents
  /-- All that is in a group is taken up right behind it, and where the group is put on one line, no
  line ends before that is done. -/
  silent : ∀ earlier v later broken contents, d.run width = earlier ++ v :: later →
    v.doc = .group broken contents →
    groupMode width v.following v.mode v.column broken contents = .flat →
      ∃ inside rest, later = inside ++ rest ∧ inside.map (·.doc) = allParts contents ∧
        ∀ u ∈ inside, u.mode = .flat ∧ u.endsLine = false

theorem Marked.endsForced {d : Doc} (h : d.Marked) (width : Int) : d.EndsForced width := by
  have hcalm : ∀ v ∈ d.run width, v.Calm := calm_visits width [] 0 .broken 0 d h nofun
  have hpart : ∀ v ∈ d.run width, v.doc ∈ d.parts := by
    intro v hv
    rw [← map_doc_run width d]
    exact List.mem_map_of_mem hv
  constructor
  case drawn => exact render_run width d
  case unforced =>
    intro v hv hflat separator margin hd
    have hforced := hcalm v hv hflat
    rw [hd] at hforced
    cases hforced
  case unbroken =>
    intro v hv hflat contents hd
    have hforced := hcalm v hv hflat
    have hmark := h true contents (hd ▸ hpart v hv)
    rw [hd, forced, ← hmark] at hforced
    cases hforced
  case silent =>
    intro earlier v later broken contents hrun hd hmode
    have hv : v ∈ d.run width := by simp [hrun]
    have hforced : anyForced contents = false := by
      rw [← h broken contents (hd ▸ hpart v hv)]
      exact unbroken_of_groupMode hmode
    have hgroup : (Doc.group broken contents).Marked := h.part (hd ▸ hpart v hv)
    obtain ⟨hunfold, -⟩ := (unfolds_visits width [] 0 .broken 0 d).at hrun
    obtain ⟨rest, hlater⟩ := hunfold broken contents hd
    rw [hmode] at hlater
    have hline := visitsAll_flat width v.following v.indent v.column contents
      (marked_group_iff.mp hgroup).2 hforced
    exact ⟨_, rest, hlater, map_doc_visitsAll .., hline.flat⟩

/-- The root of a document is a group, and its groups are broken exactly where a line end is forced
in them at any depth; so no run takes up a forced line end or a broken group on one line, and in a
group that is put on one line no line ends. -/
theorem broken_where_forced (size : Int) (steps : List Step) :
    (∃ broken contents, Builder.document size steps = .group broken contents) ∧
      (∀ broken contents, .group broken contents ∈ (Builder.document size steps).parts →
        (broken = true ↔
          ∃ separator margin, .breakable separator true margin ∈ allParts contents)) ∧
      ∀ width, (Builder.document size steps).EndsForced width := by
  rw [Builder.document_eq]
  have hmarked := marked_ofSteps size steps
  split_ands
  · exact ⟨_, _, rfl⟩
  · intro broken contents hmem
    rw [hmarked broken contents hmem]
    exact anyForced_iff contents
  · exact hmarked.endsForced

/-- A group that is closed before the line end comes, and one around it that is open then, with an
indented part and a closed group in between. -/
def forcedSteps : List Step :=
  [.group [.text "a", .breakable " " false true, .text "b"],
    .group [.indent [.group [.text "c"], .breakable "" true true, .text "d"]]]

theorem broken_where_forced_sample :
    Builder.document 2 forcedSteps =
        .group true [.group false [.text "a", .breakable " " false true, .text "b"],
          .group true [.indent 2 [.group false [.text "c"], .breakable "" true true, .text "d"]]] ∧
      ((Builder.document 2 forcedSteps).render 9).toList = "a bc\n  d".toList ∧
      .group true [.indent 2 [.group false [.text "c"], .breakable "" true true, .text "d"]] ∈
        (Builder.document 2 forcedSteps).parts ∧
      (∃ separator margin, Doc.breakable separator true margin ∈
        allParts [.indent 2 [.group false [.text "c"], .breakable "" true true, .text "d"]]) ∧
      (Builder.document 2 forcedSteps).EndsForced 9 := by
  have hdoc : Builder.document 2 forcedSteps =
      .group true [.group false [.text "a", .breakable " " false true, .text "b"],
        .group true [.indent 2 [.group false [.text "c"],
          .breakable "" true true, .text "d"]]] := rfl
  have hmem :
      .group true [.indent 2 [.group false [.text "c"], .breakable "" true true, .text "d"]] ∈
      (Builder.document 2 forcedSteps).parts := by
    rw [hdoc]
    simp [parts, allParts]
  obtain ⟨-, hbroken, hruns⟩ := broken_where_forced 2 forcedSteps
  split_ands
  · exact hdoc
  · decide +kernel
  · exact hmem
  · exact (hbroken true _ hmem).mp rfl
  · exact hruns 9

end RubySig.Doc
