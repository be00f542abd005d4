import RubySig.Layout.Build
import RubySig.Proofs.Layout.Visit

/-!
Marks of groups. In a document that is built step by step a group is marked broken exactly when it
contains a forced line end, at any depth.
-/
namespace RubySig.Doc

/-- Every group is marked broken exactly when it contains a forced line end. -/
def Marked (d : Doc) : Prop :=
  ∀ broken contents, .group broken contents ∈ d.parts → broken = anyForced contents

theorem allParts_eq_flatMap (ds : List Doc) : allParts ds = ds.flatMap parts := by
  induction ds with
  | nil => rfl
  | cons d ds ih => rw [allParts, ih, List.flatMap_cons]

theorem Marked.text (s : String) : (Doc.text s).Marked := by
  intro broken contents h
  simp [parts] at h

theorem Marked.breakable (separator : String) (force margin : Bool) :
    (Doc.breakable separator force margin).Marked := by
  intro broken contents h
  simp [parts] at h

theorem marked_indent_iff {extra : Int} {contents : List Doc} :
    (Doc.indent extra contents).Marked ↔ ∀ d ∈ contents, d.Marked := by
  simp only [Marked, parts, allParts_eq_flatMap, List.mem_cons, List.mem_flatMap,
    reduceCtorEq, false_or]
  constructor
  · intro h d hd broken inner hm
    exact h broken inner ⟨d, hd, hm⟩
  · rintro h broken inner ⟨d, hd, hm⟩
    exact h d hd broken inner hm

theorem marked_group_iff {broken : Bool} {contents : List Doc} :
    (Doc.group broken contents).Marked ↔
      broken = anyForced contents ∧ ∀ d ∈ contents, d.Marked := by
  simp only [Marked, parts, allParts_eq_flatMap, List.mem_cons, List.mem_flatMap]
  constructor
  · intro h
    constructor
    · exact h broken contents (.inl rfl)
    · intro d hd b inner hm
      exact h b inner (.inr ⟨d, hd, hm⟩)
  · rintro ⟨hb, h⟩ b inner (he | ⟨d, hd, hm⟩)
    · cases he
      exact hb
    · exact h d hd b inner hm

mutual

/-- Where the marks are right, what reaches the enclosing group is what is forced inside. -/
theorem breaks_eq_forced : (d : Doc) → d.Marked → d.breaks = d.forced
  | .text _, _ => rfl
  | .group _ _, h => (marked_group_iff.mp h).1
  | .indent _ contents, h => anyBreaks_eq_anyForced contents (marked_indent_iff.mp h)
  | .breakable _ _ _, _ => rfl

theorem anyBreaks_eq_anyForced :
    (ds : List Doc) → (∀ d ∈ ds, d.Marked) → anyBreaks ds = anyForced ds
  | [], _ => rfl
  | d :: ds, h => by
    rw [anyBreaks, anyForced, breaks_eq_forced d (h d List.mem_cons_self),
      anyBreaks_eq_anyForced ds fun e he => h e (List.mem_cons_of_mem d he)]

end

theorem marked_grouped {contents : List Doc} (h : ∀ d ∈ contents, d.Marked) :
    (grouped contents).Marked :=
  marked_group_iff.mpr ⟨anyBreaks_eq_anyForced contents h, h⟩

theorem mem_intercalate {α : Type} {sep : List α} {xss : List (List α)} {x : α}
    (h : x ∈ sep.intercalate xss) : x ∈ sep ∨ ∃ xs ∈ xss, x ∈ xs := by
  induction xss with
  | nil => simp at h
  | cons xs xss ih =>
    cases xss with
    | nil => exact .inr ⟨xs, by simp, by simpa using h⟩
    | cons ys yss =>
      rw [List.intercalate_cons_cons, List.mem_append, List.mem_append] at h
      obtain (h | h) | h := h
      · exact .inr ⟨xs, by simp, h⟩
      · exact .inl h
      · obtain hs | ⟨zs, hz, hm⟩ := ih h
        · exact .inl hs
        · exact .inr ⟨zs, List.mem_cons_of_mem xs hz, hm⟩

theorem marked_separated {sep : List Doc} {items : List (List Doc)} (hs : ∀ d ∈ sep, d.Marked)
    (hi : ∀ ds ∈ items, ∀ d ∈ ds, d.Marked) : ∀ d ∈ separated sep items, d.Marked := by
  intro d hd
  obtain h | ⟨ds, hds, h⟩ := mem_intercalate hd
  · exact hs d h
  · exact hi ds hds d h

mutual

theorem marked_built (size : Int) : (steps : List Step) → ∀ d ∈ built size steps, d.Marked
  | [] => by simp [built]
  | s :: steps => by
    rw [built]
    exact List.forall_mem_append.mpr ⟨marked_builtBy size s, marked_built size steps⟩

theorem marked_builtBy (size : Int) : (s : Step) → ∀ d ∈ builtBy size s, d.Marked
  | .text s => by simp [builtBy, Marked.text]
  | .breakable separator force margin => by simp [builtBy, Marked.breakable]
  | .group steps => by
    simpa [builtBy] using marked_grouped (marked_built size steps)
  | .indent steps => by
    simpa [builtBy] using marked_indent_iff.mpr (marked_built size steps)
  | .nest width steps => by
    simpa [builtBy] using marked_indent_iff.mpr (marked_built size steps)
  | .separated items none => by
    rw [builtBy]
    apply marked_separated
    · simp [space, Marked.text, Marked.breakable]
    · exact marked_builtEach size items
  | .separated items (some separator) => by
    rw [builtBy]
    apply marked_separated
    · exact marked_built size separator
    · exact marked_builtEach size items

theorem marked_builtEach (size : Int) :
    (items : List (List Step)) → ∀ ds ∈ builtEach size items, ∀ d ∈ ds, d.Marked
  | [] => by simp [builtEach]
  | steps :: items => by
    rw [builtEach]
    exact List.forall_mem_cons.mpr ⟨marked_built size steps, marked_builtEach size items⟩

end

/-- The marks of a document that steps build are right. -/
theorem marked_ofSteps (size : Int) (steps : List Step) : (ofSteps size steps).Marked :=
  marked_grouped (marked_built size steps)

end RubySig.Doc
