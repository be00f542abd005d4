import RubySig.Proofs.Outline.Printing
import RubySig.Proofs.Outline.Total
import RubySig.Proofs.Tree.DeclarationYields

/-!
What is read can be printed, shown as a form, dumped and counted: the grammar only builds trees
whose nodes hold what their kinds ask for.
-/
namespace RubySig

open Outline

/-- A text that is read is a well-formed tree, and whatever is done with trees succeeds on it. -/
theorem read_total {source : String} {root : Root} (h : (Root.read source).result = .ok root) :
    root.isWellFormed = true ∧ root.outline.isAdmitted = true ∧
      (∀ settings, root.outline.formatted settings source = .ok (root.formatted settings source)) ∧
      (∀ indent width, Succeeds (root.outline.formText indent width)) ∧
      (∀ locations, Succeeds (root.outline.record locations)) ∧ Succeeds root.outline.counts := by
  obtain ⟨-, -, -, -, hformed, -⟩ := Root.read_yields h
  have hadmitted := Root.admitted hformed
  have hnode : root.outline.isNode = true := rfl
  refine ⟨hformed, hadmitted, ?_, ?_, ?_, ?_⟩
  · intro settings
    exact Root.formatted_outline hformed settings source
  · intro indent width
    exact formText_ok indent width hnode hadmitted
  · intro locations
    exact record_ok locations hnode hadmitted
  · exact counts_ok hnode hadmitted

def sampleSource : String := "class A\n  def f: () -> (B & C)\nend\n"

theorem read_total_sample :
    ∃ root, (Root.read sampleSource).result = .ok root ∧
      root.outline.formatted .standard sampleSource = .ok (root.formatted .standard sampleSource) ∧
      Succeeds root.outline.counts := by
  have hread : (Root.read sampleSource).result.toOption.isSome = true := by decide +kernel
  cases h : (Root.read sampleSource).result with
  | error e =>
    rw [h] at hread
    cases hread
  | ok root =>
    obtain ⟨-, -, hprint, -, -, hcounts⟩ := read_total h
    exact ⟨root, rfl, hprint .standard, hcounts⟩

end RubySig
