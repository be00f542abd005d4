import Mathlib
import RubySig.Proofs.Outline.ItemTold
import RubySig.Proofs.ReadTotal

/-!
The data of a tree without places lose nothing but the places. Two sources whose trees have equal
data, with or without the order of the entries of objects, have the same declarations, with the same
texts of comments and annotations. Values of literals are compared as lists of characters, in which
U+FFFD stands for every surrogate that is escaped (`Format.charOf_ok`).
-/
namespace RubySig

open Outline

/-- Sources that are read have data, and equal data are those of equal trees. -/
theorem record_faithful {s t : String} {a b : Root} (ha : (Root.read s).result = .ok a)
    (hb : (Root.read t).result = .ok b) :
    ∃ d e, a.outline.record false = .ok d ∧ b.outline.record false = .ok e ∧
      ∀ order : EntryOrder, d.arranged order = e.arranged order →
      a.settled order = b.settled order := by
  obtain ⟨-, -, -, -, hformed, -⟩ := Root.read_yields ha
  obtain ⟨-, -, -, -, hformed', -⟩ := Root.read_yields hb
  obtain ⟨d, hd⟩ := record_ok false (o := a.outline) rfl (Root.admitted hformed)
  obtain ⟨e, he⟩ := record_ok false (o := b.outline) rfl (Root.admitted hformed')
  refine ⟨d, e, hd, he, ?_⟩
  intro order h
  apply Root.told a b
  have hdata : d.arranged order = data order a.outline := arranged_datum order _ hd
  have hdata' : e.arranged order = data order b.outline := arranged_datum order _ he
  rw [← hdata, h, hdata']

def packedSource : String := "#c\nA: B"

def spreadSource : String := "#c\n A:B"

/-- A comment and a constant with its type, in the given places. -/
def sampleRoot (whole item name type : Span) : Root :=
  ⟨some whole, [.declaration (some item) ⟨some ⟨"c", some ⟨1, 1, 1, 3, 0, 2⟩⟩, []⟩
    (.constant ⟨some name, "A", [], false⟩
      (.classInstance (some type) ⟨some type, "B", [], false⟩ []))]⟩

theorem packed_read : (Root.read packedSource).result = .ok
    (sampleRoot ⟨2, 1, 2, 5, 0, 7⟩ ⟨2, 1, 2, 5, 3, 7⟩ ⟨2, 1, 2, 2, 3, 4⟩ ⟨2, 4, 2, 5, 6, 7⟩) := by
  cbv

theorem spread_read : (Root.read spreadSource).result = .ok
    (sampleRoot ⟨2, 2, 2, 5, 0, 7⟩ ⟨2, 2, 2, 5, 4, 7⟩ ⟨2, 2, 2, 3, 4, 5⟩ ⟨2, 4, 2, 5, 6, 7⟩) := by
  cbv

/-- The data are the same wherever the constant stands. -/
theorem sample_data (order : EntryOrder) (whole item name type whole' item' name' type' : Span) :
    data order (sampleRoot whole item name type).outline =
      data order (sampleRoot whole' item' name' type').outline := rfl

theorem record_faithful_spread :
    ∃ a b d e, (Root.read spreadSource).result = .ok a ∧ (Root.read packedSource).result = .ok b ∧
      a.outline.record false = .ok d ∧ b.outline.record false = .ok e ∧
      d.arranged .sorted = e.arranged .sorted ∧ a.settled .sorted = b.settled .sorted := by
  obtain ⟨d, e, hd, he, hfaithful⟩ := record_faithful spread_read packed_read
  have hdata : d.arranged .sorted = e.arranged .sorted := by
    rw [arranged_datum .sorted _ hd, arranged_datum .sorted _ he]
    exact sample_data ..
  exact ⟨_, _, d, e, spread_read, packed_read, hd, he, hdata, hfaithful .sorted hdata⟩

end RubySig
