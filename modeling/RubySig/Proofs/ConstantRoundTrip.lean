import RubySig.Proofs.RoundTrip

/-! A type that is printed as the type of a constant is read back, with its nested unions
spliced. -/
namespace RubySig

/-- The file that declares the constant `T`. -/
def Root.constant (t : Ty) : Root :=
  ⟨none, [.declaration none .none (.constant ⟨none, "T", [], false⟩ t)]⟩

theorem formed_T : TypeName.Formed .constant ⟨none, "T", [], false⟩ := by
  refine ⟨by simp, _, rfl, by decide⟩

/-- A type of a shape that the grammar builds, without symbols but as keys, is printed for every
width and indentation as a text that is read back as the type, nested unions spliced. -/
theorem constant_round_trip (settings : Settings) (source : String) (t : Ty)
    (ht : t.Formed [] source.toList) (hs : t.passes .symbolFree = true) :
    ∃ root, (Root.read ((Root.constant t).formatted settings source)).result = .ok root ∧
      root.plain = (Root.constant t).plain := by
  obtain ⟨hclear, hunmerged⟩ := Ty.passes_of_symbolFree hs
  refine Root.round_trip settings source _ ?_ ⟨?_, ?_, rfl⟩
  · exact List.forall_mem_singleton.mpr ⟨by simp [Lead.none, Lead.Formed], formed_T, ht⟩
  · exact Bool.and_eq_true_iff.mpr ⟨hclear, rfl⟩
  · exact Bool.and_eq_true_iff.mpr ⟨hunmerged, rfl⟩

/-- A union of a procedure that takes a block and an optional record. -/
def sampleTy : Ty :=
  .union none [
    .proc none
      ⟨none, .optional none (.classInstance none ⟨none, "Array", [], false⟩ [.base none .untyped]),
        [⟨none, .interface none ⟨none, "_Each", ["A", "B"], true⟩ [], some "class"⟩], [], none, [],
        [("key", ⟨none, .literal none (.string "it's"), none⟩)], [], none⟩
      (some ⟨none, ⟨none, .base none .void, [], [], none, [], [], [], none⟩, false⟩),
    .optional none (.record none [⟨none, none, .symbol "a b", .literal none (.integer (-7))⟩])]

theorem constant_round_trip_sample :
    sampleTy.Formed [] [] ∧ sampleTy.passes .symbolFree = true ∧
      ∃ root, (Root.read ((Root.constant sampleTy).formatted .standard "")).result = .ok root ∧
        root.plain = (Root.constant sampleTy).plain := by
  have reads {s : String} {l : Lexeme} (h : (match Lexer.scan s.toList with
      | .ok scan => scan.tokens.map (·.lexeme) == [l]
      | .error _ => false) = true) : Lexer.ReadsAs s l := by
    split at h
    case _ scan hs => exact ⟨scan, hs, by simpa using h⟩
    case _ => cases h
  have hformed : sampleTy.Formed [] [] := by
    simp only [sampleTy, Ty.Formed, Ty.FormedAll, Ty.FormedFields, Ty.FormedBlock, Signature.Formed,
      Param.FormedAll, Param.Formed, Param.FormedOption, Param.FormedKeywords, Literal.Formed]
    have harray : TypeName.Formed .constant ⟨none, "Array", [], false⟩ :=
      ⟨by simp, reads (by decide)⟩
    have heach : TypeName.Formed .interfaceName ⟨none, "_Each", ["A", "B"], true⟩ :=
      ⟨List.forall_mem_cons.mpr ⟨reads (by decide), List.forall_mem_singleton.mpr
        (reads (by decide))⟩, reads (by decide)⟩
    have hname {s : String} (h : (!s.toList.isEmpty && !s.toList.contains '`' &&
        !s.toList.contains '\n') = true) : Nameable s := by
      simp only [Bool.and_eq_true, Bool.not_eq_true', List.isEmpty_eq_false_iff,
        List.contains_eq_mem, decide_eq_false_iff_not] at h
      exact ⟨h.1.1, h.1.2, h.2⟩
    have hclass : ∀ s ∈ some "class", Nameable s := by
      rintro s ⟨⟩
      exact hname (by decide)
    have hinteger : Format.Readable (-7) := by
      change (toString 7).length ≤ 4300
      decide
    refine ⟨by decide, ⟨⟨⟨fun _ => rfl, by decide⟩, ⟨harray, by simp, trivial, trivial⟩,
      ⟨⟨⟨heach, trivial⟩, hclass⟩, trivial⟩, ?_⟩, ⟨fun _ => rfl, by decide⟩, ?_⟩, ?_⟩
    · exact ⟨trivial, trivial, trivial, ⟨hname (by decide), by simp, trivial⟩, trivial, trivial⟩
    · simp
    · exact ⟨⟨trivial, hinteger, trivial⟩, trivial⟩
  have hfree : sampleTy.passes .symbolFree = true := by decide
  exact ⟨hformed, hfree, constant_round_trip .standard "" sampleTy hformed hfree⟩

end RubySig
