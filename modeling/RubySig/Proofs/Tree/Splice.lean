import RubySig.Proofs.Tree.Check
import RubySig.Proofs.Tree.Plain

/-!
Splicing nested unions: it commutes with leaving places out, and it hides what printing and reading
do to a type in which no symbol takes in a mark.
-/
namespace RubySig

theorem Ty.parts_erase (f : Showing) (t : Ty) : (t.erase f).parts = t.parts.map (Ty.erase f) := by
  cases t with
  | union l types => exact Ty.eraseAll_eq_map f types
  | _ => rfl

mutual

theorem Ty.spliced_erase (f : Showing) : (t : Ty) → (t.erase f).spliced = t.spliced.erase f
  | .base _ _ => rfl
  | .variable _ _ => rfl
  | .classInstance _ _ args => by
    simp only [Ty.erase, Ty.spliced, Ty.splicedAll_erase f args]
  | .interface _ _ args => by
    simp only [Ty.erase, Ty.spliced, Ty.splicedAll_erase f args]
  | .alias _ _ args => by
    simp only [Ty.erase, Ty.spliced, Ty.splicedAll_erase f args]
  | .classSingleton _ _ => rfl
  | .optional _ type => by simp only [Ty.erase, Ty.spliced, Ty.spliced_erase f type]
  | .union _ types => by
    rw [Ty.erase, Ty.spliced, Ty.splicedAll_erase f types, Ty.spliced, Ty.erase, Ty.eraseAll_eq_map,
      Ty.eraseAll_eq_map, List.map_flatMap, List.flatMap_map]
    simp only [Ty.parts_erase]
  | .intersection _ types => by simp only [Ty.erase, Ty.spliced, Ty.splicedAll_erase f types]
  | .tuple _ types => by simp only [Ty.erase, Ty.spliced, Ty.splicedAll_erase f types]
  | .record _ fields => by simp only [Ty.erase, Ty.spliced, Ty.splicedFields_erase f fields]
  | .literal _ _ => rfl
  | .proc _ signature block => by
    simp only [Ty.erase, Ty.spliced, Signature.spliced_erase f signature,
      Ty.splicedBlock_erase f block]

theorem Ty.splicedAll_erase (f : Showing) : (ts : List Ty) →
    Ty.splicedAll (Ty.eraseAll f ts) = Ty.eraseAll f (Ty.splicedAll ts)
  | [] => rfl
  | t :: ts => by
    simp only [Ty.eraseAll, Ty.splicedAll, Ty.spliced_erase f t, Ty.splicedAll_erase f ts]

theorem Ty.splicedFields_erase (f : Showing) : (fields : List Field) →
    Ty.splicedFields (Ty.eraseFields f fields) = Ty.eraseFields f (Ty.splicedFields fields)
  | [] => rfl
  | ⟨_, _, _, type⟩ :: fields => by
    simp only [Ty.eraseFields, Ty.splicedFields, Ty.spliced_erase f type,
      Ty.splicedFields_erase f fields]

theorem Param.spliced_erase (f : Showing) : (p : Param) → (p.erase f).spliced = p.spliced.erase f
  | ⟨_, type, _⟩ => by simp only [Param.erase, Param.spliced, Ty.spliced_erase f type]

theorem Param.splicedAll_erase (f : Showing) : (ps : List Param) →
    Param.splicedAll (Param.eraseAll f ps) = Param.eraseAll f (Param.splicedAll ps)
  | [] => rfl
  | p :: ps => by
    simp only [Param.eraseAll, Param.splicedAll, Param.spliced_erase f p,
      Param.splicedAll_erase f ps]

theorem Param.splicedOption_erase (f : Showing) : (p : Option Param) →
    Param.splicedOption (Param.eraseOption f p) = Param.eraseOption f (Param.splicedOption p)
  | none => rfl
  | some p => by simp only [Param.eraseOption, Param.splicedOption, Param.spliced_erase f p]

theorem Param.splicedKeywords_erase (f : Showing) : (ps : List (String × Param)) →
    Param.splicedKeywords (Param.eraseKeywords f ps) =
      Param.eraseKeywords f (Param.splicedKeywords ps)
  | [] => rfl
  | (_, p) :: ps => by
    simp only [Param.eraseKeywords, Param.splicedKeywords, Param.spliced_erase f p,
      Param.splicedKeywords_erase f ps]

theorem Signature.spliced_erase (f : Showing) : (s : Signature) →
    (s.erase f).spliced = s.spliced.erase f
  | ⟨_, result, required, optional, rest, trailing, requiredKeywords, optionalKeywords,
      restKeywords⟩ => by
    simp only [Signature.erase, Signature.spliced, Ty.spliced_erase f result,
      Param.splicedAll_erase f required, Param.splicedAll_erase f optional,
      Param.splicedOption_erase f rest, Param.splicedAll_erase f trailing,
      Param.splicedKeywords_erase f requiredKeywords,
      Param.splicedKeywords_erase f optionalKeywords,
      Param.splicedOption_erase f restKeywords]

theorem Ty.splicedBlock_erase (f : Showing) : (block : Option Block) →
    Ty.splicedBlock (Ty.eraseBlock f block) = Ty.eraseBlock f (Ty.splicedBlock block)
  | none => rfl
  | some ⟨_, signature, _⟩ => by
    simp only [Ty.eraseBlock, Ty.splicedBlock, Signature.spliced_erase f signature]

end

/-- The parts of a spliced type are the parts of its spliced parts. -/
theorem Ty.parts_spliced (t : Ty) :
    t.parts.flatMap (fun u => u.spliced.parts) = t.spliced.parts := by
  cases t with
  | union l types => rw [Ty.parts, Ty.spliced, Ty.parts, Ty.splicedAll_eq_map, List.flatMap_map]
  | _ => simp [Ty.parts, Ty.spliced]

mutual

/-- Reading a printed type gives the type up to nested unions. -/
theorem Ty.spliced_reread : (wrap : Bool) → (t : Ty) → t.passes .unmerged = true →
    (t.reread wrap).spliced = t.spliced
  | _, .base _ _, _ => rfl
  | _, .variable _ _, _ => rfl
  | _, .classInstance _ _ args, h => by
    simp only [Ty.reread, Ty.spliced, Ty.splicedAll_reread false args h]
  | _, .interface _ _ args, h => by
    simp only [Ty.reread, Ty.spliced, Ty.splicedAll_reread false args h]
  | _, .alias _ _ args, h => by
    simp only [Ty.reread, Ty.spliced, Ty.splicedAll_reread false args h]
  | _, .classSingleton _ _, _ => rfl
  | _, .optional _ type, h => by
    obtain ⟨hm, ht⟩ := Bool.and_eq_true_iff.mp h
    have ho : type.openSymbol? = none := by
      cases ho : type.openSymbol? with
      | none => rfl
      | some s => simp [Check.unmerged, Ty.merges, ho] at hm
    simp only [Ty.reread, ho, Ty.spliced, Ty.spliced_reread true type ht]
  | true, .union _ types, h => by
    have ht := (Bool.and_eq_true_iff.mp h).2
    simp only [Ty.reread, if_true, Ty.spliced, Ty.splicedAll_reread true types ht]
  | false, .union l types, h => by
    have ht := Ty.splicedAll_reread false types (Bool.and_eq_true_iff.mp h).2
    simp only [Ty.splicedAll_eq_map, Ty.rereadAll_eq_map] at ht
    simp only [Ty.reread, Bool.false_eq_true, if_false, Ty.spliced, Ty.splicedAll_eq_map,
      Ty.rereadAll_eq_map, ← ht, List.flatMap_assoc, Ty.parts_spliced, List.flatMap_map]
  | _, .intersection _ types, h => by
    have ht := (Bool.and_eq_true_iff.mp h).2
    simp only [Ty.reread, Ty.spliced, Ty.splicedAll_reread true types ht]
  | _, .tuple _ types, h => by
    have ht := (Bool.and_eq_true_iff.mp h).2
    simp only [Ty.reread, Ty.spliced, Ty.splicedAll_reread false types ht]
  | _, .record _ fields, h => by
    have ht := (Bool.and_eq_true_iff.mp h).2
    simp only [Ty.reread, Ty.spliced, Ty.splicedFields_reread fields ht]
  | _, .literal _ _, _ => rfl
  | _, .proc _ signature block, h => by
    obtain ⟨hs, hb⟩ := Bool.and_eq_true_iff.mp (Bool.and_eq_true_iff.mp h).2
    simp only [Ty.reread, Ty.spliced, Signature.spliced_reread signature hs,
      Ty.splicedBlock_reread block hb]

theorem Ty.splicedAll_reread : (wrap : Bool) → (ts : List Ty) → Ty.allPass .unmerged ts = true →
    Ty.splicedAll (Ty.rereadAll wrap ts) = Ty.splicedAll ts
  | _, [], _ => rfl
  | wrap, t :: ts, h => by
    obtain ⟨ht, hts⟩ := Bool.and_eq_true_iff.mp h
    simp only [Ty.rereadAll, Ty.splicedAll, Ty.spliced_reread wrap t ht,
      Ty.splicedAll_reread wrap ts hts]

theorem Ty.splicedFields_reread : (fields : List Field) → Ty.fieldsPass .unmerged fields = true →
    Ty.splicedFields (Ty.rereadFields fields) = Ty.splicedFields fields
  | [], _ => rfl
  | ⟨_, _, _, type⟩ :: fields, h => by
    obtain ⟨ht, hfs⟩ := Bool.and_eq_true_iff.mp h
    simp only [Ty.rereadFields, Ty.splicedFields, Ty.spliced_reread false type ht,
      Ty.splicedFields_reread fields hfs]

theorem Param.spliced_reread : (p : Param) → p.passes .unmerged = true →
    p.reread.spliced = p.spliced
  | ⟨_, type, _⟩, h => by simp only [Param.reread, Param.spliced, Ty.spliced_reread false type h]

theorem Param.splicedAll_reread : (ps : List Param) → Param.allPass .unmerged ps = true →
    Param.splicedAll (Param.rereadAll ps) = Param.splicedAll ps
  | [], _ => rfl
  | p :: ps, h => by
    obtain ⟨hp, hps⟩ := Bool.and_eq_true_iff.mp h
    simp only [Param.rereadAll, Param.splicedAll, Param.spliced_reread p hp,
      Param.splicedAll_reread ps hps]

theorem Param.splicedOption_reread : (p : Option Param) → Param.optionPasses .unmerged p = true →
    Param.splicedOption (Param.rereadOption p) = Param.splicedOption p
  | none, _ => rfl
  | some p, h => by simp only [Param.rereadOption, Param.splicedOption, Param.spliced_reread p h]

theorem Param.splicedKeywords_reread : (ps : List (String × Param)) →
    Param.keywordsPass .unmerged ps = true →
      Param.splicedKeywords (Param.rereadKeywords ps) = Param.splicedKeywords ps
  | [], _ => rfl
  | (_, p) :: ps, h => by
    obtain ⟨hp, hps⟩ := Bool.and_eq_true_iff.mp h
    simp only [Param.rereadKeywords, Param.splicedKeywords, Param.spliced_reread p hp,
      Param.splicedKeywords_reread ps hps]

theorem Signature.spliced_reread : (s : Signature) → s.passes .unmerged = true →
    s.reread.spliced = s.spliced
  | ⟨_, result, required, optional, rest, trailing, requiredKeywords, optionalKeywords,
      restKeywords⟩, h => by
    simp only [Signature.passes, Bool.and_eq_true] at h
    obtain ⟨-, ⟨⟨⟨⟨⟨⟨hr, h₁⟩, h₂⟩, h₃⟩, h₄⟩, h₅⟩, h₆⟩, h₇⟩ := h
    simp only [Signature.reread, Signature.spliced, Ty.spliced_reread true result hr,
      Param.splicedAll_reread required h₁, Param.splicedAll_reread optional h₂,
      Param.splicedOption_reread rest h₃, Param.splicedAll_reread trailing h₄,
      Param.splicedKeywords_reread requiredKeywords h₅,
      Param.splicedKeywords_reread optionalKeywords h₆, Param.splicedOption_reread restKeywords h₇]

theorem Ty.splicedBlock_reread : (block : Option Block) → Ty.blockPasses .unmerged block = true →
    Ty.splicedBlock (Ty.rereadBlock block) = Ty.splicedBlock block
  | none, _ => rfl
  | some ⟨_, signature, _⟩, h => by
    simp only [Ty.rereadBlock, Ty.splicedBlock, Signature.spliced_reread signature h]

end

end RubySig
