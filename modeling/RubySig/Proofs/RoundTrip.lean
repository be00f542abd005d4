import RubySig.Proofs.Format.ItemNeat
import RubySig.Proofs.Format.ItemShow
import RubySig.Proofs.Tree.BodyReads
import RubySig.Proofs.Tree.DeclarationYields
import RubySig.Proofs.Tree.Rewritten

/-! A file that is printed is read back, with its nested unions spliced, if its printed words stay
apart. -/
namespace RubySig

/-- A tree of the shape of the grammar, whose printed words stay apart, is printed for every width
and indentation as a text that is read back as the tree, nested unions spliced. -/
theorem Root.round_trip (settings : Settings) (source : String) (root : Root)
    (h : root.Formed source.toList) (hu : root.Unambiguous (settings.context source)) :
    ∃ again, (Root.read (root.formatted settings source)).result = .ok again ∧
      again.plain = root.plain := by
  obtain ⟨again, hread, hitems⟩ :=
    Root.read_takes (Format.rootDocs_shows (settings.context source) root)
    (Format.rootPieces_neat _ h hu) settings fun finish =>
      Grammar.takes_file (f := fun _ v => v) (g := fun _ v => v) (fun _ _ _ _ _ => rfl) h hu.apart
  refine ⟨again, hread, ?_⟩
  have hplain := Item.plainAll_of_reread hitems.eq hu.unmerged
  simp only [Root.plain, Root.erase, Root.rewrite, hplain]

/-- Formatting preserves every text that can be read and whose printed words stay apart. -/
theorem format_round_trip (settings : Settings) (source : String) (root : Root)
    (hread : (Root.read source).result = .ok root)
    (hu : root.Unambiguous (settings.context source)) :
    ∃ again, (Root.read (root.formatted settings source)).result = .ok again ∧
      again.plain = root.plain :=
  Root.round_trip settings source root (Root.read_formed hread) hu

end RubySig
