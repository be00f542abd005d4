import Mathlib.Data.List.Perm.Basic
import RubySig.Proofs.Format.Written
import RubySig.Proofs.Tree.DeclarationYields

/-!
No comment is lost or doubled. Reading takes each comment into the comment of one item or into one
warning, and formatting prints the comments of the items, line by line, and no others.
-/
namespace RubySig

/-- Where the comments of a text are that is read as `root`: in the comments of its items, or named
by a warning. -/
structure Reading.Accounts (reading : Reading) (comments : List CommentLine) (root : Root)
    (attached dropped : List CommentRun) : Prop where
  once :
    (comments.filter (!·.alone) ++ (attached ++ dropped).flatMap CommentRun.lines).Perm comments
  placed : (attached.map CommentRun.comment).Perm root.comments
  lines : ∀ run ∈ attached, run.comment.lines = run.lines.map (·.text.toList)
  warnings : reading.warnings =
    (comments.filter (!·.alone)).map (fun c => .trailing c.start.line) ++
      dropped.map fun run => .detached run.first.start.line

def Lead.lines (lead : Lead) : List (List Char) := lead.comment.toList.flatMap Comment.lines

/-- A text has the comments of a tree and no others, each on lines of its own right above the
annotations of its item, or above the item. -/
structure Format.Keeps (c : Context) (root : Root) (text : List Char) : Prop where
  written : Written (rootPieces c root) text
  lines : remarks (rootPieces c root) = root.comments.flatMap Comment.lines
  above : ∀ item ∈ root.items, ∃ front comment back behind, text = front ++ comment ++ back ∧
    EndsLine front ∧ Written (item.lead.lines.map .remark) comment ∧
    Written (notesPieces c item.lead.notes ++ ownPieces c item ++ behind) back

theorem Root.read_accounts {source : String} {root : Root}
    (h : (Root.read source).result = .ok root) :
    ∃ scan attached dropped, Lexer.scan source.toList = .ok scan ∧
      (Root.read source).Accounts scan.comments root attached dropped := by
  obtain ⟨scan, left, taken, hscan, -, htaken, hblocks, hwarnings⟩ := Root.read_yields h
  obtain ⟨runs, hruns, hlines⟩ := CommentBlock.ofLines_runs (scan.comments.filter (·.alone))
  rw [hruns] at hblocks
  obtain ⟨both, hboth, hperm⟩ : ∃ both : List CommentRun,
      taken ++ left = both.map CommentRun.block ∧ both.Perm runs := by
    have hcomp := List.eq_map_comp_perm CommentRun.block
    exact (congrFun (congrFun hcomp (taken ++ left)) runs).mpr hblocks
  obtain ⟨attached, dropped, rfl, rfl, rfl⟩ := List.map_eq_append_iff.mp hboth.symm
  have hall : ((attached ++ dropped).flatMap CommentRun.lines).Perm
      (scan.comments.filter (·.alone)) := by
    rw [← hlines]
    exact hperm.flatMap_right _
  refine ⟨scan, attached, dropped, hscan, ?_, ?_, ?_, ?_⟩
  · refine (hall.append_left _).trans (List.perm_append_comm.trans ?_)
    exact List.filter_append_perm ..
  · rwa [List.map_map] at htaken
  · intro run hrun
    refine CommentRun.comment_lines fun c hc => Lexer.scanFrom_comments _ _ hscan c ?_
    have hmem : c ∈ (attached ++ dropped).flatMap CommentRun.lines :=
      List.mem_flatMap.mpr ⟨run, List.mem_append_left _ hrun, hc⟩
    exact (List.mem_filter.mp (hall.subset hmem)).1
  · rw [hwarnings, CommentBlock.trailing, CommentBlock.detached, List.map_map]
    rfl

theorem Root.formatted_keeps (root : Root) (settings : Settings) (source : String) :
    Format.Keeps (settings.context source) root (root.formatted settings source).toList := by
  have hwritten := (Format.rootDocs_shows (settings.context source) root).written settings
  refine ⟨hwritten, Format.remarks_root _ root, fun item h => ?_⟩
  obtain ⟨front, back, behind, htext, hfront, hback⟩ :=
    (Format.root_items _ root item h).written hwritten
  rw [Format.itemPieces_eq, Format.remarkPieces_eq, List.append_assoc, List.append_assoc] at hback
  obtain ⟨comment, back, rfl, hcomment, hback⟩ := hback.split_remarks
  refine ⟨front, comment, back, behind, ?_, hfront, hcomment, ?_⟩
  · rw [List.append_assoc]
    exact htext
  · rw [List.append_assoc]
    exact hback

/-- Each comment of a text that is read is in the comment of one item or named by one warning, and
the formatted text has the comments of the items. -/
theorem comments_kept {source : String} {root : Root} (h : (Root.read source).result = .ok root)
    (settings : Settings) :
    ∃ scan attached dropped text, Lexer.scan source.toList = .ok scan ∧
      (Root.read source).Accounts scan.comments root attached dropped ∧
      reformat settings source = .ok text ∧
      Format.Keeps (settings.context source) root text.toList := by
  obtain ⟨scan, attached, dropped, hscan, haccounts⟩ := Root.read_accounts h
  refine ⟨scan, attached, dropped, root.formatted settings source, hscan, haccounts, ?_, ?_⟩
  · rw [reformat, h]
    rfl
  · exact root.formatted_keeps settings source

/-- A comment above a class, one behind its heading, one that nothing follows, and one above a
method. -/
def commentedSource : String := "# a\n#  b \nclass A # c\n  # d\n\n  #\n  def f: () -> A\nend\n"

theorem comments_kept_sample : ∃ root, (Root.read commentedSource).result = .ok root ∧
    ∃ scan attached dropped text, Lexer.scan commentedSource.toList = .ok scan ∧
      (Root.read commentedSource).Accounts scan.comments root attached dropped ∧
      reformat .standard commentedSource = .ok text ∧
      Format.Keeps (Settings.standard.context commentedSource) root text.toList := by
  have hread : (Root.read commentedSource).result.toOption.isSome = true := by decide +kernel
  cases h : (Root.read commentedSource).result with
  | error e =>
    rw [h] at hread
    cases hread
  | ok root => exact ⟨root, rfl, comments_kept h .standard⟩

example : (reformat .standard commentedSource).toOption =
    some "# a\n#  b\nclass A\n  #\n  def f: -> A\nend\n" := by
  decide +kernel

end RubySig
