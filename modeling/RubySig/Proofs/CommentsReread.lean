import RubySig.Proofs.CommentsKept
import RubySig.Proofs.Format.ItemNeat
import RubySig.Proofs.Tree.TextReads

/-!
The comments of a printed file. Where the printed words stay apart, a `#` begins no comment but
those of the items, so the file has their lines as its comments, in their order, each alone on its
line.
-/
namespace RubySig

open Lexer (Reader scanOf)

/-- What is read of a line of a comment that was printed: no blanks are printed at its end, and
carriage returns at the end of a comment are not read. -/
def Comment.reread (line : List Char) : List Char :=
  ((Format.trimEnd line).reverse.dropWhile (· == '\r')).reverse

namespace Format

open Piece (firm Joins)

theorem commentText_printed (line : List Char) :
    (Lexer.commentText (trimEnd (' ' :: line))).toList = Comment.reread line := by
  have hlead (w : List Char) : (Lexer.commentText (' ' :: w)).toList =
      (w.reverse.dropWhile (· == '\r')).reverse := by
    have hdrop : (w.reverse ++ [' ']).dropWhile (· == '\r') =
        w.reverse.dropWhile (· == '\r') ++ [' '] := by
      rw [List.dropWhile_append]
      split
      case isTrue h => rw [List.isEmpty_iff.mp h]; rfl
      case isFalse => rfl
    rw [Lexer.commentText, List.reverse_cons, hdrop, List.reverse_append]
    exact String.toList_ofList
  unfold Comment.reread
  by_cases hblank : line.reverse.dropWhile Doc.isTrailing = []
  · have hline : trimEnd (' ' :: line) = [] := by
      simp [trimEnd, List.dropWhile_append, hblank, Doc.isTrailing]
    rw [hline, trimEnd, hblank]
    rfl
  · have hline : trimEnd (' ' :: line) = ' ' :: trimEnd line := by
      simp [trimEnd, List.dropWhile_append, hblank]
    rw [hline, hlead]

theorem blank_newline (r : Reader) (n : Nat) (rest : List Char) :
    (r.pass ('\n' :: List.replicate n ' ') rest).blank = true := by
  have hkeep : ∀ n, (List.replicate n ' ').foldl
      (fun blank c => c == '\n' || (blank && Text.isBlank c)) true = true := by
    intro n
    induction n with
    | zero => rfl
    | succ n ih => exact ih
  exact hkeep n

variable {ps : List Piece} {cs : List Lexer.Chunk} {r : Reader}

/-- The comments of a text are the comment lines that it is made of. -/
theorem Realizes.comments (h : Realizes ps cs) (r : Reader) :
    (scanOf r cs).comments.map (·.text.toList) = (remarks ps).map Comment.reread := by
  induction h generalizing r with
  | nil => rfl
  | word _ ih | gap _ _ ih => exact ih _
  | @remark line n ps cs _ ih =>
    exact congrArg₂ List.cons (commentText_printed line) (ih _)

/-- Comment lines stand alone on their lines, since only line ends and comment lines stand in front
of them. -/
theorem Realizes.alone (h : Realizes ps cs) (hj : (firm ps).IsChain Joins)
    (hb : ∀ line, (firm ps).head? = some (.remark line) → r.blank = true) :
    ∀ c ∈ (scanOf r cs).comments, c.alone = true := by
  induction h generalizing r with
  | nil => simp [scanOf]
  | @word l w ps cs h ih =>
    rw [Piece.firm_word, List.isChain_cons] at hj
    exact ih hj.2 fun line hline => (hj.1 _ hline).elim
  | @gap g s ps cs hg h ih =>
    cases g with
    | soft =>
      refine ih hj fun line hline => ?_
      obtain rfl | ⟨n, rfl⟩ := hg
      · exact hb line hline
      · exact blank_newline r n _
    | line =>
      obtain ⟨n, rfl⟩ := hg
      exact ih (List.isChain_cons.mp hj).2 fun _ _ => blank_newline r n _
    | blank | space =>
      obtain ⟨hfirst, hrest⟩ := List.isChain_cons.mp hj
      exact ih hrest fun line hline => (hfirst _ hline).elim
  | @remark line n ps cs h ih =>
    refine List.forall_mem_cons.mpr ⟨hb line rfl, ?_⟩
    exact ih (List.isChain_cons.mp hj).2 fun _ _ => blank_newline _ n _

/-- Whatever the settings, the comments of the written text of neat pieces are their comment
lines. -/
theorem Shows.comments {docs : List Doc} (hs : Shows docs ps) (hn : Neat ps) (settings : Settings) :
    ∃ scan, Lexer.scan (settings.render docs).toList = .ok scan ∧
      scan.comments.map (·.text.toList) = (Format.remarks ps).map Comment.reread ∧
      ∀ c ∈ scan.comments, c.alone = true := by
  obtain ⟨ss, hl, ht⟩ := Doc.render_lays settings.maxWidth (Doc.grouped docs)
  obtain ⟨cs, hc, htext⟩ := (hs.grouped 0 ss hl).realizes hn.sound
  have hall : (settings.render docs).toList = Lexer.Chunk.textOf cs := ht.trans htext.symm
  rw [hall, Lexer.scan_textOf (hc.legible hn.sound hn.chain none (by simp))]
  exact ⟨_, rfl, hc.comments _, hc.alone hn.chain fun _ _ => rfl⟩

end Format

/-- The comments of what is written of a text are those of its items, line by line and in their
order, each alone on its line, and no others, if the printed words stay apart. -/
theorem comments_reread {source : String} {root : Root} (h : (Root.read source).result = .ok root)
    (settings : Settings) (hu : root.Unambiguous (settings.context source)) :
    ∃ text scan, reformat settings source = .ok text ∧ Lexer.scan text.toList = .ok scan ∧
      scan.comments.map (·.text.toList) = (root.comments.flatMap Comment.lines).map Comment.reread ∧
      ∀ c ∈ scan.comments, c.alone = true := by
  have hneat := Format.rootPieces_neat (settings.context source) (Root.read_formed h) hu
  obtain ⟨scan, hscan, hcomments, halone⟩ :=
    (Format.rootDocs_shows (settings.context source) root).comments hneat settings
  refine ⟨root.formatted settings source, scan, ?_, hscan, ?_, halone⟩
  · rw [reformat, h]
    rfl
  · rw [hcomments, Format.remarks_root]

example : ((reformat .standard commentedSource).toOption.bind fun text =>
    (Lexer.scan text.toList).toOption.map fun scan => scan.comments.map (·.text)) =
      some ["a", " b", ""] := by
  decide +kernel

end RubySig
