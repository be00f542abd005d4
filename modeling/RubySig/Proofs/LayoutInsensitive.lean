import RubySig.Proofs.Format.LikePrinted
import RubySig.Proofs.Tree.LikeScans

/-!
What is written does not depend on the indentation and on the number of blank lines of what is read:
two texts that differ in nothing else are refused both, or are reformatted to the same text.
-/
namespace RubySig

open List (Forall₂)
open Grammar (Likeness)

variable {s s' : String} {scan scan' : Lexer.Scan} {settings : Settings} {out : String}

/-- A text is reformatted when it can be scanned and its tokens are a file. -/
theorem reformat_ok_iff : reformat settings s = .ok out ↔ ∃ scan items left,
    Lexer.scan s.toList = .ok scan ∧
    Grammar.file s.toList scan (CommentBlock.ofLines (scan.comments.filter (·.alone))) =
      .ok (items, left) ∧
    settings.render (Format.rootDocs (settings.context s)
      ⟨some (Root.wholeSpan s.toList scan), items⟩) = out := by
  unfold reformat Root.read
  dsimp only
  constructor
  · intro h
    split at h
    · cases h
    · cases h
    case _ scan hscan =>
      split at h
      · cases h
      case _ items left hfile =>
        cases h
        exact ⟨scan, items, left, hscan, hfile, rfl⟩
  · rintro ⟨scan, items, left, hscan, hfile, rfl⟩
    rw [hscan]
    dsimp only
    rw [hfile]
    rfl

/-- A text whose scan corresponds to that of another is reformatted as that is. -/
theorem reformat_follows (hscan : Lexer.scan s.toList = .ok scan)
    (hscan' : Lexer.scan s'.toList = .ok scan')
    (L : Likeness ⟨s.toList, scan.finish⟩ ⟨s'.toList, scan'.finish⟩)
    (htokens : Forall₂ L.token scan.tokens scan'.tokens)
    (hcomments : Forall₂ L.SameCommentLine scan.comments scan'.comments)
    (h : reformat settings s = .ok out) : reformat settings s' = .ok out := by
  obtain ⟨scan₁, items, left, hscan₁, hfile, rfl⟩ := reformat_ok_iff.mp h
  cases hscan.symm.trans hscan₁
  obtain ⟨items', left', hfile', hitems⟩ :=
    Grammar.file_follows L htokens (Grammar.blocks_same hcomments) hfile
  refine reformat_ok_iff.mpr ⟨scan', items', left', hscan', hfile', ?_⟩
  have hprints : L.Prints (settings.context s) (settings.context s') := ⟨rfl, rfl, rfl⟩
  rw [Format.rootDocs_same hprints hitems]

theorem layout_insensitive (h : Lexer.Relaid none true s.toList s'.toList) (settings : Settings) :
    (reformat settings s).toOption = (reformat settings s').toOption := by
  have hstart (s : String) : Lexer.Stands s.toList [] s.toList (.start s.toList) := ⟨rfl, rfl, rfl⟩
  have hagree := Lexer.relaid_scans h (hstart s) (hstart s') ⟨rfl, rfl, rfl, fun _ => ⟨rfl, rfl⟩⟩
  rw [← Lexer.scan_eq_start, ← Lexer.scan_eq_start] at hagree
  have hnone {s : String} {e : Lexer.Error} (he : Lexer.scan s.toList = .error e) :
      (reformat settings s).toOption = none := by
    cases hs : reformat settings s with
    | error => rfl
    | ok out =>
      obtain ⟨scan, -, -, hscan, -⟩ := reformat_ok_iff.mp hs
      cases he.symm.trans hscan
  cases hscan : Lexer.scan s.toList with
  | error e =>
    rw [hscan] at hagree
    cases hscan' : Lexer.scan s'.toList with
    | error e' => rw [hnone hscan, hnone hscan']
    | ok scan' =>
      rw [hscan'] at hagree
      cases hagree
  | ok scan =>
    rw [hscan] at hagree
    cases hscan' : Lexer.scan s'.toList with
    | error e' =>
      rw [hscan'] at hagree
      cases hagree
    | ok scan' =>
      rw [hscan'] at hagree
      cases hagree with
      | ok htwins =>
        obtain ⟨L, hL⟩ := htwins
        have hback : ∀ out, reformat settings s' = .ok out →
            reformat settings s = .ok out := fun out =>
          reformat_follows hscan' hscan L.symm hL.tokens.flip
            (hL.comments.flip.imp fun k k' hk => ⟨hk.text.symm, hk.alone.symm, hk.start, hk.stop⟩)
        cases hs : reformat settings s with
        | ok out => rw [reformat_follows hscan hscan' L hL.tokens hL.comments hs]
        | error e =>
          cases hs' : reformat settings s' with
          | error e' => rfl
          | ok out => cases hs.symm.trans (hback out hs')

open Lexer (Relaid) in
/-- A blank line more, other indentation of a comment and of a constant, and blanks for the empty
lines that the text ends with. -/
theorem layout_insensitive_comment :
    Relaid none true "\n# c\nA: B\n\n".toList "\n\n # c\n\tA: B\n ".toList ∧
    (reformat .standard "\n# c\nA: B\n\n").toOption =
      (reformat .standard "\n\n # c\n\tA: B\n ").toOption := by
  have hempty : Lexer.Indentation [] := by simp [Lexer.Indentation]
  have hblank : Lexer.Indentation [' '] := by simp [Lexer.Indentation]
  have htab : Lexer.Indentation ['\t'] := by simp [Lexer.Indentation]
  have hend : Relaid (some 'B') false ['\n', '\n'] ['\n', ' '] :=
    .newline (.ending ⟨[[]], [], by simp [hempty], hempty, rfl⟩ ⟨[], [' '], by simp, hblank, rfl⟩)
  have htype : Relaid (some ':') false [' ', 'B', '\n', '\n'] [' ', 'B', '\n', ' '] :=
    .space rfl (by decide)
      (.token (p := ⟨.constant "B", ['B'], ['\n', '\n']⟩) rfl (by decide) (by decide +kernel) hend)
  have hcolon : Relaid (some 'A') false [':', ' ', 'B', '\n', '\n'] [':', ' ', 'B', '\n', ' '] :=
    .token (p := ⟨.mark .colon, [':'], [' ', 'B', '\n', '\n']⟩) rfl (by decide)
      (by decide +kernel) htype
  have hname : Relaid (some '\n') false ['A', ':', ' ', 'B', '\n', '\n']
      ['A', ':', ' ', 'B', '\n', ' '] :=
    .token (p := ⟨.constant "A", ['A'], [':', ' ', 'B', '\n', '\n']⟩) rfl (by decide)
      (by decide +kernel)
      hcolon
  have hconstant : Relaid (some '\n') true ([] ++ ['A', ':', ' ', 'B', '\n', '\n'])
      (['\t'] ++ ['A', ':', ' ', 'B', '\n', ' ']) :=
    .indentation hempty htab hname
  have hcomment : Relaid (some '\n') false
      ('#' :: [' ', 'c'] ++ ['\n', 'A', ':', ' ', 'B', '\n', '\n'])
      ('#' :: [' ', 'c'] ++ ['\n', '\t', 'A', ':', ' ', 'B', '\n', ' ']) :=
    .comment (by decide) (by simp [Lexer.Breaks]) (.newline hconstant)
  have hblanks : Relaid (some '\n') true
      ([] ++ ['#', ' ', 'c', '\n', 'A', ':', ' ', 'B', '\n', '\n'])
      ([' '] ++ ['#', ' ', 'c', '\n', '\t', 'A', ':', ' ', 'B', '\n', ' ']) :=
    .indentation hempty hblank hcomment
  have h : Relaid none true "\n# c\nA: B\n\n".toList "\n\n # c\n\tA: B\n ".toList :=
    .blankLines ⟨[[]], by simp, by simp [hempty], rfl⟩
      ⟨[[], []], by simp, by simp [hempty], rfl⟩ hblanks
  exact ⟨h, layout_insensitive h .standard⟩

end RubySig
