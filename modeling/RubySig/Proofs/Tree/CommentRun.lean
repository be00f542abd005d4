import RubySig.Proofs.Token.Sound
import RubySig.Spell.Literal
import RubySig.Tree.CommentBlock

/-!
Comment blocks as runs of comments on consecutive lines: the blocks of a text are made of its
whole-line comments, each in one block, and the lines of a block are found again in its comment.
-/
namespace RubySig

/-- Comments on consecutive lines. -/
structure CommentRun where
  first : CommentLine
  rest : List CommentLine
  consecutive : (first :: rest).IsChain fun a b => b.start.line = a.start.line + 1

namespace CommentRun

def lines (r : CommentRun) : List CommentLine := r.first :: r.rest

def last (r : CommentRun) : CommentLine := r.rest.getLastD r.first

def block (r : CommentRun) : CommentBlock := ⟨r.lines.map (·.text), r.first.start, r.last.stop⟩

def comment (r : CommentRun) : Comment := r.block.comment

theorem block_cons {c : CommentLine} {r : CommentRun}
    (h : (c :: r.lines).IsChain fun a b => b.start.line = a.start.line + 1) :
    (CommentRun.mk c r.lines h).block = ⟨c.text :: r.block.lines, c.start, r.block.stop⟩ := by
  have hlast : (CommentRun.mk c r.lines h).last = r.last := List.getLastD_cons
  unfold block
  rw [hlast]
  rfl

end CommentRun

def Comment.lines (c : Comment) : List (List Char) := Spell.commentLines c.text.toList

namespace CommentBlock

theorem cons_runs (c : CommentLine) (runs : List CommentRun) :
    ∃ runs' : List CommentRun, cons c (runs.map CommentRun.block) = runs'.map CommentRun.block ∧
      runs'.flatMap CommentRun.lines = c :: runs.flatMap CommentRun.lines := by
  have alone (rest : List CommentRun) : ∃ runs' : List CommentRun,
      ⟨[c.text], c.start, c.stop⟩ :: rest.map CommentRun.block = runs'.map CommentRun.block ∧
        runs'.flatMap CommentRun.lines = c :: rest.flatMap CommentRun.lines :=
    ⟨⟨c, [], .singleton c⟩ :: rest, rfl, rfl⟩
  cases runs with
  | nil => exact alone []
  | cons r runs =>
    rw [List.map_cons, cons]
    split
    case isTrue h =>
      have hchain : (c :: r.lines).IsChain fun a b => b.start.line = a.start.line + 1 :=
        .cons_cons (eq_of_beq h) r.consecutive
      refine ⟨⟨c, r.lines, hchain⟩ :: runs, ?_, rfl⟩
      rw [List.map_cons, CommentRun.block_cons hchain]
    case isFalse => exact alone (r :: runs)

/-- Each comment is in one block. -/
theorem ofLines_runs (cs : List CommentLine) : ∃ runs : List CommentRun,
    ofLines cs = runs.map CommentRun.block ∧ runs.flatMap CommentRun.lines = cs := by
  induction cs with
  | nil => exact ⟨[], rfl, rfl⟩
  | cons c cs ih =>
    obtain ⟨runs, hruns, hlines⟩ := ih
    obtain ⟨runs', hruns', hlines'⟩ := cons_runs c runs
    exact ⟨runs', by rw [ofLines, hruns, hruns'], by rw [hlines', hlines]⟩

end CommentBlock

/-- A line that stands for itself in a text of several lines. -/
structure IsLine (line : List Char) : Prop where
  oneLine : '\n' ∉ line
  noReturn : line.getLast? ≠ some '\r'

theorem IsLine.tail {c : Char} {line : List Char} (h : IsLine (c :: line)) : IsLine line := by
  refine ⟨fun hn => h.oneLine (List.mem_cons_of_mem _ hn), fun hreturn => h.noReturn ?_⟩
  cases line with
  | nil => cases hreturn
  | cons d line => rwa [List.getLast?_cons_cons]

namespace Lexer

theorem isLine_commentText {line : List Char} (h : '\n' ∉ line) :
    IsLine (commentText line).toList := by
  unfold commentText
  rw [String.toList_ofList]
  have hsub : ∀ c ∈ (line.reverse.dropWhile (· == '\r')).reverse, c ∈ line := fun c hc =>
    List.mem_reverse.mp ((List.dropWhile_sublist _).subset (List.mem_reverse.mp hc))
  have hlast : (line.reverse.dropWhile (· == '\r')).reverse.getLast? ≠ some '\r' := by
    rw [List.getLast?_reverse]
    intro hc
    have := List.head?_dropWhile_not (· == '\r') line.reverse
    rw [hc] at this
    simp at this
  have htrimmed : IsLine (line.reverse.dropWhile (· == '\r')).reverse :=
    ⟨fun hn => h (hsub _ hn), hlast⟩
  split
  case _ cs heq =>
    rw [heq] at htrimmed
    exact htrimmed.tail
  case _ => exact htrimmed

/-- The texts of comments are lines. -/
theorem scanFrom_comments (fuel : Nat) (r : Reader) {scan : Scan} (h : scanFrom fuel r = .ok scan) :
    ∀ c ∈ scan.comments, IsLine c.text.toList := by
  induction fuel generalizing r scan with
  | zero =>
    cases h
    simp
  | succ fuel ih =>
    obtain ⟨-, rfl⟩ | ⟨c, cs, -, -, hm⟩ | ⟨cs, more, -, hm, rfl⟩ |
      ⟨c, cs, piece, more, -, -, -, -, hm, rfl⟩ := scanFrom_cases h
    · simp
    · exact ih _ hm
    · refine List.forall_mem_cons.mpr ⟨isLine_commentText fun hn => ?_, ih _ hm⟩
      simpa using List.mem_takeWhile_imp hn
    · have hrest := ih (r.pass piece.taken piece.rest) hm
      exact hrest

end Lexer

namespace Text

theorem joinLineEnds_cons {c : Char} {cs : List Char} (h : c = '\r' → cs.head? ≠ some '\n') :
    joinLineEnds (c :: cs) = c :: joinLineEnds cs := by
  rw [joinLineEnds]
  rintro ds rfl rfl
  exact h rfl rfl

/-- A line stays as it is, whatever follows. -/
theorem joinLineEnds_append {line : List Char} (h : IsLine line) (rest : List Char) :
    joinLineEnds (line ++ rest) = line ++ joinLineEnds rest := by
  induction line with
  | nil => rfl
  | cons c line ih =>
    have hjoined : c = '\r' → (line ++ rest).head? ≠ some '\n' := by
      rintro rfl hhead
      cases line with
      | nil => exact h.noReturn rfl
      | cons d line =>
        cases hhead
        exact h.tail.oneLine (List.mem_cons_self ..)
    rw [List.cons_append, joinLineEnds_cons hjoined, ih h.tail, List.cons_append]

theorem joinLineEnds_intercalate {lines : List (List Char)} (h : ∀ line ∈ lines, IsLine line) :
    joinLineEnds (['\n'].intercalate lines) = ['\n'].intercalate lines := by
  induction lines with
  | nil => rfl
  | cons line lines ih =>
    obtain ⟨hline, hlines⟩ := List.forall_mem_cons.mp h
    cases lines with
    | nil => simpa [joinLineEnds] using joinLineEnds_append hline []
    | cons next lines =>
      have hend : joinLineEnds ('\n' :: ['\n'].intercalate (next :: lines)) =
          '\n' :: joinLineEnds (['\n'].intercalate (next :: lines)) :=
        joinLineEnds_cons fun hc => by cases hc
      rw [List.intercalate_cons_cons, List.append_assoc, joinLineEnds_append hline,
        List.singleton_append, hend, ih hlines]

end Text

/-- Lines that are joined are found again. -/
theorem commentLines_intercalate {lines : List String} (hne : lines ≠ [])
    (h : ∀ line ∈ lines, IsLine line.toList) :
    Spell.commentLines ("\n".intercalate lines).toList = lines.map String.toList := by
  have hlines : ∀ line ∈ lines.map String.toList, IsLine line := List.forall_mem_map.mpr h
  unfold Spell.commentLines
  rw [String.toList_intercalate]
  change List.splitOn '\n' (Text.joinLineEnds (['\n'].intercalate _)) = _
  rw [Text.joinLineEnds_intercalate hlines]
  exact List.splitOn_intercalate _ (fun line hline => (hlines line hline).oneLine)
    (by simpa using hne)

theorem CommentRun.comment_lines {r : CommentRun} (h : ∀ c ∈ r.lines, IsLine c.text.toList) :
    r.comment.lines = r.lines.map (·.text.toList) := by
  have htexts : ∀ line ∈ r.lines.map (·.text), IsLine line.toList := List.forall_mem_map.mpr h
  have hne : r.lines.map (·.text) ≠ [] := by simp [CommentRun.lines]
  have hlines := commentLines_intercalate hne htexts
  rwa [List.map_map] at hlines

end RubySig
