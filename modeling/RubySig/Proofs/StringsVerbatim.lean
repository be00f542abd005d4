import RubySig.Proofs.CommentsKept
import RubySig.Proofs.Format.Respelled
import RubySig.Proofs.Format.StringWords
import RubySig.Proofs.Tree.DeclarationSites

/-!
String literals keep their value and are copied: each one stands in the formatted text between its
preferred quotes and is otherwise as in the source, over all its lines and at every width. Its
characters are copied, so escaped surrogates stay what they are, though their value here is U+FFFD
(`Format.charOf_ok`).
-/
namespace RubySig

/-- The value of a string token and the characters that it is read from. -/
def Token.literal? (text : List Char) (t : Token) : Option (String × List Char) :=
  match t.lexeme with
  | .string v => some (v, t.span.slice text)
  | _ => none

def Lexer.Scan.literals (text : List Char) (scan : Scan) : List (String × List Char) :=
  scan.tokens.filterMap (Token.literal? text)

namespace Format

/-- White space in front of something stays what it is without what stands behind that. -/
theorem Gap.Admits.cut {g : Gap} {s before rest : List Char} {c : Char}
    (h : g.Admits s (before ++ c :: rest)) (hc : c ≠ '\n') : g.Admits s before := by
  have hhead : (before ++ c :: rest).head? = some '\n' → before.head? = some '\n' := by
    cases before with
    | nil => simp [hc]
    | cons d before => exact id
  cases g with
  | blank => exact h.imp_right (.imp_right hhead)
  | space => exact h.imp_right (.imp_left (.imp_right hhead))
  | soft | line => exact h

/-- A word that is not trimmed is written as it is, between what the pieces around it are written
as. -/
theorem Written.split_word {l : Lexeme} {c : Char} {w : List Char} {ps qs : List Piece}
    {text : List Char} (hsolid : trimEnd (c :: w) = c :: w) (hc : c ≠ '\n')
    (h : Written (ps ++ .word l (c :: w) :: qs) text) :
    ∃ before after, text = before ++ c :: w ++ after ∧ Written ps before ∧ Written qs after := by
  induction ps generalizing text with
  | nil =>
    cases h with
    | word hv h =>
      rw [hsolid, or_self] at hv
      exact ⟨[], _, by rw [hv]; rfl, .nil, h⟩
  | cons p ps ih =>
    cases h with
    | word hv h =>
      obtain ⟨before, after, rfl, hbefore, hafter⟩ := ih h
      exact ⟨_, after, by simp, .word hv hbefore, hafter⟩
    | @remark _ n _ _ h =>
      obtain ⟨before, after, rfl, hbefore, hafter⟩ := ih h
      exact ⟨_, after, by simp, .remark (n := n) hbefore, hafter⟩
    | gap hg h =>
      obtain ⟨before, after, rfl, hbefore, hafter⟩ := ih h
      rw [List.append_assoc] at hg
      exact ⟨_, after, by simp, .gap (hg.cut hc) hbefore, hafter⟩

theorem trimEnd_solid {w : List Char} (h : ∀ c ∈ w.getLast?, Doc.isTrailing c = false) :
    trimEnd w = w := by
  have hreverse : w.reverse.dropWhile Doc.isTrailing = w.reverse := by
    cases hw : w.reverse with
    | nil => rfl
    | cons c cs =>
      have hc : c ∈ w.getLast? := by
        rw [← List.head?_reverse, hw]
        rfl
      exact List.dropWhile_cons_of_neg (by simp [h c hc])
  rw [trimEnd, hreverse, List.reverse_reverse]

/-- A formatted text has the string literals of its source between their preferred quotes, each
where its word stands among the pieces of the tree, with all its characters, and it is read
there. -/
structure LiteralsKept (c : Context) (literals : List (String × List Char)) (root : Root)
    (text : List Char) : Prop where
  read : ∀ literal ∈ literals, ReadsAsString literal.2 literal.1
  words : (strings (rootPieces c root)).Perm
    (literals.map fun literal => (literal.1, Spell.respelled literal.2))
  stands : ∀ ps v w qs, rootPieces c root = ps ++ .word (.string v) w :: qs →
    ∃ before after, text = before ++ w ++ after ∧ Written ps before ∧ Written qs after ∧
      ∀ b, Lexer.Splits b (.string v) w after

end Format

theorem Lexer.Scan.literals_read {text : List Char} {scan : Scan} (h : Lexer.scan text = .ok scan) :
    ∀ literal ∈ scan.literals text, ReadsAsString literal.2 literal.1 := by
  intro literal hliteral
  obtain ⟨t, ht, hsome⟩ := List.mem_filterMap.mp hliteral
  have htaken := (scan_sound h t ht).taken
  unfold Token.literal? at hsome
  split at hsome
  · next v hlexeme =>
    cases hsome
    rw [hlexeme] at htaken
    exact IsQuoted.readsAsString htaken
  · cases hsome

/-- The strings at the sites of a tree are printed as the literals of its source between their
preferred quotes. -/
theorem Grammar.Accounted.printed {c : Format.Context} {scan : Lexer.Scan} {sites : List Site}
    (h : Accounted scan.tokens sites) : (Format.printedStrings c sites).Perm
      ((scan.literals c.source).map fun literal => (literal.1, Spell.respelled literal.2)) := by
  have htoken (t : Token) : t.string?.map (fun s => (s.2, Format.stringChars c s.1 s.2)) =
      (t.literal? c.source).map fun literal => (literal.1, Spell.respelled literal.2) := by
    obtain ⟨lexeme, start, stop⟩ := t
    cases lexeme <;> rfl
  have hliterals : (scan.tokens.filterMap Token.string?).map
      (fun s => (s.2, Format.stringChars c s.1 s.2)) =
        (scan.literals c.source).map fun literal => (literal.1, Spell.respelled literal.2) := by
    rw [Lexer.Scan.literals, List.map_filterMap, List.map_filterMap]
    exact List.filterMap_congr fun t _ => htoken t
  rw [← hliterals]
  exact (h.strings.map _).symm

theorem Root.formatted_literals {source : String} {root : Root}
    (h : (Root.read source).result = .ok root) (settings : Settings) :
    ∃ scan, Lexer.scan source.toList = .ok scan ∧
      Format.LiteralsKept (settings.context source) (scan.literals source.toList) root
        (root.formatted settings source).toList := by
  obtain ⟨scan, hscan, haccounted⟩ := Root.read_sites h
  have hread := Lexer.Scan.literals_read hscan
  have hwords : (Format.strings (Format.rootPieces (settings.context source) root)).Perm
      ((scan.literals source.toList).map fun literal =>
        (literal.1, Spell.respelled literal.2)) := by
    rw [Format.strings_root]
    exact haccounted.printed
  refine ⟨scan, hscan, hread, hwords, fun ps v w qs hpieces => ?_⟩
  have hmem : (v, w) ∈ Format.strings (Format.rootPieces (settings.context source) root) :=
    List.mem_filterMap.mpr ⟨.word (.string v) w, by simp [hpieces], rfl⟩
  obtain ⟨literal, hliteral, heq⟩ := List.mem_map.mp (hwords.subset hmem)
  cases heq
  obtain ⟨q, body, hw, hquotes⟩ := (hread literal hliteral).quoted.respelled
  rw [hw] at hpieces ⊢
  have hq : q ≠ '\n' := by
    rcases hquotes.quote with rfl | rfl <;> decide
  have hwritten := (root.formatted_keeps settings source).written
  rw [hpieces] at hwritten
  have hspelled := hquotes.spelled
  obtain ⟨before, after, htext, hbefore, hafter⟩ :=
    hwritten.split_word (Format.trimEnd_solid hspelled.solid) hq
  refine ⟨before, after, htext, hbefore, hafter, fun b => ?_⟩
  exact hspelled.splits b after (fun _ _ => rfl) fun _ _ => .inr rfl

/-- A string literal is read as the same string between its preferred quotes, which it then keeps,
and formatting copies it so, whatever the settings. -/
theorem string_literals_verbatim :
    (∀ text v, ReadsAsString text v → ReadsAsString (Spell.respelled text) v ∧
      Spell.preferredQuote (Spell.respelled text) = Spell.preferredQuote text ∧
      Spell.respelled (Spell.respelled text) = Spell.respelled text) ∧
    ∀ source root, (Root.read source).result = .ok root → ∀ settings, ∃ scan text,
      Lexer.scan source.toList = .ok scan ∧ reformat settings source = .ok text ∧
      Format.LiteralsKept (settings.context source)
        (scan.literals source.toList) root text.toList := by
  constructor
  · intro text v h
    have hquoted := h.quoted
    exact ⟨hquoted.respelled.readsAsString, hquoted.preferred_respelled,
      hquoted.respelled_respelled⟩
  · intro source root h settings
    obtain ⟨scan, hscan, hkept⟩ := Root.formatted_literals h settings
    refine ⟨scan, root.formatted settings source, hscan, ?_, hkept⟩
    rw [reformat, h]
    rfl

/-- A literal over two lines, with a blank at the end of the first and with bare quotes of the other
kind. -/
def literalText : List Char := "'a \"b\" \n  c '".toList

/-- Literals in a record: a key over two lines, and one with escapes, which keeps its quotes. -/
def literalSource : String := "T: \x7b 'a \"b\" \n  c ' => 'it\\'s \\n', 'x' => A \x7d\n"

theorem string_literals_verbatim_sample :
    (ReadsAsString literalText "a \"b\" \n  c " ∧
      ReadsAsString (Spell.respelled literalText) "a \"b\" \n  c " ∧
      Spell.respelled (Spell.respelled literalText) = Spell.respelled literalText) ∧
    ∃ root, (Root.read literalSource).result = .ok root ∧ ∀ settings, ∃ scan text,
      Lexer.scan literalSource.toList = .ok scan ∧ reformat settings literalSource = .ok text ∧
      Format.LiteralsKept (settings.context literalSource) (scan.literals literalSource.toList) root
        text.toList := by
  constructor
  · have htext : ReadsAsString literalText "a \"b\" \n  c " := rfl
    obtain ⟨hread, -, hagain⟩ := string_literals_verbatim.1 literalText _ htext
    exact ⟨htext, hread, hagain⟩
  · have hread : (Root.read literalSource).result.toOption.isSome = true := by decide +kernel
    cases h : (Root.read literalSource).result with
    | error e =>
      rw [h] at hread
      cases hread
    | ok root => exact ⟨root, rfl, string_literals_verbatim.2 literalSource root h⟩

example : (reformat .standard literalSource).toOption =
    some "T: \x7b\n  \"a \\\"b\\\" \n  c \" => 'it\\'s \\n',\n  \"x\" => A\n\x7d\n" := by
  decide +kernel

end RubySig
