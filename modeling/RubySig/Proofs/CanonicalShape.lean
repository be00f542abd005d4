import RubySig.Proofs.Format.Shape
import RubySig.Proofs.Tree.DeclarationYields

/-!
The shape of what is written. Its lines are without blanks at their ends, and the empty ones among
them are known: one between declarations, and those that are kept between the items of a body.
-/
namespace RubySig

open List (Forall₂)
open Grammar (Likeness)

namespace Format

open Doc (Stroke isTrailing settle)

/-- The canonical shape of a text with these lines, for a tree: it ends with one line end, its lines
do not end with blanks, no two empty ones stand together, and an empty line parts its
declarations. -/
structure Canonical (c : Context) (root : Root) (text : List Char) (lines : List (List Char)) :
    Prop where
  splits : text.splitOn '\n' = lines ++ [[]]
  ending : ∃ front, text = front ++ ['\n'] ∧ front.getLast? ≠ some '\n'
  trimmed : ∀ l ∈ lines, l.getLast? ≠ some ' ' ∧ l.getLast? ≠ some '\t'
  apart : lines.IsChain fun a b => a ≠ [] ∨ b ≠ []
  declarations : root.declarations ≠ [] →
    ∃ blocks, lines = [[]].intercalate blocks ∧ Forall₂ (ItemLines c) root.declarations blocks

variable {ss : List Stroke} {cs : List Char} {lines : List (List Char)}

/-- Line ends in front of lines are line ends behind them, but for the first and the last. -/
theorem flatMap_behind (lines : List (List Char)) :
    lines.flatMap ('\n' :: ·) ++ ['\n'] = '\n' :: lines.flatMap (· ++ ['\n']) := by
  induction lines with
  | nil => rfl
  | cons l lines ih =>
    rw [List.flatMap_cons, List.append_assoc, ih, List.flatMap_cons, List.cons_append,
      List.append_assoc, List.singleton_append]

theorem splitOn_flatMap (h : ∀ l ∈ lines, '\n' ∉ l) :
    (lines.flatMap (· ++ ['\n'])).splitOn '\n' = lines ++ [[]] := by
  induction lines with
  | nil => rfl
  | cons l lines ih =>
    obtain ⟨hl, hlines⟩ := List.forall_mem_cons.mp h
    rw [List.flatMap_cons, List.append_assoc, List.singleton_append,
      List.splitOn_append_cons_self_of_not_mem hl, ih hlines, List.cons_append]

/-- Lines that are drawn from column zero, with a line end at column zero behind them. -/
theorem Ruled.text (h : Ruled (.newline 0 :: ss) lines) (hcs : cs = settle (ss ++ [.newline 0])) :
    cs = lines.flatMap (· ++ ['\n']) := by
  have hsettle : settle (.newline 0 :: ss ++ [.newline 0]) =
      lines.flatMap ('\n' :: ·) ++ settle [.newline 0] := h.settle_append rfl
  have hfront : settle (.newline 0 :: ss ++ [.newline 0]) = '\n' :: cs := by
    rw [List.cons_append, settle, hcs]
    simp
  have hback : settle [.newline 0] = ['\n'] := rfl
  rw [hfront, hback, flatMap_behind] at hsettle
  exact (List.cons.inj hsettle).2

theorem Tidy.last (h : Tidy lines) : ∃ above last, lines = above ++ [last] ∧ last ≠ [] := by
  rcases List.eq_nil_or_concat lines with rfl | ⟨above, last, rfl⟩
  · simp [Tidy] at h
  · refine ⟨above, last, List.concat_eq_append, ?_⟩
    unfold Tidy at h
    rw [List.concat_eq_append, List.append_assoc, List.singleton_append, ← List.cons_append,
      List.isChain_split] at h
    simpa using h.2

theorem Tidy.apart (h : Tidy lines) : lines.IsChain fun a b => a ≠ [] ∨ b ≠ [] :=
  (List.isChain_append.mp h.tail).1

/-- A text of lines the last of which is not empty ends with one line end. -/
theorem ending_of_last {above : List (List Char)} {last : List Char} (hne : last ≠ [])
    (hline : '\n' ∉ last) : ∃ front, (above ++ [last]).flatMap (· ++ ['\n']) = front ++ ['\n'] ∧
      front.getLast? ≠ some '\n' := by
  refine ⟨above.flatMap (· ++ ['\n']) ++ last, by simp, ?_⟩
  rw [List.getLast?_append_of_ne_nil _ hne]
  exact fun h => hline (List.mem_of_getLast? h)

/-- What a file is drawn as: its declarations, and a line end at column zero. -/
theorem formatted_drawn (root : Root) (settings : Settings) (source : String) :
    ∃ ss, (root.formatted settings source).toList = settle (ss ++ [.newline 0]) ∧
      Draft ([.gap .line, .gap .line].intercalate
        (root.declarations.map (itemPieces (settings.context source)))) ss := by
  obtain ⟨ss, hlays, htext⟩ := Doc.render_lays settings.maxWidth
    (Doc.grouped (rootDocs (settings.context source) root))
  cases hlays with
  | group hlays hnil =>
    cases hnil
    obtain ⟨ss, ts, rfl, hdeclarations, hend⟩ := hlays.split
    cases hend with
    | newline hnil =>
      cases hnil
      rw [List.append_nil] at htext
      have hshows := Shows.separated (Shows.hardBreak.cons .hardBreak)
        (forall₂_shows (itemDocs_shows (settings.context source)) root.declarations)
      exact ⟨ss, htext, hshows 0 ss hdeclarations⟩

variable {c c' : Grammar.Context} {L : Likeness c c'}

/-- A tree that is read from tokens on one line each is written in the canonical shape. -/
theorem formatted_canonical (hL : L.Flat) {settings : Settings} {source : String} {root : Root}
    {items : List Item} (hsource : source.toList = c.text)
    (h : Forall₂ L.SameItem root.declarations items) (hpass : root.isWellFormed = true) :
    ∃ lines, Canonical (settings.context source) root
      (root.formatted settings source).toList lines := by
  obtain ⟨ss, htext, hdraft⟩ := formatted_drawn root settings source
  have hbegun := Draft.gap (g := .line) ⟨0, rfl⟩ hdraft
  have hdrawn {lines : List (List Char)} (hruled : Ruled (.newline 0 :: ss) lines) :
      (root.formatted settings source).toList = lines.flatMap (· ++ ['\n']) := hruled.text htext
  have htrimmed {lines : List (List Char)} (hruled : Ruled (.newline 0 :: ss) lines) :
      ∀ l ∈ lines, l.getLast? ≠ some ' ' ∧ l.getLast? ≠ some '\t' := by
    refine fun l hl => ⟨fun hlast => ?_, fun hlast => ?_⟩
    all_goals cases hruled.trimmed l hl _ hlast
  by_cases hne : root.declarations = []
  · rw [hne] at hdraft
    cases hdraft
    have hruled := Ruled.blank 0
    refine ⟨[[]], ?_, ⟨[], hdrawn hruled, by simp⟩, htrimmed hruled, by simp, fun h => absurd hne h⟩
    rw [hdrawn hruled, splitOn_flatMap hruled.oneLine]
  · obtain ⟨blocks, hblocks, hruled⟩ := joined_lines hL hsource h hpass hne hbegun
    have htidy := joined_tidy hblocks hne
    obtain ⟨above, last, hlines, hlast⟩ := htidy.last
    refine ⟨_, ?_, ?_, htrimmed hruled, htidy.apart, fun _ => ⟨blocks, rfl, hblocks⟩⟩
    · rw [hdrawn hruled, splitOn_flatMap hruled.oneLine]
    · rw [hdrawn hruled, hlines]
      refine ending_of_last hlast (hruled.oneLine last ?_)
      rw [hlines]
      exact List.mem_append_right _ List.mem_cons_self

end Format

/-- The tokens of a text, with those that are copied from it on one line each. -/
theorem Lexer.scan_flat {text : List Char} {scan : Scan} (h : Lexer.scan text = .ok scan)
    (hflat : ∀ t ∈ scan.tokens, t.lexeme.isCopied = true → '\n' ∉ t.span.slice text) :
    (Likeness.ofTokens ⟨text, scan.finish⟩ scan.tokens).Flat where
  toStands := scan_stands h
  copied := by
    rintro t t' ⟨-, ht⟩ hcopied
    exact hflat t ht hcopied

/-- Where each string literal and each annotation of a source stands on one line, what is written is
in the canonical shape. -/
theorem canonical_shape {source : String} {scan : Lexer.Scan} {root : Root}
    (hscan : Lexer.scan source.toList = .ok scan)
    (hflat : ∀ t ∈ scan.tokens, t.lexeme.isCopied = true → '\n' ∉ t.span.slice source.toList)
    (hread : (Root.read source).result = .ok root) (settings : Settings) :
    ∃ text lines, reformat settings source = .ok text ∧
      Format.Canonical (settings.context source) root text.toList lines := by
  obtain ⟨-, -, -, -, hpass, -⟩ := Root.read_yields hread
  obtain ⟨items, hitems⟩ := Root.read_same hscan hread
  obtain ⟨lines, hlines⟩ :=
    Format.formatted_canonical (Lexer.scan_flat hscan hflat) rfl hitems hpass
  refine ⟨root.formatted settings source, lines, ?_, hlines⟩
  rw [reformat, hread]
  rfl

/-- A class with two blank lines in front of its second member and an annotation over a method,
behind a constant. -/
def spacedSource : String :=
  "A: \"x y\"\nclass B\n\n  # c\n  def f: () -> A\n\n\n" ++
    "  %a\x7bpure\x7d\n  def g: () -> A\n  def h: () -> A\n\nend\n"

theorem canonical_shape_sample : ∃ scan root, Lexer.scan spacedSource.toList = .ok scan ∧
    (∀ t ∈ scan.tokens, t.lexeme.isCopied = true → '\n' ∉ t.span.slice spacedSource.toList) ∧
    (Root.read spacedSource).result = .ok root ∧
    ∃ text lines, reformat .standard spacedSource = .ok text ∧
      Format.Canonical (Settings.standard.context spacedSource) root text.toList lines := by
  have hscanned : ((Lexer.scan spacedSource.toList).toOption.map fun scan =>
      decide (∀ t ∈ scan.tokens, t.lexeme.isCopied = true →
        '\n' ∉ t.span.slice spacedSource.toList)) =
        some true := by
    decide +kernel
  have hread : (Root.read spacedSource).result.toOption.isSome = true := by decide +kernel
  cases hscan : Lexer.scan spacedSource.toList with
  | error e =>
    rw [hscan] at hscanned
    cases hscanned
  | ok scan =>
    rw [hscan] at hscanned
    have hflat := of_decide_eq_true (Option.some.inj hscanned)
    cases h : (Root.read spacedSource).result with
    | error e =>
      rw [h] at hread
      cases hread
    | ok root => exact ⟨scan, root, rfl, hflat, rfl, canonical_shape hscan hflat h .standard⟩

example : (reformat .standard spacedSource).toOption = some
    ("A: \"x y\"\n\nclass B\n  # c\n  def f: -> A\n\n" ++
      "  %a\x7bpure\x7d\n  def g: -> A\n  def h: -> A\nend\n") := by
  decide +kernel

end RubySig
