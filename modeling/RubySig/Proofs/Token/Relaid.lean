import RubySig.Proofs.Token.Line

/-!
Texts that differ in indentation and in the number of blank lines only. Where a token or a comment
stands, both have the same characters; what counts as a token is what the first text says.
-/
namespace RubySig.Lexer

/-- The blanks that a line may begin with. -/
def Indentation (w : List Char) : Prop := ∀ c ∈ w, c = ' ' ∨ c = '\t'

/-- One or more lines of nothing but blanks. -/
def BlankLines (w : List Char) : Prop :=
  ∃ lines : List (List Char), lines ≠ [] ∧ (∀ l ∈ lines, Indentation l) ∧
    w = lines.flatMap (· ++ ['\n'])

/-- The blank lines that a text may end with, the last of them without a line end. -/
def BlankEnding (w : List Char) : Prop :=
  ∃ (lines : List (List Char)) (last : List Char), (∀ l ∈ lines, Indentation l) ∧ Indentation last ∧
    w = lines.flatMap (· ++ ['\n']) ++ last

/-- The second text is the first with other indentation and other numbers of blank lines; `fresh`
says whether both start at the beginning of a line. -/
inductive Edited : (fresh : Bool) → List Char → List Char → Prop where
  | nil {fresh} : Edited fresh [] []
  | char {fresh c t t'} : Edited (c == '\n') t t' → Edited fresh (c :: t) (c :: t')
  | indentation {w w' t t'} : Indentation w → Indentation w' → Edited false t t' →
      Edited true (w ++ t) (w' ++ t')
  | blankLines {w w' t t'} : BlankLines w → BlankLines w' → Edited true t t' →
      Edited true (w ++ t) (w' ++ t')
  | ending {w w'} : BlankEnding w → BlankEnding w' → Edited true w w'

/-- The second text is the first with other indentation and other numbers of blank lines outside of
tokens: no line that starts inside a literal or an annotation is touched. `before` is the character
in front of the first text. Below a place where no token can be read every line may change, but a
literal without a value stays as it is. -/
inductive Relaid : (before : Option Char) → (fresh : Bool) → List Char → List Char → Prop where
  | nil {before fresh} : Relaid before fresh [] []
  | indentation {before w w' t t'} : Indentation w → Indentation w' →
      Relaid (w.getLast?.or before) false t t' → Relaid before true (w ++ t) (w' ++ t')
  | blankLines {before w w' t t'} : BlankLines w → BlankLines w' → Relaid (some '\n') true t t' →
      Relaid before true (w ++ t) (w' ++ t')
  | ending {before w w'} : BlankEnding w → BlankEnding w' → Relaid before true w w'
  | newline {before fresh t t'} : Relaid (some '\n') true t t' →
      Relaid before fresh ('\n' :: t) ('\n' :: t')
  | space {before fresh c t t'} : isSpace c = true → c ≠ '\n' → Relaid (some c) false t t' →
      Relaid before fresh (c :: t) (c :: t')
  | comment {before fresh line t t'} : '\n' ∉ line → Breaks t →
      Relaid (('#' :: line).getLast?) false t t' →
      Relaid before fresh ('#' :: line ++ t) ('#' :: line ++ t')
  | token {before fresh c cs p t'} : isSpace c = false → c ≠ '#' → next before c cs = .ok p →
      Relaid (p.taken.getLast?) false p.rest t' → Relaid before fresh (c :: cs) (p.taken ++ t')
  | stuck {before fresh c w t t' e} : isSpace c = false → c ≠ '#' →
      next before c (w ++ t) = .error e →
      (∀ fault, e = .value fault → next before c w = .error (.value fault)) →
      Edited false t t' → Relaid before fresh (c :: w ++ t) (c :: w ++ t')

/-- The texts have the same first line. -/
def SameLine (xs ys : List Char) : Prop :=
  ∃ line tail tail', '\n' ∉ line ∧ Breaks tail ∧ Breaks tail' ∧ xs = line ++ tail ∧
    ys = line ++ tail'

namespace SameLine

variable {xs ys : List Char}

theorem nil : SameLine [] [] :=
  ⟨[], [], [], by simp, by simp [Breaks], by simp [Breaks], rfl, rfl⟩

theorem newline (xs ys : List Char) : SameLine ('\n' :: xs) ('\n' :: ys) :=
  ⟨[], _, _, by simp, by simp [Breaks], by simp [Breaks], rfl, rfl⟩

theorem cons (h : SameLine xs ys) (c : Char) : SameLine (c :: xs) (c :: ys) := by
  by_cases hc : c = '\n'
  · subst hc
    exact newline xs ys
  · obtain ⟨line, tail, tail', hl, ht, ht', rfl, rfl⟩ := h
    exact ⟨c :: line, tail, tail', by simp [hl, Ne.symm hc], ht, ht', rfl, rfl⟩

theorem append (h : SameLine xs ys) (w : List Char) : SameLine (w ++ xs) (w ++ ys) := by
  induction w with
  | nil => exact h
  | cons c w ih => exact ih.cons c

/-- The first line of the one text is that of the other. -/
theorem line {line tail : List Char} (h : SameLine (line ++ tail) ys) (hl : '\n' ∉ line)
    (ht : Breaks tail) :
    ∃ tail', Breaks tail' ∧ ys = line ++ tail' := by
  obtain ⟨line', tail₁, tail', hl', ht₁, ht', he, rfl⟩ := h
  have hline : line = line' := by
    rw [← (takeWhile_line hl ht).1, he, (takeWhile_line hl' ht₁).1]
  exact ⟨tail', ht', by rw [hline]⟩

end SameLine

theorem exists_line (cs : List Char) :
    ∃ line tail, '\n' ∉ line ∧ Breaks tail ∧ cs = line ++ tail := by
  refine ⟨cs.takeWhile (· != '\n'), cs.dropWhile (· != '\n'), ?_, ?_, ?_⟩
  · intro h
    simpa using List.mem_takeWhile_imp h
  · intro c hc
    have := List.head?_dropWhile_not (· != '\n') cs
    rw [Option.mem_def.mp hc] at this
    simpa using this
  · rw [List.takeWhile_append_dropWhile]

theorem Edited.sameLine {t t' : List Char} (h : Edited false t t') : SameLine t t' := by
  generalize hf : false = fresh at h
  induction h with
  | nil => exact .nil
  | @char _ c t t' h ih =>
    by_cases hc : c = '\n'
    · subst hc
      exact .newline t t'
    · exact (ih (beq_eq_false_iff_ne.mpr hc).symm).cons c
  | indentation => cases hf
  | blankLines => cases hf
  | ending => cases hf

theorem Relaid.sameLine {before : Option Char} {t t' : List Char} (h : Relaid before false t t') :
    SameLine t t' := by
  generalize hf : false = fresh at h
  induction h with
  | nil => exact .nil
  | indentation => cases hf
  | blankLines => cases hf
  | ending => cases hf
  | newline => exact .newline _ _
  | space _ _ _ ih => exact (ih rfl).cons _
  | comment _ _ _ ih => exact (ih rfl).append _
  | @token _ _ c cs p t' _ _ hp _ ih =>
    rw [(next_genuine hp).split]
    exact (ih rfl).append _
  | stuck _ _ _ _ hedited => exact hedited.sameLine.append _

theorem next_before {before before' : Option Char} (h : afterName before' = afterName before)
    (c : Char) (cs : List Char) : next before' c cs = next before c cs := by
  have hsymbol : isSymbolStart before' cs = isSymbolStart before cs := by
    cases cs with
    | nil => rfl
    | cons d cs => rw [isSymbolStart_cons, isSymbolStart_cons, h]
  unfold next
  rw [hsymbol]

theorem isQuote_ne {q : Char} (hq : isQuote q = true) : q ≠ '\\' := by
  rintro rfl
  cases hq

/-- A quoted literal ends at its quote, whatever stands behind. -/
theorem quotedLiteral_kept {q : Char} (hq : isQuote q = true) {lead cs : List Char}
    {make : String → Lexeme} {p : Piece} (h : quotedLiteral q lead make cs = .ok p)
    (t : List Char) :
    ∃ body, p.taken = lead ++ q :: body ++ [q] ∧
      quotedLiteral q lead make (body ++ q :: t) = .ok { p with rest := t } := by
  unfold quotedLiteral at h ⊢
  split at h
  case _ => cases h
  case _ body rest hbody =>
    split at h
    case _ => cases h
    case _ value hvalue =>
      cases h
      refine ⟨body, rfl, ?_⟩
      rw [(literalBody_closed (isQuote_ne hq) hbody).2]
      dsimp only
      rw [hvalue]

/-- An annotation ends at its closing delimiter, whatever stands behind. -/
theorem noteAt_kept {opening closing : Char} {cs : List Char} {p : Piece}
    (h : noteAt opening closing cs = .ok p) (t : List Char) :
    ∃ body, p.taken = '%' :: 'a' :: opening :: body ++ [closing] ∧
      noteAt opening closing (body ++ closing :: t) = .ok { p with rest := t } := by
  unfold noteAt at h
  split at h
  case _ => cases h
  case _ d rest hd =>
    cases h
    have hbody : ∀ x ∈ cs.takeWhile (· != closing), (x != closing) = true := by
      intro x hx
      have := List.mem_takeWhile_imp hx
      exact this
    refine ⟨cs.takeWhile (· != closing), rfl, ?_⟩
    unfold noteAt
    rw [List.dropWhile_append_of_pos hbody, List.dropWhile_cons_of_neg (by simp),
      List.takeWhile_append_of_pos hbody, List.takeWhile_cons_of_neg (by simp), List.append_nil]

variable {before before' : Option Char} {c : Char} {cs : List Char}

/-- Behind a colon that begins a symbol there can stand any quoted name. -/
theorem isSymbolStart_quote {q : Char} {rest : List Char}
    (h : isSymbolStart before (q :: rest) = true) (hq : isQuote q = true) (more : List Char) :
    isSymbolStart before (q :: more) = true := by
  rw [isSymbolStart_cons, Bool.and_eq_true, Bool.and_eq_true] at h ⊢
  refine ⟨h.1, h.2.1, ?_⟩
  rw [isQuote, Bool.or_eq_true, beq_iff_eq, beq_iff_eq] at hq
  rcases hq with rfl | rfl <;> simp

theorem map_ok {α β ε : Type} {x : Except ε α} {f : α → β} {b : β} (h : x.map f = .ok b) :
    ∃ a, x = .ok a ∧ b = f a := by
  cases x with
  | error e => cases h
  | ok a =>
    cases h
    exact ⟨a, rfl, rfl⟩

/-- The three ways to open a literal. -/
theorem opensLiteral_cases (h : opensLiteral before c cs = true) :
    isQuote c = true ∨ (c = '%' ∧ ∃ o d rest, noteStart? cs = some (o, d, rest)) ∨
      (c = ':' ∧ isSymbolStart before cs = true ∧ ∃ q rest, cs = q :: rest ∧ isQuote q = true) := by
  rw [opensLiteral, Bool.or_eq_true, Bool.or_eq_true] at h
  obtain (h | h) | h := h
  · exact .inl h
  · rw [Bool.and_eq_true, beq_iff_eq, Option.isSome_iff_exists] at h
    obtain ⟨rfl, ⟨o, d, rest⟩, hn⟩ := h
    exact .inr (.inl ⟨rfl, o, d, rest, hn⟩)
  · rw [Bool.and_eq_true, Bool.and_eq_true, beq_iff_eq] at h
    obtain ⟨⟨rfl, hs⟩, hq⟩ := h
    cases cs with
    | nil => cases hq
    | cons q rest => exact .inr (.inr ⟨rfl, hs, q, rest, rfl, hq⟩)

/-- A literal is the same whatever stands behind it. -/
theorem literal_kept (hlit : opensLiteral before c cs = true) {p : Piece}
    (h : next before c cs = .ok p) (t : List Char) :
    ∃ cs', c :: cs' = p.taken ++ t ∧ next before c cs' = .ok { p with rest := t } := by
  obtain hq | ⟨rfl, o, d, rest, hn⟩ | ⟨rfl, hs, q, rest, rfl, hq⟩ := opensLiteral_cases hlit
  · rw [next_quote hq] at h
    obtain ⟨body, htaken, hkept⟩ := quotedLiteral_kept hq h t
    refine ⟨body ++ c :: t, by simp [htaken], ?_⟩
    rw [next_quote hq, hkept]
  · rw [next_note hn] at h
    obtain ⟨rfl, hclosing⟩ := noteStart_eq.mp hn
    obtain ⟨body, htaken, hkept⟩ := noteAt_kept h t
    refine ⟨'a' :: o :: (body ++ d :: t), by simp [htaken], ?_⟩
    rw [next_note (noteStart_eq.mpr ⟨rfl, hclosing⟩), hkept]
  · rw [next_symbol hs, symbol_quote hq] at h
    obtain ⟨body, htaken, hkept⟩ := quotedLiteral_kept hq h t
    refine ⟨q :: (body ++ q :: t), by simp [htaken], ?_⟩
    rw [next_symbol (isSymbolStart_quote hs hq _), symbol_quote hq, hkept]

/-- A token is the same where the text behind it has the same first line. -/
theorem next_kept {p : Piece} (h : next before c cs = .ok p) {t : List Char}
    (ht : SameLine p.rest t) (hb : afterName before' = afterName before) :
    ∃ cs', c :: cs' = p.taken ++ t ∧ next before' c cs' = .ok { p with rest := t } := by
  simp only [next_before hb]
  cases hlit : opensLiteral before c cs with
  | true => exact literal_kept hlit h t
  | false =>
    obtain ⟨line, tail, hl, htail, rfl⟩ := exists_line cs
    rw [opensLiteral_line htail] at hlit
    rw [next_line hl htail hlit] at h
    obtain ⟨p₀, hp₀, rfl⟩ := map_ok h
    have hsplit := (next_genuine hp₀).split
    have hrest : '\n' ∉ p₀.rest := by
      obtain ⟨d, w, hw⟩ := List.exists_cons_of_ne_nil (next_genuine hp₀).nonempty
      rw [hw, List.cons_append] at hsplit
      rw [(List.cons.inj hsplit).2, List.mem_append, not_or] at hl
      exact hl.2
    obtain ⟨tail', htail', rfl⟩ := SameLine.line ht hrest htail
    refine ⟨line ++ tail', ?_, ?_⟩
    · rw [← List.cons_append, hsplit, List.append_assoc]
      rfl
    · rw [next_line hl htail' hlit, hp₀]
      rfl

/-- Whether a literal ends somewhere; `guarded` says whether a backslash stands in front. -/
def closes (quote : Char) : (guarded : Bool) → List Char → Bool
  | _, [] => false
  | true, _ :: cs => closes quote false cs
  | false, c :: cs => if c = '\\' then closes quote true cs else c == quote || closes quote false cs

theorem closes_iff {q : Char} (hq : q ≠ '\\') (cs : List Char) :
    closes q false cs = (literalBody? q cs).isSome := by
  induction cs using literalBody?.induct q with
  | case1 => rfl
  | case2 c cs ih => rw [literalBody?, Option.isSome_map, ← ih, closes, if_pos rfl, closes]
  | case3 c cs hne hc =>
    obtain rfl := beq_iff_eq.mp hc
    rw [literalBody_quote hq, closes, if_neg hq, beq_self_eq_true]
    rfl
  | case4 c cs hne hc ih =>
    have hcq : c ≠ q := by simpa using hc
    by_cases hb : c = '\\'
    · -- A backslash with nothing behind it.
      subst hb
      cases cs with
      | nil => simp [literalBody?, closes, hcq]
      | cons d ds => exact absurd rfl (hne d ds rfl)
    · rw [Format.literalBody_plain cs hb hcq, Option.isSome_map, ← ih, closes, if_neg hb,
        beq_eq_false_iff_ne.mpr hcq, Bool.false_or]

/-- Blanks and line feeds do not close a literal. -/
theorem closes_white {q : Char} {w : List Char} (hw : ∀ c ∈ w, c ≠ '\\' ∧ c ≠ q) (t : List Char) :
    closes q false (w ++ t) = closes q false t := by
  induction w with
  | nil => rfl
  | cons c w ih =>
    obtain ⟨hb, hq⟩ := hw c List.mem_cons_self
    rw [List.cons_append, closes, if_neg hb, beq_eq_false_iff_ne.mpr hq, Bool.false_or,
      ih fun d hd => hw d (List.mem_cons_of_mem c hd)]

theorem Indentation.white {w : List Char} (h : Indentation w) :
    ∀ c ∈ w, c = ' ' ∨ c = '\t' ∨ c = '\n' := by
  intro c hc
  obtain rfl | rfl := h c hc <;> simp

theorem lines_white {lines : List (List Char)} (h : ∀ l ∈ lines, Indentation l) :
    ∀ c ∈ lines.flatMap (· ++ ['\n']), c = ' ' ∨ c = '\t' ∨ c = '\n' := by
  intro c hc
  obtain ⟨l, hl, hc⟩ := List.mem_flatMap.mp hc
  rw [List.mem_append, List.mem_singleton] at hc
  obtain hc | rfl := hc
  · exact (h l hl).white c hc
  · simp

theorem BlankLines.white {w : List Char} (h : BlankLines w) :
    ∀ c ∈ w, c = ' ' ∨ c = '\t' ∨ c = '\n' := by
  obtain ⟨lines, -, hlines, rfl⟩ := h
  exact lines_white hlines

theorem BlankEnding.white {w : List Char} (h : BlankEnding w) :
    ∀ c ∈ w, c = ' ' ∨ c = '\t' ∨ c = '\n' := by
  obtain ⟨lines, last, hlines, hlast, rfl⟩ := h
  intro c hc
  obtain hc | hc := List.mem_append.mp hc
  · exact lines_white hlines c hc
  · exact hlast.white c hc

variable {fresh : Bool} {t t' w : List Char}

theorem Edited.closes {q : Char} (hq : isQuote q = true) (h : Edited fresh t t') (guarded : Bool)
    (hf : fresh = true → guarded = false) : closes q guarded t = closes q guarded t' := by
  have hwhite {w : List Char} (hw : ∀ c ∈ w, c = ' ' ∨ c = '\t' ∨ c = '\n') :
      ∀ c ∈ w, c ≠ '\\' ∧ c ≠ q := by
    intro c hc
    rw [isQuote, Bool.or_eq_true, beq_iff_eq, beq_iff_eq] at hq
    obtain rfl | rfl | rfl := hw c hc <;> rcases hq with rfl | rfl <;> decide
  induction h generalizing guarded with
  | nil => rfl
  | @char fresh c t t' h ih =>
    cases guarded with
    | true =>
      rw [Lexer.closes, Lexer.closes]
      exact ih false fun _ => rfl
    | false =>
      rw [Lexer.closes, Lexer.closes, ih false fun _ => rfl]
      by_cases hc : c = '\\'
      · subst hc
        rw [if_pos rfl, if_pos rfl]
        exact ih true fun h => by cases h
      · rw [if_neg hc, if_neg hc]
  | indentation hw hw' _ ih =>
    obtain rfl := hf rfl
    rw [closes_white (hwhite hw.white), closes_white (hwhite hw'.white), ih false fun _ => rfl]
  | blankLines hw hw' _ ih =>
    obtain rfl := hf rfl
    rw [closes_white (hwhite hw.white), closes_white (hwhite hw'.white), ih false fun _ => rfl]
  | @ending w w' hw hw' =>
    obtain rfl := hf rfl
    rw [← w.append_nil, ← w'.append_nil, closes_white (hwhite hw.white),
      closes_white (hwhite hw'.white)]

theorem Edited.mem (h : Edited fresh t t') {c : Char} (hc : isSpace c = false) :
    c ∈ t' ↔ c ∈ t := by
  have hwhite {w : List Char} (hw : ∀ d ∈ w, d = ' ' ∨ d = '\t' ∨ d = '\n') : c ∉ w := by
    intro hmem
    obtain rfl | rfl | rfl := hw c hmem <;> cases hc
  induction h with
  | nil => rfl
  | char _ ih => simp only [List.mem_cons, ih]
  | indentation hw hw' _ ih => simp only [List.mem_append, ih, hwhite hw.white, hwhite hw'.white]
  | blankLines hw hw' _ ih => simp only [List.mem_append, ih, hwhite hw.white, hwhite hw'.white]
  | ending hw hw' => simp only [hwhite hw.white, hwhite hw'.white]

/-- Characters in front stay. -/
theorem Edited.append (h : Edited false t t') (w : List Char) :
    Edited false (w ++ t) (w ++ t') := by
  have hany (fresh : Bool) : Edited fresh t t' := by
    cases h with
    | nil => exact .nil
    | char h => exact .char h
  suffices hall : ∀ fresh, Edited fresh (w ++ t) (w ++ t') from hall false
  induction w with
  | nil => exact hany
  | cons c w ih => exact fun fresh => .char (ih _)

theorem quotedLiteral_stuck {q : Char} (hq : isQuote q = true) {lead : List Char}
    {make : String → Lexeme} {e : Failure} (h : quotedLiteral q lead make (w ++ t) = .error e)
    (hvalue : ∀ fault, e = .value fault → quotedLiteral q lead make w = .error (.value fault))
    (ht : Edited false t t') : ∃ e', quotedLiteral q lead make (w ++ t') = .error e' := by
  have hne := isQuote_ne hq
  have hclosed := (ht.append w).closes hq false fun _ => rfl
  rw [closes_iff hne, closes_iff hne] at hclosed
  unfold quotedLiteral at h
  split at h
  case _ hbody =>
    rw [hbody, Option.isSome_none, eq_comm, Option.isSome_eq_false_iff,
      Option.isNone_iff_eq_none] at hclosed
    unfold quotedLiteral
    rw [hclosed]
    exact ⟨_, rfl⟩
  case _ =>
    split at h
    case _ fault _ =>
      cases h
      have hw := hvalue fault rfl
      unfold quotedLiteral at hw ⊢
      split at hw
      case _ => cases hw
      case _ body rest hbody =>
        obtain ⟨hsplit, hmore⟩ := literalBody_closed hne hbody
        split at hw
        case _ fault' hfault =>
          rw [hsplit, List.append_assoc, List.cons_append, hmore]
          dsimp only
          rw [hfault]
          exact ⟨_, rfl⟩
        case _ => cases hw
    case _ => cases h

theorem noteAt_stuck {opening closing : Char} {e : Failure} {t t' : List Char}
    (h : noteAt opening closing t = .error e) (ht : closing ∈ t' ↔ closing ∈ t) :
    ∃ e', noteAt opening closing t' = .error e' := by
  unfold noteAt at h
  split at h
  case _ hnone =>
    rw [List.dropWhile_eq_nil_iff] at hnone
    have hmiss : closing ∉ t' := fun hmem => by simpa using hnone closing (ht.mp hmem)
    unfold noteAt
    rw [List.dropWhile_eq_nil_iff.mpr fun x hx => bne_iff_ne.mpr (ne_of_mem_of_not_mem hx hmiss)]
    exact ⟨_, rfl⟩
  case _ => cases h

/-- A text that goes on on its line starts with the same character. -/
theorem Edited.head {t t' : List Char} (h : Edited false (c :: t) t') :
    ∃ rest, t' = c :: rest ∧ Edited (c == '\n') t rest := by
  generalize hf : false = fresh at h
  generalize hct : c :: t = ct at h
  cases h with
  | nil => cases hct
  | char h =>
    cases hct
    exact ⟨_, rfl, h⟩
  | indentation => cases hf
  | blankLines => cases hf
  | ending => cases hf

theorem closing_dark {o d : Char} (h : closing? o = some d) : o ≠ '\n' ∧ isSpace d = false := by
  unfold closing? at h
  split at h <;> cases h <;> exact ⟨by decide, rfl⟩

/-- A symbol that is quoted but not read is not read in the other text. -/
theorem symbol_stuck {q : Char} {rest : List Char} (hs : isSymbolStart before (w ++ t) = true)
    (hq : isQuote q = true) (hcs : w ++ t = q :: rest) {e : Failure}
    (h : next before ':' (w ++ t) = .error e)
    (hvalue : ∀ fault, e = .value fault → next before ':' w = .error (.value fault))
    (ht : Edited false t t') : ∃ e', next before ':' (w ++ t') = .error e' := by
  rw [hcs] at hs
  rw [hcs, next_symbol hs, symbol_quote hq] at h
  cases w with
  | nil =>
    obtain rfl : t = q :: rest := hcs
    obtain ⟨rest', rfl, hrest⟩ := ht.head
    have hbreak : (q == '\n') = false := by
      rw [beq_eq_false_iff_ne]
      rintro rfl
      cases hq
    rw [hbreak] at hrest
    rw [List.nil_append, next_symbol (isSymbolStart_quote hs hq _), symbol_quote hq]
    refine quotedLiteral_stuck (w := []) hq h (fun fault hfault => ?_) hrest
    cases hvalue fault hfault
  | cons d w =>
    obtain ⟨rfl, rfl⟩ := List.cons.inj hcs
    rw [List.cons_append, next_symbol (isSymbolStart_quote hs hq _), symbol_quote hq]
    refine quotedLiteral_stuck hq h (fun fault hfault => ?_) ht
    have hw := hvalue fault hfault
    rwa [next_symbol (isSymbolStart_quote hs hq _), symbol_quote hq] at hw

/-- Where no token can be read, none can be read in the other text. -/
theorem next_stuck {e : Failure} (h : next before c (w ++ t) = .error e)
    (hvalue : ∀ fault, e = .value fault → next before c w = .error (.value fault))
    (ht : Edited false t t') (hb : afterName before' = afterName before) :
    ∃ e', next before' c (w ++ t') = .error e' := by
  rw [next_before hb]
  cases hlit : opensLiteral before c (w ++ t) with
  | true =>
    obtain hq | ⟨rfl, o, d, rest, hn⟩ | ⟨rfl, hs, q, rest, hcs, hq⟩ := opensLiteral_cases hlit
    · simp only [next_quote hq] at h hvalue ⊢
      exact quotedLiteral_stuck hq h hvalue ht
    · obtain ⟨hcs, hclosing⟩ := noteStart_eq.mp hn
      obtain ⟨hbreak, hdark⟩ := closing_dark hclosing
      have hedited := ht.append w
      rw [hcs] at hedited
      obtain ⟨rest₁, hcs₁, hrest₁⟩ := hedited.head
      obtain ⟨rest', rfl, hrest'⟩ := Edited.head (show Edited false (o :: rest) rest₁ from hrest₁)
      rw [next_note hn] at h
      rw [hcs₁, next_note (noteStart_eq.mpr ⟨rfl, hclosing⟩)]
      exact noteAt_stuck h (hrest'.mem hdark)
    · exact symbol_stuck hs hq hcs h hvalue ht
  | false =>
    obtain ⟨line, tail, hl, htail, hcs⟩ := exists_line (w ++ t)
    rw [hcs, opensLiteral_line htail] at hlit
    obtain ⟨tail', htail', hcs'⟩ := SameLine.line (hcs ▸ ht.sameLine.append w) hl htail
    rw [hcs, next_line hl htail hlit] at h
    rw [hcs', next_line hl htail' hlit]
    cases hline : next before c line with
    | error e' => exact ⟨e', rfl⟩
    | ok p =>
      rw [hline] at h
      cases h

end RubySig.Lexer
