import RubySig.Proofs.Token.Sound

/-!
Tokens and lines. Apart from literals and annotations, which end at their delimiters, a token is
settled by the rest of the line that it begins on, and nothing of the lines below tells on it.
-/
namespace RubySig.Lexer

/-- What can stand behind the characters of a line: nothing, or its line feed and more lines. -/
def Breaks (tail : List Char) : Prop := ∀ c ∈ tail.head?, c = '\n'

def Piece.more (tail : List Char) (p : Piece) : Piece := { p with rest := p.rest ++ tail }

def isQuote (c : Char) : Bool := c == '"' || c == '\''

/-- Whether a quoted literal or an annotation begins with `c` and `cs`. -/
def opensLiteral (before : Option Char) (c : Char) (cs : List Char) : Bool :=
  isQuote c || (c == '%' && (noteStart? cs).isSome) ||
    (c == ':' && isSymbolStart before cs && starts isQuote cs)

variable {line tail : List Char} {c : Char} {before : Option Char}

section Line

variable {p : Char → Bool} (hp : p '\n' = false) (ht : Breaks tail)
include hp ht

theorem starts_line : starts p (line ++ tail) = starts p line := by
  cases line with
  | cons c line => rfl
  | nil =>
    cases tail with
    | nil => rfl
    | cons c tail =>
      obtain rfl : c = '\n' := ht c rfl
      exact hp

theorem dropWhile_line : (line ++ tail).dropWhile p = line.dropWhile p ++ tail := by
  induction line with
  | nil =>
    cases tail with
    | nil => rfl
    | cons c tail =>
      obtain rfl : c = '\n' := ht c rfl
      exact List.dropWhile_cons_of_neg (by simp [hp])
  | cons c line ih =>
    rw [List.cons_append, List.dropWhile_cons, List.dropWhile_cons, ih]
    split <;> rfl

theorem takeWhile_inside : (line ++ tail).takeWhile p = line.takeWhile p := by
  have hsplit := (List.takeWhile_append_dropWhile (p := p) (l := line ++ tail))
  rw [dropWhile_line hp ht, ← List.append_assoc] at hsplit
  have hline : (line ++ tail).takeWhile p ++ line.dropWhile p =
      line.takeWhile p ++ line.dropWhile p := by
    rw [List.takeWhile_append_dropWhile]
    exact List.append_cancel_right hsplit
  exact List.append_cancel_right hline

end Line

theorem isPrefixOf_line {o : List Char} (ho : '\n' ∉ o) (ht : Breaks tail) :
    o.isPrefixOf (line ++ tail) = o.isPrefixOf line := by
  induction o generalizing line with
  | nil => rfl
  | cons d o ih =>
    rw [List.mem_cons, not_or] at ho
    cases line with
    | cons c line => rw [List.cons_append, List.isPrefixOf, List.isPrefixOf, ih ho.2]
    | nil =>
      cases tail with
      | nil => rfl
      | cons c tail =>
        obtain rfl : c = '\n' := ht c rfl
        simp [List.isPrefixOf, Ne.symm ho.1]

/-- One of some words that have no line feed is found at the start of a text on its first line. -/
theorem find_line {α : Type} {os : List α} {f : α → List Char} (hf : ∀ o ∈ os, '\n' ∉ f o)
    (ht : Breaks tail) :
    os.find? (fun o => (f o).isPrefixOf (line ++ tail)) = os.find? fun o =>
      (f o).isPrefixOf line := by
  induction os with
  | nil => rfl
  | cons o os ih =>
    rw [List.find?_cons, List.find?_cons, isPrefixOf_line (hf o List.mem_cons_self) ht,
      ih fun o ho => hf o (List.mem_cons_of_mem _ ho)]

theorem symbolOperator_line (ht : Breaks tail) :
    symbolOperator? (line ++ tail) = symbolOperator? line :=
  find_line (by decide) ht

theorem drop_line {n : Nat} (hn : n ≤ line.length) : (line ++ tail).drop n = line.drop n ++ tail :=
  List.drop_append_of_le_length hn

theorem isNamePart_break : isNamePart '\n' = false := by decide +kernel

theorem isNameStart_break : isNameStart '\n' = false := by decide +kernel

theorem isDigit_break : Text.isDigit '\n' = false := by decide +kernel

theorem integer_line (ht : Breaks tail) :
    integer c (line ++ tail) = (integer c line).map (·.more tail) := by
  have hpart : (fun c => Text.isDigit c || c == '_') '\n' = false := by
    dsimp only
    rw [isDigit_break]
    rfl
  unfold integer
  dsimp only
  rw [takeWhile_inside hpart ht, dropWhile_line hpart ht]
  split <;> rfl

theorem variablePiece_line {sigils : List Char} {make : String → Lexeme} (ht : Breaks tail) :
    variablePiece sigils make (line ++ tail) = (variablePiece sigils make line).more tail := by
  rw [variablePiece, variablePiece, takeWhile_inside isNamePart_break ht,
    dropWhile_line isNamePart_break ht]
  rfl

/-- A variable with one sigil. -/
theorem sigilPiece_single {c : Char} (hc : c = '@' ∨ c = '$') {cs : List Char}
    (hcs : c = '@' → cs.head? ≠ some '@') : sigilPiece? c cs = if starts isNameStart cs then
      some (variablePiece [c] (if c = '@' then .instanceVariable else .globalVariable) cs)
    else none := by
  unfold sigilPiece?
  split <;> simp_all

theorem sigilPiece_line (ht : Breaks tail) :
    sigilPiece? c (line ++ tail) = (sigilPiece? c line).map (·.more tail) := by
  by_cases hc : c = '@' ∨ c = '$'
  · by_cases htwo : c = '@' ∧ line.head? = some '@'
    · obtain ⟨rfl, hhead⟩ := htwo
      obtain ⟨rest, rfl⟩ := List.head?_eq_some_iff.mp hhead
      rw [List.cons_append, sigilPiece?, sigilPiece?, starts_line isNameStart_break ht,
        variablePiece_line ht]
      split <;> rfl
    · have hnone : c = '@' → line.head? ≠ some '@' := fun h hhead => htwo ⟨h, hhead⟩
      have hmore : c = '@' → (line ++ tail).head? ≠ some '@' := by
        intro h hhead
        rw [List.head?_append, Option.or_eq_some_iff] at hhead
        obtain hhead | ⟨-, hhead⟩ := hhead
        · exact hnone h hhead
        · exact absurd (ht _ hhead) (by decide)
      rw [sigilPiece_single hc hnone, sigilPiece_single hc hmore, starts_line isNameStart_break ht,
        variablePiece_line ht]
      split <;> rfl
  · rw [not_or] at hc
    unfold sigilPiece?
    split <;> simp_all

theorem symbolSuffix_cons (c : Char) (cs : List Char) : symbolSuffix (c :: cs) =
    if c = '?' ∨ c = '!' then [c]
    else if c = '=' then
      if starts (fun c => c == '=' || c == '>' || c == '~') cs then [] else [c]
    else [] := by
  unfold symbolSuffix
  split <;> simp_all

theorem symbolSuffix_line (ht : Breaks tail) : symbolSuffix (line ++ tail) = symbolSuffix line := by
  cases line with
  | nil =>
    cases tail with
    | nil => rfl
    | cons c tail =>
      obtain rfl : c = '\n' := ht c rfl
      rfl
  | cons c line =>
    rw [List.cons_append, symbolSuffix_cons, symbolSuffix_cons, starts_line (by rfl) ht]

/-- Whether a colon behind a character cannot begin a symbol. -/
def afterName : Option Char → Bool
  | none => false
  | some p => isNamePart p || [')', ']', '?', '!', '=', '`'].contains p

theorem isSymbolStart_cons (before : Option Char) (c : Char) (cs : List Char) :
    isSymbolStart before (c :: cs) = (c != ':' && (!afterName before && (isNameStart c ||
      ['"', '\'', '@', '$'].contains c || (symbolOperator? (c :: cs)).isSome))) := by
  by_cases hc : c = ':'
  · subst hc
    rfl
  · rw [bne_iff_ne.mpr hc, Bool.true_and]
    unfold isSymbolStart
    dsimp only
    split
    case _ h => cases h
    case _ h =>
      cases h
      exact absurd rfl hc
    case _ h =>
      cases h
      cases before <;> rfl

theorem isSymbolStart_line (ht : Breaks tail) :
    isSymbolStart before (line ++ tail) = isSymbolStart before line := by
  have hoperator : symbolOperator? (line ++ tail) = symbolOperator? line := symbolOperator_line ht
  cases line with
  | nil =>
    cases tail with
    | nil => rfl
    | cons c tail =>
      obtain rfl : c = '\n' := ht c rfl
      rw [List.nil_append] at hoperator ⊢
      rw [isSymbolStart_cons, hoperator, isNameStart_break]
      simp [symbolOperator?, symbolOperators, isSymbolStart]
  | cons c line =>
    rw [List.cons_append] at hoperator ⊢
    rw [isSymbolStart_cons, isSymbolStart_cons, hoperator]

/-- A name of characters that the line holds is taken from the line. -/
theorem symbol_named {name : List Char} (hn : name <+: line) :
    (Except.ok ⟨.symbol (String.ofList name), ':' :: name, (line ++ tail).drop name.length⟩ :
      Except Failure Piece) =
      (Except.ok ⟨.symbol (String.ofList name), ':' :: name, line.drop name.length⟩ :
        Except Failure Piece).map (·.more tail) := by
  rw [drop_line hn.length_le]
  rfl

theorem symbol_line (ht : Breaks tail) (h : starts isQuote line = false) :
    symbol (line ++ tail) = (symbol line).map (·.more tail) := by
  have hoperator : symbolOperator? (line ++ tail) = symbolOperator? line := symbolOperator_line ht
  cases line with
  | nil =>
    cases tail with
    | nil => rfl
    | cons c tail =>
      obtain rfl : c = '\n' := ht c rfl
      rw [List.nil_append] at hoperator ⊢
      unfold symbol
      rw [hoperator]
      simp [isNameStart_break, symbolOperator?, symbolOperators]
      rfl
  | cons c line =>
    have hquote : ¬(c == '"' || c == '\'') = true := Bool.eq_false_iff.mp h
    have hsigils : (fun c => c == '@' || c == '$') '\n' = false := rfl
    rw [List.cons_append] at hoperator
    unfold symbol
    dsimp only [List.cons_append]
    rw [if_neg hquote, if_neg hquote, hoperator, ← List.cons_append, takeWhile_inside hsigils ht,
      takeWhile_inside isNamePart_break ht, drop_line (List.takeWhile_prefix _).length_le,
      drop_line (List.takeWhile_prefix _).length_le, takeWhile_inside isNamePart_break ht,
      symbolSuffix_line ht]
    split
    · exact symbol_named (prefix_of_drop (List.takeWhile_prefix _) (List.takeWhile_prefix _))
    split
    · exact symbol_named (prefix_of_drop (List.takeWhile_prefix _) (symbolSuffix_starts _))
    split
    case _ operator ho =>
      rw [symbolOperator?] at ho
      have hprefix := List.find?_some ho
      exact symbol_named (List.isPrefixOf_iff_prefix.mp hprefix)
    case _ => rfl

theorem backquoted_line (hl : '\n' ∉ line) (ht : Breaks tail) :
    backquoted? (line ++ tail) = backquoted? line := by
  by_cases hq : '`' ∈ line
  · -- The name ends on the line.
    obtain ⟨front, back, rfl, hfront⟩ := List.eq_append_cons_of_mem hq
    have htake (more : List Char) : (front ++ '`' :: more).takeWhile (· != '`') = front := by
      rw [List.takeWhile_append_of_pos fun d hd => bne_iff_ne.mpr (ne_of_mem_of_not_mem hd hfront),
        List.takeWhile_cons_of_neg (by simp), List.append_nil]
    have hlength (more : List Char) : (front.length == (front ++ '`' :: more).length) = false := by
      simp
    unfold backquoted?
    rw [List.append_assoc, List.cons_append, htake, htake]
    dsimp only
    rw [hlength, hlength]
  · have hall : ∀ d ∈ line, (d != '`') = true :=
      fun d hd => bne_iff_ne.mpr (ne_of_mem_of_not_mem hd hq)
    have hnone : backquoted? line = none := by
      unfold backquoted?
      rw [List.takeWhile_eq_self_iff.mpr hall]
      simp
    rw [hnone]
    cases tail with
    | nil => rw [List.append_nil, hnone]
    | cons d tail =>
      obtain rfl : d = '\n' := ht d rfl
      unfold backquoted?
      rw [List.takeWhile_append_of_pos hall, List.takeWhile_cons_of_pos (by decide)]
      simp

/-- The marks, each before its own beginnings. -/
def marks : List Mark :=
  [.ellipsis, .arrow, .fatArrow, .doubleStar, .doubleColon, .lparen, .rparen, .lbrace,
    .rbrace, .lbracket,
    .rbracket, .comma, .pipe, .ampersand, .question, .caret, .lt, .eq, .dot, .star, .colon]

/-- The mark at the start of a text is the first that the text begins with. -/
theorem mark_find (cs : List Char) :
    Mark.at? cs = marks.find? fun m => m.text.toList.isPrefixOf cs := by
  unfold Mark.at?
  split <;> try rfl
  case _ cs h =>
    rcases cs with _ | ⟨d, cs⟩
    · rfl
    · have hd : d ≠ '>' := fun hd => h cs (by rw [hd])
      simp [marks, Mark.text, List.isPrefixOf, Ne.symm hd]
  case _ cs h =>
    rcases cs with _ | ⟨d, _ | ⟨e, cs⟩⟩
    · rfl
    · simp [marks, Mark.text]
    · have hd : ¬('.' = d ∧ '.' = e) := fun hd => h cs (by rw [← hd.1, ← hd.2])
      simp only [marks, Mark.text]
      simp [hd]
  case _ cs h =>
    rcases cs with _ | ⟨d, cs⟩
    · rfl
    · have hd : d ≠ '*' := fun hd => h cs (by rw [hd])
      simp [marks, Mark.text, List.isPrefixOf, Ne.symm hd]
  case _ cs h =>
    rcases cs with _ | ⟨d, cs⟩
    · rfl
    · have hd : d ≠ ':' := fun hd => h cs (by rw [hd])
      simp [marks, Mark.text, List.isPrefixOf, Ne.symm hd]
  case _ =>
    symm
    rw [List.find?_eq_none]
    intro m _ hprefix
    obtain ⟨more, rfl⟩ := List.isPrefixOf_iff_prefix.mp hprefix
    cases m <;> solve_by_elim

theorem mark_line (ht : Breaks tail) : Mark.at? (c :: (line ++ tail)) = Mark.at? (c :: line) := by
  rw [mark_find, mark_find, ← List.cons_append]
  exact find_line (fun m _ => by cases m <;> decide) ht

theorem operatorPiece_line (ht : Breaks tail) :
    operatorPiece c (line ++ tail) = (operatorPiece c line).map (·.more tail) := by
  unfold operatorPiece
  rw [mark_line ht]
  split
  case _ m hm =>
    have hsize : m.text.length ≤ (c :: line).length := by
      rw [← String.length_toList]
      exact (mark_at_starts hm).length_le
    dsimp only
    rw [← List.cons_append, drop_line hsize, List.take_append_of_le_length hsize]
    rfl
  case _ =>
    split <;> rfl

theorem noteStart_line (ht : Breaks tail) :
    (noteStart? (line ++ tail)).isSome = (noteStart? line).isSome := by
  rcases line with _ | ⟨d, _ | ⟨e, line⟩⟩
  · cases tail with
    | nil => rfl
    | cons x tail =>
      obtain rfl : x = '\n' := ht x rfl
      rfl
  · cases tail with
    | nil => rfl
    | cons x tail =>
      obtain rfl : x = '\n' := ht x rfl
      by_cases hd : d = 'a'
      · subst hd
        rfl
      · unfold noteStart?
        split <;> simp_all
  · by_cases hd : d = 'a'
    · subst hd
      rw [List.cons_append, List.cons_append, noteStart?, noteStart?, Option.isSome_map,
        Option.isSome_map]
    · unfold noteStart?
      split <;> simp_all

theorem opensLiteral_line (ht : Breaks tail) :
    opensLiteral before c (line ++ tail) = opensLiteral before c line := by
  rw [opensLiteral, opensLiteral, noteStart_line ht, isSymbolStart_line ht, starts_line (by rfl) ht]

/-- A token that is no literal and no annotation is settled by its line. -/
theorem next_line (hl : '\n' ∉ line) (ht : Breaks tail) (h : opensLiteral before c line = false) :
    next before c (line ++ tail) = (next before c line).map (·.more tail) := by
  rw [opensLiteral, Bool.or_eq_false_iff, Bool.or_eq_false_iff] at h
  obtain ⟨⟨hquote, hnote⟩, hsymbol⟩ := h
  have hstart : (if c == '%' then noteStart? line else none) = none := by
    split
    case isTrue hc => simpa [hc] using hnote
    case isFalse => rfl
  have hstart' : (if c == '%' then noteStart? (line ++ tail) else none) = none := by
    split
    case isTrue hc =>
      rw [← Option.isNone_iff_eq_none, ← Option.not_isSome, noteStart_line ht]
      simpa [hc] using hnote
    case isFalse => rfl
  unfold next
  rw [isQuote] at hquote
  rw [hstart, hstart', hquote, backquoted_line hl ht, starts_line isDigit_break ht,
    sigilPiece_line ht,
    isSymbolStart_line ht, integer_line ht, takeWhile_inside isNamePart_break ht,
    dropWhile_line isNamePart_break ht, operatorPiece_line ht]
  dsimp only
  rw [if_neg Bool.false_ne_true, if_neg Bool.false_ne_true]
  split
  case _ name hname =>
    have hback : backquoted? line = some name := by
      split at hname
      case isTrue => exact hname
      case isFalse => cases hname
    have hsize : name.length + 1 ≤ line.length := by
      have := congrArg List.length (backquoted_genuine hback).split
      simp only [List.length_cons, List.length_append, List.length_drop] at this
      omega
    rw [drop_line hsize]
    rfl
  split
  · rfl
  split
  · rfl
  cases sigilPiece? c line with
  | some piece => rfl
  | none =>
    dsimp only [Option.map_none]
    split
    case isTrue hc =>
      rw [hc, Bool.true_and] at hsymbol
      exact symbol_line ht hsymbol
    case isFalse => rfl

theorem next_quote (hc : isQuote c = true) (cs : List Char) :
    next before c cs = quotedLiteral c [] .string cs := by
  have hpercent : (c == '%') = false := by
    rw [isQuote, Bool.or_eq_true, beq_iff_eq, beq_iff_eq] at hc
    rcases hc with rfl | rfl <;> rfl
  rw [isQuote] at hc
  unfold next
  rw [hpercent, if_neg Bool.false_ne_true]
  dsimp only
  rw [if_pos hc]

theorem next_note {opening closing : Char} {cs rest : List Char}
    (h : noteStart? cs = some (opening, closing, rest)) :
    next before '%' cs = noteAt opening closing rest := by
  unfold next
  rw [if_pos (by rfl), h]

theorem noteStart_eq {opening closing : Char} {cs rest : List Char} :
    noteStart? cs = some (opening, closing, rest) ↔
      cs = 'a' :: opening :: rest ∧ closing? opening = some closing := by
  constructor
  · intro h
    unfold noteStart? at h
    split at h
    case _ =>
      obtain ⟨d, hd, he⟩ := Option.map_eq_some_iff.mp h
      cases he
      exact ⟨rfl, hd⟩
    case _ => cases h
  · rintro ⟨rfl, h⟩
    rw [noteStart?, h]
    rfl

theorem next_symbol {cs : List Char} (h : isSymbolStart before cs = true) :
    next before ':' cs = symbol cs := by
  have hdigit : (Text.isDigit ':' || ((':' == '+' || ':' == '-') && starts Text.isDigit cs)) =
      false := by
    rw [show Text.isDigit ':' = false by decide +kernel]
    rfl
  have hname : isNameStart ':' = false := by decide +kernel
  unfold next
  rw [hdigit, hname, h]
  rfl

theorem symbol_quote {q : Char} (hq : isQuote q = true) (cs : List Char) :
    symbol (q :: cs) = quotedLiteral q [':'] .symbol cs :=
  if_pos hq

end RubySig.Lexer
