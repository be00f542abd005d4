import RubySig.Proofs.Format.Words

/-! How strings and symbols are read where they are printed. -/
namespace RubySig.Format

open Lexer (Splits isSpace isNameStart isNamePart starts next nameLexeme literalBody? literalValue)

/-- A literal body that the quote `q` closes, with its value. -/
structure Quotes (q : Char) (body : List Char) (v : String) : Prop where
  quote : q = '"' ∨ q = '\''
  closed : ∀ rest, literalBody? q (body ++ q :: rest) = some (body, rest)
  value : literalValue q body = .ok v

theorem Quotes.read {q : Char} {body : List Char} {v : String} (h : Quotes q body v)
    (lead : List Char) (make : String → Lexeme) (rest : List Char) :
    Lexer.quotedLiteral q lead make (body ++ [q] ++ rest) =
      .ok ⟨make v, lead ++ q :: body ++ [q], rest⟩ := by
  rw [Lexer.quotedLiteral, List.append_assoc, List.singleton_append, h.closed]
  simp only [h.value]

theorem Quotes.solid {q : Char} {body : List Char} {v : String} (h : Quotes q body v)
    (lead : List Char) : ∀ c ∈ (lead ++ q :: body ++ [q]).getLast?, Doc.isTrailing c = false := by
  intro c hc
  rw [List.getLast?_append] at hc
  cases hc
  rcases h.quote with rfl | rfl <;> decide

theorem Quotes.spelled {q : Char} {body : List Char} {v : String} (h : Quotes q body v) :
    Spelled (.string v) (q :: body ++ [q]) where
  solid := h.solid []
  splits before rest _ _ := by
    have hq : isSpace q = false ∧ q ≠ '#' ∧ (q == '%') = false ∧
        (q == '"' || q == '\'') = true := by
      rcases h.quote with rfl | rfl <;> decide
    refine ⟨q, body ++ [q], rfl, hq.1, hq.2.1, ?_⟩
    unfold next
    simp only [hq.2.2.1, hq.2.2.2, Bool.false_eq_true, if_false, if_true]
    exact h.read [] .string rest

theorem upperHexDigits_control {n : Nat} (h : n < 0x80) :
    ∃ a b c d, Text.upperHexDigits 4 n = [a, b, c, d] ∧
      (∀ x ∈ [a, b, c, d], Text.isHexDigit x = true ∧ x ≠ '\x7b' ∧ x ≠ '"' ∧ x ≠ '\\') ∧
      Text.ofHexDigits 16 [a, b, c, d] = n := by
  have key : ∀ m : Fin 0x80,
      (∀ x ∈ Text.upperHexDigits 4 m, Text.isHexDigit x = true ∧ x ≠ '\x7b' ∧ x ≠ '"' ∧ x ≠ '\\') ∧
        Text.ofHexDigits 16 (Text.upperHexDigits 4 m) = m := by decide +kernel
  obtain ⟨hx, hn⟩ := key ⟨n, h⟩
  exact ⟨_, _, _, _, rfl, hx, hn⟩

/-- The ways in which a character is written between double quotes. -/
theorem stringChar_cases (c : Char) :
    (Spell.stringChar c = [c] ∧ c ≠ '\\' ∧ c ≠ '"') ∨
    (∃ d, Spell.stringChar c = ['\\', d] ∧ d ≠ 'u' ∧ d ≠ 'x' ∧ Text.isOctalDigit d = false ∧
      Escape.simple d = c) ∨
    (Spell.stringChar c = '\\' :: 'u' :: Text.upperHexDigits 4 c.toNat ∧ c.toNat < 0x80) := by
  unfold Spell.stringChar
  split
  case _ => exact .inr (.inl ⟨_, rfl, by decide, by decide, by decide, rfl⟩)
  case _ => exact .inr (.inl ⟨_, rfl, by decide, by decide, by decide, rfl⟩)
  case _ => exact .inr (.inl ⟨_, rfl, by decide, by decide, by decide, rfl⟩)
  case _ => exact .inr (.inl ⟨_, rfl, by decide, by decide, by decide, rfl⟩)
  case _ => exact .inr (.inl ⟨_, rfl, by decide, by decide, by decide, rfl⟩)
  case _ => exact .inr (.inl ⟨_, rfl, by decide, by decide, by decide, rfl⟩)
  case _ => exact .inr (.inl ⟨_, rfl, by decide, by decide, by decide, rfl⟩)
  case _ => exact .inr (.inl ⟨_, rfl, by decide, by decide, by decide, rfl⟩)
  case _ => exact .inr (.inl ⟨_, rfl, by decide, by decide, by decide, rfl⟩)
  case _ => exact .inr (.inl ⟨_, rfl, by decide, by decide, by decide, rfl⟩)
  case _ h₁ h₂ _ _ _ _ _ _ _ _ =>
    split
    case isTrue h =>
      simp only [Bool.or_eq_true, decide_eq_true_eq, beq_iff_eq] at h
      exact .inr (.inr ⟨rfl, by omega⟩)
    case isFalse => exact .inl ⟨rfl, h₁, h₂⟩

theorem literalBody_plain {q c : Char} (cs : List Char) (h₁ : c ≠ '\\') (h₂ : c ≠ q) :
    literalBody? q (c :: cs) = (literalBody? q cs).map fun (b, r) => (c :: b, r) := by
  rw [literalBody?]
  · rw [if_neg (by simpa using h₂)]
  · intro d ds hc
    exact absurd hc h₁

theorem literalBody_stringChar (c : Char) (cs : List Char) :
    literalBody? '"' (Spell.stringChar c ++ cs) =
      (literalBody? '"' cs).map fun (b, r) => (Spell.stringChar c ++ b, r) := by
  rcases stringChar_cases c with ⟨h, h₁, h₂⟩ | ⟨d, h, -⟩ | ⟨h, hc⟩
  · rw [h]
    exact literalBody_plain cs h₁ h₂
  · rw [h]
    rfl
  · obtain ⟨a, b, d, e, hd, hx, -⟩ := upperHexDigits_control hc
    simp only [List.mem_cons, List.not_mem_nil, or_false, forall_eq_or_imp, forall_eq] at hx
    obtain ⟨⟨-, -, ha, ha'⟩, ⟨-, -, hb, hb'⟩, ⟨-, -, hd₁, hd₂⟩, -, -, he, he'⟩ := hx
    rw [h, hd]
    simp only [List.cons_append, List.nil_append, literalBody?]
    rw [literalBody_plain _ ha' ha, literalBody_plain _ hb' hb, literalBody_plain _ hd₂ hd₁,
      literalBody_plain _ he' he]
    simp only [Option.map_map]
    rfl

/-- A code point is read as its own character, unless it is a surrogate. -/
theorem charOf_ok {n : Nat} {c : Char} (h : Escape.charOf n = .ok c) :
    c.toNat = n ∨ 0xD800 ≤ n ∧ n ≤ 0xDFFF ∧ c = '\uFFFD' := by
  unfold Escape.charOf at h
  split at h
  case isTrue => cases h
  case isFalse =>
    split at h
    case isTrue => cases h
    case isFalse hlarge =>
      split at h
      case isTrue hsurrogate =>
        cases h
        simp only [Bool.and_eq_true, decide_eq_true_eq] at hsurrogate
        exact .inr ⟨hsurrogate.1, hsurrogate.2, rfl⟩
      case isFalse hscalar =>
        cases h
        simp only [Bool.and_eq_true, decide_eq_true_eq] at hscalar
        have hvalid : n.isValidChar := by
          unfold Nat.isValidChar
          omega
        rw [Char.ofNat, dif_pos hvalid]
        exact .inl rfl

theorem charOf_toNat {c : Char} (h : c.toNat < 0x80) : Escape.charOf c.toNat = .ok c := by
  rw [Escape.charOf, if_neg (by omega), if_neg (by omega), if_neg (by
    simp only [Bool.and_eq_true, decide_eq_true_eq]; omega), Char.ofNat_toNat]

theorem read_unicode {c : Char} (h : c.toNat < 0x80) (cs : List Char) :
    Escape.read ('u' :: (Text.upperHexDigits 4 c.toNat ++ cs)) = .ok ([c], 5) := by
  obtain ⟨a, b, d, e, hd, hx, hn⟩ := upperHexDigits_control h
  simp only [List.mem_cons, List.not_mem_nil, or_false, forall_eq_or_imp, forall_eq] at hx
  obtain ⟨⟨ha, hbrace, -⟩, ⟨hb, -⟩, ⟨hd', -⟩, he, -⟩ := hx
  have hfour : Escape.fourHex? (a :: b :: d :: e :: cs) = some [a, b, d, e] := by
    simp [Escape.fourHex?, ha, hb, hd', he]
  rw [hd]
  unfold Escape.read
  simp only [List.cons_append, List.nil_append]
  split
  case _ codes size hw =>
    split at hw
    case _ heq => exact absurd (List.cons.inj heq).1 hbrace
    case _ => cases hw
  case _ =>
    simp only [hfour, hn, charOf_toNat h]
    rfl

theorem read_simple {d : Char} (h₁ : d ≠ 'u') (h₂ : d ≠ 'x') (h₃ : Text.isOctalDigit d = false)
    (cs : List Char) : Escape.read (d :: cs) = .ok ([Escape.simple d], 1) := by
  unfold Escape.read
  split
  case _ h => cases h
  case _ h => exact absurd (List.cons.inj h).1 h₁
  case _ h => exact absurd (List.cons.inj h).1 h₂
  case _ c _ _ _ h =>
    obtain ⟨rfl, rfl⟩ := List.cons.inj h
    have : ((d :: cs).take 3).takeWhile Text.isOctalDigit = [] := by
      rw [List.take_succ_cons, List.takeWhile_cons_of_neg (by simp [h₃])]
    rw [this]

theorem decode_stringChar (c : Char) (cs : List Char) :
    Escape.decodeDouble 0 (Spell.stringChar c ++ cs) =
      (Escape.decodeDouble 0 cs).map (c :: ·) := by
  rcases stringChar_cases c with ⟨h, h₁, -⟩ | ⟨d, h, h₁, h₂, h₃, hs⟩ | ⟨h, hc⟩
  · rw [h, List.singleton_append, Escape.decodeDouble, if_neg (by simpa using h₁)]
    cases Escape.decodeDouble 0 cs <;> rfl
  · rw [h, List.cons_append, List.cons_append, Escape.decodeDouble, if_pos (by decide),
      read_simple h₁ h₂ h₃, hs]
    change (Escape.decodeDouble 0 ([] ++ cs) >>= _) = _
    rw [List.nil_append]
    cases Escape.decodeDouble 0 cs <;> rfl
  · obtain ⟨a, b, d, e, hd, -⟩ := upperHexDigits_control hc
    rw [h, List.cons_append, List.cons_append, Escape.decodeDouble, if_pos (by decide),
      read_unicode hc, hd]
    change (Escape.decodeDouble 0 ([] ++ cs) >>= _) = _
    rw [List.nil_append]
    cases Escape.decodeDouble 0 cs <;> rfl

/-- What is written between double quotes is decoded to the same characters. -/
theorem double_stringChars (cs : List Char) :
    Escape.double (cs.flatMap Spell.stringChar) = .ok cs := by
  induction cs with
  | nil => rfl
  | cons c cs ih =>
    rw [Escape.double] at ih ⊢
    rw [List.flatMap_cons, decode_stringChar, ih]
    rfl

/-- A spelled string is read back. -/
theorem quotes_string (v : String) : Quotes '"' (v.toList.flatMap Spell.stringChar) v where
  quote := .inl rfl
  closed rest := by
    induction v.toList with
    | nil => rfl
    | cons c cs ih =>
      rw [List.flatMap_cons, List.append_assoc, literalBody_stringChar, ih]
      rfl
  value := by
    rw [literalValue, if_pos (by rfl), double_stringChars]
    simp [Except.map]

theorem toList_string (v : String) :
    (Spell.string v).toList = '"' :: v.toList.flatMap Spell.stringChar ++ ['"'] := by
  rw [Spell.string, String.toList_ofList]

theorem spelled_string (v : String) : Spelled (.string v) (Spell.string v).toList := by
  rw [toList_string]
  exact (quotes_string v).spelled

theorem isAlpha_bounds {c : Char} (h : c.isAlpha = true) : 65 ≤ c.toNat ∧ c.toNat ≤ 122 := by
  have h₁ : ('A'.val).toNat = 65 ∧ ('Z'.val).toNat = 90 := ⟨rfl, rfl⟩
  have h₂ : ('a'.val).toNat = 97 ∧ ('z'.val).toNat = 122 := ⟨rfl, rfl⟩
  simp only [Char.toNat]
  rcases (Bool.or_eq_true _ _).mp h with hu | hl
  · have hu : c.val ≥ 'A'.val ∧ c.val ≤ 'Z'.val := of_decide_eq_true hu
    simp only [ge_iff_le, UInt32.le_iff_toNat_le] at hu
    omega
  · have hl := (Bool.and_eq_true _ _).mp hl
    simp only [ge_iff_le, decide_eq_true_eq, UInt32.le_iff_toNat_le] at hl
    omega

theorem toNat_lt_of_isAlpha {c : Char} (h : c.isAlpha = true) : c.toNat < 128 :=
  (isAlpha_bounds h).2.trans_lt (by decide)

theorem toNat_lt_of_isDigit {c : Char} (h : c.isDigit = true) : c.toNat < 128 := by
  simp only [Char.isDigit, Bool.and_eq_true, decide_eq_true_eq, UInt32.le_iff_toNat_le] at h
  have h₁ : ('9'.val).toNat = 57 := rfl
  simp only [Char.toNat]
  omega

theorem nameStart_of_isStart {c : Char} (h : MethodName.isStart c = true) :
    isNameStart c = true := by
  rw [MethodName.isStart, Bool.or_eq_true] at h
  rw [isNameStart, Bool.or_eq_true]
  refine h.imp_left fun ha => ?_
  rw [Text.isLetter, if_pos (toNat_lt_of_isAlpha ha), ha]

theorem namePart_of_isPart {c : Char} (h : MethodName.isPart c = true) : isNamePart c = true := by
  rw [MethodName.isPart, Bool.or_eq_true] at h
  rw [isNamePart, Bool.or_eq_true]
  refine h.imp_left fun ha => ?_
  have hc : c.toNat < 128 := by
    rw [Char.isAlphanum, Bool.or_eq_true] at ha
    exact ha.elim toNat_lt_of_isAlpha toNat_lt_of_isDigit
  rw [Text.isAlphanumeric, if_pos hc, ha]

theorem not_isDigit_of_isStart {c : Char} (h : MethodName.isStart c = true) :
    Text.isDigit c = false := by
  rw [MethodName.isStart, Bool.or_eq_true, beq_iff_eq] at h
  rcases h with ha | rfl
  · rw [Text.isDigit, if_pos (toNat_lt_of_isAlpha ha)]
    have hlow := (isAlpha_bounds ha).1
    simp only [Char.toNat] at hlow
    simp only [Char.isDigit, Bool.and_eq_false_imp, decide_eq_true_eq, decide_eq_false_iff_not,
      UInt32.le_iff_toNat_le]
    have h₃ : ('9'.val).toNat = 57 := rfl
    omega
  · rfl

/-- An identifier in the sense of method names is a name. -/
theorem isName_of_isIdentifier {cs : List Char} (h : MethodName.isIdentifier cs = true) :
    IsName cs := by
  cases cs with
  | nil => cases h
  | cons c cs =>
    rw [MethodName.isIdentifier, Bool.and_eq_true, List.all_eq_true] at h
    exact ⟨c, cs, rfl, nameStart_of_isStart h.1, not_isDigit_of_isStart h.1,
      fun d hd => namePart_of_isPart (h.2 d hd)⟩

theorem next_symbol (before : Option Char) (cs : List Char)
    (h : Lexer.isSymbolStart before cs = true) : next before ':' cs = Lexer.symbol cs := by
  rw [next_eq before cs (by decide) (by decide) (by decide) (by decide),
    sigilPiece_none cs (by decide) (by decide), if_neg (by simp; decide), if_neg (by decide), h]
  rfl

theorem isSymbolStart_of_bears {before : Option Char} {s : String} {c : Char} {cs : List Char}
    (hb : ∀ b ∈ before, (Lexeme.symbol s).bears b = true) (hc : c ≠ ':')
    (h : (isNameStart c || ['"', '\'', '@', '$'].contains c ||
      (Lexer.symbolOperator? (c :: cs)).isSome) = true) :
    Lexer.isSymbolStart before (c :: cs) = true := by
  cases before with
  | none =>
    simp only [Lexer.isSymbolStart]
    exact h
  | some b =>
    have hbears := hb b rfl
    simp only [Lexeme.bears, Bool.not_eq_true'] at hbears
    simp only [Lexer.isSymbolStart, hbears]
    exact h

theorem Quotes.spelled_symbol {q : Char} {body : List Char} {v : String} (h : Quotes q body v) :
    Spelled (.symbol v) (':' :: q :: body ++ [q]) where
  solid := h.solid [':']
  splits before rest hb _ := by
    have hq : q ≠ ':' ∧ (q == '"' || q == '\'') = true ∧
        ['"', '\'', '@', '$'].contains q = true := by
      rcases h.quote with rfl | rfl <;> decide
    refine ⟨':', q :: body ++ [q], rfl, by decide, by decide, ?_⟩
    change next before ':' (q :: (body ++ [q] ++ rest)) = _
    rw [next_symbol before _ (isSymbolStart_of_bears hb hq.1 (by simp only [hq.2.2]; simp))]
    unfold Lexer.symbol
    simp only [hq.2.1, if_true]
    exact h.read [':'] .symbol rest

/-- What may stand behind a plain symbol. -/
def Behind (name rest : List Char) : Prop :=
  ∀ c ∈ rest.head?, isNamePart c = false ∧ c ∉ ['=', '>', '~', '<', '@', '*', '!'] ∧
    (c = '?' → MethodName.isIdentifier name = false)

theorem behind_of_accepts {name rest : List Char} (hp : Spell.isPlainSymbol name = true)
    (h : ∀ c ∈ rest.head?, isSpace c = true ∨
      (Lexeme.symbol (String.ofList name)).accepts c = true) : Behind name rest := by
  intro c hc
  rcases h c hc with hs | ha
  · refine ⟨not_namePart_of_isSpace hs, ?_⟩
    simp only [isSpace, Bool.or_eq_true, beq_iff_eq] at hs
    rcases hs with ((((rfl | rfl) | rfl) | rfl) | rfl) | rfl <;> exact ⟨by decide, by simp⟩
  · simp only [Lexeme.accepts, String.toList_ofList, hp, Bool.not_true, Bool.false_or,
      Bool.and_eq_true, Bool.not_eq_true', List.contains_eq_mem, decide_eq_false_iff_not,
      Bool.or_eq_true, bne_iff_ne] at ha
    exact ⟨ha.1.1, ha.1.2, fun hq => ha.2.resolve_left fun h => h hq⟩

theorem symbol_operator {op rest : List Char} (h : op ∈ MethodName.operators)
    (hr : ∀ c ∈ rest.head?, c ∉ ['=', '>', '~', '<', '@', '*', '!']) :
    Lexer.symbolOperator? (op ++ rest) = some op := by
  unfold Lexer.symbolOperator?
  cases rest with
  | nil =>
    rw [List.append_nil]
    revert op
    decide
  | cons c rest =>
    have hc := hr c rfl
    simp only [List.mem_cons, List.not_mem_nil, or_false, not_or] at hc
    obtain ⟨h₁, h₂, h₃, h₄, h₅, h₆, h₇⟩ := hc
    simp only [MethodName.operators, List.mem_cons, List.not_mem_nil, or_false] at h
    rcases h with rfl | rfl | rfl | rfl | rfl | rfl | rfl | rfl | rfl | rfl | rfl | rfl | rfl |
      rfl | rfl | rfl | rfl | rfl | rfl | rfl | rfl | rfl | rfl | rfl | rfl | rfl | rfl | rfl |
      rfl <;>
      simp [Lexer.symbolOperators, List.isPrefixOf, Ne.symm h₁, Ne.symm h₂, Ne.symm h₃, Ne.symm h₄,
        Ne.symm h₅, Ne.symm h₆]

theorem symbol_sigils {sigils name rest : List Char} (hs : sigils ≠ [])
    (hsig : ∀ c ∈ sigils, (c == '@' || c == '$') = true) (hn : MethodName.isIdentifier name = true)
    (hr : ∀ c ∈ rest.head?, isNamePart c = false) :
    Lexer.symbol (sigils ++ name ++ rest) =
      .ok ⟨.symbol (String.ofList (sigils ++ name)), ':' :: (sigils ++ name), rest⟩ := by
  obtain ⟨d, ds, rfl⟩ := List.exists_cons_of_ne_nil hs
  obtain ⟨c, cs, rfl, hc, -⟩ := isName_of_isIdentifier hn
  have hd := hsig d (List.mem_cons_self ..)
  have hquote : (d == '"' || d == '\'') = false := by
    rw [Bool.or_eq_true, beq_iff_eq, beq_iff_eq] at hd
    rcases hd with rfl | rfl <;> decide
  have hstop : ∀ x ∈ (c :: cs ++ rest).head?, (x == '@' || x == '$') = false := by
    rintro x ⟨⟩
    rw [beq_false_of_ne (nameStart_ne hc (by decide)),
      beq_false_of_ne (nameStart_ne hc (by decide))]
    rfl
  obtain ⟨h₁, -⟩ := takeWhile_append hsig hstop
  obtain ⟨h₂, -⟩ := takeWhile_append (isName_of_isIdentifier hn).namePart hr
  have hdrop : (d :: ds ++ (c :: cs ++ rest)).drop (d :: ds).length = c :: cs ++ rest :=
    List.drop_left
  rw [List.append_assoc]
  unfold Lexer.symbol
  rw [List.cons_append] at h₁ hdrop ⊢
  simp only [hquote, hd, h₁, hdrop, h₂, Bool.false_eq_true, if_false, if_true]
  rw [← List.append_assoc]
  exact congrArg (fun r => Except.ok (⟨_, _, r⟩ : Lexer.Piece)) List.drop_left

theorem symbol_named {name suffix rest : List Char} (hn : IsName name)
    (hs : Lexer.symbolSuffix (suffix ++ rest) = suffix)
    (hr : ∀ c ∈ (suffix ++ rest).head?, isNamePart c = false) :
    Lexer.symbol (name ++ suffix ++ rest) =
      .ok ⟨.symbol (String.ofList (name ++ suffix)), ':' :: (name ++ suffix), rest⟩ := by
  obtain ⟨h₁, -⟩ := takeWhile_append hn.namePart hr
  obtain ⟨c, cs, rfl, hc, -⟩ := hn
  have ne (d : Char) (hd : isNameStart d = false) : (c == d) = false :=
    beq_false_of_ne (nameStart_ne hc hd)
  have hdrop : (c :: cs ++ (suffix ++ rest)).drop (c :: cs).length = suffix ++ rest :=
    List.drop_left
  rw [List.append_assoc]
  unfold Lexer.symbol
  rw [List.cons_append] at h₁ hdrop ⊢
  simp only [ne '"' (by decide), ne '\'' (by decide), ne '@' (by decide), ne '$' (by decide),
    Bool.or_self, Bool.false_eq_true, if_false, hc, if_true, h₁, hdrop, hs]
  rw [← List.append_assoc]
  exact congrArg (fun r => Except.ok (⟨_, _, r⟩ : Lexer.Piece)) List.drop_left

theorem symbol_operatorName {op rest : List Char} (h : op ∈ MethodName.operators)
    (hr : ∀ c ∈ rest.head?, c ∉ ['=', '>', '~', '<', '@', '*', '!']) :
    Lexer.symbol (op ++ rest) = .ok ⟨.symbol (String.ofList op), ':' :: op, rest⟩ := by
  have key : ∀ op ∈ MethodName.operators, (op.head?.any fun c =>
      !(c == '"' || c == '\'') && !(c == '@' || c == '$') && !isNameStart c) = true := by decide
  have ho := symbol_operator h hr
  have hc := key op h
  obtain _ | ⟨c, cs⟩ := op
  · cases hc
  simp only [List.head?_cons, Option.any_some, Bool.and_eq_true, Bool.not_eq_true'] at hc
  unfold Lexer.symbol
  rw [List.cons_append] at ho ⊢
  simp only [hc, Bool.false_eq_true, if_false, ho]
  rw [← List.cons_append, List.drop_left]

/-- The shapes of a plain symbol's name. -/
theorem isPlainSymbol_cases {name : List Char} (h : Spell.isPlainSymbol name = true) :
    (∃ sigils word, name = sigils ++ word ∧ sigils ∈ [['@', '@'], ['@'], ['$']] ∧
      MethodName.isIdentifier word = true) ∨
    MethodName.isIdentifier name = true ∨
    (∃ word c, name = word ++ [c] ∧ (c = '?' ∨ c = '!' ∨ c = '=') ∧
      MethodName.isIdentifier word = true) ∨
    name ∈ MethodName.operators := by
  unfold Spell.isPlainSymbol at h
  split at h
  case _ word => exact .inl ⟨['@', '@'], word, rfl, by simp, h⟩
  case _ word _ => exact .inl ⟨['@'], word, rfl, by simp, h⟩
  case _ word => exact .inl ⟨['$'], word, rfl, by simp, h⟩
  case _ =>
    rw [MethodName.isWhole, Bool.or_eq_true, Bool.or_eq_true] at h
    rcases h with (h | h) | h
    · exact .inr (.inr (.inr (List.contains_iff_mem.mp h)))
    · exact .inr (.inl h)
    · split at h
      case _ c word heq =>
        rw [Bool.and_eq_true, Bool.or_eq_true, Bool.or_eq_true, beq_iff_eq, beq_iff_eq,
          beq_iff_eq, or_assoc] at h
        refine .inr (.inr (.inl ⟨word.reverse, c, ?_, h⟩))
        rw [← List.reverse_reverse name, heq, List.reverse_cons]
      case _ => cases h

theorem not_isSpace_of_isPlainSymbol {name : List Char} (h : Spell.isPlainSymbol name = true) :
    ∀ c ∈ name, isSpace c = false := by
  have ident {word : List Char} (hw : MethodName.isIdentifier word = true) :
      ∀ c ∈ word, isSpace c = false :=
    fun c hc => not_isSpace_of_namePart ((isName_of_isIdentifier hw).namePart c hc)
  rcases isPlainSymbol_cases h with ⟨sigils, word, rfl, hs, hw⟩ | hw | ⟨word, c, rfl, hc, hw⟩ | ho
  · intro c hc
    rcases List.mem_append.mp hc with hc | hc
    · have key : ∀ s ∈ [['@', '@'], ['@'], ['$']], ∀ c ∈ s, isSpace c = false := by decide
      exact key sigils hs c hc
    · exact ident hw c hc
  · exact ident hw
  · intro d hd
    rcases List.mem_append.mp hd with hd | hd
    · exact ident hw d hd
    · obtain rfl := List.mem_singleton.mp hd
      rcases hc with rfl | rfl | rfl <;> decide
  · have key : ∀ op ∈ MethodName.operators, ∀ c ∈ op, isSpace c = false := by decide
    exact key name ho

theorem ne_nil_of_isPlainSymbol {name : List Char} (h : Spell.isPlainSymbol name = true) :
    ∃ c cs, name = c :: cs ∧ c ≠ ':' := by
  rcases isPlainSymbol_cases h with ⟨sigils, word, rfl, hs, hw⟩ | hw | ⟨word, c, rfl, hc, hw⟩ | ho
  · simp only [List.mem_cons, List.not_mem_nil, or_false] at hs
    rcases hs with rfl | rfl | rfl <;> exact ⟨_, _, rfl, by decide⟩
  · obtain ⟨c, cs, rfl, hc, -⟩ := isName_of_isIdentifier hw
    exact ⟨c, cs, rfl, nameStart_ne hc (by decide)⟩
  · obtain ⟨d, ds, rfl, hd, -⟩ := isName_of_isIdentifier hw
    exact ⟨d, ds ++ [c], rfl, nameStart_ne hd (by decide)⟩
  · have key : ∀ op ∈ MethodName.operators, op.head?.any (· != ':') = true := by decide
    have hk := key name ho
    obtain _ | ⟨c, cs⟩ := name
    · cases hk
    · exact ⟨c, cs, rfl, by simpa using hk⟩

theorem symbolSuffix_of_behind {name rest : List Char} (hn : MethodName.isIdentifier name = true)
    (h : Behind name rest) : Lexer.symbolSuffix rest = [] := by
  unfold Lexer.symbolSuffix
  split
  case _ => exact absurd hn (by rw [(h _ rfl).2.2 rfl]; decide)
  case _ => exact absurd (h _ rfl).2.1 (by decide)
  case _ => exact absurd (h _ rfl).2.1 (by decide)
  case _ => rfl

/-- A plain symbol is read as long as its name is. -/
theorem symbol_plain {name rest : List Char} (h : Spell.isPlainSymbol name = true)
    (hr : Behind name rest) :
    Lexer.symbol (name ++ rest) = .ok ⟨.symbol (String.ofList name), ':' :: name, rest⟩ := by
  rcases isPlainSymbol_cases h with ⟨sigils, word, rfl, hs, hw⟩ | hw | ⟨word, c, rfl, hc, hw⟩ | ho
  · have hsig : sigils ≠ [] ∧ ∀ c ∈ sigils, (c == '@' || c == '$') = true := by
      simp only [List.mem_cons, List.not_mem_nil, or_false] at hs
      rcases hs with rfl | rfl | rfl <;> decide
    exact symbol_sigils hsig.1 hsig.2 hw fun c hc => (hr c hc).1
  · have hs : Lexer.symbolSuffix ([] ++ rest) = [] := symbolSuffix_of_behind hw hr
    have := symbol_named (isName_of_isIdentifier hw) hs fun c hc => (hr c hc).1
    simpa using this
  · refine symbol_named (isName_of_isIdentifier hw) ?_ ?_
    · rcases hc with rfl | rfl | rfl
      · rfl
      · rfl
      · have : starts (fun c => c == '=' || c == '>' || c == '~') rest = false := by
          cases rest with
          | nil => rfl
          | cons d rest =>
            have := (hr d rfl).2.1
            simp only [List.mem_cons, not_or] at this
            simp [starts, this]
        change (if starts (fun c => c == '=' || c == '>' || c == '~') rest then [] else ['=']) = _
        rw [this]
        rfl
    · rintro d ⟨⟩
      rcases hc with rfl | rfl | rfl <;> rfl
  · exact symbol_operatorName ho fun c hc => (hr c hc).2.1

theorem spelled_plainSymbol {name : List Char} (h : Spell.isPlainSymbol name = true) :
    Spelled (.symbol (String.ofList name)) (':' :: name) where
  solid := by
    refine getLast?_not_isTrailing fun c hc => ?_
    rcases List.mem_cons.mp hc with rfl | hc
    · decide
    · exact not_isSpace_of_isPlainSymbol h c hc
  splits before rest hb hr := by
    refine ⟨':', name, rfl, by decide, by decide, ?_⟩
    have hread := symbol_plain h (behind_of_accepts h hr)
    obtain ⟨c, cs, rfl, hc⟩ := ne_nil_of_isPlainSymbol h
    rw [← hread]
    refine next_symbol before _ (isSymbolStart_of_bears hb hc ?_)
    rcases isPlainSymbol_cases h with ⟨sigils, word, he, hs, -⟩ | hw | ⟨word, d, he, -, hw⟩ | ho
    · have : (['"', '\'', '@', '$'].contains c) = true := by
        simp only [List.mem_cons, List.not_mem_nil, or_false] at hs
        rcases hs with rfl | rfl | rfl <;> obtain ⟨rfl, -⟩ := List.cons.inj he <;> decide
      rw [this, Bool.or_true, Bool.true_or]
    · obtain ⟨d, ds, he, hd, -⟩ := isName_of_isIdentifier hw
      obtain ⟨rfl, -⟩ := List.cons.inj he
      rw [hd, Bool.true_or, Bool.true_or]
    · obtain ⟨e, es, rfl, hd, -⟩ := isName_of_isIdentifier hw
      obtain ⟨rfl, -⟩ := List.cons.inj he
      rw [hd, Bool.true_or, Bool.true_or]
    · have := symbol_operator ho fun x hx => (behind_of_accepts h hr x hx).2.1
      change (_ || (Lexer.symbolOperator? (c :: cs ++ rest)).isSome) = true
      rw [this, Option.isSome_some, Bool.or_true]

/-- The characters of a symbol literal. -/
theorem toList_symbol (s : String) : (Spell.symbol s).toList =
    ':' :: if Spell.isPlainSymbol s.toList then s.toList else (Spell.string s).toList := by
  rw [Spell.symbol, String.toList_append]
  split <;> rfl

theorem spelled_symbol (s : String) : Spelled (.symbol s) (Spell.symbol s).toList := by
  rw [toList_symbol]
  split
  case isTrue h =>
    have := spelled_plainSymbol h
    rwa [String.ofList_toList] at this
  case isFalse h =>
    rw [toList_string]
    exact (quotes_string s).spelled_symbol

end RubySig.Format
