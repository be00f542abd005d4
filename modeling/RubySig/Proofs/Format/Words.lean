import RubySig.Proofs.Format.Piece

/-! How marks, names, integers and backquoted names are read where they are printed. -/
namespace RubySig.Format

open Lexer (Splits isSpace isNameStart isNamePart starts next operatorPiece sigilPiece? nameLexeme)

theorem not_namePart_of_isSpace {c : Char} (h : isSpace c = true) : isNamePart c = false := by
  simp only [isSpace, Bool.or_eq_true, beq_iff_eq] at h
  rcases h with ((((rfl | rfl) | rfl) | rfl) | rfl) | rfl <;> decide

theorem not_isSpace_of_namePart {c : Char} (h : isNamePart c = true) : isSpace c = false := by
  cases hs : isSpace c with
  | false => rfl
  | true => rw [not_namePart_of_isSpace hs] at h; cases h

theorem not_isTrailing_of_not_isSpace {c : Char} (h : isSpace c = false) :
    Doc.isTrailing c = false := by
  simp only [isSpace, Bool.or_eq_false_iff, beq_eq_false_iff_ne] at h
  simp [Doc.isTrailing, h]

theorem namePart_of_nameStart {c : Char} (h : isNameStart c = true) : isNamePart c = true := by
  rw [isNameStart, Bool.or_eq_true] at h
  rw [isNamePart, Bool.or_eq_true]
  refine h.imp_left fun hl => ?_
  rw [Text.isAlphanumeric]
  rw [Text.isLetter] at hl
  split
  · rw [if_pos ‹_›] at hl
    rw [Char.isAlphanum, hl, Bool.true_or]
  · rw [if_neg ‹_›] at hl
    rw [Text.isLetter, if_neg ‹_›]
    rw [hl, Bool.true_or, Bool.true_or]

theorem isDigit_of_isDigit {c : Char} (h : c.isDigit = true) : Text.isDigit c = true := by
  have : c.toNat < 128 := by
    simp only [Char.isDigit, Bool.and_eq_true, decide_eq_true_eq] at h
    have := UInt32.le_iff_toNat_le.mp h.2
    simp only [Char.toNat]
    exact Nat.lt_of_le_of_lt this (by decide)
  rw [Text.isDigit, if_pos this, h]

/-- A name: a letter or an underscore, then letters, digits and underscores. -/
def IsName (cs : List Char) : Prop :=
  ∃ c rest, cs = c :: rest ∧ isNameStart c = true ∧ Text.isDigit c = false ∧
    ∀ d ∈ rest, isNamePart d = true

theorem IsName.namePart {cs : List Char} (h : IsName cs) : ∀ c ∈ cs, isNamePart c = true := by
  obtain ⟨c, rest, rfl, hc, -, hr⟩ := h
  intro d hd
  rcases List.mem_cons.mp hd with rfl | hd
  · exact namePart_of_nameStart hc
  · exact hr d hd

/-- The characters that begin no name. -/
theorem nameStart_ne {c d : Char} (h : isNameStart c = true) (hd : isNameStart d = false) :
    c ≠ d := by
  rintro rfl
  rw [h] at hd
  cases hd

/-- How a token is read that is no annotation, literal or backquoted name. -/
theorem next_eq (before : Option Char) {c : Char} (cs : List Char) (h₁ : (c == '%') = false)
    (h₂ : (c == '"') = false) (h₃ : (c == '\'') = false) (h₄ : (c == '`') = false) :
    next before c cs =
      if Text.isDigit c || ((c == '+' || c == '-') && starts Text.isDigit cs) then
        Lexer.integer c cs
      else if isNameStart c then
        .ok ⟨nameLexeme (c :: cs.takeWhile isNamePart), c :: cs.takeWhile isNamePart,
          cs.dropWhile isNamePart⟩
      else match sigilPiece? c cs with
        | some piece => .ok piece
        | none =>
          if c == ':' && Lexer.isSymbolStart before cs then Lexer.symbol cs
          else operatorPiece c cs := by
  have hq : (c == '"' || c == '\'') = false := by rw [h₂, h₃]; rfl
  unfold next
  rw [h₁, h₄, hq]
  rfl

theorem takeWhile_append {p : Char → Bool} {w rest : List Char} (hw : ∀ c ∈ w, p c = true)
    (hr : ∀ c ∈ rest.head?, p c = false) :
    (w ++ rest).takeWhile p = w ∧ (w ++ rest).dropWhile p = rest := by
  induction w with
  | nil =>
    cases rest with
    | nil => exact ⟨rfl, rfl⟩
    | cons c rest => simp [hr c rfl]
  | cons c w ih =>
    have hc := hw c (List.mem_cons_self ..)
    obtain ⟨h₁, h₂⟩ := ih fun d hd => hw d (List.mem_cons_of_mem _ hd)
    simp [hc, h₁, h₂]

theorem getLast?_not_isTrailing {w : List Char} (h : ∀ c ∈ w, isSpace c = false) :
    ∀ c ∈ w.getLast?, Doc.isTrailing c = false :=
  fun c hc => not_isTrailing_of_not_isSpace (h c (List.mem_of_getLast? hc))

theorem nameLexeme_accepts (cs : List Char) (c : Char) :
    (nameLexeme cs).accepts c = !isNamePart c := by
  unfold nameLexeme
  simp only
  split
  · rfl
  · split
    · split <;> rfl
    · split <;> rfl
    · rfl

theorem spelled_name {cs : List Char} (h : IsName cs) : Spelled (nameLexeme cs) cs where
  solid := getLast?_not_isTrailing fun c hc => not_isSpace_of_namePart (h.namePart c hc)
  splits before rest _ hr := by
    obtain ⟨c, w, rfl, hc, hd, hw⟩ := h
    have hrest : ∀ d ∈ rest.head?, isNamePart d = false := by
      intro d hm
      rcases hr d hm with hs | ha
      · exact not_namePart_of_isSpace hs
      · rw [nameLexeme_accepts] at ha
        simpa using ha
    obtain ⟨h₁, h₂⟩ := takeWhile_append hw hrest
    refine ⟨c, w, rfl, not_isSpace_of_namePart (namePart_of_nameStart hc),
      nameStart_ne hc (by decide), ?_⟩
    have ne (d : Char) (hd : isNameStart d = false) : (c == d) = false :=
      beq_eq_false_iff_ne.mpr (nameStart_ne hc hd)
    rw [next_eq before _ (ne _ (by decide)) (ne _ (by decide)) (ne _ (by decide))
      (ne _ (by decide)), ne '+' (by decide), ne '-' (by decide), hd, if_neg (by simp), if_pos hc,
      h₁, h₂]

theorem isSymbolStart_of_space (before : Option Char) {rest : List Char}
    (h : ∀ c ∈ rest.head?, isSpace c = true) : Lexer.isSymbolStart before rest = false := by
  cases rest with
  | nil => rfl
  | cons c rest =>
    have hc := h c rfl
    simp only [isSpace, Bool.or_eq_true, beq_iff_eq] at hc
    rcases hc with ((((rfl | rfl) | rfl) | rfl) | rfl) | rfl <;>
      simp [Lexer.isSymbolStart, Lexer.symbolOperator?, Lexer.symbolOperators, isNameStart,
        Text.isLetter, List.find?, List.isPrefixOf]

theorem operatorPiece_mark {m : Mark} {c : Char} {cs rest : List Char} (h : m.text.toList = c :: cs)
    (hm : Mark.at? (c :: cs ++ rest) = some m) :
    operatorPiece c (cs ++ rest) = .ok ⟨.mark m, m.text.toList, rest⟩ := by
  have hl : m.text.length = (c :: cs).length := by rw [← h, String.length_toList]
  rw [operatorPiece, ← List.cons_append, hm]
  simp only [hl, h, List.take_left, List.drop_left]

/-- The mark at the start of a text that goes on with something else. -/
theorem mark_at {m : Mark} {rest : List Char}
    (h : ∀ c ∈ rest.head?, isSpace c = true ∨ (Lexeme.mark m).accepts c = true) :
    Mark.at? (m.text.toList ++ rest) = some m := by
  cases rest with
  | nil => cases m <;> rfl
  | cons c rest =>
    have hc := h c rfl
    cases m with
    | dot =>
      have : c ≠ '.' := by rintro rfl; exact absurd hc (by decide)
      simp [Mark.text, Mark.at?, this]
    | star =>
      have : c ≠ '*' := by rintro rfl; exact absurd hc (by decide)
      simp [Mark.text, Mark.at?, this]
    | eq =>
      have : c ≠ '>' := by rintro rfl; exact absurd hc (by decide)
      simp [Mark.text, Mark.at?, this]
    | colon =>
      have : c ≠ ':' := by rintro rfl; exact absurd hc (by decide)
      simp [Mark.text, Mark.at?, this]
    | _ => simp [Mark.text, Mark.at?]

/-- A character that begins a mark or an operator and nothing else, a colon and a sign apart. -/
def isPlainHead (c : Char) : Bool :=
  !Text.isDigit c && !isNameStart c && !(['%', '"', '\'', '`', '+', '@', '$'].contains c)

theorem sigilPiece_none {c : Char} (cs : List Char) (h₁ : c ≠ '@') (h₂ : c ≠ '$') :
    sigilPiece? c cs = none := by
  unfold sigilPiece?
  split <;> first | rfl | exact absurd rfl h₁ | exact absurd rfl h₂

theorem next_plain (before : Option Char) {c : Char} {cs : List Char} (hc : isPlainHead c = true)
    (hm : c = '-' → starts Text.isDigit cs = false)
    (hs : c = ':' → Lexer.isSymbolStart before cs = false) :
    next before c cs = operatorPiece c cs := by
  simp only [isPlainHead, Bool.and_eq_true, Bool.not_eq_true', List.contains_eq_mem,
    decide_eq_false_iff_not, List.mem_cons, not_or] at hc
  obtain ⟨⟨hd, hn⟩, h₁, h₂, h₃, h₄, h₅, h₆, h₇, -⟩ := hc
  rw [next_eq before cs (beq_false_of_ne h₁) (beq_false_of_ne h₂) (beq_false_of_ne h₃)
    (beq_false_of_ne h₄), sigilPiece_none cs h₆ h₇, hd, hn, beq_false_of_ne h₅]
  have hsign : (c == '-' && starts Text.isDigit cs) = false := by
    by_cases h : c = '-'
    · rw [hm h, Bool.and_false]
    · rw [beq_false_of_ne h, Bool.false_and]
  have hcolon : (c == ':' && Lexer.isSymbolStart before cs) = false := by
    by_cases h : c = ':'
    · rw [hs h, Bool.and_false]
    · rw [beq_false_of_ne h, Bool.false_and]
  simp [hsign, hcolon]

theorem mark_head {m : Mark} {c : Char} {cs : List Char} (h : m.text.toList = c :: cs) :
    isPlainHead c = true ∧ isSpace c = false ∧ c ≠ '#' ∧ (c = '-' → cs = ['>']) ∧
      (c = ':' → m = .colon ∧ cs = [] ∨ cs = [':']) := by
  cases m <;> simp [Mark.text] at h <;> obtain ⟨rfl, rfl⟩ := h <;> simp <;> decide

theorem spelled_mark (m : Mark) : Spelled (.mark m) m.text.toList where
  solid := by cases m <;> decide
  splits before rest _ hr := by
    obtain ⟨c, cs, h⟩ : ∃ c cs, m.text.toList = c :: cs := by cases m <;> exact ⟨_, _, rfl⟩
    obtain ⟨hc, hs, hash, hminus, hcolon⟩ := mark_head h
    refine ⟨c, cs, h, hs, hash, ?_⟩
    rw [next_plain before hc, operatorPiece_mark h (h ▸ mark_at hr)]
    · intro hm
      rw [hminus hm]
      rfl
    · intro hm
      rcases hcolon hm with ⟨rfl, rfl⟩ | rfl
      · exact isSymbolStart_of_space before fun c hc =>
          (hr c hc).resolve_right (by simp [Lexeme.accepts])
      · rfl

theorem spelled_backquoted {name : List Char} (h : name ≠ []) (hq : '`' ∉ name) (hn : '\n' ∉ name) :
    Spelled (.quotedIdentifier (String.ofList name)) ('`' :: name ++ ['`']) where
  solid := by
    intro c hc
    rw [List.getLast?_append] at hc
    cases hc
    decide
  splits before rest _ _ := by
    refine ⟨'`', name ++ ['`'], rfl, by decide, by decide, ?_⟩
    have ht : (name ++ ['`'] ++ rest).takeWhile (· != '`') = name := by
      rw [List.append_assoc]
      refine (takeWhile_append (fun c hc => ?_) ?_).1
      · exact bne_iff_ne.mpr fun h => hq (h ▸ hc)
      · rintro c ⟨⟩
        rfl
    have hb : Lexer.backquoted? (name ++ ['`'] ++ rest) = some name := by
      rw [Lexer.backquoted?]
      simp only [ht]
      rw [if_neg]
      simp [h, hn]
    unfold next
    simp only [hb]
    simp

theorem decimalValue_digit {c : Char} (h : c.isDigit = true) :
    Text.decimalValue? c = some (c.toNat - 48) := by
  rw [Text.decimalValue?, if_pos h]

theorem mapM_digits {cs : List Char} (h : ∀ c ∈ cs, c.isDigit = true) :
    cs.mapM Text.decimalValue? = some (cs.map fun c => c.toNat - 48) := by
  induction cs with
  | nil => rfl
  | cons c cs ih =>
    rw [List.mapM_cons, decimalValue_digit (h c (List.mem_cons_self ..)),
      ih fun d hd => h d (List.mem_cons_of_mem _ hd)]
    rfl

theorem ofDigits_toDigits (n : Nat) :
    Text.ofDigits 10 ((Nat.toDigits 10 n).map fun c => c.toNat - 48) = n := by
  rw [Text.ofDigits, List.foldl_map]
  simpa [Nat.ofDigitChars, Nat.mul_comm] using Nat.ofDigitChars_ten_toDigits (n := n)

/-- Whether an integer has no more digits than one may have. -/
def Readable (n : Int) : Prop := (toString n.natAbs).length ≤ Text.maxIntegerDigits

theorem toDigits_isDigit {n : Nat} {c : Char} (h : c ∈ Nat.toDigits 10 n) : c.isDigit = true :=
  Nat.isDigit_of_mem_toDigits (by decide) (by decide) h

theorem ne_underscore_of_isDigit {c : Char} (h : c.isDigit = true) : (c != '_') = true :=
  bne_iff_ne.mpr (by rintro rfl; exact absurd h (by decide))

def signOf (n : Int) : List Char := if n < 0 then ['-'] else []

theorem toString_digits (n : Int) :
    (toString n).toList = signOf n ++ Nat.toDigits 10 n.natAbs := by
  rw [Int.toString_eq_repr, Int.repr_eq_if, signOf]
  by_cases h : n < 0
  · rw [if_neg (by omega), if_pos h, show (-n).toNat = n.natAbs by omega]
    simp
  · rw [if_pos (by omega), if_neg h, show n.toNat = n.natAbs by omega]
    simp

theorem integerValue_digits {n : Int} (h : Readable n) :
    Lexer.integerValue (signOf n ++ Nat.toDigits 10 n.natAbs) = .ok n := by
  have hd : ∀ c ∈ Nat.toDigits 10 n.natAbs, c.isDigit = true := fun c => toDigits_isDigit
  obtain ⟨c, cs, hc⟩ := List.exists_cons_of_ne_nil (Nat.toDigits_ne_nil (n := n.natAbs) (b := 10))
  have hhead : c.isDigit = true := hd c (hc ▸ List.mem_cons_self ..)
  have hplus : c ≠ '+' := by rintro rfl; exact absurd hhead (by decide)
  have hminus : c ≠ '-' := by rintro rfl; exact absurd hhead (by decide)
  have hu : Text.unsigned (signOf n ++ Nat.toDigits 10 n.natAbs) = Nat.toDigits 10 n.natAbs := by
    rw [signOf]
    split
    · rfl
    · rw [hc]
      simp [Text.unsigned, hplus, hminus]
  have hf : (Nat.toDigits 10 n.natAbs).filter (· != '_') = Nat.toDigits 10 n.natAbs :=
    List.filter_eq_self.mpr fun d hm => ne_underscore_of_isDigit (hd d hm)
  have hl : ¬ (Nat.toDigits 10 n.natAbs).length > Text.maxIntegerDigits := by
    rw [Readable, ← String.length_toList] at h
    simpa using h
  rw [Lexer.integerValue]
  simp only [hu, hf, if_neg hl, mapM_digits hd, ofDigits_toDigits]
  rw [Text.signedLike, signOf, Except.ok.injEq]
  by_cases hn : n < 0
  · rw [if_pos hn, if_pos (by rfl)]
    omega
  · rw [if_neg hn, if_neg (by simp [hc, hminus])]
    omega

theorem spelled_integer {n : Int} (h : Readable n) : Spelled (.integer n) (toString n).toList where
  solid := by
    intro c hc
    rw [toString_digits, List.getLast?_append_of_ne_nil _ Nat.toDigits_ne_nil] at hc
    have := toDigits_isDigit (List.mem_of_getLast? hc)
    cases ht : Doc.isTrailing c with
    | false => rfl
    | true =>
      rw [Doc.isTrailing, Bool.or_eq_true, beq_iff_eq, beq_iff_eq] at ht
      rcases ht with rfl | rfl <;> exact absurd this (by decide)
  splits before rest _ hr := by
    have hd : ∀ c ∈ Nat.toDigits 10 n.natAbs, Text.isDigit c = true :=
      fun c hc => isDigit_of_isDigit (toDigits_isDigit hc)
    obtain ⟨d, ds, hds⟩ := List.exists_cons_of_ne_nil
      (Nat.toDigits_ne_nil (n := n.natAbs) (b := 10))
    have hdigits : Text.isDigit d = true := hd d (hds ▸ List.mem_cons_self ..)
    have hpart : ∀ c ∈ Nat.toDigits 10 n.natAbs, (Text.isDigit c || c == '_') = true :=
      fun c hc => by rw [hd c hc, Bool.true_or]
    have hrest : ∀ c ∈ rest.head?, (Text.isDigit c || c == '_') = false := by
      intro c hc
      rcases hr c hc with hs | ha
      · simp only [isSpace, Bool.or_eq_true, beq_iff_eq] at hs
        rcases hs with ((((rfl | rfl) | rfl) | rfl) | rfl) | rfl <;> rfl
      · simpa [Lexeme.accepts] using ha
    have value := integerValue_digits h
    rw [toString_digits]
    by_cases hn : n < 0
    · rw [signOf, if_pos hn] at value ⊢
      obtain ⟨h₁, h₂⟩ := takeWhile_append hpart hrest
      refine ⟨'-', Nat.toDigits 10 n.natAbs, rfl, by decide, by decide, ?_⟩
      rw [next_eq before _ (by decide) (by decide) (by decide) (by decide), if_pos (by
        rw [hds]; simp [starts, hdigits]), Lexer.integer]
      simp only [h₁, h₂]
      rw [show '-' :: Nat.toDigits 10 n.natAbs = ['-'] ++ Nat.toDigits 10 n.natAbs from rfl, value]
    · rw [signOf, if_neg hn, List.nil_append] at value ⊢
      rw [hds] at hpart value ⊢
      obtain ⟨h₁, h₂⟩ := takeWhile_append (fun c hc => hpart c (List.mem_cons_of_mem _ hc)) hrest
      have ne (c : Char) (hc : Text.isDigit c = false) : d ≠ c := by
        rintro rfl
        rw [hdigits] at hc
        cases hc
      have hs : isSpace d = false := by
        simp [isSpace, ne ' ' (by decide), ne '\t' (by decide), ne '\r' (by decide),
          ne '\n' (by decide), ne '\x0c' (by decide), ne '\x0b' (by decide)]
      refine ⟨d, ds, rfl, hs, ne _ (by decide), ?_⟩
      rw [next_eq before _ (beq_false_of_ne (ne _ (by decide))) (beq_false_of_ne (ne _ (by decide)))
        (beq_false_of_ne (ne _ (by decide))) (beq_false_of_ne (ne _ (by decide))),
        if_pos (by rw [hdigits, Bool.true_or]), Lexer.integer]
      simp only [h₁, h₂, value]

end RubySig.Format
