import RubySig.Proofs.Format.Respelled
import RubySig.Proofs.SourceTiled
import RubySig.Proofs.Token.Scan

/-!
Spelled literals are read back. Between double quotes every string is decoded to itself and is one
token, and a symbol is read as one token, quoted or not, wherever punctuation or white space parts
it from its neighbours. Strings are lists of characters: nothing is said of values with lone
surrogates, which no character stands for (`Format.charOf_ok`).
-/
namespace RubySig

namespace Lexer

/-- The place behind the first part of a text. -/
def Reader.behind (front rest : List Char) : Reader :=
  (Reader.start (front ++ rest)).pass front rest

/-- The token that `w` is behind `front`. -/
def tokenAt (l : Lexeme) (front w : List Char) : Token :=
  ⟨l, Position.first.after front, (Position.first.after front).after w⟩

/-- Behind the first part of a text the next token is `l`, and it covers `w`. -/
structure ReadsAt (l : Lexeme) (front w rest : List Char) : Prop where
  splits : Splits front.getLast? l w rest
  scanned : (Reader.behind front (w ++ rest)).scan =
    (Reader.behind (front ++ w) rest).scan.map (Scan.addToken (tokenAt l front w))
  covers : (tokenAt l front w).span.slice (front ++ w ++ rest) = w

theorem Reader.behind_pass (front w rest : List Char) :
    (Reader.behind front (w ++ rest)).pass w rest = .behind (front ++ w) rest := by
  rw [behind, pass_append]
  rfl

/-- What can be split off behind the first part of a text is the next token there. -/
theorem Splits.readsAt {l : Lexeme} {front w rest : List Char}
    (h : Splits front.getLast? l w rest) :
    ReadsAt l front w rest where
  splits := h
  scanned := by
    obtain ⟨c, cs, rfl, hspace, hash, hnext⟩ := h
    have hbefore : (Reader.behind front (c :: cs ++ rest)).before = front.getLast? := Option.or_none
    rw [← hbefore] at hnext
    rw [Reader.scan_token hspace hash hnext rfl, Reader.behind_pass]
    rfl
  covers := Span.slice_between front w rest

end Lexer

theorem unquoted_string (v : String) :
    ((Spell.string v).toList.drop 1).dropLast = v.toList.flatMap Spell.stringChar := by
  rw [Format.toList_string]
  simp

theorem readsAsString_string (v : String) : ReadsAsString (Spell.string v).toList v := by
  apply IsQuoted.readsAsString
  exact ⟨'"', _, Format.toList_string v, Format.quotes_string v⟩

/-- The characters that a symbol is put behind. -/
def Spell.symbolFronts : List Char := [' ', '\n', '(', '[', '|']

/-- The characters that are put behind a symbol. -/
def Spell.symbolBacks : List Char := [' ', '\n', ',', ')', ']', '\x7d']

theorem bears_symbol {b : Char} (hb : b ∈ Spell.symbolFronts) (v : String) :
    (Lexeme.symbol v).bears b = true := by
  have key : ∀ b ∈ Spell.symbolFronts,
      (!(Lexer.isNamePart b || [')', ']', '?', '!', '=', '`'].contains b)) = true := by decide
  exact key b hb

theorem accepts_symbol {c : Char} (hc : c ∈ Spell.symbolBacks) (v : String) :
    Lexer.isSpace c = true ∨ (Lexeme.symbol v).accepts c = true := by
  have key : ∀ c ∈ Spell.symbolBacks, Lexer.isSpace c = true ∨ Lexer.isNamePart c = false ∧
      ['=', '>', '~', '<', '@', '*', '!'].contains c = false ∧ (c != '?') = true := by decide
  obtain hspace | ⟨hpart, hsign, hquestion⟩ := key c hc
  · exact .inl hspace
  · rw [Lexeme.accepts, hpart, hsign, hquestion]
    simp

theorem readsAt_symbol (v : String) {front rest : List Char}
    (hfront : ∀ b ∈ front.getLast?, b ∈ Spell.symbolFronts)
    (hrest : ∀ c ∈ rest.head?, c ∈ Spell.symbolBacks) :
    Lexer.ReadsAt (.symbol v) front (Spell.symbol v).toList rest := by
  apply Lexer.Splits.readsAt
  apply (Format.spelled_symbol v).splits
  · intro b hb
    exact bears_symbol (hfront b hb) v
  · intro c hc
    exact accepts_symbol (hrest c hc) v

/-- A spelled string is decoded to the string that was spelled and is read as one token with its
value, and a spelled symbol is read as one token with its name at every place where its neighbours
let it stand. -/
theorem literals_read_back :
    (∀ v : String, Escape.double ((Spell.string v).toList.drop 1).dropLast = .ok v.toList ∧
      ReadsAsString (Spell.string v).toList v) ∧
    ∀ (v : String) (front rest : List Char), (∀ b ∈ front.getLast?, b ∈ Spell.symbolFronts) →
      (∀ c ∈ rest.head?, c ∈ Spell.symbolBacks) →
      Lexer.ReadsAt (.symbol v) front (Spell.symbol v).toList rest := by
  constructor
  · intro v
    constructor
    · rw [unquoted_string]
      exact Format.double_stringChars v.toList
    · exact readsAsString_string v
  · intro v front rest hfront hrest
    exact readsAt_symbol v hfront hrest

/-- Control characters with and without an escape of their own, in front of digits; what looks like
an escape; and a quote. -/
def escapedValue : String := "\x01F\x7f0\x1b1\\u0041\"\n"

theorem literals_read_back_sample :
    Spell.string escapedValue = "\"\\u0001F\\u007F0\\e1\\\\u0041\\\"\\n\"" ∧
      ReadsAsString (Spell.string escapedValue).toList escapedValue ∧
      (∀ b ∈ "T: [".toList.getLast?, b ∈ Spell.symbolFronts) ∧
      (∀ c ∈ ", A]".toList.head?, c ∈ Spell.symbolBacks) ∧
      (Spell.symbol "[]=").toList = ":[]=".toList ∧
      Lexer.ReadsAt (.symbol "[]=") "T: [".toList (Spell.symbol "[]=").toList ", A]".toList ∧
      (Spell.symbol "a?=").toList = ":\"a?=\"".toList ∧
      Lexer.ReadsAt (.symbol "a?=") "T: [".toList (Spell.symbol "a?=").toList ", A]".toList := by
  obtain ⟨hstrings, hsymbols⟩ := literals_read_back
  have hfront : ∀ b ∈ "T: [".toList.getLast?, b ∈ Spell.symbolFronts := by decide
  have hrest : ∀ c ∈ ", A]".toList.head?, c ∈ Spell.symbolBacks := by decide
  split_ands
  · decide
  · exact (hstrings escapedValue).2
  · exact hfront
  · exact hrest
  · decide
  · exact hsymbols "[]=" _ _ hfront hrest
  · decide
  · exact hsymbols "a?=" _ _ hfront hrest

end RubySig
