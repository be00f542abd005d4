import RubySig.Proofs.Format.TyNeat

/-!
String literals between their preferred quotes: they are read as the same string, and stay as they
are when they are put between their preferred quotes again.
-/
namespace RubySig

/-- A string literal between its preferred quotes. -/
def Spell.respelled (source : List Char) : List Char :=
  let quote := preferredQuote source
  quote :: requote quote (source.drop 1).dropLast ++ [quote]

/-- A text is one string token, from its first character to its last. -/
def ReadsAsString (text : List Char) (v : String) : Prop :=
  let finish := Position.first.after text
  Lexer.scan text = .ok ⟨[⟨.string v, .first, finish⟩], [], finish⟩

variable {text : List Char} {v : String}

theorem ReadsAsString.quoted (h : ReadsAsString text v) : IsQuoted text v := by
  obtain ⟨front, w, back, htext, -, hstart, hstop, htaken⟩ :=
    Lexer.scan_sound h _ (List.mem_singleton_self _)
  have hfront : front = [] := by
    have := congrArg Position.offset hstart
    simpa [Position.first, Position.offset_after] using this.symm
  have hback : back = [] := by
    have := congrArg Position.offset hstop
    simpa [htext, hfront, Position.offset_after] using this
  rw [htext, hfront, hback, List.nil_append, List.append_nil]
  exact htaken

theorem IsQuoted.readsAsString (h : IsQuoted text v) : ReadsAsString text v := by
  obtain ⟨q, body, rfl, hquotes⟩ := h
  have hlegible : Lexer.Legible none [.token (.string v) (q :: body ++ [q])] :=
    ⟨hquotes.spelled.splits none [] (by simp) (by simp), trivial⟩
  have hscan := Lexer.scan_textOf hlegible
  rwa [Lexer.Chunk.textOf_cons, Lexer.Chunk.textOf_nil, List.append_nil] at hscan

theorem Spell.respelled_quoted (q : Char) (body : List Char) :
    let quote := preferredQuote (q :: body ++ [q])
    respelled (q :: body ++ [q]) = quote :: requote quote body ++ [quote] := by
  simp [respelled]

theorem IsQuoted.respelled (h : IsQuoted text v) : IsQuoted (Spell.respelled text) v := by
  obtain ⟨q, body, rfl, hquotes⟩ := h
  exact ⟨_, _, Spell.respelled_quoted q body, hquotes.requoted⟩

/-- A literal between its preferred quotes prefers the quotes that it has. -/
theorem IsQuoted.preferred_respelled (h : IsQuoted text v) :
    Spell.preferredQuote (Spell.respelled text) = Spell.preferredQuote text := by
  obtain ⟨q, body, rfl, hquotes⟩ := h
  rw [Spell.respelled_quoted, hquotes.requoted.preferred, hquotes.preferred]
  by_cases hback : '\\' ∈ body
  · rw [if_pos hback, Format.requote_own hquotes.quote (hquotes.closed []), if_pos hback]
  · rw [if_neg hback, ite_self]

theorem IsQuoted.respelled_respelled (h : IsQuoted text v) :
    Spell.respelled (Spell.respelled text) = Spell.respelled text := by
  have hpreferred := h.preferred_respelled
  obtain ⟨q, body, rfl, hquotes⟩ := h
  rw [Spell.respelled_quoted] at hpreferred ⊢
  have hrequoted := hquotes.requoted
  rw [Spell.respelled_quoted, hpreferred,
    Format.requote_own hrequoted.quote (hrequoted.closed [])]

end RubySig
