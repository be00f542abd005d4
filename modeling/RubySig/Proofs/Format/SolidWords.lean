import RubySig.Proofs.Format.MethodNeat
import RubySig.Proofs.Format.Rows
import RubySig.Proofs.SourceTiled
import RubySig.Proofs.Tree.MemberLikeness

/-!
The words of what is read from a text: each shows on one line, if the string literals and the
annotations of the text do.
-/
namespace RubySig

/-- Whether a token is copied from the source where it is printed. -/
def Lexeme.isCopied : Lexeme → Bool
  | .string _ | .note _ => true
  | _ => false

namespace Format

open Lexer (isSpace)

variable {w : List Char}

theorem Solid.of_spaceless (hne : w ≠ []) (h : ∀ c ∈ w, isSpace c = false) : Solid w where
  oneLine hmem := by cases h _ hmem
  visible := by
    obtain ⟨c, cs, rfl⟩ := List.exists_cons_of_ne_nil hne
    exact ⟨c, List.mem_cons_self, not_isTrailing_of_not_isSpace (h c List.mem_cons_self)⟩

theorem Spelled.solidWord {l : Lexeme} (h : Spelled l w) (hw : '\n' ∉ w) : Solid w where
  oneLine := hw
  visible := by
    obtain ⟨c, cs, rfl, hc⟩ := h.head
    exact ⟨c, List.mem_cons_self, not_isTrailing_of_not_isSpace hc⟩

theorem Solid.enclosed {q r : Char} (hq : isSpace q = false) (hr : isSpace r = false)
    (h : '\n' ∉ w) :
    Solid (q :: w ++ [r]) where
  oneLine hmem := by
    rcases List.mem_append.mp hmem with hmem | hmem
    · rcases List.mem_cons.mp hmem with rfl | hmem
      · cases hq
      · exact h hmem
    · obtain rfl := List.mem_singleton.mp hmem
      cases hr
  visible := ⟨q, by simp, not_isTrailing_of_not_isSpace hq⟩

theorem IsName.solid (h : IsName w) : Solid w := by
  refine .of_spaceless ?_ fun c hc => not_isSpace_of_namePart (h.namePart c hc)
  obtain ⟨c, cs, rfl, -⟩ := h
  simp

theorem solid_mark (m : Mark) : Solid m.text.toList := by
  refine .of_spaceless ?_ ?_ <;> cases m <;> decide

theorem solid_keyword (k : Keyword) : Solid k.text.toList :=
  (isName_keyword k).1.solid

theorem not_isSpace_of_isDigit {c : Char} (h : c.isDigit = true) : isSpace c = false := by
  cases hc : isSpace c with
  | false => rfl
  | true =>
    simp only [isSpace, Bool.or_eq_true, beq_iff_eq] at hc
    rcases hc with ((((rfl | rfl) | rfl) | rfl) | rfl) | rfl <;> cases h

theorem integer_spaceless (n : Int) : ∀ c ∈ (toString n).toList, isSpace c = false := by
  rw [toString_digits]
  intro c hc
  rcases List.mem_append.mp hc with hc | hc
  · unfold signOf at hc
    split at hc
    · obtain rfl := List.mem_singleton.mp hc
      rfl
    · cases hc
  · exact not_isSpace_of_isDigit (toDigits_isDigit hc)

theorem solid_integer (n : Int) : Solid (toString n).toList := by
  refine .of_spaceless ?_ (integer_spaceless n)
  rw [toString_digits]
  simp [Nat.toDigits_ne_nil]

theorem oneLine_stringChar (c : Char) : '\n' ∉ Spell.stringChar c := by
  intro hmem
  by_cases hc : c = '\n'
  · subst hc
    simp [Spell.stringChar] at hmem
  · obtain ⟨h, -⟩ | ⟨d, h, -, -, -, hd⟩ | ⟨h, hlt⟩ := stringChar_cases c
    · rw [h, List.mem_singleton] at hmem
      exact hc hmem.symm
    · rw [h] at hmem
      obtain rfl : '\n' = d := by simpa using hmem
      exact hc hd.symm
    · obtain ⟨x, y, z, u, hdigits, hhex, -⟩ := upperHexDigits_control hlt
      rw [h, hdigits] at hmem
      have hdigit : '\n' ∈ [x, y, z, u] := by simpa using hmem
      cases (hhex _ hdigit).1

/-- A spelled string has no line end in it, whatever its value. -/
theorem oneLine_string (v : String) : '\n' ∉ (Spell.string v).toList := by
  rw [toList_string, List.cons_append, List.mem_cons, List.mem_append, List.mem_flatMap]
  rintro (hmem | ⟨c, -, hmem⟩ | hmem)
  · cases hmem
  · exact oneLine_stringChar c hmem
  · cases List.mem_singleton.mp hmem

theorem solid_symbol (s : String) : Solid (Spell.symbol s).toList := by
  refine (spelled_symbol s).solidWord ?_
  rw [toList_symbol, List.mem_cons]
  rintro (hmem | hmem)
  · cases hmem
  · split at hmem
    case isTrue h => cases not_isSpace_of_isPlainSymbol h _ hmem
    case isFalse => exact oneLine_string s hmem

theorem requote_subset (q : Char) (body : List Char) :
    ∀ c ∈ Spell.requote q body, c ∈ body ∨ c = '\\' := by
  induction body using Spell.requote.induct q with
  | case1 => simp [Spell.requote]
  | case2 d cs ih =>
    intro c hc
    rw [Spell.requote] at hc
    rcases List.mem_cons.mp hc with rfl | hc
    · exact .inr rfl
    rcases List.mem_cons.mp hc with rfl | hc
    · exact .inl (by simp)
    · exact (ih c hc).imp_left fun hmem => by simp [hmem]
  | case3 d cs hne hd ih =>
    intro c hc
    rw [Spell.requote, if_pos hd] at hc
    · rcases List.mem_cons.mp hc with rfl | hc
      · exact .inr rfl
      rcases List.mem_cons.mp hc with rfl | hc
      · exact .inl (by simp)
      · exact (ih c hc).imp_left fun hmem => by simp [hmem]
    · exact hne
  | case4 d cs hne hd ih =>
    intro c hc
    rw [Spell.requote, if_neg hd] at hc
    · rcases List.mem_cons.mp hc with rfl | hc
      · exact .inl (by simp)
      · exact (ih c hc).imp_left fun hmem => by simp [hmem]
    · exact hne

/-- A string literal is on one line where it is on one line in the source. -/
theorem solid_stringChars {c : Context} {span : Span} {v : String}
    (h : IsQuoted (span.slice c.source) v) (hflat : '\n' ∉ span.slice c.source) :
    Solid (stringChars c (some span) v) := by
  refine (spelled_stringChars fun s hs => ?_).solidWord ?_
  · obtain rfl := Option.some.inj hs
    exact h
  have hquote : Spell.preferredQuote (span.slice c.source) ≠ '\n' := by
    cases hsource : span.slice c.source with
    | nil => simp [Spell.preferredQuote]
    | cons q cs =>
      rw [hsource] at hflat
      rw [Spell.preferredQuote]
      split
      · rintro rfl
        exact hflat List.mem_cons_self
      · decide
  simp only [stringChars]
  intro hmem
  rcases List.mem_append.mp hmem with hmem | hmem
  · rcases List.mem_cons.mp hmem with hmem | hmem
    · exact hquote hmem.symm
    · rcases requote_subset _ _ _ hmem with hmem | hmem
      · exact hflat (List.mem_of_mem_drop (List.dropLast_subset _ hmem))
      · cases hmem
  · exact hquote (List.mem_singleton.mp hmem).symm

theorem strip_subset (cs : List Char) : ∀ c ∈ Text.strip cs, c ∈ cs := by
  intro c hc
  rw [Text.strip, List.mem_reverse] at hc
  have hreversed := (List.dropWhile_suffix _).subset hc
  exact (List.dropWhile_suffix _).subset (List.mem_reverse.mp hreversed)

/-- An annotation is on one line where it is on one line in the source. -/
theorem solid_noteChars {c : Context} {span : Span} {text : String}
    (h : (Lexeme.note text).Taken (span.slice c.source)) (hflat : '\n' ∉ span.slice c.source) :
    Solid (noteChars c ⟨text, some span⟩) := by
  obtain ⟨opening, closing, body, -, -, hslice, rfl⟩ := h
  rw [hslice] at hflat
  unfold noteChars
  dsimp only
  split
  · rw [hslice]
    exact ⟨hflat, '%', by simp, rfl⟩
  · refine Solid.enclosed rfl rfl ?_
    rw [String.toList_ofList, List.mem_cons, List.mem_cons]
    rintro (hmem | hmem | hmem)
    · cases hmem
    · cases hmem
    · exact hflat (by simp [strip_subset body _ hmem])

theorem operators_solid : ∀ cs ∈ MethodName.operators, cs ≠ [] ∧ ∀ c ∈ cs, isSpace c = false := by
  decide

theorem whole_spaceless {cs : List Char} (h : MethodName.isWhole cs = true) :
    cs ≠ [] ∧ ∀ c ∈ cs, isSpace c = false := by
  rcases isWhole_cases h with ho | ⟨base, ending, rfl, hb, he⟩
  · exact operators_solid cs ho
  · have hname := isName_of_isIdentifier hb
    refine ⟨?_, ?_⟩
    · obtain ⟨c, rest, rfl, -⟩ := hname
      simp
    · intro c hc
      rcases List.mem_append.mp hc with hc | hc
      · exact not_isSpace_of_namePart (hname.namePart c hc)
      · rcases ending_signs he c hc with rfl | rfl | rfl <;> rfl

/-- What holds of the characters of identifiers, of their ends and of operators holds of those of a
name that is read straight from the text. -/
theorem forall_mem_at {P : Char → Prop} (hpart : ∀ c, MethodName.isPart c = true → P c)
    (hend : ∀ c ∈ ['?', '!', '='], P c) (hoperator : ∀ o ∈ MethodName.operators, ∀ c ∈ o, P c)
    {cs name : List Char} (h : MethodName.at? cs = some name) : ∀ c ∈ name, P c := by
  cases cs with
  | nil => cases h
  | cons c cs =>
    rw [MethodName.at?] at h
    split at h
    case isTrue hc =>
      cases h
      have hending : ∀ d ∈ MethodName.ending (cs.dropWhile MethodName.isPart), P d := by
        unfold MethodName.ending
        split <;> simp [hend]
      have hstart : MethodName.isPart c = true := by
        simp only [MethodName.isStart, MethodName.isPart, Char.isAlphanum, Bool.or_eq_true] at hc ⊢
        exact hc.imp_left .inl
      intro d hd
      rcases List.mem_append.mp hd with hd | hd
      · rcases List.mem_cons.mp hd with rfl | hd
        · exact hpart d hstart
        · exact hpart d (List.mem_takeWhile_imp hd)
      · exact hending d hd
    case isFalse => exact hoperator name (List.mem_of_find?_eq_some h)

/-- A method name that is read straight from the text ends on its line. -/
theorem oneLine_at {cs name : List Char} (h : MethodName.at? cs = some name) : '\n' ∉ name := by
  have hne : ∀ c ∈ name, c ≠ '\n' := by
    refine forall_mem_at ?_ (by decide) (by decide) h
    rintro c hc rfl
    cases hc
  exact fun hmem => hne '\n' hmem rfl

theorem signPieces_solid {cs : List Char} (h : ∀ c ∈ cs, isSpace c = false) :
    ∀ p ∈ signPieces cs, ∃ l w, p = .word l w ∧ Solid w := by
  induction cs using signPieces.induct with
  | case1 => simp [signPieces]
  | case2 cs ih | case3 cs ih =>
    rw [signPieces]
    intro p hp
    rcases List.mem_cons.mp hp with rfl | hp
    · exact ⟨_, _, rfl, solid_mark _⟩
    · exact ih (fun c hc => h c (by simp [hc])) p hp
  | case4 c cs h₁ h₂ ih =>
    rw [signPieces]
    · intro p hp
      rcases List.mem_cons.mp hp with rfl | hp
      · unfold signPiece
        split
        · exact ⟨_, _, rfl, solid_mark _⟩
        · refine ⟨_, _, rfl, .of_spaceless (by simp) ?_⟩
          simpa using h c List.mem_cons_self
      · exact ih (fun c hc => h c (List.mem_cons_of_mem _ hc)) p hp
    · exact h₁
    · exact h₂

end Format

theorem IsVariable.spaceless {sigils : List Char} {s : String} (h : IsVariable sigils s)
    (hs : ∀ c ∈ sigils, Lexer.isSpace c = false) :
    s.toList ≠ [] ∧ ∀ c ∈ s.toList, Lexer.isSpace c = false := by
  obtain ⟨d, rest, hsplit, hd, hrest⟩ := h
  rw [hsplit]
  refine ⟨by simp, fun c hc => ?_⟩
  rcases List.mem_append.mp hc with hc | hc
  · exact hs c hc
  rcases List.mem_cons.mp hc with rfl | hc
  · exact Format.not_isSpace_of_namePart (Format.namePart_of_nameStart hd)
  · exact Format.not_isSpace_of_namePart (hrest c hc)

namespace Grammar.Likeness

open Format (IsName Solid)

variable {c c' : Context} {s : String}

structure Stands (L : Likeness c c') : Prop where
  taken : ∀ {t t'}, L.token t t' → t.lexeme.Taken (t.span.slice c.text)

namespace Stands

variable {L : Likeness c c'} (hL : L.Stands)
include hL

theorem spelt {l : Lexeme} (h : L.Spelt l) : ∃ w, l.Taken w := by
  obtain ⟨t, t', ht, rfl⟩ := h
  exact ⟨_, hL.taken ht⟩

theorem constant (h : L.Spelt (.constant s)) : IsName s.toList := by
  obtain ⟨w, hw⟩ := hL.spelt h
  exact (Lexer.taken_name hw (.inl rfl)).1

theorem plain (h : L.Plain s) : IsName s.toList := by
  obtain ⟨segment, l, hl, hs⟩ := h
  obtain ⟨w, hw⟩ := hL.spelt hl
  refine (Lexer.taken_name (l := l) hw ?_).1
  cases segment <;> cases l <;> cases hs <;> simp

theorem variable_spaceless (h : L.VariableNamed s) :
    s.toList ≠ [] ∧ ∀ c ∈ s.toList, Lexer.isSpace c = false := by
  rcases h with h | h
  · obtain ⟨w, hw⟩ := hL.spelt h
    exact hw.2.spaceless (by decide)
  · obtain ⟨w, hw⟩ := hL.spelt h
    exact hw.2.spaceless (by decide)

theorem global_spaceless (h : L.Spelt (.globalVariable s)) :
    s.toList ≠ [] ∧ ∀ c ∈ s.toList, Lexer.isSpace c = false := by
  obtain ⟨w, hw⟩ := hL.spelt h
  exact hw.2.spaceless (by decide)

end Stands

/-- Tokens stand in the text as they say, and what is copied from it is on one line. -/
structure Flat (L : Likeness c c') : Prop extends L.Stands where
  copied : ∀ {t t'}, L.token t t' → t.lexeme.isCopied = true → '\n' ∉ t.span.slice c.text

namespace Flat

variable {L : Likeness c c'} (hL : L.Flat)
include hL

theorem named (h : L.Named s) : '\n' ∉ s.toList := by
  obtain ⟨l, hl, hs⟩ := h
  obtain ⟨w, hw⟩ := hL.spelt hl
  cases l with
  | identifier | constant | interfaceName =>
    cases hs
    exact (Lexer.taken_name hw (by simp)).1.solid.oneLine
  | quotedIdentifier =>
    cases hs
    exact hw.2.oneLine
  | keyword k =>
    cases hs
    exact (Format.solid_keyword k).oneLine
  | _ => cases hs

theorem methodNamed (h : L.MethodNamed s) : '\n' ∉ s.toList := by
  rcases h with h | ⟨t, t', -, h⟩
  · obtain ⟨w, hw⟩ := hL.spelt h
    exact hw.2.oneLine
  · exact Format.oneLine_at h

theorem variableNamed (h : L.VariableNamed s) : Solid s.toList :=
  .of_spaceless (hL.variable_spaceless h).1 (hL.variable_spaceless h).2

theorem instanceVariable (h : L.Spelt (.instanceVariable s)) : Solid s.toList :=
  hL.variableNamed (.inl h)

theorem globalVariable (h : L.Spelt (.globalVariable s)) : Solid s.toList :=
  .of_spaceless (hL.global_spaceless h).1 (hL.global_spaceless h).2

/-- A literal that is read shows on one line where it is printed. -/
theorem literal {d : Format.Context} (hd : d.source = c.text) {l l' : Option Span} {value : Literal}
    (h : L.SameLiteral l l' value) : (Format.literalPiece d l value).Fair := by
  cases value with
  | integer n => exact Format.solid_integer n
  | string v =>
    obtain ⟨t, t', ht, hl, rfl, rfl⟩ := h
    have htaken := hL.taken ht
    have hflat := hL.copied ht (by rw [hl]; rfl)
    rw [hl, ← hd] at htaken
    rw [← hd] at hflat
    exact Format.solid_stringChars htaken hflat
  | symbol s => exact Format.solid_symbol s
  | truth b => exact Format.solid_keyword _

theorem note {d : Format.Context} (hd : d.source = c.text) {n n' : Note} (h : L.SameNote n n') :
    (Format.notePiece d n).Fair := by
  obtain ⟨⟨l, p, q⟩, t', ht, hn, -⟩ := h
  cases l with
  | note text =>
    cases hn
    have htaken := hL.taken ht
    have hflat := hL.copied ht rfl
    rw [← hd] at htaken hflat
    exact Format.solid_noteChars htaken hflat
  | _ => cases hn

end Flat
end Grammar.Likeness

/-- The tokens of a text stand in it as they say. -/
theorem Lexer.scan_stands {text : List Char} {scan : Scan} (h : Lexer.scan text = .ok scan) :
    (Grammar.Likeness.ofTokens ⟨text, scan.finish⟩ scan.tokens).Stands where
  taken := by
    rintro t t' ⟨-, ht⟩
    exact (scan_sound h t ht).taken

end RubySig
