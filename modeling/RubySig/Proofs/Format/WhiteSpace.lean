import RubySig.Proofs.CommentsKept
import RubySig.Proofs.Format.ItemFull
import RubySig.Proofs.Tree.MethodNameExtent

/-!
White space in what is printed. Apart from blanks and line ends, which the layout puts in, it comes
from the source: spellings write it as escape sequences.
-/
namespace RubySig

namespace Format

open List (Forall₂)
open Grammar (Likeness)
open Lexer (isSpace)
open Piece (mark keyword named)

/-- The characters that may stand in a text printed from a source: those that can be seen, blanks,
line ends, and those of the source. -/
def Native (source : List Char) (c : Char) : Prop :=
  isSpace c = false ∨ c = ' ' ∨ c = '\n' ∨ c ∈ source

/-- Pieces whose words may be printed from a source. -/
def Clean (source : List Char) (ps : List Piece) : Prop := ∀ p ∈ ps, ∀ c ∈ p.ink, Native source c

variable {source w : List Char} {ps qs : List Piece} {pss : List (List Piece)}

theorem native_of_spaceless (h : ∀ c ∈ w, isSpace c = false) : ∀ c ∈ w, Native source c :=
  fun c hc => .inl (h c hc)

theorem native_of_subset (h : ∀ c ∈ w, c ∈ source) : ∀ c ∈ w, Native source c :=
  fun c hc => .inr (.inr (.inr (h c hc)))

theorem native_name (h : IsName w) : ∀ c ∈ w, Native source c :=
  native_of_spaceless fun c hc => not_isSpace_of_namePart (h.namePart c hc)

@[simp] theorem clean_nil : Clean source [] := by simp [Clean]

@[simp] theorem clean_append : Clean source (ps ++ qs) ↔ Clean source ps ∧ Clean source qs :=
  List.forall_mem_append

@[simp] theorem clean_word {l : Lexeme} :
    Clean source (.word l w :: ps) ↔ (∀ c ∈ w, Native source c) ∧ Clean source ps :=
  List.forall_mem_cons

@[simp] theorem clean_gap {g : Gap} : Clean source (.gap g :: ps) ↔ Clean source ps := by
  have h : ∀ c ∈ (Piece.gap g).ink, Native source c := by
    cases g <;> simp [Piece.ink, Native]
  exact List.forall_mem_cons.trans (and_iff_right h)

@[simp] theorem clean_remark {line : List Char} :
    Clean source (.remark line :: ps) ↔ Clean source ps := by
  simp [Clean, Piece.ink]

@[simp] theorem clean_mark {m : Mark} : Clean source (mark m :: ps) ↔ Clean source ps := by
  have h : ∀ c ∈ m.text.toList, Native source c := native_of_spaceless (by cases m <;> decide)
  exact clean_word.trans (and_iff_right h)

@[simp] theorem clean_keyword {k : Keyword} : Clean source (keyword k :: ps) ↔ Clean source ps :=
  clean_word.trans (and_iff_right (native_name (isName_keyword k).1))

theorem clean_named {s : String} (h : IsName s.toList) :
    Clean source (named s :: ps) ↔ Clean source ps :=
  clean_word.trans (and_iff_right (native_name h))

/-- Pieces of the items of a list are clean where those of each are. -/
theorem Clean.flatMap {α : Type} {f : α → List Piece} {xs : List α}
    (h : ∀ x ∈ xs, Clean source (f x)) :
    Clean source (xs.flatMap f) := by
  intro p hp
  obtain ⟨x, hx, hp⟩ := List.mem_flatMap.mp hp
  exact h x hx p hp

namespace Clean

theorem intercalate {sep : List Piece} (hsep : Clean source sep) (h : ∀ ps ∈ pss, Clean source ps) :
    Clean source (sep.intercalate pss) := by
  induction pss with
  | nil => simp
  | cons ps pss ih =>
    obtain ⟨hps, hpss⟩ := List.forall_mem_cons.mp h
    cases pss with
    | nil => simpa using hps
    | cons qs pss =>
      rw [List.intercalate_cons_cons, clean_append, clean_append]
      exact ⟨⟨hps, hsep⟩, ih hpss⟩

theorem inline (h : ∀ ps ∈ pss, Clean source ps) : Clean source (inlinePieces pss) :=
  .intercalate (by simp) h

theorem bracketed (h : ∀ ps ∈ pss, Clean source ps) : Clean source (bracketedPieces pss) := by
  unfold bracketedPieces
  split <;> simp [inline h]

theorem commas (h : ∀ ps ∈ pss, Clean source ps) : Clean source (commaPieces pss) :=
  .intercalate (by simp) h

theorem parenthesized (wrap : Bool) (h : Clean source ps) :
    Clean source (parenthesizedPieces wrap ps) := by
  cases wrap <;> simp [parenthesizedPieces, h]

theorem alternatives (m : Mark) (h : ∀ ps ∈ pss, Clean source ps) :
    Clean source (alternativesPieces m pss) :=
  .intercalate (by simp) h

theorem tuple (h : ∀ ps ∈ pss, Clean source ps) : Clean source (tuplePieces pss) := by
  unfold tuplePieces
  split <;> simp [bracketed h]

theorem record (h : ∀ ps ∈ pss, Clean source ps) : Clean source (recordPieces pss) := by
  unfold recordPieces
  split <;> simp [commas h]

theorem clause (required : Bool) (h : Clean source ps) :
    Clean source (clausePieces required ps) := by
  cases required <;> simp [clausePieces, h]

theorem signature (hps : Clean source ps) (h : ∀ ps ∈ pss, Clean source ps) (hqs : Clean source qs)
    {result : List Piece} (hresult : Clean source result) :
    Clean source (signaturePieces ps pss qs result) := by
  have hlist : Clean source (listPieces pss) := by
    unfold listPieces
    split <;> simp [commas h]
  simp [signaturePieces, hps, hlist, hqs, hresult]

theorem bodied {heading body : List Piece} (hheading : Clean source heading)
    (hbody : Clean source body) : Clean source (bodiedPieces heading body) := by
  simp [bodiedPieces, hheading, hbody]

end Clean

theorem native_enclosed {q r : Char} (hq : isSpace q = false) (hr : isSpace r = false)
    (h : ∀ c ∈ w, Native source c) : ∀ c ∈ q :: w ++ [r], Native source c := by
  intro c hc
  rcases List.mem_append.mp hc with hc | hc
  · rcases List.mem_cons.mp hc with rfl | hc
    · exact .inl hq
    · exact h c hc
  · obtain rfl := List.mem_singleton.mp hc
    exact .inl hr

theorem native_backquoted {name : String} (h : ∀ c ∈ name.toList, Native source c) :
    ∀ c ∈ (Spell.backquoted name).toList, Native source c := by
  have hquoted : (Spell.backquoted name).toList = '`' :: name.toList ++ ['`'] := by
    simp [Spell.backquoted]
  rw [hquoted]
  exact native_enclosed rfl rfl h

theorem not_isSpace_of_isHexDigit {c : Char} (h : Text.isHexDigit c = true) :
    isSpace c = false := by
  cases hc : isSpace c with
  | false => rfl
  | true =>
    simp only [isSpace, Bool.or_eq_true, beq_iff_eq] at hc
    rcases hc with ((((rfl | rfl) | rfl) | rfl) | rfl) | rfl <;> cases h

/-- White space but for a blank is spelled as an escape sequence. -/
theorem native_stringChar (c : Char) : ∀ d ∈ Spell.stringChar c, Native source d := by
  unfold Spell.stringChar
  split
  case h_11 hn ht hr _ _ _ hf hv =>
    split
    case isTrue h =>
      have hlt : c.toNat < 0x80 := by
        simp only [Bool.or_eq_true, decide_eq_true_eq, beq_iff_eq] at h
        omega
      obtain ⟨x, y, z, u, hdigits, hhex, -⟩ := upperHexDigits_control hlt
      rw [hdigits]
      refine native_of_spaceless
        (List.forall_mem_cons.mpr ⟨rfl, List.forall_mem_cons.mpr ⟨rfl, ?_⟩⟩)
      exact fun d hd => not_isSpace_of_isHexDigit (hhex d hd).1
    case isFalse =>
      intro d hd
      obtain rfl := List.mem_singleton.mp hd
      cases hspace : isSpace d with
      | false => exact .inl hspace
      | true =>
        simp only [isSpace, Bool.or_eq_true, beq_iff_eq] at hspace
        obtain ((((rfl | rfl) | rfl) | rfl) | rfl) | rfl := hspace
        · exact .inr (.inl rfl)
        all_goals contradiction
  all_goals exact native_of_spaceless (by decide)

theorem native_string (v : String) : ∀ c ∈ (Spell.string v).toList, Native source c := by
  rw [toList_string]
  refine native_enclosed rfl rfl fun c hc => ?_
  obtain ⟨d, -, hc⟩ := List.mem_flatMap.mp hc
  exact native_stringChar d c hc

theorem native_symbol (s : String) : ∀ c ∈ (Spell.symbol s).toList, Native source c := by
  rw [toList_symbol]
  refine List.forall_mem_cons.mpr ⟨.inl rfl, ?_⟩
  split
  case isTrue h => exact native_of_spaceless (not_isSpace_of_isPlainSymbol h)
  case isFalse => exact native_string s

theorem clean_spelledName {name : String} (h : ∀ c ∈ name.toList, Native source c)
    (allowReserved : Bool) :
    Clean source (namePiece name allowReserved :: ps) ↔ Clean source ps := by
  have hspelled : ∀ c ∈ (Spell.name name allowReserved).toList, Native source c := by
    rw [spell_name]
    split
    · exact native_backquoted h
    · exact h
  exact clean_word.trans (and_iff_right hspelled)

/-- The pieces of a method name have its characters, and perhaps backquotes around them. -/
theorem clean_methodName {name : String} (h : ∀ c ∈ name.toList, Native source c)
    (quoteReserved : Bool) :
    Clean source (methodNamePieces name quoteReserved) := by
  unfold methodNamePieces
  split
  case isTrue => simpa using native_backquoted h
  case isFalse =>
    intro p hp c hc
    have hink := (inked_wholeName name.toList).2
    exact h c (hink ▸ List.mem_flatMap.mpr ⟨p, hp, hc⟩)

theorem slice_subset (span : Span) (text : List Char) : ∀ x ∈ span.slice text, x ∈ text :=
  fun _ hx => List.mem_of_mem_take (List.mem_of_mem_drop hx)

section Tree

variable {c c' : Grammar.Context} {L : Likeness c c'} {d : Context}

section Words

variable (hL : L.Stands)
include hL

/-- The text between backquotes is text of the source. -/
theorem native_quoted {s : String} (h : L.Spelt (.quotedIdentifier s)) :
    ∀ x ∈ s.toList, Native c.text x := by
  obtain ⟨t, t', ht, hl⟩ := h
  have htaken := hL.taken ht
  rw [hl] at htaken
  have hslice : t.span.slice c.text = '`' :: s.toList ++ ['`'] := htaken.1
  refine native_of_subset fun x hx => slice_subset t.span _ x ?_
  rw [hslice]
  simp [hx]

theorem native_named {s : String} (h : L.Named s) : ∀ x ∈ s.toList, Native c.text x := by
  obtain ⟨l, hl, hs⟩ := h
  cases l with
  | identifier | constant | interfaceName =>
    cases hs
    obtain ⟨w, hw⟩ := hL.spelt hl
    exact native_name (Lexer.taken_name hw (by simp)).1
  | quotedIdentifier =>
    cases hs
    exact native_quoted hL hl
  | keyword k =>
    cases hs
    exact native_name (isName_keyword k).1
  | _ => cases hs

theorem native_methodNamed {s : String} (h : L.MethodNamed s) :
    ∀ x ∈ s.toList, Native c.text x := by
  rcases h with h | ⟨t, t', -, h⟩
  · exact native_quoted hL h
  · exact native_of_spaceless fun x hx => (MethodName.at_visible h x hx).1

theorem clean_namePieces {n n' : TypeName} (h : L.SameName n n') : Clean c.text (namePieces n) := by
  have hpath : Clean c.text (n.path.flatMap fun s => [named s, mark .doubleColon]) :=
    .flatMap fun s hs => by simp [clean_named (hL.constant (h.segments s hs))]
  unfold namePieces
  split <;> simp [hpath, clean_named (hL.plain h.last)]

theorem clean_namedPieces {name : Option String} (hname : ∀ s ∈ name, L.Named s)
    (h : Clean c.text ps) : Clean c.text (namedPieces ps name) := by
  cases name with
  | none => exact h
  | some s =>
    simp [namedPieces, h, clean_spelledName (native_named hL (hname s rfl))]

variable (hd : d.source = c.text)
include hd

/-- A literal is printed as it is spelled, and a string with the characters that it has in the
source. -/
theorem clean_literal {l l' : Option Span} {value : Literal} (h : L.SameLiteral l l' value) :
    Clean c.text [literalPiece d l value] := by
  cases value with
  | integer n => simpa [literalPiece] using native_of_spaceless (integer_spaceless n)
  | symbol s => simpa [literalPiece] using native_symbol s
  | truth b => simp [literalPiece]
  | string v =>
    obtain ⟨t, t', ht, hl, rfl, rfl⟩ := h
    have htaken := hL.taken ht
    rw [hl] at htaken
    obtain ⟨q, body, hslice, -⟩ := htaken
    have hsource : ∀ x ∈ q :: body ++ [q], Native c.text x :=
      native_of_subset fun x hx => slice_subset t.span _ x (hslice ▸ hx)
    have hquote : Native c.text (Spell.preferredQuote (q :: body ++ [q])) := by
      rw [List.cons_append, Spell.preferredQuote]
      split
      · exact hsource q (by simp)
      · exact .inl rfl
    rw [literalPiece, stringChars_of_slice (by rw [hd, hslice]), clean_word]
    refine ⟨fun x hx => ?_, clean_nil⟩
    rcases List.mem_append.mp hx with hx | hx
    · rcases List.mem_cons.mp hx with rfl | hx
      · exact hquote
      · rcases requote_subset _ _ x hx with hx | rfl
        · exact hsource x (by simp [hx])
        · exact .inl rfl
    · exact List.mem_singleton.mp hx ▸ hquote

theorem clean_key {l l' : Option Span} {key : Literal} (h : L.SameLiteral l l' key) :
    Clean c.text (keyPieces d l key) := by
  have hliteral := clean_literal hL hd h
  have harrow : Clean c.text [literalPiece d l key, .gap .blank, mark .fatArrow, .gap .blank] := by
    rw [← List.singleton_append, clean_append]
    simp [hliteral]
  cases key with
  | symbol s =>
    simp only [keyPieces]
    split
    case isTrue hs => simp [clean_named (isName_of_isIdentifier hs)]
    case isFalse => exact harrow
  | _ => exact harrow

theorem native_note {n n' : Note} (h : L.SameNote n n') : ∀ x ∈ noteChars d n, Native c.text x := by
  obtain ⟨⟨l, p, q⟩, t', ht, hn, -⟩ := h
  cases l with
  | note text =>
    cases hn
    obtain ⟨opening, closing, body, -, -, hslice, rfl⟩ := hL.taken ht
    change (Span.between p q).slice c.text = _ at hslice
    have hsource : ∀ x ∈ (Span.between p q).slice c.text, Native c.text x :=
      native_of_subset (slice_subset _ _)
    unfold noteChars
    dsimp only
    split
    · rw [hd]
      exact hsource
    · refine native_enclosed (w := 'a' :: '\x7b' :: _) rfl rfl ?_
      rw [String.toList_ofList]
      refine List.forall_mem_cons.mpr
        ⟨.inl rfl, List.forall_mem_cons.mpr ⟨.inl rfl, fun x hx => ?_⟩⟩
      refine hsource x ?_
      rw [hslice]
      simp [strip_subset body x hx]
  | _ => cases hn

end Words

mutual

/-- The white space of a printed type that is read from a text is that of the text, and blanks. -/
theorem clean_ty (hL : L.Stands) (hd : d.source = c.text) (wrap : Bool) : (t : Ty) →
    ∀ t' : Ty, L.SameTy t t' → Clean c.text (tyPieces d wrap t)
  | .base _ kind, _, _ => by
    have hkind : ∀ x ∈ kind.text.toList, Native c.text x :=
      native_of_spaceless (by cases kind <;> decide)
    exact clean_word.mpr ⟨hkind, clean_nil⟩
  | .variable _ name, _, h => by
    cases h with
    | «variable» hname => exact (clean_named (hL.plain hname)).mpr clean_nil
  | .classInstance _ name args, _, h => by
    have hitems := clean_tys hL hd false args
    cases h with
    | classInstance hn hargs =>
      exact clean_append.mpr ⟨clean_namePieces hL hn, .bracketed (hitems _ hargs)⟩
  | .interface _ name args, _, h => by
    have hitems := clean_tys hL hd false args
    cases h with
    | interface hn hargs =>
      exact clean_append.mpr ⟨clean_namePieces hL hn, .bracketed (hitems _ hargs)⟩
  | .alias _ name args, _, h => by
    have hitems := clean_tys hL hd false args
    cases h with
    | «alias» hn hargs =>
      exact clean_append.mpr ⟨clean_namePieces hL hn, .bracketed (hitems _ hargs)⟩
  | .classSingleton _ name, _, h => by
    cases h with
    | classSingleton hn => simp [tyPieces, clean_namePieces hL hn]
  | .optional _ t, _, h => by
    have htype := clean_ty hL hd true t
    cases h with
    | optional ht =>
      rw [tyPieces]
      split
      · exact clean_word.mpr ⟨native_symbol _, clean_nil⟩
      · exact clean_append.mpr ⟨.parenthesized _ (htype _ ht), by simp⟩
  | .union _ ts, _, h => by
    have hitems := clean_tys hL hd wrap ts
    cases h with
    | union hts => exact .parenthesized _ (.alternatives _ (hitems _ hts))
  | .intersection _ ts, _, h => by
    have hitems := clean_tys hL hd true ts
    cases h with
    | intersection hts => exact .parenthesized _ (.alternatives _ (hitems _ hts))
  | .tuple _ ts, _, h => by
    have hitems := clean_tys hL hd false ts
    cases h with
    | tuple hts => exact .tuple (hitems _ hts)
  | .record _ fields, _, h => by
    have hitems := clean_fields hL hd fields
    cases h with
    | record hfields => exact .record (hitems _ hfields)
  | .literal _ _, _, h => by
    cases h with
    | literal hvalue => exact clean_literal hL hd hvalue
  | .proc _ s b, _, h => by
    have hsignature := fun block (hblock : Clean c.text block) =>
      clean_signature hL hd clean_nil hblock s
    have hblock := clean_block hL hd b
    cases h with
    | proc hs hb => exact .parenthesized _ (clean_mark.mpr (hsignature _ (hblock _ hb) _ hs))
termination_by structural t => t

theorem clean_tys (hL : L.Stands) (hd : d.source = c.text) (wrap : Bool) : (ts : List Ty) →
    ∀ ts' : List Ty, Forall₂ L.SameTy ts ts' → ∀ ps ∈ tysPieces d wrap ts, Clean c.text ps
  | [], _, _ => by simp [tysPieces]
  | t :: ts, _, h => by
    have htype := clean_ty hL hd wrap t
    have hitems := clean_tys hL hd wrap ts
    cases h with
    | cons ht hts => exact List.forall_mem_cons.mpr ⟨htype _ ht, hitems _ hts⟩
termination_by structural ts => ts

theorem clean_fields (hL : L.Stands) (hd : d.source = c.text) : (fields : List Field) →
    ∀ fields' : List Field, Forall₂ L.SameField fields fields' →
      ∀ ps ∈ fieldsPieces d fields, Clean c.text ps
  | [], _, _ => by simp [fieldsPieces]
  | ⟨_, _, _, t⟩ :: fields, _, h => by
    have htype := clean_ty hL hd false t
    have hitems := clean_fields hL hd fields
    cases h with
    | cons hfield hfields =>
      cases hfield with
      | mk hkey ht =>
        refine List.forall_mem_cons.mpr ⟨?_, hitems _ hfields⟩
        exact clean_append.mpr ⟨clean_key hL hd hkey, htype _ ht⟩
termination_by structural fields => fields

theorem clean_param (hL : L.Stands) (hd : d.source = c.text) : (p : Param) →
    ∀ p' : Param, L.SameParam p p' → Clean c.text (paramPieces d p)
  | ⟨_, t, _⟩, _, h => by
    have htype := clean_ty hL hd false t
    cases h with
    | mk ht hname => exact clean_namedPieces hL hname (htype _ ht)
termination_by structural p => p

theorem clean_params (hL : L.Stands) (hd : d.source = c.text) {lead : List Piece}
    (hlead : Clean c.text lead) :
    (qs : List Param) → ∀ qs' : List Param, Forall₂ L.SameParam qs qs' →
      ∀ ps ∈ paramsPieces d lead qs, Clean c.text ps
  | [], _, _ => by simp [paramsPieces]
  | q :: qs, _, h => by
    have hparam := clean_param hL hd q
    have hitems := clean_params hL hd hlead qs
    cases h with
    | cons hq hqs =>
      exact List.forall_mem_cons.mpr ⟨clean_append.mpr ⟨hlead, hparam _ hq⟩, hitems _ hqs⟩
termination_by structural qs => qs

theorem clean_rest (hL : L.Stands) (hd : d.source = c.text) {lead : List Piece}
    (hlead : Clean c.text lead) : (q : Option Param) → ∀ q' : Option Param,
      Option.Rel L.SameParam q q' → ∀ ps ∈ restPieces d lead q, Clean c.text ps
  | none, _, _ => by simp [restPieces]
  | some q, _, h => by
    have hparam := clean_param hL hd q
    cases h with
    | some hq =>
      intro ps hps
      obtain rfl := List.mem_singleton.mp hps
      exact clean_append.mpr ⟨hlead, hparam _ hq⟩
termination_by structural q => q

theorem clean_keywords (hL : L.Stands) (hd : d.source = c.text) {lead : List Piece}
    (hlead : Clean c.text lead) : (qs : List (String × Param)) → ∀ qs' : List (String × Param),
      Forall₂ L.SameKeyword qs qs' → ∀ ps ∈ keywordsPieces d lead qs, Clean c.text ps
  | [], _, _ => by simp [keywordsPieces]
  | (_, q) :: qs, _, h => by
    have hparam := clean_param hL hd q
    have hitems := clean_keywords hL hd hlead qs
    cases h with
    | cons hkeyword hqs =>
      cases hkeyword with
      | mk hname hq =>
        refine List.forall_mem_cons.mpr ⟨clean_append.mpr ⟨hlead, ?_⟩, hitems _ hqs⟩
        simp [clean_spelledName (native_named hL hname), hparam _ hq]
termination_by structural qs => qs

theorem clean_signature (hL : L.Stands) (hd : d.source = c.text) {typeParams block : List Piece}
    (htypeParams : Clean c.text typeParams) (hblock : Clean c.text block) : (s : Signature) →
    ∀ s' : Signature, L.SameSignature s s' →
      Clean c.text (signaturePiecesOf d typeParams block s)
  | ⟨_, result, required, optional, rest, trailing, requiredKeywords, optionalKeywords,
      restKeywords⟩, _, h => by
    have hsign (m : Mark) : Clean c.text [mark m] := clean_mark.mpr clean_nil
    have hrequired := clean_params hL hd clean_nil required
    have hoptional := clean_params hL hd (hsign .question) optional
    have hrest := clean_rest hL hd (hsign .star) rest
    have htrailing := clean_params hL hd clean_nil trailing
    have hrequiredKeywords := clean_keywords hL hd clean_nil requiredKeywords
    have hoptionalKeywords := clean_keywords hL hd (hsign .question) optionalKeywords
    have hrestKeywords := clean_rest hL hd (hsign .doubleStar) restKeywords
    have hresult := clean_ty hL hd true result
    cases h with
    | mk ht h₁ h₂ h₃ h₄ h₅ h₆ h₇ =>
      refine .signature htypeParams ?_ hblock (hresult _ ht)
      simp only [List.mem_append]
      rintro ps ((((((hps | hps) | hps) | hps) | hps) | hps) | hps)
      · exact hrequired _ h₁ ps hps
      · exact hoptional _ h₂ ps hps
      · exact hrest _ h₃ ps hps
      · exact htrailing _ h₄ ps hps
      · exact hrequiredKeywords _ h₅ ps hps
      · exact hoptionalKeywords _ h₆ ps hps
      · exact hrestKeywords _ h₇ ps hps
termination_by structural s => s

theorem clean_block (hL : L.Stands) (hd : d.source = c.text) : (b : Option RubySig.Block) →
    ∀ b' : Option RubySig.Block, Option.Rel L.SameBlock b b' → Clean c.text (blockPieces d b)
  | none, _, _ => clean_nil
  | some ⟨_, s, required⟩, _, h => by
    have hsignature := clean_signature hL hd clean_nil clean_nil s
    cases h with
    | some hb =>
      cases hb with
      | mk hs => exact clean_append.mpr ⟨.clause _ (hsignature _ hs), by simp⟩
termination_by structural b => b

end

theorem clean_map {α : Type} {R : α → α → Prop} {f : α → List Piece} {xs xs' : List α}
    (h : Forall₂ R xs xs') (hf : ∀ x x', R x x' → Clean source (f x)) :
    ∀ ps ∈ xs.map f, Clean source ps := by
  induction h with
  | nil => simp
  | @cons x x' _ _ hx _ ih => exact List.forall_mem_cons.mpr ⟨hf x x' hx, ih⟩

theorem clean_visibility (v : Option Visibility) : Clean source (visibilityPieces v) := by
  cases v <;> simp [visibilityPieces]

theorem clean_receiver (level : MemberLevel) : Clean source (receiverPieces level) := by
  cases level <;> simp [receiverPieces]

theorem clean_methodReceiver (level : MethodLevel) : Clean source (methodReceiverPieces level) := by
  cases level <;> simp [methodReceiverPieces]

section Items

variable (hL : L.Stands)
include hL

theorem clean_backing {backing : Backing}
    (h : ∀ ivar, backing = .named ivar → L.Spelt (.instanceVariable ivar)) :
    Clean c.text (backingPieces backing) := by
  cases backing with
  | implied => exact clean_nil
  | absent => simp [backingPieces]
  | named name =>
    have hname := (hL.variable_spaceless (.inl (h name rfl))).2
    simpa [backingPieces] using native_of_spaceless hname

theorem clean_variable {name : String} (h : L.VariableNamed name) (kind : VariableKind) :
    Clean c.text (variablePieces kind name) := by
  have hname : ∀ x ∈ name.toList, Native c.text x := native_of_spaceless (hL.variable_spaceless h).2
  cases kind <;> simpa [variablePieces] using hname

variable (hd : d.source = c.text)
include hd

theorem clean_typeParam {p p' : TypeParam} (h : L.SameTypeParam p p') :
    Clean c.text (typeParamPieces d p) := by
  have hunchecked : Clean c.text
      (if p.unchecked then [keyword .unchecked, .gap .blank] else []) := by
    split <;> simp
  have hvariance : Clean c.text (varianceWords p.variance) := by
    cases p.variance <;> simp [varianceWords]
  have hbound : Clean c.text (boundPieces d p.bound) := by
    have hrel := h.bound
    generalize p.bound = bound at hrel
    generalize p'.bound = bound' at hrel
    cases hrel with
    | none => exact clean_nil
    | some ht => simpa [boundPieces] using clean_ty hL hd false _ _ ht
  simp [typeParamPieces, hunchecked, hvariance, hbound, clean_named (hL.constant h.spelt)]

theorem clean_typeParams {params params' : List TypeParam}
    (h : Forall₂ L.SameTypeParam params params') :
    Clean c.text (typeParamsPieces d params) :=
  .bracketed (clean_map h fun _ _ hp => clean_typeParam hL hd hp)

theorem clean_classRef {r r' : ClassRef} (h : L.SameClassRef r r') :
    Clean c.text (classRefPieces d r) :=
  clean_append.mpr ⟨clean_namePieces hL h.name, .bracketed (clean_tys hL hd false _ _ h.args)⟩

theorem clean_methodType {m m' : MethodType} (h : L.SameMethodType m m') :
    Clean c.text (methodTypePieces d m) := by
  have hparams : Clean c.text (spacedPieces (typeParamsPieces d m.params)) := by
    unfold spacedPieces
    split <;> simp [clean_typeParams hL hd h.params]
  exact clean_signature hL hd hparams (clean_block hL hd _ _ h.block) _ _ h.signature

theorem clean_notes {gap : Gap} {notes notes' : List Note} (h : Forall₂ L.SameNote notes notes') :
    Clean c.text (notes.flatMap fun n => [notePiece d n, .gap gap]) := by
  induction h with
  | nil => exact clean_nil
  | cons hn _ ih => simpa [notePiece] using ⟨native_note hL hd hn, ih⟩

theorem clean_overload {o o' : Overload} (h : L.SameOverload o o') :
    Clean c.text (overloadPieces d o) :=
  clean_append.mpr ⟨clean_notes hL hd h.notes, clean_methodType hL hd h.method⟩

theorem clean_member {m m' : Member} (h : L.SameMember m m') : Clean c.text (memberPieces d m) := by
  cases h with
  | @«alias» new old level hnew hold =>
    simp [memberPieces, clean_receiver, clean_methodName (native_methodNamed hL hnew),
      clean_methodName (native_methodNamed hL hold)]
  | @«attribute» access name t t' backing level visibility hname ht hbacking =>
    simp [memberPieces, clean_visibility, clean_receiver, clean_backing hL hbacking,
      clean_spelledName (native_named hL hname), clean_ty hL hd false _ _ ht]
  | @«variable» kind name t t' hname ht =>
    simp [memberPieces, clean_variable hL hname, clean_ty hL hd false _ _ ht]
  | @mixin kind n n' args args' hn hargs =>
    simp [memberPieces, clean_namePieces hL hn, Clean.bracketed (clean_tys hL hd false _ _ hargs)]
  | visibility => simp [memberPieces]
  | @method name os os' level overloading visibility hname hos =>
    have hentries : ∀ ps ∈ methodEntryPieces d os overloading, Clean c.text ps := by
      intro ps hps
      rcases List.mem_append.mp hps with hps | hps
      · exact clean_map hos (fun _ _ ho => clean_overload hL hd ho) ps hps
      · split at hps
        · obtain rfl := List.mem_singleton.mp hps
          simp
        · cases hps
    have hbars : Clean c.text (entriesPieces (methodEntryPieces d os overloading)) :=
      .intercalate (by simp) hentries
    simp [memberPieces, headingPieces, clean_visibility, clean_methodReceiver, hbars,
      clean_methodName (native_methodNamed hL hname)]

theorem clean_lead {lead lead' : Lead} (h : L.SameLead lead lead') :
    Clean c.text (leadPieces d lead) := by
  have hremarks : Clean c.text (remarkPieces lead.comment) := by
    cases lead.comment with
    | none => exact clean_nil
    | some comment => simp [remarkPieces, Clean, Piece.ink]
  exact clean_append.mpr ⟨hremarks, clean_notes hL hd h.notes⟩

theorem clean_superclass {r r' : Option ClassRef} (h : Option.Rel L.SameClassRef r r') :
    Clean c.text (superclassPieces d r) := by
  cases h with
  | none => exact clean_nil
  | some hr => simpa [superclassPieces] using clean_classRef hL hd hr

theorem clean_selfTypes {selves selves' : List ClassRef}
    (h : Forall₂ L.SameClassRef selves selves') :
    Clean c.text (selfTypesPieces d selves) := by
  have hselves : Clean c.text (inlinePieces (selves.map (classRefPieces d))) :=
    .inline (clean_map h fun _ _ hr => clean_classRef hL hd hr)
  unfold selfTypesPieces
  split <;> simp [hselves]

end Items

mutual

theorem clean_declaration (hL : L.Stands) (hd : d.source = c.text) : (a : Declaration) →
    ∀ a' : Declaration, L.SameDeclaration a a' → Clean c.text (declarationPieces d a)
  | .class_ n ps superclass items, _, h => by
    have hbody := clean_body hL hd none items
    cases h with
    | class_ hn hps hsuperclass hitems =>
      refine .bodied ?_ (hbody _ hitems)
      simp [clean_namePieces hL hn, clean_typeParams hL hd hps, clean_superclass hL hd hsuperclass]
  | .module_ n ps selves items, _, h => by
    have hbody := clean_body hL hd none items
    cases h with
    | module_ hn hps hselves hitems =>
      refine .bodied ?_ (hbody _ hitems)
      simp [clean_namePieces hL hn, clean_typeParams hL hd hps, clean_selfTypes hL hd hselves]
  | .interface n ps items, _, h => by
    have hbody := clean_body hL hd none items
    cases h with
    | interface hn hps hitems =>
      refine .bodied ?_ (hbody _ hitems)
      simp [clean_namePieces hL hn, clean_typeParams hL hd hps]
  | .constant n t, _, h => by
    cases h with
    | constant hn ht =>
      simp [declarationPieces, clean_namePieces hL hn, clean_ty hL hd false _ _ ht]
  | .global name t, _, h => by
    cases h with
    | global hname ht =>
      have hvariable : ∀ x ∈ name.toList, Native c.text x :=
        native_of_spaceless (hL.global_spaceless hname).2
      simpa [declarationPieces, clean_ty hL hd false _ _ ht] using hvariable
  | .typeAlias n t ps, _, h => by
    cases h with
    | typeAlias hn ht hps =>
      simp [declarationPieces, clean_namePieces hL hn, clean_typeParams hL hd hps,
        clean_ty hL hd false _ _ ht]
termination_by structural a => a

theorem clean_item (hL : L.Stands) (hd : d.source = c.text) : (item : Item) →
    ∀ item' : Item, L.SameItem item item' → Clean c.text (itemPieces d item)
  | .member _ lead m, _, h => by
    cases h with
    | member _ hlead hm => exact clean_append.mpr ⟨clean_lead hL hd hlead, clean_member hL hd hm⟩
  | .declaration _ lead a, _, h => by
    have hdeclaration := clean_declaration hL hd a
    cases h with
    | declaration _ hlead ha => exact clean_append.mpr ⟨clean_lead hL hd hlead, hdeclaration _ ha⟩
termination_by structural item => item

theorem clean_body (hL : L.Stands) (hd : d.source = c.text) (last : Option Int) :
    (items : List Item) →
    ∀ items' : List Item, Forall₂ L.SameItem items items' → Clean c.text (bodyPieces d last items)
  | [], _, _ => clean_nil
  | item :: items, _, h => by
    have hitem := clean_item hL hd item
    have hbody := fun last => clean_body hL hd last items
    cases h with
    | cons hi his =>
      have hbreak (blank : Bool) : Clean c.text (itemBreak blank) := by
        cases blank <;> simp [itemBreak]
      exact clean_append.mpr ⟨clean_append.mpr ⟨hbreak _, hitem _ hi⟩, hbody _ _ his⟩
termination_by structural items => items

end

theorem clean_root (hL : L.Stands) (hd : d.source = c.text) {root : Root} {items : List Item}
    (h : Forall₂ L.SameItem root.declarations items) : Clean c.text (rootPieces d root) := by
  have hitems : Clean c.text
      ([.gap .line, .gap .line].intercalate (root.declarations.map (itemPieces d))) :=
    .intercalate (by simp) (clean_map h (clean_item hL hd))
  simp [rootPieces, hitems]

end Tree

theorem Gap.Admits.native {g : Gap} {s rest : List Char} (h : g.Admits s rest) :
    ∀ c ∈ s, Native source c := by
  have hblank : ∀ c ∈ [' '], Native source c := by simp [Native]
  have hnewline (n : Nat) : ∀ c ∈ '\n' :: List.replicate n ' ', Native source c := by
    intro c hc
    rcases List.mem_cons.mp hc with rfl | hc
    · exact .inr (.inr (.inl rfl))
    · exact .inr (.inl (List.eq_of_mem_replicate hc))
  cases g with
  | blank =>
    rcases h with rfl | ⟨rfl, -⟩
    · exact hblank
    · simp
  | space =>
    rcases h with rfl | ⟨rfl, -⟩ | ⟨n, rfl⟩
    · exact hblank
    · simp
    · exact hnewline n
  | soft =>
    rcases h with rfl | ⟨n, rfl⟩
    · simp
    · exact hnewline n
  | line =>
    obtain ⟨n, rfl⟩ := h
    exact hnewline n

theorem Written.native {cs : List Char} (h : Written ps cs) (hclean : Clean source ps)
    (hremarks : ∀ line ∈ remarks ps, ∀ c ∈ line, Native source c) : ∀ c ∈ cs, Native source c := by
  induction h with
  | nil => simp
  | @word l w v ps cs hv _ ih =>
    rw [clean_word] at hclean
    have hword : ∀ c ∈ v, Native source c := by
      rcases hv with rfl | rfl
      · exact hclean.1
      · exact fun c hc => hclean.1 c (trimEnd_subset _ c hc)
    exact List.forall_mem_append.mpr ⟨hword, ih hclean.2 hremarks⟩
  | gap hg _ ih => exact List.forall_mem_append.mpr ⟨hg.native, ih (clean_gap.mp hclean) hremarks⟩
  | @remark line n ps cs _ ih =>
    obtain ⟨hline, hrest⟩ := List.forall_mem_cons.mp (hremarks : ∀ l ∈ line :: remarks ps, _)
    have hmarked : ∀ c ∈ '#' :: ' ' :: line, Native source c :=
      List.forall_mem_cons.mpr ⟨.inl rfl, List.forall_mem_cons.mpr ⟨.inr (.inl rfl), hline⟩⟩
    have hbreak : Gap.line.Admits ('\n' :: List.replicate n ' ') cs := ⟨n, rfl⟩
    refine List.forall_mem_append.mpr ⟨List.forall_mem_append.mpr ⟨?_, hbreak.native⟩,
      ih (clean_remark.mp hclean) hrest⟩
    exact fun c hc => hmarked c (trimEnd_subset _ c hc)

end Format

namespace Lexer

theorem commentText_subset (line : List Char) : ∀ c ∈ (commentText line).toList, c ∈ line := by
  have hsub : ∀ c ∈ (line.reverse.dropWhile (· == '\r')).reverse, c ∈ line := fun c hc =>
    List.mem_reverse.mp ((List.dropWhile_sublist _).subset (List.mem_reverse.mp hc))
  unfold commentText
  rw [String.toList_ofList]
  split
  case _ cs heq => exact fun c hc => hsub c (heq ▸ List.mem_cons_of_mem _ hc)
  case _ => exact hsub

/-- The texts of comments are text of the source. -/
theorem scanFrom_comments_subset (fuel : Nat) (r : Reader) {scan : Scan}
    (h : scanFrom fuel r = .ok scan) :
    ∀ comment ∈ scan.comments, ∀ c ∈ comment.text.toList, c ∈ r.rest := by
  induction fuel generalizing r scan with
  | zero =>
    cases h
    simp
  | succ fuel ih =>
    obtain ⟨-, rfl⟩ | ⟨c, cs, hr, -, hm⟩ | ⟨cs, more, hr, hm, rfl⟩ |
      ⟨c, cs, piece, more, hr, -, -, hn, hm, rfl⟩ := scanFrom_cases h
    · simp
    · intro comment hcomment x hx
      rw [hr]
      exact List.mem_cons_of_mem _ (ih _ hm comment hcomment x hx)
    · rw [hr]
      refine List.forall_mem_cons.mpr ⟨fun x hx => ?_, fun comment hcomment x hx => ?_⟩
      · exact List.mem_cons_of_mem _ ((List.takeWhile_prefix _).subset (commentText_subset _ x hx))
      · have hmem := (List.dropWhile_suffix _).subset (ih _ hm comment hcomment x hx)
        exact List.mem_cons_of_mem _ hmem
    · intro comment hcomment x hx
      rw [hr, (next_genuine hn).split]
      exact List.mem_append_right _ (ih (r.pass piece.taken piece.rest) hm comment hcomment x hx)

end Lexer

/-- The comments of a tree have their characters from the text that it was read from. -/
theorem Reading.Accounts.subset {reading : Reading} {source : List Char} {scan : Lexer.Scan}
    {root : Root} {attached dropped : List CommentRun} (hscan : Lexer.scan source = .ok scan)
    (h : reading.Accounts scan.comments root attached dropped) :
    ∀ line ∈ root.comments.flatMap Comment.lines, ∀ c ∈ line, c ∈ source := by
  intro line hline c hc
  obtain ⟨comment, hcomment, hline⟩ := List.mem_flatMap.mp hline
  obtain ⟨run, hrun, rfl⟩ := List.mem_map.mp (h.placed.symm.subset hcomment)
  rw [h.lines run hrun] at hline
  obtain ⟨k, hk, rfl⟩ := List.mem_map.mp hline
  have hmem : k ∈ (attached ++ dropped).flatMap CommentRun.lines :=
    List.mem_flatMap.mpr ⟨run, List.mem_append_left _ hrun, hk⟩
  have hcomments := h.once.subset (List.mem_append_right _ hmem)
  exact Lexer.scanFrom_comments_subset _ (.start source) hscan k hcomments c hc

/-- The formatted text has no white space but blanks, line ends and what the source has. -/
theorem Root.formatted_native {source : String} {root : Root}
    (h : (Root.read source).result = .ok root) (settings : Settings) :
    ∀ c ∈ (root.formatted settings source).toList, Format.Native source.toList c := by
  obtain ⟨scan, attached, dropped, hscan, haccounts⟩ := Root.read_accounts h
  obtain ⟨items, hitems⟩ := Root.read_same hscan h
  have hkeeps := root.formatted_keeps settings source
  refine hkeeps.written.native (Format.clean_root (Lexer.scan_stands hscan) rfl hitems) ?_
  rw [hkeeps.lines]
  exact fun line hline => Format.native_of_subset (haccounts.subset hscan line hline)

end RubySig
