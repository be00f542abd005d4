import RubySig.Proofs.Format.SolidWords
import RubySig.Proofs.Tree.WellFormed

/-! The pieces of a type that is read leave no line empty, and so it is with the parts of the
type. -/
namespace RubySig.Format

open List (Forall₂)
open Grammar (Likeness)
open Piece (mark keyword named fill)

variable {ps qs rs : List Piece} {pss : List (List Piece)}

namespace Full

theorem word {l : Lexeme} {w : List Char} (h : Solid w) : Full [.word l w] where
  fair p hp := by
    obtain rfl := List.mem_singleton.mp hp
    exact h
  fill := rfl

theorem mark (m : Mark) : Full [mark m] := .word (solid_mark m)

theorem keyword (k : Keyword) : Full [keyword k] := .word (solid_keyword k)

theorem named {s : String} (h : IsName s.toList) : Full [named s] := .word h.solid

theorem append (h : Full ps) (k : Full qs) : Full (ps ++ qs) where
  fair p hp := (List.mem_append.mp hp).elim (h.fair p) (k.fair p)
  fill := fill_append h.fill (fill_mono k.fill)

/-- Full pieces around a gap. -/
theorem gap (h : Full ps) (g : Gap) (k : Full qs) : Full (ps ++ .gap g :: qs) where
  fair p hp := by
    rcases List.mem_append.mp hp with hp | hp
    · exact h.fair p hp
    · rcases List.mem_cons.mp hp with rfl | hp
      · trivial
      · exact k.fair p hp
  fill := by
    refine fill_append h.fill ?_
    cases g with
    | blank => exact fill_mono k.fill
    | _ => exact k.fill

theorem blank_behind (h : Full ps) : Full (ps ++ [.gap .blank]) where
  fair p hp := by
    rcases List.mem_append.mp hp with hp | hp
    · exact h.fair p hp
    · obtain rfl := List.mem_singleton.mp hp
      trivial
  fill := fill_append h.fill rfl

theorem blank_front (h : Full ps) : Full (.gap .blank :: ps) where
  fair p hp := by
    rcases List.mem_cons.mp hp with rfl | hp
    · trivial
    · exact h.fair p hp
  fill := h.fill

/-- Items with a separator between them that breaks at one place at most. -/
theorem intercalate {sep : List Piece}
    (hsep : ∀ qs, Full qs → ∀ ps, Full ps → Full (ps ++ sep ++ qs)) (h : ∀ ps ∈ pss, Full ps)
    (hne : pss ≠ []) : Full (sep.intercalate pss) := by
  induction pss with
  | nil => exact absurd rfl hne
  | cons ps pss ih =>
    cases pss with
    | nil => simpa using h
    | cons qs pss =>
      rw [List.intercalate_cons_cons]
      exact hsep _ (ih (fun rs hr => h rs (List.mem_cons_of_mem _ hr)) (by simp)) ps
        (h ps List.mem_cons_self)

end Full

/-- Pieces that are full, or none. -/
def Loose (ps : List Piece) : Prop := ps = [] ∨ Full ps

namespace Loose

theorem nil : Loose [] := .inl rfl

theorem append (h : Loose ps) (k : Full qs) : Full (ps ++ qs) := by
  rcases h with rfl | h
  · exact k
  · exact h.append k

theorem behind (h : Loose qs) (k : Full ps) : Full (ps ++ qs) := by
  rcases h with rfl | h
  · rwa [List.append_nil]
  · exact k.append h

theorem blank_behind (h : Loose ps) : Loose (spacedPieces ps) := by
  rcases h with rfl | h
  · exact .nil
  · unfold spacedPieces
    split
    · exact .nil
    · exact .inr h.blank_behind

end Loose

namespace Full

theorem comma (g : Gap) (qs : List Piece) (k : Full qs) (ps : List Piece) (h : Full ps) :
    Full (ps ++ [Piece.mark .comma, .gap g] ++ qs) := by
  have := (h.append (.mark .comma)).gap g k
  simpa using this

theorem inline (h : ∀ ps ∈ pss, Full ps) (hne : pss ≠ []) : Full (inlinePieces pss) :=
  .intercalate (comma .blank) h hne

theorem commas (h : ∀ ps ∈ pss, Full ps) (hne : pss ≠ []) : Full (commaPieces pss) :=
  .intercalate (comma .space) h hne

theorem bracketed (h : ∀ ps ∈ pss, Full ps) : Loose (bracketedPieces pss) := by
  unfold bracketedPieces
  split
  · exact .nil
  case _ hne =>
    refine .inr (((Full.mark .lbracket).append (.inline h ?_)).append (.mark .rbracket))
    rintro rfl
    exact hne rfl

theorem parenthesized (wrap : Bool) (h : Full ps) : Full (parenthesizedPieces wrap ps) := by
  unfold parenthesizedPieces
  split
  · exact ((Full.mark .lparen).append h).append (.mark .rparen)
  · exact h

theorem alternatives (m : Mark) (h : ∀ ps ∈ pss, Full ps) (hne : pss ≠ []) :
    Full (alternativesPieces m pss) := by
  refine .intercalate (fun qs k ps h => ?_) h hne
  have := h.gap .space ((Full.mark m).gap .blank k)
  simpa using this

theorem tuple (h : ∀ ps ∈ pss, Full ps) : Full (tuplePieces pss) := by
  unfold tuplePieces
  split
  · exact (Full.mark .lbracket).gap .blank (.mark .rbracket)
  case _ hne =>
    rcases bracketed h with hnil | hfull
    · unfold bracketedPieces at hnil
      rw [if_neg hne] at hnil
      simp at hnil
    · exact hfull

theorem record (h : ∀ ps ∈ pss, Full ps) : Full (recordPieces pss) := by
  unfold recordPieces
  split
  · exact (Full.mark .lbrace).gap .blank (.mark .rbrace)
  case _ hne =>
    have hcommas : Full (commaPieces pss) := .commas h (by rintro rfl; exact hne rfl)
    exact ((Full.mark .lbrace).gap .space hcommas).gap .space (.mark .rbrace)

theorem clause (required : Bool) (h : Full ps) : Full (clausePieces required ps) := by
  have hclause :
      Full (Piece.mark .lbrace :: .gap .space :: ps ++ [.gap .space, Piece.mark .rbrace]) :=
    ((Full.mark .lbrace).gap .space h).gap .space (.mark .rbrace)
  rw [clausePieces, List.append_assoc]
  cases required with
  | true => exact hclause
  | false => exact (Full.mark .question).append hclause

theorem list (h : ∀ ps ∈ pss, Full ps) : Loose (listPieces pss) := by
  unfold listPieces
  split
  · exact .nil
  case _ hne =>
    have hcommas : Full (commaPieces pss) := .commas h (by rintro rfl; exact hne rfl)
    have := (((Full.mark .lparen).gap .soft hcommas).gap .soft (.mark .rparen)).blank_behind
    exact .inr (by simpa using this)

theorem signature (hps : Loose ps) (h : ∀ ps ∈ pss, Full ps) (hqs : Loose qs) (hrs : Full rs) :
    Full (signaturePieces ps pss qs rs) := by
  have harrow : Full (Piece.mark .arrow :: .gap .blank :: rs) := (Full.mark .arrow).gap .blank hrs
  unfold signaturePieces
  rw [List.append_assoc, List.append_assoc]
  exact hps.append ((list h).append (hqs.append harrow))

/-- A name between backquotes, if it needs them. -/
theorem spelledName {name : String} (h : '\n' ∉ name.toList) (allowReserved : Bool) :
    Full [namePiece name allowReserved] := by
  refine .word ?_
  rw [spell_name]
  split
  case isTrue =>
    have hquoted : (Spell.backquoted name).toList = '`' :: name.toList ++ ['`'] := by
      simp [Spell.backquoted]
    rw [hquoted]
    exact .enclosed rfl rfl h
  case isFalse hq =>
    rw [isQuoted, Bool.or_eq_true, not_or] at hq
    exact (isName_of_isIdentifier (by simpa using hq.2)).solid

theorem namedBehind (h : Full ps) {name : Option String} (hname : ∀ s ∈ name, '\n' ∉ s.toList) :
    Full (namedPieces ps name) := by
  cases name with
  | none => exact h
  | some s => exact h.gap .blank (.spelledName (hname s rfl) false)

end Full

section Types

variable {c c' : Grammar.Context} {L : Likeness c c'} {d : Context}

theorem namePieces_full (hL : L.Flat) {n n' : TypeName} (h : L.SameName n n') :
    Full (namePieces n) := by
  have hlast : Full [named n.name] := .named (hL.plain h.last)
  have hsegments := h.segments
  have hpath : Full (n.path.flatMap (fun s => [named s, mark .doubleColon]) ++ [named n.name]) := by
    generalize n.path = path at hsegments
    induction path with
    | nil => exact hlast
    | cons s path ih =>
      have hsegment : Full [named s] := .named (hL.constant (hsegments s List.mem_cons_self))
      have := (hsegment.append (.mark .doubleColon)).append
        (ih fun t ht => hsegments t (List.mem_cons_of_mem _ ht))
      simpa using this
  unfold namePieces
  rw [List.append_assoc]
  split
  · exact (Full.mark .doubleColon).append hpath
  · exact hpath

theorem key_full (hL : L.Flat) (hd : d.source = c.text) {l l' : Option Span} {key : Literal}
    (h : L.SameLiteral l l' key) (hps : Full ps) : Full (keyPieces d l key ++ ps) := by
  have harrow : Full ([literalPiece d l key, .gap .blank, mark .fatArrow, .gap .blank] ++ ps) := by
    have hliteral : Full [literalPiece d l key] :=
      ⟨fun p hp => List.mem_singleton.mp hp ▸ hL.literal hd h, by cases key <;> rfl⟩
    have := hliteral.gap .blank ((Full.mark .fatArrow).gap .blank hps)
    simpa using this
  cases key with
  | symbol s =>
    simp only [keyPieces]
    split
    case isTrue hs =>
      have := ((Full.named (isName_of_isIdentifier hs)).append (.mark .colon)).gap .blank hps
      simpa using this
    case isFalse => exact harrow
  | _ => exact harrow

theorem literal_full (hL : L.Flat) (hd : d.source = c.text) {l l' : Option Span} {value : Literal}
    (h : L.SameLiteral l l' value) : Full [literalPiece d l value] :=
  ⟨fun _ hp => List.mem_singleton.mp hp ▸ hL.literal hd h, by cases value <;> rfl⟩

theorem base_full (kind : BaseKind) : Full [named kind.text] := by
  refine .word (.of_spaceless ?_ ?_) <;> cases kind <;> decide

theorem tysPieces_ne_nil {wrap : Bool} {ts : List Ty} (h : decide (2 ≤ ts.length) = true) :
    tysPieces d wrap ts ≠ [] := by
  cases ts with
  | nil => cases h
  | cons t ts => simp [tysPieces]

mutual

/-- A type that is read from flat tokens leaves no line empty. -/
theorem tyPieces_full (hL : L.Flat) (hd : d.source = c.text) (wrap : Bool) : (t : Ty) →
    ∀ t' : Ty, L.SameTy t t' → t.passes .wellFormed = true → Full (tyPieces d wrap t)
  | .base _ kind, _, _, _ => base_full kind
  | .variable _ name, _, h, _ => by
    cases h with
    | «variable» hname => exact .named (hL.plain hname)
  | .classInstance _ name args, _, h, hpass => by
    have hitems := tysPieces_full hL hd false args
    cases h with
    | classInstance hn hargs =>
      obtain ⟨-, hpass⟩ := Bool.and_eq_true_iff.mp hpass
      exact (Full.bracketed (hitems _ hargs hpass)).behind (namePieces_full hL hn)
  | .interface _ name args, _, h, hpass => by
    have hitems := tysPieces_full hL hd false args
    cases h with
    | interface hn hargs =>
      obtain ⟨-, hpass⟩ := Bool.and_eq_true_iff.mp hpass
      exact (Full.bracketed (hitems _ hargs hpass)).behind (namePieces_full hL hn)
  | .alias _ name args, _, h, hpass => by
    have hitems := tysPieces_full hL hd false args
    cases h with
    | «alias» hn hargs =>
      obtain ⟨-, hpass⟩ := Bool.and_eq_true_iff.mp hpass
      exact (Full.bracketed (hitems _ hargs hpass)).behind (namePieces_full hL hn)
  | .classSingleton _ name, _, h, _ => by
    cases h with
    | classSingleton hn =>
      exact (((Full.keyword .singleton).append (.mark .lparen)).append
        (namePieces_full hL hn)).append
        (.mark .rparen)
  | .optional _ t, _, h, hpass => by
    have htype := tyPieces_full hL hd true t
    cases h with
    | optional ht =>
      rw [tyPieces]
      split
      · exact .word (solid_symbol _)
      · obtain ⟨-, hpass⟩ := Bool.and_eq_true_iff.mp hpass
        exact (Full.parenthesized _ (htype _ ht hpass)).append (.mark .question)
  | .union _ ts, _, h, hpass => by
    have hitems := tysPieces_full hL hd wrap ts
    cases h with
    | union hts =>
      obtain ⟨hlength, hpass⟩ := Bool.and_eq_true_iff.mp hpass
      exact .parenthesized _ (.alternatives .pipe (hitems _ hts hpass) (tysPieces_ne_nil hlength))
  | .intersection _ ts, _, h, hpass => by
    have hitems := tysPieces_full hL hd true ts
    cases h with
    | intersection hts =>
      obtain ⟨hlength, hpass⟩ := Bool.and_eq_true_iff.mp hpass
      exact .parenthesized _ (.alternatives .ampersand (hitems _ hts hpass)
        (tysPieces_ne_nil hlength))
  | .tuple _ ts, _, h, hpass => by
    have hitems := tysPieces_full hL hd false ts
    cases h with
    | tuple hts =>
      obtain ⟨-, hpass⟩ := Bool.and_eq_true_iff.mp hpass
      exact .tuple (hitems _ hts hpass)
  | .record _ fields, _, h, hpass => by
    have hitems := fieldsPieces_full hL hd fields
    cases h with
    | record hfields =>
      obtain ⟨-, hpass⟩ := Bool.and_eq_true_iff.mp hpass
      exact .record (hitems _ hfields hpass)
  | .literal _ _, _, h, _ => by
    cases h with
    | literal hvalue => exact literal_full hL hd hvalue
  | .proc _ s b, _, h, hpass => by
    have hsignature := fun block (hblock : Loose block) => signaturePieces_full hL hd .nil hblock s
    have hblock := blockPieces_full hL hd b
    cases h with
    | proc hs hb =>
      obtain ⟨hpass, hpassBlock⟩ := Bool.and_eq_true_iff.mp (Bool.and_eq_true_iff.mp hpass).2
      exact .parenthesized _ ((Full.mark .caret).append
        (hsignature _ (hblock _ hb hpassBlock) _ hs hpass))
termination_by structural t => t

theorem tysPieces_full (hL : L.Flat) (hd : d.source = c.text) (wrap : Bool) : (ts : List Ty) →
    ∀ ts' : List Ty, Forall₂ L.SameTy ts ts' → Ty.allPass .wellFormed ts = true →
      ∀ ps ∈ tysPieces d wrap ts, Full ps
  | [], _, _, _ => by simp [tysPieces]
  | t :: ts, _, h, hpass => by
    have htype := tyPieces_full hL hd wrap t
    have hitems := tysPieces_full hL hd wrap ts
    cases h with
    | cons ht hts =>
      obtain ⟨hpass, hpassAll⟩ := Bool.and_eq_true_iff.mp hpass
      exact List.forall_mem_cons.mpr ⟨htype _ ht hpass, hitems _ hts hpassAll⟩
termination_by structural ts => ts

theorem fieldsPieces_full (hL : L.Flat) (hd : d.source = c.text) : (fields : List Field) →
    ∀ fields' : List Field, Forall₂ L.SameField fields fields' →
      Ty.fieldsPass .wellFormed fields = true → ∀ ps ∈ fieldsPieces d fields, Full ps
  | [], _, _, _ => by simp [fieldsPieces]
  | ⟨_, _, _, t⟩ :: fields, _, h, hpass => by
    have htype := tyPieces_full hL hd false t
    have hitems := fieldsPieces_full hL hd fields
    cases h with
    | cons hfield hfields =>
      cases hfield with
      | mk hkey ht =>
        obtain ⟨hpass, hpassAll⟩ := Bool.and_eq_true_iff.mp hpass
        exact List.forall_mem_cons.mpr
          ⟨key_full hL hd hkey (htype _ ht hpass), hitems _ hfields hpassAll⟩
termination_by structural fields => fields

theorem paramPieces_full (hL : L.Flat) (hd : d.source = c.text) : (p : Param) →
    ∀ p' : Param, L.SameParam p p' → p.passes .wellFormed = true → Full (paramPieces d p)
  | ⟨_, t, _⟩, _, h, hpass => by
    have htype := tyPieces_full hL hd false t
    cases h with
    | mk ht hname => exact (htype _ ht hpass).namedBehind fun s hs => hL.named (hname s hs)
termination_by structural p => p

theorem paramsPieces_full (hL : L.Flat) (hd : d.source = c.text) {lead : List Piece}
    (hlead : Loose lead) : (qs : List Param) → ∀ qs' : List Param, Forall₂ L.SameParam qs qs' →
      Param.allPass .wellFormed qs = true → ∀ ps ∈ paramsPieces d lead qs, Full ps
  | [], _, _, _ => by simp [paramsPieces]
  | q :: qs, _, h, hpass => by
    have hparam := paramPieces_full hL hd q
    have hitems := paramsPieces_full hL hd hlead qs
    cases h with
    | cons hq hqs =>
      obtain ⟨hpass, hpassAll⟩ := Bool.and_eq_true_iff.mp hpass
      exact List.forall_mem_cons.mpr ⟨hlead.append (hparam _ hq hpass), hitems _ hqs hpassAll⟩
termination_by structural qs => qs

theorem restPieces_full (hL : L.Flat) (hd : d.source = c.text) {lead : List Piece}
    (hlead : Loose lead) : (q : Option Param) → ∀ q' : Option Param, Option.Rel L.SameParam q q' →
      Param.optionPasses .wellFormed q = true → ∀ ps ∈ restPieces d lead q, Full ps
  | none, _, _, _ => by simp [restPieces]
  | some q, _, h, hpass => by
    have hparam := paramPieces_full hL hd q
    cases h with
    | some hq =>
      intro ps hps
      obtain rfl := List.mem_singleton.mp hps
      exact hlead.append (hparam _ hq hpass)
termination_by structural q => q

theorem keywordsPieces_full (hL : L.Flat) (hd : d.source = c.text) {lead : List Piece}
    (hlead : Loose lead) : (qs : List (String × Param)) → ∀ qs' : List (String × Param),
      Forall₂ L.SameKeyword qs qs' → Param.keywordsPass .wellFormed qs = true →
        ∀ ps ∈ keywordsPieces d lead qs, Full ps
  | [], _, _, _ => by simp [keywordsPieces]
  | (_, q) :: qs, _, h, hpass => by
    have hparam := paramPieces_full hL hd q
    have hitems := keywordsPieces_full hL hd hlead qs
    cases h with
    | cons hkeyword hqs =>
      cases hkeyword with
      | mk hname hq =>
        obtain ⟨hpass, hpassAll⟩ := Bool.and_eq_true_iff.mp hpass
        have hcolon := ((Full.spelledName (hL.named hname) true).append (.mark .colon)).gap .blank
          (hparam _ hq hpass)
        exact List.forall_mem_cons.mpr ⟨hlead.append hcolon, hitems _ hqs hpassAll⟩
termination_by structural qs => qs

theorem signaturePieces_full (hL : L.Flat) (hd : d.source = c.text) {typeParams block : List Piece}
    (htypeParams : Loose typeParams) (hblock : Loose block) : (s : Signature) →
    ∀ s' : Signature, L.SameSignature s s' → s.passes .wellFormed = true →
      Full (signaturePiecesOf d typeParams block s)
  | ⟨_, result, required, optional, rest, trailing, requiredKeywords, optionalKeywords,
      restKeywords⟩, _, h, hpass => by
    have question : Loose [mark .question] := .inr (.mark .question)
    have hrequired := paramsPieces_full hL hd .nil required
    have hoptional := paramsPieces_full hL hd question optional
    have hrest := restPieces_full hL hd (.inr (.mark .star)) rest
    have htrailing := paramsPieces_full hL hd .nil trailing
    have hrequiredKeywords := keywordsPieces_full hL hd .nil requiredKeywords
    have hoptionalKeywords := keywordsPieces_full hL hd question optionalKeywords
    have hrestKeywords := restPieces_full hL hd (.inr (.mark .doubleStar)) restKeywords
    have hresult := tyPieces_full hL hd true result
    cases h with
    | mk ht h₁ h₂ h₃ h₄ h₅ h₆ h₇ =>
      simp only [Signature.passes, Bool.and_eq_true] at hpass
      obtain ⟨-, ⟨⟨⟨⟨⟨⟨⟨hpass, hpass₁⟩, hpass₂⟩, hpass₃⟩, hpass₄⟩, hpass₅⟩, hpass₆⟩, hpass₇⟩⟩ :=
        hpass
      refine .signature htypeParams ?_ hblock (hresult _ ht hpass)
      simp only [List.mem_append]
      rintro ps ((((((hps | hps) | hps) | hps) | hps) | hps) | hps)
      · exact hrequired _ h₁ hpass₁ ps hps
      · exact hoptional _ h₂ hpass₂ ps hps
      · exact hrest _ h₃ hpass₃ ps hps
      · exact htrailing _ h₄ hpass₄ ps hps
      · exact hrequiredKeywords _ h₅ hpass₅ ps hps
      · exact hoptionalKeywords _ h₆ hpass₆ ps hps
      · exact hrestKeywords _ h₇ hpass₇ ps hps
termination_by structural s => s

theorem blockPieces_full (hL : L.Flat) (hd : d.source = c.text) : (b : Option Block) →
    ∀ b' : Option Block, Option.Rel L.SameBlock b b' →
      Ty.blockPasses .wellFormed b = true → Loose (blockPieces d b)
  | none, _, _, _ => .nil
  | some ⟨_, s, required⟩, _, h, hpass => by
    have hsignature := signaturePieces_full hL hd .nil .nil s
    cases h with
    | some hb =>
      cases hb with
      | mk hs => exact .inr (Full.clause required (hsignature _ hs hpass)).blank_behind
termination_by structural b => b

end

end Types

end RubySig.Format
