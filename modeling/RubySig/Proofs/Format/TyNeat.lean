import RubySig.Proofs.Format.Compact
import RubySig.Proofs.Format.TyPieces
import RubySig.Proofs.Token.Sound
import RubySig.Proofs.Tree.Check

/-! The pieces of a printed type fit together. -/
namespace RubySig.Format

open Piece (firm Joins mark keyword named)

theorem not_symbol_nameLexeme (w : List Char) : (Lexer.nameLexeme w).isSymbol = false := by
  unfold Lexer.nameLexeme
  simp only
  split
  · rfl
  · split
    · split <;> rfl
    · split <;> rfl
    · rfl

theorem compact_named {s : String} (h : IsName s.toList) : Compact .plain false [named s] := by
  refine .word (spelled_name h) ⟨?_, ?_⟩ ⟨fun c hc => ?_, fun _ => ?_⟩
  · obtain ⟨c, w, hs, hc, -⟩ := h
    rw [hs]
    rintro ⟨⟩
    exact absurd hc (by decide)
  · rw [not_symbol_nameLexeme]
    intro hs
    cases hs
  · rw [nameLexeme_accepts]
    revert c
    decide
  · rw [nameLexeme_accepts]
    decide

theorem meets_named_mark {s : String} {m : Mark}
    (hm : ∀ c ∈ m.text.toList.head?, Lexer.isNamePart c = false) :
    Meets [named s] [mark m] := by
  rintro p ⟨⟩ q ⟨⟩
  refine joins_word_mark fun c hc => ?_
  rw [nameLexeme_accepts, hm c hc]
  rfl

theorem compact_name {n : TypeName} {last : String → Lexeme} (h : n.Formed last)
    (hl : ∀ s, last s = .constant s ∨ last s = .interfaceName s ∨ last s = .identifier s) :
    Compact .plain false (namePieces n) := by
  have hname : IsName n.name.toList := (h.name.name (hl n.name)).1
  have hsegment : ∀ s ∈ n.path, IsName s.toList := fun s hs => ((h.path s hs).name (.inl rfl)).1
  have hpath : Compact .plain false
      (n.path.flatMap (fun s => [named s, mark .doubleColon]) ++ [named n.name]) := by
    generalize n.path = path at hsegment
    induction path with
    | nil => exact compact_named hname
    | cons s path ih =>
      have hopen : Opening .plain .plain [named s, mark .doubleColon] :=
        (compact_named (hsegment s (List.mem_cons_self ..))).opening (.mark (by decide)) (by simp)
          (meets_named_mark (by decide))
      rw [List.flatMap_cons, List.append_assoc]
      exact hopen.compact (ih fun t ht => hsegment t (List.mem_cons_of_mem _ ht))
  unfold namePieces
  split
  · rw [List.append_assoc]
    exact (Opening.mark (by decide)).compact hpath
  · exact hpath

theorem requote_plain {body : List Char} (h : '\\' ∉ body) (rest : List Char) :
    Lexer.literalBody? '"' (Spell.requote '"' body ++ '"' :: rest) =
        some (Spell.requote '"' body, rest) ∧
      Escape.decodeDouble 0 (Spell.requote '"' body) = .ok body := by
  induction body with
  | nil => exact ⟨Lexer.literalBody_quote (by decide) rest, rfl⟩
  | cons c cs ih =>
    obtain ⟨h₁, h₂⟩ := ih fun hm => h (List.mem_cons_of_mem _ hm)
    have hc : c ≠ '\\' := fun he => h (he ▸ List.mem_cons_self ..)
    have hr : Spell.requote '"' (c :: cs) =
        if c == '"' && (c == '"' || c == '\'') then '\\' :: c :: Spell.requote '"' cs
        else c :: Spell.requote '"' cs := by
      rw [Spell.requote]
      intro d ds he
      exact absurd he hc
    rw [hr]
    split
    case isTrue hq =>
      obtain rfl : c = '"' := beq_iff_eq.mp (Bool.and_eq_true_iff.mp hq).1
      refine ⟨Lexer.literalBody_guarded_iff.mpr ⟨_, rfl, h₁⟩, ?_⟩
      rw [Escape.decodeDouble, if_pos (by decide), read_simple (by decide) (by decide) (by decide)]
      change (Escape.decodeDouble 0 (Spell.requote '"' cs) >>= _) = _
      rw [h₂]
      rfl
    case isFalse hq =>
      have hcq : c ≠ '"' := by
        rintro rfl
        exact hq (by decide)
      refine ⟨(Lexer.literalBody_cons_iff hc hcq).mpr ⟨_, rfl, h₁⟩, ?_⟩
      rw [Escape.decodeDouble, if_neg (by simpa using hc), h₂]
      rfl

theorem requote_own {q : Char} (hq : q = '"' ∨ q = '\'') {body : List Char}
    (h : Lexer.literalBody? q (body ++ [q]) = some (body, [])) : Spell.requote q body = body := by
  have hback : q ≠ '\\' := by rcases hq with rfl | rfl <;> decide
  induction body using Spell.requote.induct q with
  | case1 => rfl
  | case2 c cs ih =>
    obtain ⟨b, hb, hr⟩ := Lexer.literalBody_guarded_iff.mp h
    obtain rfl : cs = b := (List.cons.inj (List.cons.inj hb).2).2
    rw [Spell.requote, ih hr]
  | case3 c cs hne hc ih =>
    obtain rfl : c = q := beq_iff_eq.mp (Bool.and_eq_true_iff.mp hc).1
    rw [List.cons_append, Lexer.literalBody_quote hback] at h
    cases h
  | case4 c cs hne hc ih =>
    have hcq : c ≠ q := by
      rintro rfl
      exact hc (by rcases hq with rfl | rfl <;> decide)
    have hcb : c ≠ '\\' := by
      rintro rfl
      cases cs with
      | nil =>
        rw [List.singleton_append, Lexer.literalBody?] at h
        cases h
      | cons d ds => exact hne d ds rfl rfl
    obtain ⟨b, hb, hr⟩ := (Lexer.literalBody_cons_iff hcb hcq).mp h
    obtain rfl : cs = b := (List.cons.inj hb).2
    rw [Spell.requote, if_neg hc, ih hr]
    exact hne

theorem single_plain {body : List Char} (h : '\\' ∉ body) : Escape.single body = body := by
  induction body with
  | nil => rfl
  | cons c cs ih =>
    have hc : c ≠ '\\' := fun he => h (he ▸ List.mem_cons_self ..)
    rw [Escape.single, ih fun hm => h (List.mem_cons_of_mem _ hm)]
    · exact fun _ he => absurd he hc
    · exact fun _ he => absurd he hc

/-- A literal with a backslash keeps its quotes. -/
theorem Quotes.preferred {q : Char} {body : List Char} {v : String} (h : Quotes q body v) :
    Spell.preferredQuote (q :: body ++ [q]) = if '\\' ∈ body then q else '"' := by
  rw [List.cons_append, Spell.preferredQuote]
  rcases h.quote with rfl | rfl <;> simp

/-- Without a backslash a body is its own value, and is so between double quotes. -/
theorem Quotes.plain {q : Char} {body : List Char} {v : String} (h : Quotes q body v)
    (hback : '\\' ∉ body) : Quotes '"' (Spell.requote '"' body) v where
  quote := .inl rfl
  closed rest := (requote_plain hback rest).1
  value := by
    have hv : v = String.ofList body := by
      have hvalue := h.value
      rcases h.quote with rfl | rfl
      · have hown := (requote_plain hback []).2
        rw [requote_own (.inl rfl) (h.closed [])] at hown
        rw [Lexer.literalValue, if_pos (by decide), Escape.double, hown] at hvalue
        exact (Except.ok.inj hvalue).symm
      · rw [Lexer.literalValue, if_neg (by decide), single_plain hback] at hvalue
        exact (Except.ok.inj hvalue).symm
    rw [Lexer.literalValue, if_pos (by decide), Escape.double, (requote_plain hback []).2, hv]
    rfl

/-- A literal keeps its value between its preferred quotes. -/
theorem Quotes.requoted {q : Char} {body : List Char} {v : String} (h : Quotes q body v) :
    Quotes (Spell.preferredQuote (q :: body ++ [q]))
      (Spell.requote (Spell.preferredQuote (q :: body ++ [q])) body) v := by
  rw [h.preferred]
  split
  · rw [requote_own h.quote (h.closed [])]
    exact h
  · next hback => exact h.plain hback

/-- The characters that a string literal is printed with, from those between its quotes. -/
theorem stringChars_of_slice {c : Context} {span : Span} {q : Char} {body : List Char} {v : String}
    (h : span.slice c.source = q :: body ++ [q]) : stringChars c (some span) v =
      Spell.preferredQuote (q :: body ++ [q]) ::
        Spell.requote (Spell.preferredQuote (q :: body ++ [q])) body ++
          [Spell.preferredQuote (q :: body ++ [q])] := by
  have hbody : ((q :: body ++ [q]).drop 1).dropLast = body := by simp
  rw [stringChars, h, hbody]

theorem spelled_stringChars {c : Context} {location : Option Span} {v : String}
    (h : ∀ span ∈ location, IsQuoted (span.slice c.source) v) :
    Spelled (.string v) (stringChars c location v) := by
  cases location with
  | none => exact spelled_string v
  | some span =>
    obtain ⟨q, body, hs, hb⟩ := h span rfl
    rw [stringChars_of_slice hs]
    exact hb.requoted.spelled

theorem isName_keyword (k : Keyword) :
    IsName k.text.toList ∧ Lexer.nameLexeme k.text.toList = .keyword k := by
  refine ⟨?_, by cases k <;> decide⟩
  cases k <;> exact ⟨_, _, rfl, by decide, by decide, by decide⟩

theorem compact_keyword (k : Keyword) : Compact .plain false [keyword k] := by
  obtain ⟨h, hl⟩ := isName_keyword k
  have := compact_named h
  rwa [named, hl] at this

theorem integer_head (n : Int) : ∀ c ∈ (toString n).toList.head?, c ≠ '*' := by
  rw [toString_digits, signOf]
  intro c hc
  split at hc
  · cases hc
    decide
  · rw [List.nil_append] at hc
    rintro rfl
    exact absurd (toDigits_isDigit (List.mem_of_mem_head? hc)) (by decide)

theorem symbol_accepts {s : String} {c : Char}
    (hc : c ∈ closers ∨ c = '?' ∧ MethodName.isIdentifier s.toList = false) :
    (Lexeme.symbol s).accepts c = true := by
  rw [Lexeme.accepts, Bool.or_eq_true]
  refine .inr ?_
  rcases hc with hc | ⟨rfl, hs⟩
  · simp only [closers, List.mem_cons, List.not_mem_nil, or_false] at hc
    rcases hc with rfl | rfl | rfl | rfl <;> simp <;> decide
  · rw [hs]
    decide

theorem compact_symbol {s : String} {tail : Bool}
    (h : tail = false → MethodName.isIdentifier s.toList = false) :
    Compact .symbol tail [.word (.symbol s) (Spell.symbol s).toList] := by
  refine .word (spelled_symbol s) ⟨?_, fun _ => rfl⟩ ⟨fun c hc => symbol_accepts (.inl hc), ?_⟩
  · rw [toList_symbol]
    rintro ⟨⟩
  · intro ht
    exact symbol_accepts (.inr ⟨rfl, h ht⟩)

theorem compact_literal {c : Context} {location : Option Span} {value : Literal}
    (h : value.Formed c.source location) (wrap : Bool) :
    Compact (.of ((Ty.literal location value).leadsWithSymbol wrap))
      (Ty.literal location value).openSymbol?.isSome [literalPiece c location value] := by
  have plain {l : Lexeme} {w : List Char} (hs : Spelled l w) (hl : l.isSymbol = false)
      (hw : ∀ c ∈ w.head?, c ≠ '*') (hf : Finishes false l) : Compact .plain false [.word l w] :=
    .word hs ⟨fun he => absurd rfl (hw _ he), fun he => by rw [hl] at he; cases he⟩ hf
  cases value with
  | integer n =>
    have key : ∀ c ∈ closers, (!(Text.isDigit c || c == '_')) = true := by decide
    exact plain (spelled_integer h) rfl (integer_head n) ⟨key, fun _ => rfl⟩
  | string v =>
    refine plain (spelled_stringChars h) rfl ?_ ⟨fun _ _ => rfl, fun _ => rfl⟩
    intro d hd
    cases location with
    | none =>
      simp only [stringChars, toList_string] at hd
      cases hd
      decide
    | some span =>
      obtain ⟨q, body, hs, hb⟩ := h span rfl
      simp only [stringChars, List.cons_append, List.head?_cons, Option.mem_def,
        Option.some.injEq] at hd
      subst hd
      rw [hs, List.cons_append, Spell.preferredQuote]
      split
      · rcases hb.quote with rfl | rfl <;> decide
      · decide
  | symbol s =>
    refine compact_symbol fun ht => ?_
    cases hi : MethodName.isIdentifier s.toList with
    | false => rfl
    | true => simp [Ty.openSymbol?, hi] at ht
  | truth b => exact compact_keyword _

theorem spell_name (name : String) (allowReserved : Bool) : Spell.name name allowReserved =
    if isQuoted name allowReserved then Spell.backquoted name else name := by
  unfold Spell.name isQuoted
  cases Spell.isReserved name && !allowReserved <;>
    cases MethodName.isIdentifier name.toList <;> rfl

theorem compact_namePiece {name : String} (h : Nameable name) (allowReserved : Bool) :
    Compact .plain false [namePiece name allowReserved] := by
  unfold namePiece
  rw [spell_name]
  cases hq : isQuoted name allowReserved with
  | true =>
    have hs := spelled_backquoted h.nonempty h.unquoted h.oneLine
    rw [String.ofList_toList] at hs
    have ht : (Spell.backquoted name).toList = '`' :: name.toList ++ ['`'] := by
      simp [Spell.backquoted]
    simp only [if_true, ht]
    refine .word hs ⟨?_, fun he => by cases he⟩ ⟨fun _ _ => rfl, fun _ => rfl⟩
    rintro ⟨⟩
  | false =>
    have hi : MethodName.isIdentifier name.toList = true := by
      rw [isQuoted, Bool.or_eq_false_iff] at hq
      simpa using hq.2
    exact compact_named (isName_of_isIdentifier hi)

theorem meets_namePiece_colon (name : String) (allowReserved : Bool) (g : Gap) :
    Meets [namePiece name allowReserved] [mark .colon, .gap g] := by
  rintro p ⟨⟩ q ⟨⟩
  refine joins_word_mark ?_
  rintro c ⟨⟩
  split
  · rfl
  · rw [nameLexeme_accepts]
    decide

/-- Some pieces are compact whatever they start with. -/
def Whole (ps : List Piece) : Prop := ∃ f, Compact f true ps

theorem Compact.whole {front : Front} {tail : Bool} {ps : List Piece} (h : Compact front tail ps) :
    Whole ps :=
  ⟨front, h.free⟩

theorem Whole.neat {ps : List Piece} (h : Whole ps) : Neat ps := by
  obtain ⟨f, hf⟩ := h
  exact hf.neat

theorem Separates.whole {sep : List Piece} (hs : Separates sep) {pss : List (List Piece)}
    (h : ∀ ps ∈ pss, Whole ps) (hne : pss.isEmpty = false) : Whole (sep.intercalate pss) := by
  cases pss with
  | nil => cases hne
  | cons ps pss =>
    obtain ⟨f, hf⟩ := h ps (List.mem_cons_self ..)
    exact ⟨f, hs.intercalate hf fun qs hq => h qs (List.mem_cons_of_mem _ hq)⟩

theorem compact_bracketed {pss : List (List Piece)} (h : ∀ ps ∈ pss, Whole ps)
    (hne : pss.isEmpty = false) : Compact .plain false (bracketedPieces pss) := by
  obtain ⟨f, hf⟩ := (separates_comma (g := .blank) (by decide)).whole h hne
  rw [bracketedPieces, hne]
  exact hf.brackets

theorem Compact.applied {front : Front} {ps : List Piece} {pss : List (List Piece)}
    (hp : Compact front false ps) (h : ∀ qs ∈ pss, Whole qs) :
    Compact front false (ps ++ bracketedPieces pss) := by
  cases hne : pss.isEmpty with
  | true =>
    rw [bracketedPieces, hne, if_pos rfl, List.append_nil]
    exact hp
  | false =>
    refine hp.append (compact_bracketed h hne) ?_
    intro p hlast q hq
    rw [bracketedPieces, hne] at hq
    cases hq
    obtain ⟨l, w, hl, hf⟩ := hp.last
    obtain rfl : Piece.word l w = p := Option.some.inj (hl.symm.trans hlast)
    refine joins_word_mark ?_
    rintro c ⟨⟩
    exact hf.1 _ (by decide)

theorem compact_pair {m k : Mark} (hm : m ≠ .star ∧ m ≠ .doubleStar)
    (hk : Finishes false (.mark k)) :
    Compact .plain false [mark m, .gap .blank, mark k] := by
  have hs : Neat ([mark m] ++ [.gap .blank]) :=
    (Neat.word (spelled_mark m)).append (.gap .blank) (by rintro p ⟨⟩ q ⟨⟩; trivial)
  exact ⟨hs.append (.word (spelled_mark k)) (by rintro p ⟨⟩ q ⟨⟩; trivial),
    ⟨_, _, rfl, begins_mark hm⟩, ⟨_, _, rfl, hk⟩⟩

theorem compact_tuple {pss : List (List Piece)} (h : ∀ ps ∈ pss, Whole ps) :
    Compact .plain false (tuplePieces pss) := by
  unfold tuplePieces
  split
  case isTrue => exact compact_pair (by decide) ⟨by decide, by decide⟩
  case isFalse hne => exact compact_bracketed h (by simpa using hne)

theorem compact_record {pss : List (List Piece)} (h : ∀ ps ∈ pss, Whole ps) :
    Compact .plain false (recordPieces pss) := by
  unfold recordPieces
  split
  case isTrue => exact compact_pair (by decide) ⟨by decide, by decide⟩
  case isFalse hne =>
    obtain ⟨f, hf⟩ := (separates_comma (g := .space) (by decide)).whole h (by simpa using hne)
    exact hf.braces

theorem compact_clause {front : Front} {tail : Bool} {ps : List Piece} (h : Compact front tail ps)
    (required : Bool) : Compact .plain false (clausePieces required ps) := by
  have hb := h.braces
  cases required with
  | true => exact hb
  | false => exact (Opening.question (by decide)).compact hb

theorem Compact.named {front : Front} {ps : List Piece} (h : Compact front true ps)
    {name : Option String} (hn : ∀ s ∈ name, Nameable s) :
    Compact front true (namedPieces ps name) := by
  cases name with
  | none => exact h
  | some s =>
    have hk := compact_namePiece (hn s rfl) false
    have hc : Closing (.gap .blank :: [namePiece s false]) := by
      refine .gap hk.neat (by decide) ?_ hk.last
      rintro p ⟨⟩
      exact ⟨_, _, rfl⟩
    exact (h.close hc).free

theorem opening_list {pss : List (List Piece)} (h : ∀ ps ∈ pss, Whole ps) :
    Opening .plain .plain (listPieces pss) := by
  unfold listPieces
  split
  case isTrue => exact .nil _ _
  case isFalse hne =>
    obtain ⟨f, hf⟩ := (separates_comma (g := .space) (by decide)).whole h (by simpa using hne)
    have hsoft : Compact .plain false
        (mark .lparen :: .gap .soft :: commaPieces pss ++ [.gap .soft, mark .rparen]) := by
      refine hf.parens.of_firm (by simp [commaPieces]) ?_
      intro q hq
      simp only [List.cons_append, List.mem_cons, List.mem_append, List.not_mem_nil, or_false] at hq
      simp only [List.cons_append, List.mem_cons, List.mem_append, List.not_mem_nil, or_false]
      tauto
    have hopen : Opening .plain .plain _ := hsoft.opening_blank
    simpa using hopen

theorem compact_signature {params : List (List Piece)} {typeParams block result : List Piece}
    (ht : Opening .plain .plain typeParams) (hp : ∀ ps ∈ params, Whole ps)
    (hb : Opening .plain .plain block) (hr : Whole result) :
    Compact .plain true (signaturePieces typeParams params block result) := by
  obtain ⟨f, hf⟩ := hr
  have harrow : Compact .plain true ([mark .arrow, .gap .blank] ++ result) :=
    (Opening.markGap .blank (by decide) (by decide)).compact hf
  have := ht.compact_plain ((opening_list hp).compact_plain (hb.compact_plain harrow))
  simpa [signaturePieces] using this

theorem compact_keywordParam {name : String} (h : Nameable name) {ps : List Piece} {front : Front}
    {tail : Bool} (hp : Compact front tail ps) :
    Compact .plain tail (namePiece name true :: mark .colon :: .gap .blank :: ps) := by
  have hcolon : Opening .plain front [mark .colon, .gap .blank] :=
    .markGap .blank (by decide) (by decide)
  exact ((compact_namePiece h true).opening hcolon (by simp)
    (meets_namePiece_colon name true .blank)).compact hp

theorem whole_entry {c : Context} {location : Option Span} {key : Literal}
    (hk : key.Formed c.source location) {front : Front} {tail : Bool} {ps : List Piece}
    (hp : Compact front tail ps) : Whole (keyPieces c location key ++ ps) := by
  have arrow : Whole ([literalPiece c location key] ++ [.gap .blank, mark .fatArrow, .gap .blank] ++
      ps) :=
    ((separates_mark (by decide) .fatArrow).compact (compact_literal hk true) hp).whole
  unfold keyPieces
  split
  case _ s =>
    split
    case isTrue hs =>
      have hcolon : Opening .plain front [mark .colon, .gap .blank] :=
        .markGap .blank (by decide) (by decide)
      have hmeets : Meets [named s] [mark .colon, .gap .blank] := by
        rintro p ⟨⟩ q ⟨⟩
        refine joins_word_mark fun c hc => ?_
        rw [nameLexeme_accepts]
        cases hc
        decide
      exact (((compact_named (isName_of_isIdentifier hs)).opening hcolon (by simp)
        hmeets).compact hp).whole
    case isFalse => exact arrow
  case _ => exact arrow

theorem isIdentifier_question (s : String) :
    MethodName.isIdentifier (s ++ "?").toList = false := by
  have hs : (s ++ "?").toList = s.toList ++ ['?'] := by simp
  rw [hs]
  cases s.toList with
  | nil => rfl
  | cons c cs =>
    rw [List.cons_append, MethodName.isIdentifier, List.all_append]
    simp [MethodName.isPart]

theorem compact_base (kind : BaseKind) : Compact .plain false [named kind.text] := by
  have h : ∃ k : Keyword, k.text = kind.text := by
    cases kind
    · exact ⟨.untyped, rfl⟩
    · exact ⟨.bool, rfl⟩
    · exact ⟨.bot, rfl⟩
    · exact ⟨.class_, rfl⟩
    · exact ⟨.instance_, rfl⟩
    · exact ⟨.nil, rfl⟩
    · exact ⟨.self, rfl⟩
    · exact ⟨.top, rfl⟩
    · exact ⟨.void, rfl⟩
  obtain ⟨k, hk⟩ := h
  exact hk ▸ compact_named (isName_keyword k).1

theorem compact_singleton {n : TypeName} (h : n.Formed .constant) :
    Compact .plain false
      (keyword .singleton :: mark .lparen :: namePieces n ++ [mark .rparen]) := by
  refine (compact_keyword .singleton).append (compact_name h fun _ => .inl rfl).parens ?_
  rintro p ⟨⟩ q ⟨⟩
  refine joins_word_mark ?_
  rintro c ⟨⟩
  decide

theorem Compact.optional {front : Front} {ps : List Piece} (h : Compact front false ps) :
    Compact front false (ps ++ [mark .question]) := by
  refine h.append (.word (spelled_mark .question) (begins_mark (by decide)) ⟨by decide, by decide⟩)
    ?_
  intro p hp q hq
  obtain ⟨l, w, hl, hf⟩ := h.last
  obtain rfl : Piece.word l w = p := Option.some.inj (hl.symm.trans hp)
  cases hq
  refine joins_word_mark ?_
  rintro c ⟨⟩
  exact hf.2 rfl

theorem isPlain_name {s : String} (h : Lexer.ReadsAs s (.constant s)) : IsName s.toList :=
  (h.name (.inl rfl)).1

mutual

theorem tyPieces_compact (c : Context) (scope : List String) (wrap : Bool) : (t : Ty) →
    t.Formed scope c.source → t.passes .clear = true →
      Compact (.of (t.leadsWithSymbol wrap)) (!wrap || t.openSymbol?.isSome) (tyPieces c wrap t)
  | .base _ kind, _, _ => (compact_base kind).mono
  | .variable _ name, h, _ => (compact_named (isPlain_name h.1)).mono
  | .classInstance _ name args, h, hc =>
    ((compact_name h.1 fun _ => .inl rfl).applied
      (tysPieces_whole c scope false args h.2.2 hc)).mono
  | .interface _ name args, h, hc =>
    ((compact_name h.1 fun _ => .inr (.inl rfl)).applied
      (tysPieces_whole c scope false args h.2 hc)).mono
  | .alias _ name args, h, hc =>
    ((compact_name h.1 fun _ => .inr (.inr rfl)).applied
      (tysPieces_whole c scope false args h.2 hc)).mono
  | .classSingleton _ name, h, _ => (compact_singleton h).mono
  | .optional _ type, h, hc => by
    have ih := tyPieces_compact c scope true type h hc
    rw [tyPieces]
    split
    case _ s hs =>
      obtain ⟨-, l, rfl⟩ := Ty.openSymbol?_eq_some hs
      exact compact_symbol fun _ => isIdentifier_question s
    case _ hs =>
      rw [hs] at ih
      cases ho : type.isOptional with
      | true => exact (ih.parens.optional).mono
      | false =>
        have hl : (Ty.optional none type).leadsWithSymbol wrap = type.leadsWithSymbol true := by
          rw [Ty.leadsWithSymbol, ho]
          rfl
        exact hl ▸ ih.optional.anyTail
  | .union _ [], h, _ => absurd h.1 (by decide)
  | .union _ (t :: ts), h, hc => by
    replace hc := Bool.and_eq_true_iff.mp (Bool.and_eq_true_iff.mp hc).2
    have ht := tyPieces_compact c scope wrap t h.2.1 hc.1
    have hts := tysPieces_whole c scope wrap ts h.2.2 hc.2
    have hall := (separates_mark (g := .space) (by decide) .pipe).intercalate ht.free hts
    cases wrap with
    | true => exact hall.parens.mono
    | false => exact hall
  | .intersection _ [], h, _ => absurd h.1 (by decide)
  | .intersection _ (t :: ts), h, hc => by
    replace hc := Bool.and_eq_true_iff.mp (Bool.and_eq_true_iff.mp hc).2
    have ht := tyPieces_compact c scope true t h.2.1 hc.1
    have hts := tysPieces_whole c scope true ts h.2.2 hc.2
    have hall := (separates_mark (g := .space) (by decide) .ampersand).intercalate ht.free hts
    cases wrap with
    | true => exact hall.parens.mono
    | false => exact hall
  | .tuple _ types, h, hc => (compact_tuple (tysPieces_whole c scope false types h hc)).mono
  | .record _ fields, h, hc => (compact_record (fieldsPieces_whole c scope fields h hc)).mono
  | .literal location value, h, _ => by
    have hl := compact_literal h wrap
    cases wrap with
    | true => exact hl
    | false => exact hl.free
  | .proc _ signature block, h, hc => by
    replace hc := Bool.and_eq_true_iff.mp (Bool.and_eq_true_iff.mp hc).2
    have hs := signaturePiecesOf_compact c scope (.nil _ _)
      (blockPieces_opening c scope block h.2 hc.2)
      signature h.1 hc.1
    have hcaret := (Opening.mark (by decide : Mark.caret ∈ openers)).compact hs
    cases wrap with
    | true => exact hcaret.parens.mono
    | false => exact hcaret

theorem tysPieces_whole (c : Context) (scope : List String) (wrap : Bool) : (ts : List Ty) →
    Ty.FormedAll scope c.source ts → Ty.allPass .clear ts = true →
    ∀ ps ∈ tysPieces c wrap ts, Whole ps
  | [], _, _ => by
    intro ps hp
    cases hp
  | t :: ts, h, hc => by
    rw [Ty.allPass, Bool.and_eq_true] at hc
    intro ps hp
    rcases List.mem_cons.mp hp with rfl | hp
    · exact (tyPieces_compact c scope wrap t h.1 hc.1).whole
    · exact tysPieces_whole c scope wrap ts h.2 hc.2 ps hp

theorem fieldsPieces_whole (c : Context) (scope : List String) : (fields : List Field) →
    Ty.FormedFields scope c.source fields → Ty.fieldsPass .clear fields = true →
      ∀ ps ∈ fieldsPieces c fields, Whole ps
  | [], _, _ => by
    intro ps hp
    cases hp
  | ⟨_, keyLocation, key, type⟩ :: fields, h, hc => by
    rw [Ty.fieldsPass, Bool.and_eq_true] at hc
    have ht := tyPieces_compact c scope false type h.2.1 hc.1
    intro ps hp
    rcases List.mem_cons.mp hp with rfl | hp
    · exact whole_entry h.1 ht.free
    · exact fieldsPieces_whole c scope fields h.2.2 hc.2 ps hp

theorem paramPieces_compact (c : Context) (scope : List String) : (p : Param) →
    p.Formed scope c.source → p.passes .clear = true →
      Compact (.of p.leadsWithSymbol) true (paramPieces c p)
  | ⟨_, type, _⟩, h, hc => (tyPieces_compact c scope false type h.1 hc).free.named h.2

theorem paramsPieces_whole (c : Context) (scope : List String) {lead : List Piece} :
    (ps : List Param) → Param.FormedAll scope c.source ps → Param.allPass .clear ps = true →
      (∀ p ∈ ps, ∃ f, Opening f (.of p.leadsWithSymbol) lead) →
        ∀ qs ∈ paramsPieces c lead ps, Whole qs
  | [], _, _, _ => by
    intro ps hp
    cases hp
  | p :: ps, h, hc, hl => by
    rw [Param.allPass, Bool.and_eq_true] at hc
    intro qs hq
    rcases List.mem_cons.mp hq with rfl | hq
    · obtain ⟨f, hf⟩ := hl p (List.mem_cons_self ..)
      exact (hf.compact (paramPieces_compact c scope p h.1 hc.1)).whole
    · exact paramsPieces_whole c scope ps h.2 hc.2
        (fun r hr => hl r (List.mem_cons_of_mem _ hr)) qs hq

theorem restPieces_whole (c : Context) (scope : List String) {m : Mark}
    (hm : m = .star ∨ m = .doubleStar) : (p : Option Param) →
      Param.FormedOption scope c.source p → Param.optionPasses .clear p = true →
        ∀ qs ∈ restPieces c [mark m] p, Whole qs
  | none, _, _ => by
    intro ps hp
    cases hp
  | some p, h, hc => by
    intro qs hq
    obtain rfl := List.mem_singleton.mp hq
    have hne : Front.of p.leadsWithSymbol ≠ .star := by cases p.leadsWithSymbol <;> decide
    exact ((Opening.star hm hne).compact (paramPieces_compact c scope p h hc)).whole

theorem keywordsPieces_whole (c : Context) (scope : List String) {lead : List Piece}
    (hl : Opening .plain .plain lead) : (ps : List (String × Param)) →
      Param.FormedKeywords scope c.source ps → Param.keywordsPass .clear ps = true →
        ∀ qs ∈ keywordsPieces c lead ps, Whole qs
  | [], _, _ => by
    intro ps hp
    cases hp
  | (name, p) :: ps, h, hc => by
    rw [Param.keywordsPass, Bool.and_eq_true] at hc
    intro qs hq
    rcases List.mem_cons.mp hq with rfl | hq
    · have hp := paramPieces_compact c scope p h.2.1 hc.1
      exact (hl.compact_plain (compact_keywordParam h.1 hp)).whole
    · exact keywordsPieces_whole c scope hl ps h.2.2 hc.2 qs hq

theorem signaturePiecesOf_compact (c : Context) (scope : List String)
    {typeParams block : List Piece} (ht : Opening .plain .plain typeParams)
    (hb : Opening .plain .plain block) : (s : Signature) →
      s.Formed scope c.source → s.passes .clear = true →
        Compact .plain true (signaturePiecesOf c typeParams block s)
  | ⟨_, result, required, optional, rest, trailing, requiredKeywords, optionalKeywords,
      restKeywords⟩, h, hc => by
    obtain ⟨-, hres, h₁, h₂, h₃, h₄, h₅, h₆, h₇⟩ := h
    simp only [Signature.passes, Check.clear, Bool.and_eq_true, List.all_eq_true,
      Bool.not_eq_true'] at hc
    obtain ⟨clead, ⟨⟨⟨⟨⟨⟨cres, c₁⟩, c₂⟩, c₃⟩, c₄⟩, c₅⟩, c₆⟩, c₇⟩ := hc
    refine compact_signature ht ?_ hb (tyPieces_compact c scope true result hres cres).whole
    have hnil (p : Param) : ∃ f, Opening f (.of p.leadsWithSymbol) [] := ⟨.plain, .nil _ _⟩
    have hquestion : ∀ p ∈ optional, ∃ f, Opening f (.of p.leadsWithSymbol) [mark .question] := by
      intro p hp
      rw [clead p hp]
      exact ⟨.plain, .question (by decide)⟩
    intro ps hp
    simp only [List.mem_append, or_assoc] at hp
    rcases hp with hp | hp | hp | hp | hp | hp | hp
    · exact paramsPieces_whole c scope required h₁ c₁ (fun p _ => hnil p) ps hp
    · exact paramsPieces_whole c scope optional h₂ c₂ hquestion ps hp
    · exact restPieces_whole c scope (.inl rfl) rest h₃ c₃ ps hp
    · exact paramsPieces_whole c scope trailing h₄ c₄ (fun p _ => hnil p) ps hp
    · exact keywordsPieces_whole c scope (.nil _ _) requiredKeywords h₅ c₅ ps hp
    · exact keywordsPieces_whole c scope (.question (by decide)) optionalKeywords h₆ c₆ ps hp
    · exact restPieces_whole c scope (.inr rfl) restKeywords h₇ c₇ ps hp

theorem blockPieces_opening (c : Context) (scope : List String) : (block : Option Block) →
    Ty.FormedBlock scope c.source block → Ty.blockPasses .clear block = true →
      Opening .plain .plain (blockPieces c block)
  | none, _, _ => .nil _ _
  | some ⟨_, signature, required⟩, h, hc =>
    (compact_clause (signaturePiecesOf_compact c scope (.nil _ _) (.nil _ _) signature h hc)
      required).opening_blank

end

end RubySig.Format
