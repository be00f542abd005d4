import RubySig.Proofs.Format.Literals
import RubySig.Proofs.Format.TyPieces

/-! A printed type comes out as its pieces. -/
namespace RubySig.Format

open Doc (Lays plain)

namespace Shows

theorem name (n : TypeName) : Shows [.text n.text] (namePieces n) := by
  refine text ?_ ?_
  · intro p hp
    simp only [namePieces, List.mem_append, List.mem_flatMap, List.mem_cons, List.not_mem_nil,
      or_false] at hp
    rcases hp with (hp | ⟨s, -, rfl | rfl⟩) | rfl
    · split at hp
      · obtain rfl := List.mem_singleton.mp hp
        rfl
      · cases hp
    · rfl
    · rfl
    · rfl
  · have hpath : (String.join (n.path.map (· ++ "::"))).toList =
        (n.path.flatMap fun s => [Piece.named s, Piece.mark .doubleColon]).flatMap Piece.ink := by
      rw [String.toList_join, List.flatMap_map, List.flatMap_assoc]
      simp [Mark.text]
    rw [TypeName.text, String.toList_append, String.toList_append, hpath, namePieces]
    split <;> simp [Mark.text]

variable {items : List (List Doc)} {pss : List (List Piece)}

theorem inline (h : List.Forall₂ Shows items pss) : Shows (inline items) (inlinePieces pss) :=
  separated (text (by simp) rfl) h

theorem isEmpty_eq (h : List.Forall₂ Shows items pss) : items.isEmpty = pss.isEmpty := by
  cases h <;> rfl

theorem bracketed (h : List.Forall₂ Shows items pss) :
    Shows (bracketed items) (bracketedPieces pss) := by
  unfold Format.bracketed bracketedPieces
  rw [isEmpty_eq h]
  split
  · exact nil
  · exact ((mark .lbracket rfl).cons (inline h)).append (mark .rbracket rfl)

theorem applied {name : List Doc} {ps : List Piece} (hn : Shows name ps)
    (h : List.Forall₂ Shows items pss) :
    Shows [applied name items] (ps ++ bracketedPieces pss) :=
  (hn.append (bracketed h)).grouped

theorem parenthesized {wrap : Bool} {ds : List Doc} {ps : List Piece} (h : Shows ds ps) :
    Shows (parenthesized wrap ds) (parenthesizedPieces wrap ps) := by
  unfold Format.parenthesized parenthesizedPieces
  split
  · exact ((mark .lparen rfl).cons h).append (mark .rparen rfl)
  · exact h

theorem alternatives {operator : String} {m : Mark} (hm : operator.toList = m.text.toList ++ [' '])
    (h : List.Forall₂ Shows items pss) :
    Shows [alternatives operator items] (alternativesPieces m pss) :=
  have hop : Shows [.text operator] [Piece.mark m, .gap .blank] := text (by simp) (by simp [hm])
  (separated (space.cons hop) h).grouped

theorem tuple (h : List.Forall₂ Shows items pss) : Shows (tupleDocs items) (tuplePieces pss) := by
  unfold tupleDocs tuplePieces
  rw [isEmpty_eq h]
  split
  · exact text (by simp) rfl
  · exact (bracketed h).grouped

theorem commas (h : List.Forall₂ Shows items pss) :
    Shows (Doc.commaSeparated items) (commaPieces pss) :=
  separated ((mark .comma rfl).cons space) h

theorem record {c : Context} (h : List.Forall₂ Shows items pss) :
    Shows (recordDocs c items) (recordPieces pss) := by
  unfold recordDocs recordPieces
  rw [isEmpty_eq h]
  split
  · exact text (by simp) rfl
  · exact ((mark .lbrace rfl).cons ((space.cons (commas h)).indent.cons
      (space.cons (mark .rbrace rfl)))).grouped

theorem clause {c : Context} {required : Bool} {inside : List Doc} {ps : List Piece}
    (h : Shows inside ps) : Shows (clauseDocs c required inside) (clausePieces required ps) := by
  have hopen : Shows (if required then [] else [Doc.text "?"])
      (if required then [] else [Piece.mark .question]) := by
    split
    · exact nil
    · exact mark .question rfl
  have hbody : Shows [.text "\x7b", .indent c.indent (Doc.space :: inside), Doc.space, .text "\x7d"]
      (Piece.mark .lbrace :: .gap .space :: ps ++ [.gap .space, Piece.mark .rbrace]) :=
    (mark .lbrace rfl).cons ((space.cons h).indent.cons (space.cons (mark .rbrace rfl)))
  rw [clauseDocs, clausePieces, List.append_assoc]
  exact hopen.append hbody

theorem spelledName (name : String) (allowReserved : Bool) :
    Shows [.text (Spell.name name allowReserved)] [namePiece name allowReserved] :=
  word _

theorem named {type : List Doc} {ps : List Piece} (h : Shows type ps) (name : Option String) :
    Shows (namedDocs type name) (namedPieces ps name) := by
  cases name with
  | none => exact h
  | some name =>
    have blank : Shows [.text " "] [.gap .blank] := text (by simp) rfl
    exact h.append (blank.cons (spelledName name false))

theorem listed {c : Context} (h : List.Forall₂ Shows items pss) :
    Shows (if items.isEmpty then [] else
      [.text "(", .indent c.indent (Doc.softBreak :: Doc.commaSeparated items), Doc.softBreak,
        .text ") "]) (listPieces pss) := by
  rw [isEmpty_eq h, listPieces]
  split
  · exact nil
  · have close : Shows [.text ") "] [Piece.mark .rparen, .gap .blank] := text (by simp) rfl
    exact (mark .lparen rfl).cons ((softBreak.cons (commas h)).indent.cons (softBreak.cons close))

theorem signature {c : Context} {typeParams block result : List Doc} {ps qs rs : List Piece}
    (ht : Shows typeParams ps) (hp : List.Forall₂ Shows items pss) (hb : Shows block qs)
    (hr : Shows result rs) :
    Shows [signatureDoc c typeParams items block result] (signaturePieces ps pss qs rs) := by
  have harrow : Shows [.text "-> "] [Piece.mark .arrow, .gap .blank] := text (by simp) rfl
  exact (((ht.append (listed hp)).append hb).append (harrow.cons hr)).grouped

end Shows

theorem lays_lines {i : Int} {lines : List (List Char)} {ss : List Doc.Stroke}
    (h : Lays i (Doc.separated [Doc.rawBreak]
      (lines.map fun l => [Doc.text (String.ofList l)])) ss) :
    ss = plain (['\n'].intercalate lines) := by
  unfold Doc.separated at h
  induction lines generalizing ss with
  | nil =>
    cases h
    rfl
  | cons l lines ih =>
    cases lines with
    | nil =>
      simp only [List.map_cons, List.map_nil, List.intercalate_singleton] at h
      cases h with
      | text h =>
        cases h
        simp
    | cons k lines =>
      simp only [List.map_cons, List.intercalate_cons_cons] at h ih
      rw [List.intercalate_cons_cons]
      cases h with
      | text h =>
        cases h with
        | raw h =>
          rw [ih h]
          simp [plain]

/-- A copied literal is one word, line feeds included. -/
theorem Shows.quoted (l : Lexeme) (quote : Char) (content : List Char) :
    Shows (quoted quote content) [.word l (quote :: content ++ [quote])] := by
  intro i ss h
  cases h with
  | text h =>
    obtain ⟨ts, us, rfl, ht, hu⟩ := h.split
    rw [lays_lines ht, Spell.literalLines, List.intercalate_splitOn]
    cases hu with
    | text hu =>
      cases hu
      have hword : Draft [.word l (quote :: content ++ [quote])]
          (plain (quote :: content ++ [quote]) ++ []) := .word .nil
      have hchars : plain (quote :: content ++ [quote]) ++ [] =
          plain (String.singleton quote).toList ++
          (plain content ++ (plain (String.singleton quote).toList ++ [])) := by
        simp only [String.toList_singleton, plain, List.map_append, List.map_cons, List.map_nil,
          List.append_nil, List.cons_append, List.nil_append]
      rw [← hchars]
      exact hword

theorem Shows.literal (c : Context) (location : Option Span) (value : Literal) :
    Shows (literalDocs c location value) [literalPiece c location value] := by
  cases value with
  | integer n => exact word _
  | string s =>
    cases location with
    | none => exact word _
    | some span => exact quoted _ _ _
  | symbol s => exact word _
  | truth b => cases b <;> exact word _

theorem Shows.key (c : Context) (location : Option Span) (key : Literal) :
    Shows (keyDocs c location key) (keyPieces c location key) := by
  have arrow : Shows (literalDocs c location key ++ [.text " => "])
      [literalPiece c location key, .gap .blank, Piece.mark .fatArrow, .gap .blank] :=
    (Shows.literal c location key).append (text (by simp) rfl)
  cases key with
  | symbol s =>
    simp only [keyDocs, keyPieces]
    split
    case isTrue => exact text (by simp) (by simp [Mark.text])
    case isFalse => exact arrow
  | _ => exact arrow

theorem not_sigil_of_isIdentifier {c : Char} {cs : List Char}
    (h : MethodName.isIdentifier (c :: cs) = true) : c ≠ '@' ∧ c ≠ '$' := by
  rw [MethodName.isIdentifier, Bool.and_eq_true] at h
  exact ⟨by rintro rfl; exact absurd h.1 (by decide), by rintro rfl; exact absurd h.1 (by decide)⟩

theorem isPlainSymbol_eq_isWhole {c : Char} {cs : List Char} (h₁ : c ≠ '@') (h₂ : c ≠ '$') :
    Spell.isPlainSymbol (c :: cs) = MethodName.isWhole (c :: cs) := by
  unfold Spell.isPlainSymbol
  split
  case _ heq => exact absurd (List.cons.inj heq).1 h₁
  case _ heq => exact absurd (List.cons.inj heq).1 h₁
  case _ heq => exact absurd (List.cons.inj heq).1 h₂
  case _ => rfl

theorem isPlainSymbol_of_isIdentifier {cs : List Char} (h : MethodName.isIdentifier cs = true) :
    Spell.isPlainSymbol cs = true ∧ Spell.isPlainSymbol (cs ++ ['?']) = true := by
  cases cs with
  | nil => cases h
  | cons c cs =>
    obtain ⟨h₁, h₂⟩ := not_sigil_of_isIdentifier h
    rw [List.cons_append, isPlainSymbol_eq_isWhole h₁ h₂, isPlainSymbol_eq_isWhole h₁ h₂,
      MethodName.isWhole, MethodName.isWhole, h]
    refine ⟨by simp, ?_⟩
    rw [← List.cons_append, List.reverse_append]
    simp only [List.reverse_cons, List.reverse_nil, List.nil_append, List.singleton_append,
      List.reverse_append, List.reverse_reverse]
    rw [h]
    simp

theorem symbol_mark {s : String} (h : MethodName.isIdentifier s.toList = true) :
    (Spell.symbol (s ++ "?")).toList = (Spell.symbol s).toList ++ ['?'] := by
  obtain ⟨h₁, h₂⟩ := isPlainSymbol_of_isIdentifier h
  have hs : (s ++ "?").toList = s.toList ++ ['?'] := by simp
  rw [toList_symbol, toList_symbol, hs, if_pos h₁, if_pos h₂, List.cons_append]

theorem Shows.openSymbol (c : Context) {type : Ty} {s : String} (h : type.openSymbol? = some s) :
    Shows (Format.parenthesized type.isOptional (tyDocs c true type) ++ [.text "?"])
      [.word (.symbol (s ++ "?")) (Spell.symbol (s ++ "?")).toList] := by
  obtain ⟨hs, l, rfl⟩ := Ty.openSymbol?_eq_some h
  intro i ss hss
  rw [tyDocs] at hss
  cases hss with
  | text hss =>
    cases hss with
    | text hss =>
      cases hss
      rw [symbol_mark hs, List.append_nil]
      have hword : Draft [.word (.symbol (s ++ "?")) ((Spell.symbol s).toList ++ ['?'])]
          (plain ((Spell.symbol s).toList ++ ['?']) ++ []) := .word .nil
      simpa [plain] using hword

mutual

theorem tyDocs_shows (c : Context) :
    (wrap : Bool) → (t : Ty) → Shows (tyDocs c wrap t) (tyPieces c wrap t)
  | _, .base _ kind => .word _
  | _, .variable _ name => .word _
  | _, .classInstance _ name args => .applied (.name name) (tyItems_shows c false args)
  | _, .interface _ name args => .applied (.name name) (tyItems_shows c false args)
  | _, .alias _ name args => .applied (.name name) (tyItems_shows c false args)
  | _, .classSingleton _ name => by
    have hopen : Shows [.text "singleton("] [Piece.keyword .singleton, Piece.mark .lparen] :=
      .text (by simp) rfl
    exact hopen.cons ((Shows.name name).cons (.mark .rparen rfl))
  | _, .optional _ type => by
    rw [tyDocs, tyPieces]
    split
    case _ s h => exact .openSymbol c h
    case _ => exact (Shows.parenthesized (tyDocs_shows c true type)).append (.mark .question rfl)
  | wrap, .union _ types => .parenthesized (.alternatives rfl (tyItems_shows c wrap types))
  | _, .intersection _ types => .parenthesized (.alternatives rfl (tyItems_shows c true types))
  | _, .tuple _ types => .tuple (tyItems_shows c false types)
  | _, .record _ fields => .record (fieldItems_shows c fields)
  | _, .literal location value => .literal c location value
  | _, .proc _ signature block =>
    (Shows.parenthesized ((Shows.mark .caret rfl).cons
      (signatureDocOf_shows c .nil (blockBefore_shows c block) signature))).grouped

theorem tyItems_shows (c : Context) : (wrap : Bool) → (ts : List Ty) →
    List.Forall₂ Shows (tyItems c wrap ts) (tysPieces c wrap ts)
  | _, [] => .nil
  | wrap, t :: ts => .cons (tyDocs_shows c wrap t) (tyItems_shows c wrap ts)

theorem fieldItems_shows (c : Context) : (fields : List Field) →
    List.Forall₂ Shows (fieldItems c fields) (fieldsPieces c fields)
  | [] => .nil
  | ⟨_, keyLocation, key, type⟩ :: fields =>
    .cons ((Shows.key c keyLocation key).append (tyDocs_shows c false type))
      (fieldItems_shows c fields)

theorem paramDocs_shows (c : Context) : (p : Param) → Shows (paramDocs c p) (paramPieces c p)
  | ⟨_, type, name⟩ => .named (tyDocs_shows c false type) name

theorem paramItems_shows (c : Context) {sign : String} {lead : List Piece}
    (hl : Shows [.text sign] lead) : (ps : List Param) →
      List.Forall₂ Shows (paramItems c sign ps) (paramsPieces c lead ps)
  | [] => .nil
  | p :: ps => .cons (hl.cons (paramDocs_shows c p)) (paramItems_shows c hl ps)

theorem paramItem_shows (c : Context) {sign : String} {lead : List Piece}
    (hl : Shows [.text sign] lead) : (p : Option Param) →
      List.Forall₂ Shows (paramItem c sign p) (restPieces c lead p)
  | none => .nil
  | some p => .cons (hl.cons (paramDocs_shows c p)) .nil

theorem keywordItems_shows (c : Context) {sign : String} {lead : List Piece}
    (hp : ∀ p ∈ lead, p.isInline = true) (hl : sign.toList = lead.flatMap Piece.ink) :
    (ps : List (String × Param)) →
      List.Forall₂ Shows (keywordItems c sign ps) (keywordsPieces c lead ps)
  | [] => .nil
  | (name, p) :: ps => by
    refine .cons ?_ (keywordItems_shows c hp hl ps)
    have hhead : Shows [.text (sign ++ Spell.name name true ++ ": ")]
        (lead ++ [namePiece name true, Piece.mark .colon, .gap .blank]) := by
      refine .text ?_ ?_
      · intro p hm
        rcases List.mem_append.mp hm with hm | hm
        · exact hp p hm
        · simp only [List.mem_cons, List.not_mem_nil, or_false] at hm
          rcases hm with rfl | rfl | rfl <;> rfl
      · simp [hl, namePiece, Mark.text]
    simpa using hhead.cons (paramDocs_shows c p)

theorem signatureDocOf_shows (c : Context) {typeParams block : List Doc} {ps qs : List Piece}
    (ht : Shows typeParams ps) (hb : Shows block qs) : (s : Signature) →
      Shows [signatureDocOf c typeParams block s] (signaturePiecesOf c ps qs s)
  | ⟨_, result, required, optional, rest, trailing, requiredKeywords, optionalKeywords,
      restKeywords⟩ => by
    have question : Shows [.text "?"] [Piece.mark .question] := .mark .question rfl
    refine .signature ht ?_ hb (tyDocs_shows c true result)
    refine List.rel_append (List.rel_append (List.rel_append (List.rel_append (List.rel_append
      (List.rel_append ?_ ?_) ?_) ?_) ?_) ?_) ?_
    · exact paramItems_shows c .empty required
    · exact paramItems_shows c question optional
    · exact paramItem_shows c (.mark .star rfl) rest
    · exact paramItems_shows c .empty trailing
    · exact keywordItems_shows c (by simp) (by simp) requiredKeywords
    · exact keywordItems_shows c (by simp) rfl optionalKeywords
    · exact paramItem_shows c (.mark .doubleStar rfl) restKeywords

theorem blockBefore_shows (c : Context) : (block : Option Block) →
    Shows (blockBefore c block) (blockPieces c block)
  | none => .nil
  | some ⟨_, signature, _⟩ => by
    have blank : Shows [.text " "] [.gap .blank] := .text (by simp) rfl
    exact (Shows.clause (signatureDocOf_shows c .nil .nil signature)).append blank

end

end RubySig.Format
