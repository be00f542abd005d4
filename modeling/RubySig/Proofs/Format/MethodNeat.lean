import RubySig.Proofs.Format.LeadNeat

/-! Neighbours fit in the words of a printed method. -/
namespace RubySig

namespace Format

open Piece (firm Joins mark keyword named)

/-- Operators that no longer token begins with, and those that one may begin with. -/
def plainSigns : List Char := ['>', '!', '~', '/']

def sharpSigns : List Char := ['+', '-', '%', '@']

theorem next_plainSign (before : Option Char) {c : Char} (hc : c ∈ plainSigns) (rest : List Char) :
    Lexer.next before c rest = .ok ⟨.operator c, [c], rest⟩ := by
  have key {c : Char} (h : isPlainHead c = true) (h₁ : c ≠ '-') (h₂ : c ≠ ':')
      (hm : Mark.at? (c :: rest) = none)
      (hs : ['+', '-', '~', '!', '%', '/', '>', '=', '<', '`', '@'].contains c = true) :
      Lexer.next before c rest = .ok ⟨.operator c, [c], rest⟩ := by
    rw [next_plain before h (fun h => absurd h h₁) (fun h => absurd h h₂), Lexer.operatorPiece, hm]
    exact if_pos hs
  simp only [plainSigns, List.mem_cons, List.not_mem_nil, or_false] at hc
  rcases hc with rfl | rfl | rfl | rfl
  all_goals exact key (by decide) (by decide) (by decide) (by simp [Mark.at?]) (by decide)

/-- What may follow an operator that a longer token may begin with. -/
theorem sharp_follows {c d : Char} (hc : c ∈ sharpSigns)
    (h : Lexer.isSpace d = true ∨ (Lexeme.operator c).accepts d = true) :
    d ∈ [' ', '\t', '\r', '\n', '\x0c', '\x0b', ':'] ∨ d = '@' ∧ (c = '+' ∨ c = '-') := by
  have haccepts : (Lexeme.operator c).accepts d =
      (d == ':' || d == '@' && (c == '+' || c == '-')) := by
    simp only [sharpSigns, List.mem_cons, List.not_mem_nil, or_false] at hc
    rcases hc with rfl | rfl | rfl | rfl <;> rfl
  simp only [haccepts, Lexer.isSpace, Bool.or_eq_true, Bool.and_eq_true, beq_iff_eq] at h
  simp only [List.mem_cons, List.not_mem_nil, or_false]
  tauto

theorem next_sharpSign (before : Option Char) {c : Char} (hc : c ∈ sharpSigns) {rest : List Char}
    (hr : ∀ d ∈ rest.head?, Lexer.isSpace d = true ∨ (Lexeme.operator c).accepts d = true) :
    Lexer.next before c rest = .ok ⟨.operator c, [c], rest⟩ := by
  cases rest with
  | nil =>
    simp only [sharpSigns, List.mem_cons, List.not_mem_nil, or_false] at hc
    rcases hc with rfl | rfl | rfl | rfl <;> rfl
  | cons d rest =>
    have hd := sharp_follows hc (hr d rfl)
    simp only [sharpSigns, List.mem_cons, List.not_mem_nil, or_false] at hc hd
    rcases hd with (rfl | rfl | rfl | rfl | rfl | rfl | rfl) | ⟨rfl, rfl | rfl⟩
    all_goals first
      | rfl
      | rcases hc with rfl | rfl | rfl | rfl <;> rfl

theorem operator_head {c : Char} (hc : c ∈ plainSigns ∨ c ∈ sharpSigns) :
    Doc.isTrailing c = false ∧ Lexer.isSpace c = false ∧ c ≠ '#' := by
  simp only [plainSigns, sharpSigns, List.mem_cons, List.not_mem_nil, or_false] at hc
  rcases hc with (rfl | rfl | rfl | rfl) | (rfl | rfl | rfl | rfl) <;> decide

theorem spelled_operator {c : Char} (hc : c ∈ plainSigns ∨ c ∈ sharpSigns) :
    Spelled (.operator c) [c] where
  solid := by
    rintro d ⟨⟩
    exact (operator_head hc).1
  splits before rest _ hr := by
    refine ⟨c, [], rfl, (operator_head hc).2.1, (operator_head hc).2.2, ?_⟩
    rcases hc with hc | hc
    · exact next_plainSign before hc rest
    · exact next_sharpSign before hc hr

/-- A piece that is the same in every text: a mark, a keyword, an operator or a gap. -/
def isFixed : Piece → Bool
  | .word (.mark m) w => w == m.text.toList
  | .word (.keyword k) w => w == k.text.toList
  | .word (.operator c) w => w == [c] && (plainSigns.contains c || sharpSigns.contains c)
  | .gap _ => true
  | _ => false

theorem sound_of_isFixed {p : Piece} (h : isFixed p = true) : p.Sound := by
  unfold isFixed at h
  split at h
  case _ m w =>
    obtain rfl : w = m.text.toList := by simpa using h
    exact spelled_mark m
  case _ k w =>
    obtain rfl : w = k.text.toList := by simpa using h
    exact (compact_keyword k).neat.sound _ (List.mem_singleton_self _)
  case _ c w =>
    simp only [Bool.and_eq_true, Bool.or_eq_true, beq_iff_eq, List.contains_eq_mem,
      decide_eq_true_eq] at h
    obtain ⟨rfl, hc⟩ := h
    exact spelled_operator hc
  case _ => trivial
  case _ => cases h

instance decidableJoins : (p q : Piece) → Decidable (Joins p q)
  | .word l w, .word k v => inferInstanceAs (Decidable
      ((∀ c ∈ v.head?, l.accepts c = true) ∧ ∀ b ∈ w.getLast?, k.bears b = true))
  | .word _ _, .gap _ => .isTrue trivial
  | .word _ _, .remark _ => .isFalse id
  | .gap .line, .remark _ => .isTrue trivial
  | .gap .blank, .remark _ => .isFalse id
  | .gap .space, .remark _ => .isFalse id
  | .gap .soft, .remark _ => .isFalse id
  | .gap .line, .word _ _ | .gap .blank, .word _ _ | .gap .space, .word _ _
  | .gap .soft, .word _ _ => .isTrue trivial
  | .gap .line, .gap _ | .gap .blank, .gap _ | .gap .space, .gap _ | .gap .soft, .gap _ =>
    .isTrue trivial
  | .remark _, .remark _ => .isTrue trivial
  | .remark _, .word _ _ | .remark _, .gap _ => .isTrue trivial

theorem neat_fixed {ps : List Piece} (h : ps.all isFixed = true)
    (hc : (firm ps).IsChain Joins) : Neat ps :=
  ⟨fun p hp => sound_of_isFixed (List.all_eq_true.mp h p hp), hc⟩

/-- A name without backquotes is an operator, or an identifier with one sign or none behind it. -/
theorem isWhole_cases {cs : List Char} (h : MethodName.isWhole cs = true) :
    cs ∈ MethodName.operators ∨ ∃ base ending, cs = base ++ ending ∧
      MethodName.isIdentifier base = true ∧ ending ∈ [[], ['?'], ['!'], ['=']] := by
  unfold MethodName.isWhole at h
  simp only [Bool.or_eq_true, List.contains_eq_mem, decide_eq_true_eq] at h
  rcases h with (h | h) | h
  · exact .inl h
  · exact .inr ⟨cs, [], by simp, h, by simp⟩
  · split at h
    case _ c name hrev =>
      simp only [Bool.and_eq_true, Bool.or_eq_true, beq_iff_eq] at h
      obtain ⟨hc, hname⟩ := h
      have hcs : cs = name.reverse ++ [c] := by
        rw [← List.reverse_reverse cs, hrev, List.reverse_cons]
      refine .inr ⟨name.reverse, [c], hcs, hname, ?_⟩
      rcases hc with (rfl | rfl) | rfl <;> simp
    case _ => cases h

theorem isPart_of_isIdentifier {cs : List Char} (h : MethodName.isIdentifier cs = true) :
    ∀ c ∈ cs, MethodName.isPart c = true := by
  cases cs with
  | nil => simp
  | cons c cs =>
    rw [MethodName.isIdentifier, Bool.and_eq_true, List.all_eq_true] at h
    refine List.forall_mem_cons.mpr ⟨?_, h.2⟩
    have hstart := h.1
    simp only [MethodName.isStart, MethodName.isPart, Char.isAlphanum, Bool.or_eq_true] at hstart ⊢
    tauto

theorem operators_split : ∀ cs ∈ MethodName.operators,
    cs.takeWhile MethodName.isPart = [] ∧ cs.dropWhile MethodName.isPart = cs := by
  decide

theorem wholeNamePieces_operator {cs : List Char} (h : cs ∈ MethodName.operators) :
    wholeNamePieces cs = signPieces cs := by
  obtain ⟨h₁, h₂⟩ := operators_split cs h
  rw [wholeNamePieces, h₁, h₂]
  rfl

theorem ending_head {ending : List Char} (h : ending ∈ [[], ['?'], ['!'], ['=']]) :
    ∀ c ∈ ending.head?, MethodName.isPart c = false := by
  revert ending
  decide

theorem ending_signs {ending : List Char} (h : ending ∈ [[], ['?'], ['!'], ['=']]) :
    ∀ c ∈ ending, c = '?' ∨ c = '!' ∨ c = '=' := by
  revert ending
  decide

theorem wholeNamePieces_identifier {base ending : List Char}
    (hb : MethodName.isIdentifier base = true) (he : ending ∈ [[], ['?'], ['!'], ['=']]) :
    wholeNamePieces (base ++ ending) =
      .word (Lexer.nameLexeme base) base :: signPieces ending := by
  obtain ⟨h₁, h₂⟩ := takeWhile_append (isPart_of_isIdentifier hb) (ending_head he)
  have hne : base.isEmpty = false := by
    cases base with
    | nil => cases hb
    | cons c cs => rfl
  rw [wholeNamePieces, h₁, h₂, hne]
  rfl

theorem operators_nameable : ∀ cs ∈ MethodName.operators, cs ≠ ['`'] →
    cs ≠ [] ∧ '`' ∉ cs ∧ '\n' ∉ cs := by
  decide

theorem nameable_of_callable {s : String} (h : CallableName s) : Nameable s := by
  rcases h.written with hw | hn
  · rcases isWhole_cases hw with ho | ⟨base, ending, hs, hb, he⟩
    · obtain ⟨h₁, h₂, h₃⟩ := operators_nameable _ ho h.notQuote
      exact ⟨h₁, h₂, h₃⟩
    · have hpart := isPart_of_isIdentifier hb
      have hsign := ending_signs he
      refine ⟨?_, fun hm => ?_, fun hm => ?_⟩
      · rw [hs]
        cases base with
        | nil => cases hb
        | cons c cs => simp
      · rw [hs, List.mem_append] at hm
        rcases hm with hm | hm
        · exact absurd (hpart _ hm) (by decide)
        · exact absurd (hsign _ hm) (by decide)
      · rw [hs, List.mem_append] at hm
        rcases hm with hm | hm
        · exact absurd (hpart _ hm) (by decide)
        · exact absurd (hsign _ hm) (by decide)
  · exact hn

/-- Whether pieces begin with a word that a dot may stand in front of. -/
def followsDot : List Piece → Bool
  | .word l w :: _ => !l.isSymbol && w.head? != some '.'
  | _ => false

theorem operators_fixed : ∀ cs ∈ MethodName.operators, cs ≠ ['`'] →
    (signPieces cs).all isFixed = true ∧ followsDot (signPieces cs) = true ∧
      (firm (signPieces cs ++ [mark .colon, .gap .blank])).IsChain Joins := by
  decide

theorem endings_fixed : ∀ cs ∈ [[], ['?'], ['!'], ['=']], (signPieces cs).all isFixed = true ∧
    (firm (signPieces cs ++ [mark .colon, .gap .blank])).IsChain Joins := by
  decide

/-- Behind an identifier stands a sign or the colon. -/
theorem identifier_joins {base ending : List Char} (he : ending ∈ [[], ['?'], ['!'], ['=']]) :
    ∀ q ∈ (firm (signPieces ending ++ [mark .colon, .gap .blank])).head?,
      Joins (.word (Lexer.nameLexeme base) base) q := by
  have key (l : Lexeme) (c : Char) (hl : l.isSymbol = false) (hc : Lexer.isNamePart c = false) :
      Joins (.word (Lexer.nameLexeme base) base) (.word l [c]) := by
    refine ⟨?_, fun b _ => Lexeme.bears_of_not_symbol hl b⟩
    rintro d ⟨⟩
    rw [nameLexeme_accepts, hc]
    rfl
  simp only [List.mem_cons, List.not_mem_nil, or_false] at he
  rcases he with rfl | rfl | rfl | rfl
  · rintro q ⟨⟩
    exact key (.mark .colon) ':' rfl (by decide)
  · rintro q ⟨⟩
    exact key (.mark .question) '?' rfl (by decide)
  · rintro q ⟨⟩
    exact key (.operator '!') '!' rfl (by decide)
  · rintro q ⟨⟩
    exact key (.mark .eq) '=' rfl (by decide)

theorem neat_colon : Neat [mark .colon, .gap .blank] :=
  neat_fixed (by decide) (by decide)

/-- A method name with its colon is neat and can stand behind a dot. -/
theorem methodName_neat {name : String} (h : CallableName name) (quoteReserved : Bool) :
    Neat (methodNamePieces name quoteReserved ++ [mark .colon, .gap .blank]) ∧
      followsDot (methodNamePieces name quoteReserved) = true := by
  unfold methodNamePieces
  split
  case isTrue =>
    have hn := nameable_of_callable h
    have hs := spelled_backquoted hn.nonempty hn.unquoted hn.oneLine
    rw [String.ofList_toList] at hs
    have ht : (Spell.backquoted name).toList = '`' :: name.toList ++ ['`'] := by
      simp [Spell.backquoted]
    rw [ht]
    refine ⟨(Neat.word hs).append neat_colon ?_, rfl⟩
    rintro p ⟨⟩ q ⟨⟩
    exact joins_word_mark fun _ _ => rfl
  case isFalse hq =>
    have hw : MethodName.isWhole name.toList = true := by
      simp only [isQuotedMethod, Bool.or_eq_true, Bool.not_eq_true', not_or,
        Bool.not_eq_false] at hq
      exact hq.2
    rcases isWhole_cases hw with ho | ⟨base, ending, hs, hb, he⟩
    · rw [wholeNamePieces_operator ho]
      obtain ⟨h₁, h₂, h₃⟩ := operators_fixed _ ho h.notQuote
      refine ⟨neat_fixed ?_ h₃, h₂⟩
      rw [List.all_append, h₁]
      rfl
    · rw [hs, wholeNamePieces_identifier hb he]
      obtain ⟨h₁, h₂⟩ := endings_fixed _ he
      have hbehind : Neat (signPieces ending ++ [mark .colon, .gap .blank]) := by
        refine neat_fixed ?_ h₂
        rw [List.all_append, h₁]
        rfl
      have hname := spelled_name (isName_of_isIdentifier hb)
      constructor
      · refine (Neat.word hname).append hbehind ?_
        rintro p ⟨⟩ q hq
        exact identifier_joins he q hq
      · cases base with
        | nil => cases hb
        | cons c cs =>
          have hdot : c ≠ '.' := by
            rintro rfl
            exact absurd (isPart_of_isIdentifier hb _ (List.mem_cons_self ..)) (by decide)
          simp [followsDot, not_symbol_nameLexeme, hdot]

theorem heading_fixed : (v : Option Visibility) → (level : MethodLevel) →
    Neat (visibilityPieces v ++ [keyword .def_, .gap .blank] ++ methodReceiverPieces level)
  | none, .instance_ => neat_fixed (by decide) (by decide)
  | none, .singleton => neat_fixed (by decide) (by decide)
  | none, .both => neat_fixed (by decide) (by decide)
  | some .public_, .instance_ => neat_fixed (by decide) (by decide)
  | some .public_, .singleton => neat_fixed (by decide) (by decide)
  | some .public_, .both => neat_fixed (by decide) (by decide)
  | some .private_, .instance_ => neat_fixed (by decide) (by decide)
  | some .private_, .singleton => neat_fixed (by decide) (by decide)
  | some .private_, .both => neat_fixed (by decide) (by decide)

theorem heading_meets {ps : List Piece} (h : followsDot ps = true) (v : Option Visibility)
    (level : MethodLevel) :
    Meets (visibilityPieces v ++ [keyword .def_, .gap .blank] ++ methodReceiverPieces level)
      ps := by
  unfold followsDot at h
  split at h
  case _ l w ps =>
    simp only [Bool.and_eq_true, Bool.not_eq_true', bne_iff_ne, ne_eq] at h
    have hdot : Joins (mark .dot) (.word l w) := by
      refine ⟨fun c hc => ?_, fun b _ => Lexeme.bears_of_not_symbol h.1 b⟩
      have hne : c ≠ '.' := by
        rintro rfl
        exact h.2 hc
      simp [Lexeme.accepts, hne]
    rintro p hp q ⟨⟩
    rcases v with _ | (_ | _) <;> cases level <;> cases hp <;> first | exact hdot | trivial
  case _ => cases h

/-- What stands in front of the signatures of a method can be followed by any word. -/
theorem heading_opening {name : String} (h : CallableName name) (v : Option Visibility)
    (level : MethodLevel) (inner : Front) :
    Opening .plain inner (headingPieces v level name ++ [mark .colon, .gap .blank]) := by
  obtain ⟨hn, hdot⟩ := methodName_neat h true
  have hneat := (heading_fixed v level).append hn fun p hp q hq => by
    refine heading_meets hdot v level p hp q ?_
    cases hps : methodNamePieces name true with
    | nil => rw [hps] at hdot; cases hdot
    | cons r ps =>
      rw [hps] at hq hdot
      cases r with
      | word l w => exact hq
      | gap g => cases hdot
      | remark line => cases hdot
  have hhead : ∃ k : Keyword, (firm (headingPieces v level name ++
      [mark .colon, .gap .blank])).head? = some (keyword k) := by
    rcases v with _ | (_ | _) <;> exact ⟨_, rfl⟩
  obtain ⟨k, hk⟩ := hhead
  obtain ⟨l, w, hl, hb⟩ := (compact_keyword k).first
  cases hl
  refine ⟨?_, .inr ⟨_, _, hk, hb⟩, ?_⟩
  · rw [headingPieces, List.append_assoc]
    exact hneat
  · intro p hp l w _
    have hlast : (firm [mark .colon, .gap .blank]).getLast? = some (.gap .blank) := rfl
    rw [getLast?_firm_append hlast] at hp
    obtain rfl : Piece.gap .blank = p := Option.some.inj hp
    exact joins_gap .blank l w

theorem whole_typeParam (c : Context) {scope : List String} {p : TypeParam}
    (hn : Lexer.ReadsAs p.name (.constant p.name))
    (hb : ∀ t ∈ p.bound, t.Formed scope c.source) (hc : p.passes .clear = true) :
    Whole (typeParamPieces c p) := by
  have hname := compact_named (isPlain_name hn)
  have hbound : Compact .plain true ([named p.name] ++ boundPieces c p.bound) := by
    unfold TypeParam.passes at hc
    cases hbd : p.bound with
    | none =>
      rw [boundPieces, List.append_nil]
      exact hname.mono
    | some t =>
      rw [hbd] at hc
      have ht := tyPieces_compact c scope false t (hb t hbd) hc
      have := (separates_mark (g := .blank) (by decide) .lt).compact hname ht.free
      simpa [boundPieces] using this
  have hvariance : Opening .plain .plain (varianceWords p.variance) := by
    cases p.variance with
    | invariant => exact .nil _ _
    | covariant => exact (compact_keyword .out).opening_blank
    | contravariant => exact (compact_keyword .in_).opening_blank
  have hunchecked : Opening .plain .plain
      (if p.unchecked then [keyword .unchecked, .gap .blank] else []) := by
    split
    · exact (compact_keyword .unchecked).opening_blank
    · exact .nil _ _
  have := hunchecked.compact_plain (hvariance.compact_plain hbound)
  refine ⟨.plain, ?_⟩
  simpa [typeParamPieces] using this

theorem whole_typeParams (c : Context) {ps : List TypeParam} :
    (scope : List String) → TypeParam.FormedAll scope c.source ps →
      (∀ p ∈ ps, p.passes .clear = true) → ∀ qs ∈ ps.map (typeParamPieces c), Whole qs := by
  induction ps with
  | nil => simp
  | cons p ps ih =>
    intro scope h hc
    rw [List.map_cons]
    refine List.forall_mem_cons.mpr ⟨?_, ?_⟩
    · exact whole_typeParam c h.1 h.2.1 (hc p (List.mem_cons_self ..))
    · exact ih (p.name :: scope) h.2.2 fun q hq => hc q (List.mem_cons_of_mem _ hq)

theorem typeParams_opening (c : Context) {scope : List String} {ps : List TypeParam}
    (h : TypeParam.FormedAll scope c.source ps) (hc : ∀ p ∈ ps, p.passes .clear = true) :
    Opening .plain .plain (spacedPieces (typeParamsPieces c ps)) := by
  cases ps with
  | nil => exact .nil _ _
  | cons p ps => exact (compact_bracketed (whole_typeParams c scope h hc) rfl).opening_blank

theorem whole_overload (c : Context) {scope : List String} {o : Overload}
    (h : o.Written scope c.source) (hc : o.method.passes .clear = true) :
    Whole (overloadPieces c o) := by
  simp only [MethodType.passes, Bool.and_eq_true, List.all_eq_true] at hc
  obtain ⟨⟨hparams, hsignature⟩, hblock⟩ := hc
  have hsig := signaturePiecesOf_compact c _ (typeParams_opening c h.method.params hparams)
    (blockPieces_opening c _ o.method.block h.method.block hblock) o.method.signature
    h.method.signature hsignature
  exact ⟨.plain, (notes_opening h.notes).compact_plain hsig⟩

theorem whole_entries (c : Context) {scope : List String} {os : List Overload} {overloading : Bool}
    (h : ∀ o ∈ os, o.Written scope c.source) (hc : ∀ o ∈ os, o.method.passes .clear = true)
    (hne : os ≠ [] ∨ overloading = true) :
    Whole (entriesPieces (methodEntryPieces c os overloading)) := by
  refine (separates_mark (g := .line) (by decide) .pipe).whole ?_ ?_
  · intro ps hp
    rcases List.mem_append.mp hp with hp | hp
    · obtain ⟨o, ho, rfl⟩ := List.mem_map.mp hp
      exact whole_overload c (h o ho) (hc o ho)
    · cases overloading with
      | true =>
        obtain rfl := List.mem_singleton.mp hp
        exact ⟨.plain, .word (spelled_mark _) (begins_mark (by decide)) ⟨by decide, by decide⟩⟩
      | false => cases hp
  · rcases hne with hne | rfl
    · cases os with
      | nil => exact absurd rfl hne
      | cons o os => rfl
    · cases os <;> rfl

theorem whole_method (c : Context) {scope : List String} {name : String} {os : List Overload}
    {level : MethodLevel} {overloading : Bool} {v : Option Visibility} (hn : CallableName name)
    (h : ∀ o ∈ os, o.Written scope c.source) (hc : ∀ o ∈ os, o.method.passes .clear = true)
    (hne : os ≠ [] ∨ overloading = true) :
    Whole (memberPieces c (.method name os level overloading v)) := by
  obtain ⟨f, hf⟩ := whole_entries c h hc hne
  exact ((heading_opening hn v level f).compact hf).whole

end Format
end RubySig
