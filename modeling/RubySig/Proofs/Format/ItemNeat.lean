import RubySig.Proofs.Format.MethodNeat

/-! Neighbours fit in printed members, declarations and files. -/
namespace RubySig.Format

open Piece (firm Joins mark keyword)

/-- Pieces on a line of their own behind others. -/
theorem neat_lines {ps qs : List Piece} (hp : Neat ps) (hq : Neat qs) :
    Neat (ps ++ .gap .line :: qs) := by
  refine hp.append ((Neat.gap .line).append hq (meets_line (by simp))) ?_
  exact fun p hlast q hq => meets_gap ps .line p hlast q hq

theorem Neat.left {ps qs : List Piece} (h : Neat (ps ++ qs)) : Neat ps where
  sound p hp := h.sound p (List.mem_append_left qs hp)
  chain := by
    have hchain := h.chain
    rw [Piece.firm_append] at hchain
    exact (List.isChain_append.mp hchain).1

theorem receiver_meets {ps : List Piece} (hdot : followsDot ps = true) :
    Meets [keyword .self, mark .dot] ps := by
  rintro p ⟨⟩
  exact heading_meets hdot none .singleton (mark .dot) rfl

/-- A word that a dot may stand in front of, behind a receiver or none. -/
theorem Compact.received {tail : Bool} {ps : List Piece} (h : Compact .plain tail ps)
    (hdot : followsDot ps = true) (level : MemberLevel) :
    Compact .plain tail (receiverPieces level ++ ps) := by
  cases level with
  | instance_ => exact h
  | singleton =>
    have hself : Compact .plain true [keyword .self, mark .dot] :=
      (compact_keyword .self).append (.word (spelled_mark .dot) (begins_mark (by decide))
        ⟨by decide, by decide⟩)
          (by rintro p ⟨⟩ q ⟨⟩; exact joins_word_mark (by rintro c ⟨⟩; decide))
    exact hself.append h (receiver_meets hdot)

theorem followsDot_namePiece {name : String} (allowReserved : Bool) (ps : List Piece) :
    followsDot (namePiece name allowReserved :: ps) = true := by
  unfold namePiece
  rw [spell_name]
  cases hq : isQuoted name allowReserved with
  | true => simp [followsDot, Lexeme.isSymbol, Spell.backquoted]
  | false =>
    have hi : MethodName.isIdentifier name.toList = true := by
      rw [isQuoted, Bool.or_eq_false_iff] at hq
      simpa using hq.2
    cases hn : name.toList with
    | nil =>
      rw [hn] at hi
      cases hi
    | cons c cs =>
      rw [hn] at hi
      have hne : c ≠ '.' := by
        rintro rfl
        exact absurd (isPart_of_isIdentifier hi _ (List.mem_cons_self ..)) (by decide)
      simp [followsDot, hn, not_symbol_nameLexeme, hne]

/-- A variable is read as one token behind whatever stands in front of it. -/
theorem spelled_sigils {sigils : List Char} {make : String → Lexeme} {s : String}
    (hv : IsVariable sigils s) (hsolid : ∀ c ∈ sigils, Lexer.isSpace c = false)
    (haccepts : ∀ c, (make s).accepts c = !Lexer.isNamePart c)
    (hnext : ∀ before cs, Lexer.starts Lexer.isNameStart cs = true →
      ∃ c ds, sigils = c :: ds ∧ c ≠ '#' ∧
      Lexer.next before c (ds ++ cs) = .ok (Lexer.variablePiece sigils make cs)) :
    Spelled (make s) s.toList := by
  obtain ⟨c, cs, hs, hc, hcs⟩ := hv
  have hpart : ∀ d ∈ c :: cs, Lexer.isNamePart d = true :=
    List.forall_mem_cons.mpr ⟨namePart_of_nameStart hc, hcs⟩
  constructor
  · refine getLast?_not_isTrailing fun d hd => ?_
    rw [hs, List.mem_append] at hd
    rcases hd with hd | hd
    · exact hsolid d hd
    · exact not_isSpace_of_namePart (hpart d hd)
  · intro before rest _ hr
    have hrest : ∀ d ∈ rest.head?, Lexer.isNamePart d = false := by
      intro d hm
      rcases hr d hm with hspace | ha
      · exact not_namePart_of_isSpace hspace
      · simpa [haccepts] using ha
    obtain ⟨h₁, h₂⟩ := takeWhile_append hpart hrest
    obtain ⟨d, ds, rfl, hsharp, hread⟩ := hnext before (c :: cs ++ rest) hc
    refine ⟨d, ds ++ c :: cs, hs, hsolid d (List.mem_cons_self ..), hsharp, ?_⟩
    rw [List.append_assoc, hread, Lexer.variablePiece, h₁, h₂, ← hs, String.ofList_toList]

theorem next_sigil {c : Char} (hc : c = '@' ∨ c = '$') (before : Option Char) (cs : List Char)
    {p : Lexer.Piece} (h : Lexer.sigilPiece? c cs = some p) : Lexer.next before c cs = .ok p := by
  rcases hc with rfl | rfl
  · rw [next_eq before cs (by decide) (by decide) (by decide) (by decide), h]
    rfl
  · rw [next_eq before cs (by decide) (by decide) (by decide) (by decide), h]
    rfl

theorem spelled_instanceVariable {s : String} (h : IsVariable ['@'] s) :
    Spelled (.instanceVariable s) s.toList := by
  refine spelled_sigils h (by decide) (fun _ => rfl) fun before cs hstart =>
    ⟨'@', [], rfl, by decide, ?_⟩
  refine next_sigil (.inl rfl) before cs ?_
  rw [Lexer.sigilPiece_single (.inl rfl) fun _ hhead => ?_, if_pos hstart]
  · rfl
  · rw [List.head?_eq_some_iff] at hhead
    obtain ⟨rest, rfl⟩ := hhead
    cases hstart

theorem spelled_classVariable {s : String} (h : IsVariable ['@', '@'] s) :
    Spelled (.classVariable s) s.toList := by
  refine spelled_sigils h (by decide) (fun _ => rfl) fun before cs hstart =>
    ⟨'@', ['@'], rfl, by decide, ?_⟩
  exact next_sigil (.inl rfl) before _ (if_pos hstart)

theorem spelled_globalVariable {s : String} (h : IsVariable ['$'] s) :
    Spelled (.globalVariable s) s.toList := by
  refine spelled_sigils h (by decide) (fun _ => rfl) fun before cs hstart =>
    ⟨'$', [], rfl, by decide, ?_⟩
  exact next_sigil (.inr rfl) before _ (if_pos hstart)

theorem compact_variable {l : Lexeme} {w : List Char} (hs : Spelled l w) (hl : l.isSymbol = false)
    (haccepts : ∀ c, l.accepts c = !Lexer.isNamePart c) (hw : w.head? ≠ some '*') :
    Compact .plain false [.word l w] := by
  have hclosers : ∀ c ∈ closers, (!Lexer.isNamePart c) = true := by decide
  refine .word hs ⟨fun he => absurd he hw, fun he => by rw [hl] at he; cases he⟩
    ⟨fun c hc => ?_, fun _ => ?_⟩
  · rw [haccepts]
    exact hclosers c hc
  · rw [haccepts]
    decide

theorem head_variable {sigils : List Char} {s : String} (h : IsVariable sigils s)
    (hne : sigils ≠ []) :
    s.toList.head? = sigils.head? := by
  obtain ⟨c, cs, hs, -, -⟩ := h
  rw [hs]
  cases sigils with
  | nil => exact absurd rfl hne
  | cons d ds => rfl

theorem compact_instanceVariable {s : String} (h : IsVariable ['@'] s) :
    Compact .plain false [.word (.instanceVariable s) s.toList] :=
  compact_variable (spelled_instanceVariable h) rfl (fun _ => rfl) (by simp [head_variable h])

def TakesColon (ps : List Piece) : Prop :=
  ∃ l w, (firm ps).getLast? = some (.word l w) ∧ l.accepts ':' = true

theorem TakesColon.behind {ps : List Piece} (h : TakesColon ps) (qs : List Piece) :
    TakesColon (qs ++ ps) := by
  obtain ⟨l, w, hl, ha⟩ := h
  exact ⟨l, w, getLast?_firm_append hl, ha⟩

/-- A colon with the type behind it. -/
theorem Compact.typed {front inner : Front} {other tail : Bool} {ps qs : List Piece}
    (h : Compact front other ps) (hc : TakesColon ps) (k : Compact inner tail qs) :
    Compact front tail (ps ++ [mark .colon, .gap .blank] ++ qs) := by
  have hcolon : Opening .plain inner [mark .colon, .gap .blank] :=
    .markGap .blank (by decide) (by decide)
  have hmeets : Meets ps [mark .colon, .gap .blank] := by
    obtain ⟨l, w, hl, ha⟩ := hc
    intro p hp q hq
    obtain rfl : Piece.word l w = p := Option.some.inj (hl.symm.trans hp)
    cases hq
    refine joins_word_mark ?_
    rintro c ⟨⟩
    exact ha
  have hopen : Opening front inner (ps ++ [mark .colon, .gap .blank]) :=
    h.opening hcolon (by simp) hmeets
  have hne : (ps ++ [mark .colon, .gap .blank]).isEmpty = false := by simp
  have := hopen.compact k
  rwa [hne] at this

theorem takesColon_name (n : TypeName) : TakesColon (namePieces n) := by
  unfold namePieces
  refine TakesColon.behind ⟨_, _, rfl, ?_⟩ _
  rw [nameLexeme_accepts]
  decide

theorem whole_type (c : Context) {scope : List String} {t : Ty} (h : t.Formed scope c.source)
    (hc : t.passes .clear = true) : Whole (tyPieces c false t) :=
  (tyPieces_compact c scope false t h hc).whole

/-- Pieces with a blank between them. -/
theorem neat_blank {ps qs : List Piece} (hp : Neat ps) (hq : Neat qs)
    (hw : ∀ q ∈ (firm qs).head?, ∃ l w, q = .word l w) : Neat (ps ++ .gap .blank :: qs) := by
  have hblank : Neat (.gap .blank :: qs) := by
    refine (Neat.gap .blank).append hq ?_
    rintro p ⟨⟩ q hm
    obtain ⟨l, w, rfl⟩ := hw q hm
    trivial
  exact hp.append hblank fun p hlast q hq => meets_gap ps .blank p hlast q hq

theorem word_of_followsDot {ps : List Piece} (h : followsDot ps = true) :
    ∀ q ∈ (firm ps).head?, ∃ l w, q = .word l w := by
  unfold followsDot at h
  split at h
  case _ l w ps =>
    rintro q ⟨⟩
    exact ⟨l, w, rfl⟩
  case _ => cases h

/-- A method name behind a receiver or none. -/
theorem neat_received {ps : List Piece} (h : Neat ps) (hdot : followsDot ps = true)
    (level : MemberLevel) : Neat (receiverPieces level ++ ps) ∧
      ∀ q ∈ (firm (receiverPieces level ++ ps)).head?, ∃ l w, q = .word l w := by
  cases level with
  | instance_ => exact ⟨h, word_of_followsDot hdot⟩
  | singleton =>
    refine ⟨Neat.append (neat_fixed (by decide) (by decide)) h (receiver_meets hdot), ?_⟩
    rintro q ⟨⟩
    exact ⟨_, _, rfl⟩

theorem callable_of {name : String} (h : IsMethodName name) (hq : isLoneQuote name = false) :
    CallableName name :=
  ⟨h, by simpa [isLoneQuote] using hq⟩

theorem neat_alias {newName oldName : String} (hn : CallableName newName)
    (ho : CallableName oldName) (c : Context) (level : MemberLevel) :
    Neat (memberPieces c (.alias newName oldName level)) := by
  have name {s : String} (h : CallableName s) := neat_received (methodName_neat h false).1.left
    (methodName_neat h false).2 level
  have hkeyword : Neat [keyword .alias] := (compact_keyword .alias).neat
  have hnew := neat_blank hkeyword (name hn).1 (name hn).2
  have := neat_blank hnew (name ho).1 (name ho).2
  simpa [memberPieces] using this

theorem compact_backing {ps : List Piece} {backing : Backing} (h : Compact .plain false ps)
    (hp : ∃ l w, (firm ps).getLast? = some (.word l w) ∧ l.accepts '(' = true ∧
      l.accepts ':' = true)
    (hb : ∀ ivar, backing = .named ivar → IsVariable ['@'] ivar) :
    Compact .plain false (ps ++ backingPieces backing) ∧
    TakesColon (ps ++ backingPieces backing) := by
  obtain ⟨l, w, hl, hparen, hcolon⟩ := hp
  have hmeets (qs : List Piece) : Meets ps (mark .lparen :: qs) := by
    intro p hm q hq
    obtain rfl : Piece.word l w = p := Option.some.inj (hl.symm.trans hm)
    cases hq
    refine joins_word_mark ?_
    rintro c ⟨⟩
    exact hparen
  cases backing with
  | implied =>
    rw [backingPieces, List.append_nil]
    exact ⟨h, l, w, hl, hcolon⟩
  | absent =>
    have hpair : Compact .plain false [mark .lparen, mark .rparen] :=
      ⟨neat_fixed (by decide) (by decide), ⟨_, _, rfl, begins_mark (by decide)⟩,
        ⟨_, _, rfl, by decide, by decide⟩⟩
    exact ⟨h.append hpair (hmeets _), TakesColon.behind ⟨_, _, rfl, rfl⟩ _⟩
  | named ivar =>
    have hvariable := (compact_instanceVariable (hb ivar rfl)).parens
    exact ⟨h.append hvariable (hmeets _), TakesColon.behind ⟨_, _, rfl, rfl⟩ _⟩

theorem opening_visibility (v : Option Visibility) :
    Opening .plain .plain (visibilityPieces v) := by
  cases v with
  | none => exact .nil _ _
  | some v => exact (compact_keyword v.keyword).opening_blank

theorem whole_attribute (c : Context) {scope : List String} {access : Access} {name : String}
    {t : Ty} {backing : Backing} {level : MemberLevel} {v : Option Visibility} (hn : Nameable name)
    (ht : t.Formed scope c.source) (hc : t.passes .clear = true)
    (hb : ∀ ivar, backing = .named ivar → IsVariable ['@'] ivar) :
    Whole (memberPieces c (.attribute access name t backing level v)) := by
  obtain ⟨f, htype⟩ := whole_type c ht hc
  have hname := (compact_namePiece hn true).received (followsDot_namePiece true []) level
  have hends : ∃ l w, (firm (receiverPieces level ++ [namePiece name true])).getLast? =
      some (.word l w) ∧ l.accepts '(' = true ∧ l.accepts ':' = true := by
    refine ⟨_, _, getLast?_firm_append rfl, ?_⟩
    split
    · exact ⟨rfl, rfl⟩
    · rw [nameLexeme_accepts, nameLexeme_accepts]
      decide
  obtain ⟨hbacked, hcolon⟩ := compact_backing hname hends hb
  have hkeyword : Opening .plain .plain ([keyword access.keyword] ++ [.gap .blank]) :=
    (compact_keyword access.keyword).opening_blank
  have := (opening_visibility v).compact_plain (hkeyword.compact_plain (hbacked.typed hcolon htype))
  refine ⟨.plain, ?_⟩
  simpa [memberPieces] using this

theorem whole_variable (c : Context) {scope : List String} {kind : VariableKind} {name : String}
    {t : Ty} (hn : IsVariable kind.sigils name) (ht : t.Formed scope c.source)
    (hc : t.passes .clear = true) :
    Whole (memberPieces c (.variable kind name t)) := by
  obtain ⟨f, htype⟩ := whole_type c ht hc
  have hvariable : Compact .plain false (variablePieces kind name) ∧
      TakesColon (variablePieces kind name) := by
    cases kind with
    | instance_ => exact ⟨compact_instanceVariable hn, _, _, rfl, rfl⟩
    | class_ =>
      exact ⟨compact_variable (spelled_classVariable hn) rfl (fun _ => rfl)
        (by rw [head_variable hn (by decide)]; decide), _, _, rfl, rfl⟩
    | classInstance =>
      have hdot : followsDot [.word (.instanceVariable name) name.toList] = true := by
        rw [followsDot, head_variable hn (by decide)]
        rfl
      exact ⟨(compact_instanceVariable hn).received hdot .singleton, _, _, rfl, rfl⟩
  exact (hvariable.1.typed hvariable.2 htype).whole

theorem compact_classRef (c : Context) {scope : List String} {r : ClassRef}
    (hn : r.name.FormedClassLike) (ha : Ty.FormedAll scope c.source r.args)
    (hc : Ty.allPass .clear r.args = true) : Compact .plain false (classRefPieces c r) := by
  have hargs := tysPieces_whole c scope false r.args ha hc
  rcases hn with hn | hn
  · exact (compact_name hn fun _ => .inl rfl).applied hargs
  · exact (compact_name hn fun _ => .inr (.inl rfl)).applied hargs

theorem neat_member (c : Context) {nested : Bool} {scope : List String} : (m : Member) →
    m.Formed nested scope c.source → m.passes .clear = true → m.isApart = true →
      Neat (memberPieces c m)
  | .alias newName oldName level, h, _, ha => by
    simp only [Member.isApart, Bool.and_eq_true, Bool.not_eq_true'] at ha
    exact neat_alias (callable_of h.1 ha.1) (callable_of h.2 ha.2) c level
  | .attribute access name t backing level v, h, hc, _ => by
    simp only [Member.passes, Bool.and_eq_true] at hc
    exact (whole_attribute c h.2.1 h.2.2.1 hc.1 h.2.2.2).neat
  | .variable kind name t, h, hc, _ => (whole_variable c h.2.1 h.2.2 hc).neat
  | .mixin kind name args, h, hc, _ => by
    have hname := compact_classRef c (r := ⟨none, name, args⟩) h.2.1 h.2.2 hc
    exact ((compact_keyword kind.keyword).opening_blank.compact_plain hname).neat
  | .visibility v, _, _, _ => (compact_keyword v.keyword).neat
  | .method name os level overloading v, h, hc, ha => by
    simp only [Member.passes, Bool.and_eq_true, List.all_eq_true] at hc
    simp only [Member.isApart, Bool.not_eq_true'] at ha
    exact (whole_method c (callable_of h.1 ha) h.2.1 hc.2 h.2.2).neat

theorem compact_heading (c : Context) {scope : List String} {last : String → Lexeme} {n : TypeName}
    {ps : List TypeParam} (hn : n.Formed last)
    (hl : ∀ s, last s = .constant s ∨ last s = .interfaceName s ∨ last s = .identifier s)
    (hp : TypeParam.FormedAll scope c.source ps) (hc : ∀ p ∈ ps, p.passes .clear = true)
    (k : Keyword) :
    Compact .plain false (keyword k :: .gap .blank :: namePieces n ++ typeParamsPieces c ps) := by
  have hname : Compact .plain false (namePieces n ++ typeParamsPieces c ps) :=
    (compact_name hn hl).applied (whole_typeParams c scope hp hc)
  exact (compact_keyword k).opening_blank.compact_plain hname

theorem Compact.superclass {c : Context} {ps : List Piece} {r : Option ClassRef}
    (h : Compact .plain false ps) (hr : ∀ a ∈ r, Compact .plain false (classRefPieces c a)) :
    Compact .plain false (ps ++ superclassPieces c r) := by
  cases r with
  | none =>
    rw [superclassPieces, List.append_nil]
    exact h
  | some r =>
    have := (separates_mark (g := .blank) (by decide) .lt).compact h (hr r rfl)
    simpa [superclassPieces] using this

theorem Compact.selfTypes {c : Context} {ps : List Piece} {selves : List ClassRef}
    (h : Compact .plain false ps) (hs : ∀ r ∈ selves, Compact .plain false (classRefPieces c r)) :
    Compact .plain true (ps ++ selfTypesPieces c selves) := by
  unfold selfTypesPieces
  split
  case isTrue =>
    rw [List.append_nil]
    exact h.free
  case isFalse hne =>
    have hwhole : ∀ qs ∈ selves.map (classRefPieces c), Whole qs := by
      intro qs hq
      obtain ⟨r, hr, rfl⟩ := List.mem_map.mp hq
      exact (hs r hr).whole
    obtain ⟨f, hf⟩ := (separates_comma (g := .blank) (by decide)).whole hwhole (by simpa using hne)
    have := (separates_mark (g := .blank) (by decide) .colon).compact h hf
    simpa [inlinePieces] using this

theorem separates_equals : Separates [.gap .blank, mark .eq, .gap .space] :=
  ⟨neat_fixed (by decide) (by decide),
    fun q hq l w _ => by cases hq; exact joins_word_gap l w .blank,
    .space, rfl⟩

/-- An item of a body on a line of its own behind what stands above it. -/
theorem neat_broken {ps qs : List Piece} (hp : Neat ps) (hq : Neat qs) (blank : Bool) :
    Neat (ps ++ (itemBreak blank ++ qs)) := by
  cases blank with
  | false => exact neat_lines hp hq
  | true => exact neat_lines hp (neat_lines .nil hq)

theorem neat_bodied {heading body : List Piece} (h : Neat (heading ++ body)) :
    Neat (bodiedPieces heading body) :=
  neat_lines h (compact_keyword .end_).neat

mutual

theorem neat_declaration (c : Context) (scope : List String) : (a : Declaration) →
    a.Formed scope c.source → a.passes .clear = true → a.isApart c = true →
      Neat (declarationPieces c a)
  | .class_ name params superclass members, h, hc, ha => by
    simp only [Declaration.passes, Bool.and_eq_true, List.all_eq_true] at hc
    have hsuper : ∀ r ∈ superclass, Compact .plain false (classRefPieces c r) := by
      rintro r ⟨⟩
      exact compact_classRef c (.inl (h.2.2.1 r rfl).1) (h.2.2.1 r rfl).2 hc.1.2
    have hheading :=
      (compact_heading c h.1 (fun _ => .inl rfl) h.2.1 hc.1.1 .class_).superclass hsuper
    exact neat_bodied (neat_body c true _ _ none members hheading.neat h.2.2.2 hc.2 ⟨_, ha⟩)
  | .module_ name params selfTypes members, h, hc, ha => by
    simp only [Declaration.passes, Bool.and_eq_true, List.all_eq_true] at hc
    have hselves : ∀ r ∈ selfTypes, Compact .plain false (classRefPieces c r) := fun r hr =>
      compact_classRef c (h.2.2.1 r hr).name (h.2.2.1 r hr).args (hc.1.2 r hr)
    have hheading :=
      (compact_heading c h.1 (fun _ => .inl rfl) h.2.1 hc.1.1 .module_).selfTypes hselves
    exact neat_bodied (neat_body c true _ _ none members hheading.neat h.2.2.2 hc.2 ⟨_, ha⟩)
  | .interface name params members, h, hc, ha => by
    simp only [Declaration.passes, Bool.and_eq_true, List.all_eq_true] at hc
    have hheading := compact_heading c h.1 (fun _ => .inr (.inl rfl)) h.2.1 hc.1 .interface
    exact neat_bodied (neat_body c false _ _ none members hheading.neat h.2.2 hc.2 ⟨_, ha⟩)
  | .constant name type, h, hc, _ => by
    obtain ⟨f, htype⟩ := whole_type c h.2 hc
    exact ((compact_name h.1 fun _ => .inl rfl).typed (takesColon_name name) htype).neat
  | .global name type, h, hc, _ => by
    obtain ⟨f, htype⟩ := whole_type c h.2 hc
    have hname : Compact .plain false [.word (.globalVariable name) name.toList] :=
      compact_variable (spelled_globalVariable h.1) rfl (fun _ => rfl) (by simp [head_variable h.1])
    exact (hname.typed ⟨_, _, rfl, rfl⟩ htype).neat
  | .typeAlias name type params, h, hc, _ => by
    simp only [Declaration.passes, Bool.and_eq_true, List.all_eq_true] at hc
    obtain ⟨f, htype⟩ := whole_type c h.2.2 hc.1
    have hheading := compact_heading c h.1 (fun _ => .inr (.inr rfl)) h.2.1 hc.2 .type
    exact (separates_equals.compact hheading htype).neat
termination_by structural a => a

theorem neat_item (c : Context) (nested : Bool) (scope : List String) : (item : Item) →
    item.Formed nested scope c.source → item.passes .clear = true → item.isApart c = true →
      Neat (itemPieces c item)
  | .member _ _ _, h, hc, ha => neat_lead c h.1 (neat_member c _ h.2 hc ha)
  | .declaration _ _ a, h, hc, ha => neat_lead c h.2.2.1 (neat_declaration c scope a h.2.2.2 hc ha)
termination_by structural item => item

/-- A body behind neat pieces. -/
theorem neat_body (c : Context) (nested : Bool) (scope : List String) (ps : List Piece)
    (last : Option Int) :
    (items : List Item) → Neat ps → Item.FormedAll nested scope c.source items →
      Item.allPass .clear items = true → (∃ front, Item.allApart c front items = true) →
        Neat (ps ++ bodyPieces c last items)
  | [], hp, _, _, _ => by
    rw [bodyPieces, List.append_nil]
    exact hp
  | item :: items, hp, h, hc, ⟨front, ha⟩ => by
    simp only [Item.allPass, Bool.and_eq_true] at hc
    simp only [Item.allApart, Bool.and_eq_true] at ha
    have hitem := neat_item c nested scope item h.1 hc.1 ha.1.2
    have := neat_body c nested scope _ (item.location.map (·.endLine)) items
      (neat_broken hp hitem (blankLine last (item.lead.firstLine item.location))) h.2 hc.2 ⟨_, ha.2⟩
    rw [bodyPieces]
    simpa using this
termination_by structural items => items

end

theorem neat_topItem (c : Context) {item : Item} (h : item.FormedTop c.source)
    (hc : item.passes .clear = true) (ha : item.isApart c = true) : Neat (itemPieces c item) := by
  cases item with
  | member _ _ _ => cases h
  | declaration _ lead a => exact neat_lead c h.1 (neat_declaration c [] a h.2 hc ha)

theorem neat_items (c : Context) {items : List Item} (h : ∀ item ∈ items, item.FormedTop c.source)
    (hc : Item.allPass .clear items = true) {front : List Piece}
    (ha : Item.allApart c front items = true) :
    Neat ([.gap .line, .gap .line].intercalate (items.map (itemPieces c))) := by
  induction items generalizing front with
  | nil => exact .nil
  | cons item items ih =>
    simp only [Item.allPass, Bool.and_eq_true] at hc
    simp only [Item.allApart, Bool.and_eq_true] at ha
    have hitem := neat_topItem c (h item (List.mem_cons_self ..)) hc.1 ha.1.2
    have hrest := ih (fun a hm => h a (List.mem_cons_of_mem _ hm)) hc.2 ha.2
    cases items with
    | nil =>
      rw [List.map_singleton, List.intercalate_singleton]
      exact hitem
    | cons next items =>
      rw [List.map_cons, List.map_cons, List.intercalate_cons_cons, List.append_assoc]
      exact neat_broken hitem hrest true

/-- The words of a file do not run together. -/
theorem rootPieces_neat (c : Context) {root : Root} (h : root.Formed c.source)
    (hu : root.Unambiguous c) : Neat (rootPieces c root) :=
  neat_lines (neat_items c h hu.clear hu.apart) .nil

end RubySig.Format
