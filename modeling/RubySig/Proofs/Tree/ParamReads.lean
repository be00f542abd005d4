import RubySig.Proofs.Tree.TyStart

/-!
Printed parameter lists are read back: parameters stand in slots, each of which the reader knows by
its first tokens and by how far the list has come.
-/
namespace RubySig.Grammar

open Format (wordsOf tyPieces paramPieces namePiece commaPieces)
open Format.Piece (mark)

/-- One entry of a parameter list. -/
inductive ParamSlot where
  | required (p : Param)
  | optional (p : Param)
  | rest (p : Param)
  | trailing (p : Param)
  | keyword (name : String) (optional : Bool) (p : Param)
  | restKeywords (p : Param)

namespace ParamSlot

def param : ParamSlot → Param
  | .required p | .optional p | .rest p | .trailing p | .keyword _ _ p | .restKeywords p => p

def withParam (q : Param) : ParamSlot → ParamSlot
  | .required _ => .required q
  | .optional _ => .optional q
  | .rest _ => .rest q
  | .trailing _ => .trailing q
  | .keyword name maybe _ => .keyword name maybe q
  | .restKeywords _ => .restKeywords q

def keyword? : ParamSlot → Option String
  | .keyword name _ _ => some name
  | _ => none

def pieces (d : Format.Context) : ParamSlot → List Format.Piece
  | .required p | .trailing p => paramPieces d p
  | .optional p => mark .question :: paramPieces d p
  | .rest p => mark .star :: paramPieces d p
  | .keyword name maybe p => (if maybe then [mark .question] else []) ++
      namePiece name true :: mark .colon :: .gap .blank :: paramPieces d p
  | .restKeywords p => mark .doubleStar :: paramPieces d p

/-- How far the list is behind an entry that may come next. -/
def after (stage : Stage) : ParamSlot → Option Stage
  | .required _ => if stage = .required then some .required else none
  | .trailing _ => if stage = .trailing then some .trailing else none
  | .optional _ => if stage = .required ∨ stage = .optional then some .optional else none
  | .rest _ => if stage = .required ∨ stage = .optional then some .trailing else none
  | .keyword _ _ _ => if stage = .done then none else some .keywords
  | .restKeywords _ => if stage = .done then none else some .done

end ParamSlot

/-- Puts an entry behind the parameters read so far. -/
def Params.add (ps : Params) : ParamSlot → Params
  | .required p => { ps with required := ps.required ++ [p] }
  | .optional p => { ps with optional := ps.optional ++ [p] }
  | .rest p => { ps with rest := some p }
  | .trailing p => { ps with trailing := ps.trailing ++ [p] }
  | .keyword name true p => { ps with optionalKeywords := ps.optionalKeywords ++ [(name, p)] }
  | .keyword name false p => { ps with requiredKeywords := ps.requiredKeywords ++ [(name, p)] }
  | .restKeywords p => { ps with restKeywords := some p }

/-- Entries that can be read one behind the other; `used` are the names of keywords before them. -/
def Runs : Stage → List String → List ParamSlot → Prop
  | _, _, [] => True
  | stage, used, s :: slots =>
    ∃ next, s.after stage = some next ∧ (∀ name ∈ s.keyword?, name ∉ used) ∧
      Runs next (s.keyword?.toList ++ used) slots

/-- What the parameters read so far have to do with the stage and the names used. -/
structure Fits (stage : Stage) (used : List String) (ps : Params) : Prop where
  names : ∀ name, ps.hasKeyword name = true → name ∈ used
  rest : stage ≠ .done → ps.restKeywords = none

theorem Fits.add {stage next : Stage} {used : List String} {ps : Params} {s : ParamSlot}
    (h : Fits stage used ps) (hs : s.after stage = some next) :
    Fits next (s.keyword?.toList ++ used) (ps.add s) := by
  have hstage : stage ≠ .done := by
    rintro rfl
    cases s <;> simp [ParamSlot.after] at hs
  have hrest := h.rest hstage
  refine ⟨fun name hn => ?_, fun hnext => ?_⟩
  · have hor : ps.hasKeyword name = true ∨ s.keyword? = some name := by
      cases s with
      | keyword k optional p =>
        cases optional
        all_goals
          simp only [Params.hasKeyword, Params.add, List.any_append, List.any_cons, List.any_nil,
            Bool.or_false, Bool.or_eq_true, beq_iff_eq] at hn ⊢
          simp only [ParamSlot.keyword?, Option.some.injEq]
          tauto
      | _ => exact .inl hn
    rcases hor with hn | hn
    · exact List.mem_append_right _ (h.names name hn)
    · rw [hn]
      simp
  · cases s with
    | restKeywords p =>
      simp only [ParamSlot.after, if_neg hstage, Option.some.injEq] at hs
      exact absurd hs.symm hnext
    | keyword k optional p => cases optional <;> exact hrest
    | _ => exact hrest

/-- One entry of a parameter list, given how a type is read. -/
def slot (type : Parser Ty) (stage : Stage) (ps : Params) : Parser (Stage × Params) := do
  if let some (name, optional) ← keywordParam? then
    advance (if optional then 3 else 2)
    let p ← param type
    if ps.hasKeyword name then failAt (← lastPlace) (.duplicateKeyword name)
    else if optional then
      return (.keywords, { ps with optionalKeywords := ps.optionalKeywords ++ [(name, p)] })
    else return (.keywords, { ps with requiredKeywords := ps.requiredKeywords ++ [(name, p)] })
  else if ← eat (.mark .doubleStar) then
    if ps.restKeywords.isSome then failAt (← lastPlace) .secondRestKeyword
    else return (.done, { ps with restKeywords := some (← param type) })
  else if stage == .done then failHere .afterRestKeyword
  else if ← eat (.mark .question) then
    if stage == .required || stage == .optional then
      return (.optional, { ps with optional := ps.optional ++ [← param type] })
    else failAt (← lastPlace) .optionalOutOfOrder
  else if ← eat (.mark .star) then
    if stage == .required || stage == .optional then
      return (.trailing, { ps with rest := some (← param type) })
    else failAt (← lastPlace) .restOutOfOrder
  else match stage with
    | .required => return (.required, { ps with required := ps.required ++ [← param type] })
    | .trailing => return (.trailing, { ps with trailing := ps.trailing ++ [← param type] })
    | _ => failHere .requiredOutOfOrder

theorem params_succ (type : Parser Ty) (fuel : Nat) (stage : Stage) (ps : Params) :
    params type (fuel + 1) stage ps = (do
      if ← isNext (.mark .rparen) then return ps
      let (stage, ps) ← slot type stage ps
      if ← eat (.mark .comma) then params type fuel stage ps else return ps) := rfl

/-- The keyword parameter that a name and the token behind it make. -/
def keywordAt (optional : Bool) (name : Option String) (behind : Option Lexeme) :
    Option (String × Bool) :=
  match name, behind with
  | some name, some (.mark .colon) => some (name, optional)
  | _, _ => none

/-- The keyword parameter that tokens start with. -/
def keywordOf (ls : List Lexeme) : Option (String × Bool) :=
  let optional := ls.head? == some (Lexeme.mark .question)
  let offset := if optional then 1 else 0
  keywordAt optional (ls[offset]?.bind Lexeme.name?) ls[offset + 1]?

variable {c : Context} {β : Type}

theorem keywordParam_eq (ts : List Token) (last : Option Token) (blocks : List CommentBlock) :
    keywordParam? c ⟨ts, last, blocks⟩ =
      .ok (keywordOf (ts.map (·.lexeme)), ⟨ts, last, blocks⟩) := by
  have key (optional : Bool) (name : Option String) (behind : Option Lexeme) :
      (match name, behind with
        | some name, some (.mark .colon) => (Pure.pure (some (name, optional)) : Parser _)
        | _, _ => Pure.pure none) c ⟨ts, last, blocks⟩ =
      .ok (keywordAt optional name behind, ⟨ts, last, blocks⟩) := by
    unfold keywordAt
    split <;> rfl
  simp only [keywordOf, List.head?_map, List.getElem?_map]
  exact key _ _ _

theorem Reads.keyword_bind {f : Option (String × Bool) → Parser β} {ws : List Word}
    {n : List Lexeme → Prop} {S : β → Prop} {v : Option (String × Bool)}
    (hl : ∀ x, n x → keywordOf (lexemesOf ws ++ x) = v) (k : Reads c (f v) ws n S) :
    Reads c (keywordParam? >>= f) ws n S := by
  intro toks rest last blocks ht hrest
  obtain ⟨b, left, hb, hS⟩ := k toks rest last blocks ht hrest
  refine ⟨b, left, ?_, hS⟩
  change (keywordParam? c ⟨toks ++ rest, last, blocks⟩ >>= fun r => f r.1 c r.2) = _
  rw [keywordParam_eq, List.map_append, lexemes_eq ht, hl _ hrest]
  exact hb

/-- What may follow a parameter. -/
def EndsParam (x : List Lexeme) : Prop :=
  x.head? = some (.mark .comma) ∨ x.head? = some (.mark .rparen)

theorem EndsParam.cases {x : List Lexeme} (h : EndsParam x) :
    ∃ m y, x = .mark m :: y ∧ (m = .comma ∨ m = .rparen) := by
  cases x with
  | nil => rcases h with h | h <;> cases h
  | cons l y =>
    rcases h with h | h
    · cases h
      exact ⟨.comma, y, rfl, .inl rfl⟩
    · cases h
      exact ⟨.rparen, y, rfl, .inr rfl⟩

theorem EndsParam.not_colon {x : List Lexeme} (h : EndsParam x) :
    x.head? ≠ some (.mark .colon) := by
  obtain ⟨m, y, rfl, rfl | rfl⟩ := h.cases <;> simp

theorem name?_nameLexeme (w : List Char) :
    (Lexer.nameLexeme w).name? = some (String.ofList w) := by
  have ht := Lexer.nameLexeme_text w
  unfold Lexer.nameLexeme at ht ⊢
  simp only at ht ⊢
  split at ht
  · exact congrArg some ht
  · split
    · split <;> rfl
    · split <;> rfl
    · rfl

theorem name?_namePiece (name : String) (allowReserved : Bool) :
    ∃ l, wordsOf [namePiece name allowReserved] =
      [(l, (Spell.name name allowReserved).toList)] ∧ l.name? = some name := by
  refine ⟨_, rfl, ?_⟩
  split
  · rfl
  · rw [name?_nameLexeme, String.ofList_toList]

theorem Lexeme.not_mark_of_name {l : Lexeme} {s : String} (h : l.name? = some s) (m : Mark) :
    l ≠ .mark m := by
  rintro rfl
  cases h

variable {type : Parser Ty} {d : Format.Context} {f g : Showing}

/-- A type is read where a whole type may stand. -/
def ReadsType (c : Context) (type : Parser Ty) (d : Format.Context) (f g : Showing) (t : Ty) :
    Prop :=
  Reads c type (wordsOf (tyPieces d false t)) (Bound 3 (wordsOf (tyPieces d false t)))
    fun a => a.erase f = (t.reread false).erase g

theorem reads_param {p : Param} (h : ReadsType c type d f g p.type) :
    Reads c (param type) (wordsOf (paramPieces d p)) EndsParam
      fun q => q.erase f = p.reread.erase g := by
  obtain ⟨location, t, name⟩ := p
  unfold param
  refine .here_bind fun start => ?_
  cases name with
  | none =>
    rw [paramPieces, Format.namedPieces, ← List.append_nil (wordsOf _)]
    refine h.bind (fun a ha => ?_) fun x hx => ?_
    · refine .peek_of (P := fun l => l.bind Lexeme.name? = none) (fun x hx => ?_) fun l hl => ?_
      · obtain ⟨m, y, rfl, -⟩ := hx.cases
        rfl
      · rw [hl]
        exact .span_bind fun l => .pure (by simp only [Param.erase, Param.reread, ha])
    · obtain ⟨m, y, rfl, rfl | rfl⟩ := hx.cases <;> exact bound_mark (by decide) _ _ _
  | some s =>
    obtain ⟨l, hw, hl⟩ := name?_namePiece s false
    rw [paramPieces, Format.namedPieces, wordsOf_append, wordsOf_gap, hw]
    refine h.bind (fun a ha => ?_) fun x _ =>
      bound_of_head (fun m _ => Lexeme.not_mark_of_name hl m) _ _ _
    refine .peek_bind (l := some l) (fun x _ => rfl) ?_
    simp only [Option.bind_some, hl]
    exact .advance_one (.span_bind fun l => .pure (by simp only [Param.erase, Param.reread, ha]))

theorem TypeLike.keywordOf_none {ls : List Lexeme} (h : TypeLike ls) : keywordOf ls = none := by
  obtain ⟨l, rest, rfl, hl, hn⟩ := h
  have hq : (l == Lexeme.mark .question) = false := beq_false_of_ne (by rintro rfl; cases hl)
  have hs : (some l == some (Lexeme.mark .question)) = false := hq
  simp only [keywordOf, List.head?_cons, hs, Bool.false_eq_true, if_false, Option.bind_some,
    Nat.zero_add, List.getElem?_cons_succ, ← List.head?_eq_getElem?]
  unfold keywordAt
  split
  case _ name hname hcolon => exact absurd hcolon (hn (by rw [hname]; rfl))
  case _ => rfl

theorem TypeLike.keywordOf_mark {ls : List Lexeme} (h : TypeLike ls) (m : Mark) :
    keywordOf (.mark m :: ls) = none := by
  by_cases hm : m = .question
  · subst hm
    obtain ⟨l, rest, rfl, hl, hn⟩ := h
    change keywordAt true l.name? rest[0]? = none
    rw [← List.head?_eq_getElem?]
    unfold keywordAt
    split
    case _ name hname hcolon => exact absurd hcolon (hn (by rw [hname]; rfl))
    case _ => rfl
  · have hs : (some (Lexeme.mark m) == some (Lexeme.mark .question)) = false :=
      beq_false_of_ne (by simpa using hm)
    simp only [keywordOf, List.head?_cons, hs]
    rfl

theorem TypeLike.head_ne {ls : List Lexeme} (h : TypeLike ls) {m : Mark}
    (hm : startsType (.mark m) = false) : ls.head? ≠ some (.mark m) := by
  obtain ⟨l, rest, rfl, hl, -⟩ := h
  rintro ⟨⟩
  rw [hm] at hl
  cases hl

theorem typeLike_param {p : Param} (h : TypeLike (lexemesOf (wordsOf (tyPieces d false p.type)))) :
    TypeLike (lexemesOf (wordsOf (paramPieces d p))) := by
  obtain ⟨location, t, name⟩ := p
  cases name with
  | none => exact h
  | some s =>
    obtain ⟨l, hw, hl⟩ := name?_namePiece s false
    rw [paramPieces, Format.namedPieces, wordsOf_append, wordsOf_gap, hw, lexemesOf_append]
    refine h.append ?_
    rintro ⟨⟩
    cases hl

/-- What is known of a type that is going to be read. -/
structure Ready (c : Context) (type : Parser Ty) (d : Format.Context) (f g : Showing) (t : Ty) :
    Prop where
  reads : ReadsType c type d f g t
  typeLike : TypeLike (lexemesOf (wordsOf (tyPieces d false t)))

/-- What is known of the entry that is read for a printed one. -/
def SlotRereads (f g : Showing) (ps : Params) (s : ParamSlot) (next : Stage) (r : Stage × Params) :
    Prop :=
  r.1 = next ∧ ∃ q, r.2 = ps.add (s.withParam q) ∧ q.erase f = s.param.reread.erase g

section Slot

variable {stage next : Stage} {ps : Params}

/-- The parameter is the last thing that is read of an entry. -/
theorem reads_slotParam {s : ParamSlot} (h : ReadsType c type d f g s.param.type)
    {φ : Param → Stage × Params}
    (hφ : ∀ q : Param, q.erase f = s.param.reread.erase g → SlotRereads f g ps s next (φ q)) :
    Reads c (do let q ← param type; return φ q) (wordsOf (paramPieces d s.param)) EndsParam
      (SlotRereads f g ps s next) := by
  rw [← List.append_nil (wordsOf _)]
  exact (reads_param h).bind (fun q hq => .pure (hφ q hq)) fun x hx => hx

theorem reads_keywordSlot {name : String} {maybe : Bool} {p : Param}
    (h : ReadsType c type d f g p.type) (hnew : ps.hasKeyword name = false) :
    Reads c (slot type stage ps) (wordsOf ((ParamSlot.keyword name maybe p).pieces d)) EndsParam
      (SlotRereads f g ps (.keyword name maybe p) .keywords) := by
  obtain ⟨l, hw, hl⟩ := name?_namePiece name true
  have hwords : wordsOf ((ParamSlot.keyword name maybe p).pieces d) =
      (if maybe then [(.mark .question, Mark.question.text.toList)] else []) ++
        ((l, (Spell.name name true).toList) :: (.mark .colon, Mark.colon.text.toList) ::
          wordsOf (paramPieces d p)) := by
    have hone := congrArg (List.head? ·) hw
    cases maybe <;> simp_all [ParamSlot.pieces, namePiece]
  rw [hwords]
  unfold slot
  refine .keyword_bind (v := some (name, maybe)) (fun x _ => ?_) ?_
  · cases maybe with
    | true => simp [keywordOf, keywordAt, hl]
    | false =>
      have hne : l ≠ .mark .question := Lexeme.not_mark_of_name hl _
      simp [keywordOf, keywordAt, hl, hne]
  · cases maybe with
    | true =>
      refine .advance_three ?_
      rw [← List.append_nil (wordsOf _)]
      refine (reads_param h).bind (fun q hq => ?_) fun x hx => hx
      rw [hnew]
      exact .pure ⟨rfl, q, rfl, hq⟩
    | false =>
      refine .advance_two ?_
      rw [← List.append_nil (wordsOf _)]
      refine (reads_param h).bind (fun q hq => ?_) fun x hx => hx
      rw [hnew]
      exact .pure ⟨rfl, q, rfl, hq⟩

/-- Nothing in front of a parameter tells a required one from one behind the rest parameter; the
stage does. -/
theorem reads_bareSlot {s : ParamSlot} (h : Ready c type d f g s.param.type)
    (hs : stage = .required ∧ s = .required s.param ∨ stage = .trailing ∧ s = .trailing s.param) :
    Reads c (slot type stage ps) (wordsOf (paramPieces d s.param)) EndsParam
      (SlotRereads f g ps s stage) := by
  have hlike {x : List Lexeme} (hx : EndsParam x) :
      TypeLike (lexemesOf (wordsOf (paramPieces d s.param)) ++ x) :=
    (typeLike_param h.typeLike).append hx.not_colon
  unfold slot
  refine .keyword_bind (v := none) (fun x hx => (hlike hx).keywordOf_none) ?_
  refine .eat_miss (fun x hx => (hlike hx).head_ne rfl) ?_
  rcases hs with ⟨rfl, hs⟩ | ⟨rfl, hs⟩
  all_goals
    refine .eat_miss (fun x hx => (hlike hx).head_ne rfl) ?_
    refine .eat_miss (fun x hx => (hlike hx).head_ne rfl) ?_
    refine reads_slotParam h.reads fun q hq => ⟨rfl, q, ?_, hq⟩
    rw [hs]
    rfl

theorem reads_slot {s : ParamSlot} (h : Ready c type d f g s.param.type)
    (hs : s.after stage = some next) {used : List String} (hf : Fits stage used ps)
    (hu : ∀ name ∈ s.keyword?, name ∉ used) :
    Reads c (slot type stage ps) (wordsOf (s.pieces d)) EndsParam (SlotRereads f g ps s next) := by
  have hlike {x : List Lexeme} (hx : EndsParam x) :
      TypeLike (lexemesOf (wordsOf (paramPieces d s.param)) ++ x) :=
    (typeLike_param h.typeLike).append hx.not_colon
  cases s with
  | required p =>
    obtain ⟨rfl, hnext⟩ := Option.ite_none_right_eq_some.mp hs
    cases hnext
    exact reads_bareSlot h (.inl ⟨rfl, rfl⟩)
  | trailing p =>
    obtain ⟨rfl, hnext⟩ := Option.ite_none_right_eq_some.mp hs
    cases hnext
    exact reads_bareSlot h (.inr ⟨rfl, rfl⟩)
  | optional p =>
    obtain ⟨hstage, hnext⟩ := Option.ite_none_right_eq_some.mp hs
    cases hnext
    unfold slot
    refine .keyword_bind (v := none) (fun x hx => (hlike hx).keywordOf_mark .question) ?_
    refine .eat_miss (fun x _ => by rintro ⟨⟩) ?_
    rcases hstage with rfl | rfl
    all_goals exact .eat_bind (reads_slotParam h.reads fun q hq => ⟨rfl, q, rfl, hq⟩)
  | rest p =>
    obtain ⟨hstage, hnext⟩ := Option.ite_none_right_eq_some.mp hs
    cases hnext
    unfold slot
    refine .keyword_bind (v := none) (fun x hx => (hlike hx).keywordOf_mark .star) ?_
    refine .eat_miss (fun x _ => by rintro ⟨⟩) ?_
    rcases hstage with rfl | rfl
    all_goals
      refine .eat_miss (fun x _ => by rintro ⟨⟩) ?_
      exact .eat_bind (reads_slotParam h.reads fun q hq => ⟨rfl, q, rfl, hq⟩)
  | keyword name maybe p =>
    obtain ⟨-, hnext⟩ := Option.ite_none_left_eq_some.mp hs
    cases hnext
    refine reads_keywordSlot h.reads (Bool.eq_false_iff.mpr fun hk => ?_)
    exact hu name rfl (hf.names name hk)
  | restKeywords p =>
    obtain ⟨hstage, hnext⟩ := Option.ite_none_left_eq_some.mp hs
    cases hnext
    unfold slot
    refine .keyword_bind (v := none) (fun x hx => (hlike hx).keywordOf_mark .doubleStar) ?_
    refine .eat_bind ?_
    rw [hf.rest hstage]
    exact reads_slotParam h.reads fun q hq => ⟨rfl, q, rfl, hq⟩

end Slot

namespace ParamSlot

def erase (f : Showing) (s : ParamSlot) : ParamSlot := s.withParam (s.param.erase f)

def reread (s : ParamSlot) : ParamSlot := s.withParam s.param.reread

theorem erase_withParam {s : ParamSlot} {q : Param} (h : q.erase f = s.param.reread.erase g) :
    (s.withParam q).erase f = s.reread.erase g := by
  cases s <;> simp_all [erase, reread, withParam, param]

end ParamSlot

theorem head_slot {s : ParamSlot} (h : Ready c type d f g s.param.type) :
    ∃ l, (lexemesOf (wordsOf (s.pieces d))).head? = some l ∧ l ≠ .mark .rparen := by
  have hparam : ∃ l, (lexemesOf (wordsOf (paramPieces d s.param))).head? = some l ∧
      l ≠ .mark .rparen := by
    obtain ⟨l, rest, hls, hl, -⟩ := typeLike_param h.typeLike
    refine ⟨l, by rw [hls]; rfl, ?_⟩
    rintro rfl
    cases hl
  cases s with
  | required p => exact hparam
  | trailing p => exact hparam
  | keyword name maybe p =>
    obtain ⟨l, hw, hl⟩ := name?_namePiece name true
    have hone := congrArg (List.head? ·) hw
    cases maybe with
    | true => exact ⟨_, rfl, by simp⟩
    | false =>
      refine ⟨_, rfl, ?_⟩
      simp only [namePiece, wordsOf_word, List.head?_cons, Option.some.injEq, Prod.mk.injEq] at hone
      rw [hone.1]
      exact Lexeme.not_mark_of_name hl _
  | _ => exact ⟨_, rfl, by simp⟩

theorem reads_params {slots : List ParamSlot} (h : ∀ s ∈ slots, Ready c type d f g s.param.type)
    {stage : Stage} {used : List String} {ps : Params} (hr : Runs stage used slots)
    (hf : Fits stage used ps) (fuel : Nat) (hfuel : slots.length ≤ fuel) :
    Reads c (params type fuel stage ps)
      ([(.mark .comma, Mark.comma.text.toList)].intercalate
        (slots.map fun s => wordsOf (s.pieces d)))
      (fun x => x.head? = some (.mark .rparen))
      fun qs => ∃ read : List ParamSlot, read.map (ParamSlot.erase f) =
        slots.map (fun s => s.reread.erase g) ∧
        qs = read.foldl Params.add ps := by
  induction slots generalizing stage used ps fuel with
  | nil =>
    cases fuel with
    | zero => exact .pure ⟨[], rfl, rfl⟩
    | succ fuel =>
      rw [params_succ]
      refine .isNext_bind (b := true) (fun x hx => ?_) (.pure ⟨[], rfl, rfl⟩)
      simp only [List.map_nil, List.intercalate_nil, lexemesOf_nil, List.nil_append, hx,
        beq_self_eq_true]
  | cons s slots ih =>
    cases fuel with
    | zero => cases hfuel
    | succ fuel =>
      obtain ⟨next, hnext, hused, hrest⟩ := hr
      have hs := h s (List.mem_cons_self ..)
      obtain ⟨l, hl, hne⟩ := head_slot hs
      have hslot := reads_slot hs hnext hf hused
      rw [params_succ]
      have hopen (ws : List Word) (x : List Lexeme) :
          ((lexemesOf (wordsOf (s.pieces d) ++ ws) ++ x).head? == some (.mark .rparen)) =
            false := by
        rw [lexemesOf_append, List.append_assoc, List.head?_append, hl]
        simpa using hne
      cases slots with
      | nil =>
        rw [List.map_singleton, List.intercalate_singleton, ← List.append_nil (wordsOf _)]
        refine .isNext_bind (b := false) (fun x _ => hopen [] x) ?_
        refine hslot.bind (fun r hr => ?_) fun x hx => .inr hx
        obtain ⟨hr₁, q, hr₂, hq⟩ := hr
        refine .eat_miss (fun x hx => by simp [hx]) (.pure ?_)
        exact ⟨[s.withParam q], by simp [ParamSlot.erase_withParam hq], hr₂⟩
      | cons t slots =>
        rw [List.map_cons, List.map_cons, List.intercalate_cons_cons, List.append_assoc]
        refine .isNext_bind (b := false) (fun x _ => hopen _ x) ?_
        refine hslot.bind (fun r hr => ?_) fun x _ => .inl rfl
        obtain ⟨hr₁, q, hr₂, hq⟩ := hr
        refine .eat_bind ?_
        obtain ⟨stage', ps'⟩ := r
        obtain rfl : stage' = next := hr₁
        obtain rfl : ps' = ps.add (s.withParam q) := hr₂
        have hfits : Fits stage' (s.keyword?.toList ++ used) (ps.add (s.withParam q)) := by
          have hw : (s.withParam q).after stage = some stage' := by cases s <;> exact hnext
          have hk : (s.withParam q).keyword? = s.keyword? := by cases s <;> rfl
          exact hk ▸ hf.add hw
        refine (ih (fun u hu => h u (List.mem_cons_of_mem _ hu)) hrest hfits fuel
          (by simpa using hfuel)).imp (fun x hx => hx) fun qs hqs => ?_
        obtain ⟨read, hread, rfl⟩ := hqs
        exact ⟨s.withParam q :: read, by
          rw [List.map_cons, hread, ParamSlot.erase_withParam hq]; rfl, rfl⟩

end RubySig.Grammar
