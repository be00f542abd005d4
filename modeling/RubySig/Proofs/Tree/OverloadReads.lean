import RubySig.Proofs.Format.ItemPieces
import RubySig.Proofs.Tree.DeclarationReads
import RubySig.Proofs.Tree.MethodFormed

/-! Printed type parameters, annotations and signatures of methods are read back. -/
namespace RubySig.Grammar

open Format (wordsOf tyPieces typeParamPieces typeParamsPieces overloadPieces methodTypePieces
  entriesPieces methodEntryPieces)
open Format.Piece (mark keyword named)

variable {c : Context} {d : Format.Context} {f g : Showing} {scope : List String} {α β : Type}
  {ws : List Word} {n : List Lexeme → Prop} {S : β → Prop}

theorem Reads.eaten {l : Lexeme} {w : List Char} : Reads c (eat l) [(l, w)] n (· = true) := by
  have h : Reads c (eat l >>= Pure.pure) [(l, w)] n (· = true) := .eat_bind (.pure rfl)
  rwa [bind_pure] at h

theorem Reads.missed {l : Lexeme} : Reads c (eat l) [] (fun x => x.head? ≠ some l) (· = false) := by
  have h : Reads c (eat l >>= Pure.pure) [] (fun x => x.head? ≠ some l) (· = false) :=
    .eat_miss (fun x hx => hx) (.pure rfl)
  rwa [bind_pure] at h

/-- A word that may be left out. -/
theorem reads_word_if (b : Bool) (k : Keyword) :
    Reads c (eat (.keyword k)) (wordsOf (if b then [keyword k, .gap .blank] else []))
      (fun x => x.head? ≠ some (.keyword k)) (· = b) := by
  cases b with
  | true => exact Reads.eaten.imp (fun _ h => h) fun _ h => h
  | false => exact .missed

def TypeParamRereads (f g : Showing) (p a : TypeParam) : Prop :=
  (a.rewrite (.erasing f)).bare = ((p.rewrite .rereading).rewrite (.erasing g)).bare

theorem TypeParamRereads.name {p a : TypeParam} (h : TypeParamRereads f g p a) :
    a.name = p.name := by
  have hname := congrArg TypeParam.name (show (a.rewrite (.erasing f)).bare = _ from h)
  exact hname

def variance : Parser Variance := do
  if ← eat (.keyword .out) then return .covariant
  else if ← eat (.keyword .in_) then return .contravariant
  else return .invariant

theorem reads_variance (v : Variance) : Reads c variance (wordsOf (Format.varianceWords v))
    (fun x => x.head? ≠ some (.keyword .out) ∧ x.head? ≠ some (.keyword .in_)) (· = v) := by
  unfold variance
  cases v with
  | invariant => exact .eat_miss (fun x hx => hx.1) (.eat_miss (fun x hx => hx.2) (.pure rfl))
  | covariant => exact .eat_bind (.pure rfl)
  | contravariant =>
    exact .eat_miss (fun x _ => by simp [Format.varianceWords]) (.eat_bind (.pure rfl))

def bound (depth : Nat) (scope : List String) : Parser (Option Ty) := do
  if ← eat (.mark .lt) then return some (← type depth scope) else return none

theorem reads_bound (hk : Keeps c d f g) {b : Option Ty} (hb : ∀ t ∈ b, t.Formed scope d.source)
    {depth : Nat} (hd : 4 * (wordsOf (Format.boundPieces d b)).length ≤ depth) :
    Reads c (bound depth scope) (wordsOf (Format.boundPieces d b))
      (fun x => ∃ m ∉ continuers, m ≠ .lt ∧ x.head? = some (.mark m))
      fun a => a.map (Ty.erase f) = (b.map (Ty.reread false)).map (Ty.erase g) := by
  unfold bound
  cases b with
  | none =>
    refine .eat_miss ?_ (.pure rfl)
    rintro x ⟨m, -, hm, hx⟩
    rw [Format.boundPieces, wordsOf_nil, lexemesOf_nil, List.nil_append, hx]
    simpa using hm
  | some t =>
    have hwords : wordsOf (Format.boundPieces d (some t)) =
        (.mark .lt, Mark.lt.text.toList) :: tyWords d false t := by
      simp [Format.boundPieces, tyWords]
    rw [hwords] at hd ⊢
    rw [List.length_cons] at hd
    refine .eat_bind ?_
    refine ((readsBack hk depth).ready (hb t rfl) (by omega)).reads.last (fun a ha => .pure ?_) ?_
    · exact congrArg some ha
    · rintro x ⟨m, hm, -, hx⟩
      exact bound_closer hm hx _ _

def typeParam (depth : Nat) (scope : List String) : Parser TypeParam := do
  let start ← here
  let unchecked ← eat (.keyword .unchecked)
  let variance ← variance
  match ← peek with
  | some (.constant name) =>
    advance 1
    let bound ← bound depth (name :: scope)
    return ⟨← spanFrom start, name, variance, unchecked, bound⟩
  | _ => failMissing .typeParam

theorem typeParamsFrom_succ (depth fuel : Nat) (scope : List String) :
    typeParamsFrom depth (fuel + 1) scope = (do
      if ← isNext (.mark .rbracket) then return []
      let p ← typeParam depth scope
      if ← eat (.mark .comma) then return p :: (← typeParamsFrom depth fuel (p.name :: scope))
      else return [p]) := by
  rw [typeParamsFrom, typeParam]
  simp only [bind_assoc, variance, bound]
  refine bind_congr fun stop => ?_
  cases stop with
  | true => rfl
  | false =>
    refine bind_congr fun start => bind_congr fun unchecked => bind_congr fun out =>
      bind_congr fun variance => bind_congr fun found => ?_
    cases found with
    | none => rfl
    | some l => cases l <;> simp [bind_assoc] <;> rfl

def typeParamWords (d : Format.Context) (p : TypeParam) : List Word := wordsOf (typeParamPieces d p)

theorem typeParamWords_eq {p : TypeParam} (h : Lexer.ReadsAs p.name (.constant p.name)) :
    typeParamWords d p = wordsOf (if p.unchecked then [keyword .unchecked, .gap .blank] else []) ++
      (wordsOf (Format.varianceWords p.variance) ++ ((.constant p.name, p.name.toList) ::
        wordsOf (Format.boundPieces d p.bound))) := by
  have hname := (h.name (.inl rfl)).2
  simp [typeParamWords, typeParamPieces, hname]

theorem variance_head (v : Variance) (s : String) (ws : List Word) (x : List Lexeme) :
    ∃ l,
    (lexemesOf (wordsOf (Format.varianceWords v) ++ ((.constant s, s.toList) :: ws)) ++ x).head? =
      some l ∧ l ≠ .keyword .unchecked := by
  cases v <;> exact ⟨_, rfl, by simp⟩

theorem reads_typeParam (hk : Keeps c d f g) {p : TypeParam}
    (hn : Lexer.ReadsAs p.name (.constant p.name))
    (hb : ∀ t ∈ p.bound, t.Formed (p.name :: scope) d.source) {depth : Nat}
    (hd : 4 * (typeParamWords d p).length ≤ depth) :
    Reads c (typeParam depth scope) (typeParamWords d p)
      (fun x => ∃ m ∉ continuers, m ≠ .lt ∧ x.head? = some (.mark m)) (TypeParamRereads f g p) := by
  rw [typeParamWords_eq hn] at hd ⊢
  simp only [List.length_append, List.length_cons] at hd
  unfold typeParam
  refine .here_bind fun start => ?_
  refine (reads_word_if p.unchecked .unchecked).bind (fun unchecked hu => ?_) fun x _ => ?_
  · refine (reads_variance p.variance).bind (fun v hv => ?_) fun x _ => by simp
    refine .peek_bind (l := some (.constant p.name)) (fun x _ => rfl) (.advance_one ?_)
    refine (reads_bound hk hb (by omega)).last (fun b hb' => .span_bind fun l => .pure ?_)
      fun x hx => hx
    subst hu hv
    simp only [TypeParamRereads, TypeParam.rewrite, TypeParam.bare, Rewriting.erasing,
      Rewriting.rereading, hb']
  · obtain ⟨l, hl, hne⟩ := variance_head p.variance p.name
      (wordsOf (Format.boundPieces d p.bound)) x
    rw [hl]
    simpa using hne

theorem typeParamWords_head {p : TypeParam} (h : Lexer.ReadsAs p.name (.constant p.name))
    (x : List Lexeme) : (lexemesOf (typeParamWords d p) ++ x).head? ≠ some (.mark .rbracket) := by
  rw [typeParamWords_eq h]
  cases p.unchecked <;> cases p.variance <;> simp [Format.varianceWords]

theorem reads_typeParamsFrom (hk : Keeps c d f g) {ps : List TypeParam} {depth : Nat}
    (hd : ∀ p ∈ ps, 4 * (typeParamWords d p).length ≤ depth) :
    ∀ (scope : List String) (fuel : Nat), TypeParam.FormedAll scope d.source ps →
      ps.length < fuel → Reads c (typeParamsFrom depth fuel scope)
        ([(.mark .comma, Mark.comma.text.toList)].intercalate (ps.map (typeParamWords d)))
        (fun x => x.head? = some (.mark .rbracket)) (List.Forall₂ (TypeParamRereads f g) ps) := by
  induction ps with
  | nil =>
    intro scope fuel _ hf
    obtain ⟨fuel, rfl⟩ : ∃ k, fuel = k + 1 := ⟨fuel - 1, by omega⟩
    rw [typeParamsFrom]
    exact .isNext_bind (b := true) (fun x hx => by simpa using hx) (.pure .nil)
  | cons p ps ih =>
    intro scope fuel h hf
    obtain ⟨hn, hb, hps⟩ := h
    rw [List.length_cons] at hf
    obtain ⟨fuel, rfl⟩ : ∃ k, fuel = k + 1 := ⟨fuel - 1, by omega⟩
    have hp := reads_typeParam hk hn hb (hd p (List.mem_cons_self ..))
    have hhead (ws : List Word) (x : List Lexeme) :
        ((lexemesOf (typeParamWords d p ++ ws) ++ x).head? == some (.mark .rbracket)) = false := by
      rw [lexemesOf_append, List.append_assoc]
      exact beq_false_of_ne (typeParamWords_head hn _)
    rw [typeParamsFrom_succ]
    cases ps with
    | nil =>
      rw [List.map_singleton, List.intercalate_singleton, ← List.append_nil (typeParamWords d p)]
      refine .isNext_bind (b := false) (fun x _ => hhead [] x) ?_
      refine hp.bind (fun a ha => ?_) fun x hx => ⟨.rbracket, by decide, by decide, hx⟩
      exact .eat_miss (fun x hx => by simp [hx]) (.pure (.cons ha .nil))
    | cons q ps =>
      rw [List.map_cons, List.map_cons, List.intercalate_cons_cons, List.append_assoc]
      refine .isNext_bind (b := false) (fun x _ => hhead _ x) ?_
      refine hp.bind (fun a ha => ?_) fun x _ => ⟨.comma, by decide, by decide, rfl⟩
      refine .eat_bind ?_
      rw [if_pos rfl, ha.name]
      refine (ih (fun r hr => hd r (List.mem_cons_of_mem _ hr)) (p.name :: scope) fuel hps
        (by omega)).last (fun as has => .pure (.cons ha has)) fun x hx => hx

/-- Type parameters in brackets are read back, none where no bracket comes next. -/
theorem reads_typeParams (hk : Keeps c d f g) {ps : List TypeParam}
    (h : TypeParam.FormedAll scope d.source ps) {fuel : Nat}
    (hf : 4 * (wordsOf (typeParamsPieces d ps)).length ≤ fuel) :
    Reads c (typeParams fuel scope) (wordsOf (typeParamsPieces d ps))
      (fun x => x.head? ≠ some (.mark .lbracket)) (List.Forall₂ (TypeParamRereads f g) ps) := by
  unfold typeParams
  cases ps with
  | nil => exact .eat_miss (fun x hx => hx) (.pure .nil)
  | cons p ps =>
    have hwords : wordsOf (typeParamsPieces d (p :: ps)) =
        (.mark .lbracket, Mark.lbracket.text.toList) ::
        ([(.mark .comma, Mark.comma.text.toList)].intercalate ((p :: ps).map (typeParamWords d)) ++
          [(.mark .rbracket, Mark.rbracket.text.toList)]) := by
      rw [typeParamsPieces, wordsOf_bracketed (by simp), List.map_map]
      rfl
    rw [hwords] at hf ⊢
    rw [List.length_cons, List.length_append, List.length_singleton] at hf
    have hcount := count_le_intercalate (.mark .comma, Mark.comma.text.toList)
      ((p :: ps).map (typeParamWords d))
    rw [List.length_map] at hcount
    refine .eat_bind ?_
    refine (reads_typeParamsFrom hk (fun q hq => ?_) scope fuel h (by omega)).bind
      (fun as has => .expect_bind (.pure has)) fun x _ => rfl
    have hmem := length_le_intercalate [(.mark .comma, Mark.comma.text.toList)]
      (List.mem_map_of_mem (f := typeParamWords d) hq)
    omega

theorem within_eq {ps as : List TypeParam} (h : List.Forall₂ (TypeParamRereads f g) ps as) :
    within as scope = within ps scope := by
  have hnames : as.map (·.name) = ps.map (·.name) := by
    induction h with
    | nil => rfl
    | cons ha _ ih => rw [List.map_cons, List.map_cons, ih, ha.name]
  rw [within, within, hnames]

/-- Annotations are read as they are printed, up to the first other token. -/
theorem reads_notes {ns : List Note} {ws : List Word}
    (hw : ws.map (·.1) = ns.map fun n => .note n.text) :
    Reads c notes ws (fun x => ∀ l ∈ x.head?, isNote l = false)
      fun as => as.map Note.bare = ns.map Note.bare := by
  intro toks rest last blocks ht hrest
  have hlex : toks.map (·.lexeme) = ns.map fun n => .note n.text := by
    rw [lexemes_eq ht]
    exact hw
  have hstop : (rest.map noteOf?).takeWhile (·.isSome) = [] := by
    cases rest with
    | nil => rfl
    | cons t rest =>
      rw [List.map_cons, List.takeWhile_cons, noteOf_eq_none (hrest t.lexeme rfl)]
      rfl
  have hnotes : ((toks ++ rest).map noteOf?).takeWhile (·.isSome) = toks.map noteOf? ∧
      ((toks.map noteOf?).filterMap id).map Note.bare = ns.map Note.bare := by
    clear ht hw
    induction toks generalizing ns with
    | nil =>
      cases ns with
      | nil => exact ⟨hstop, rfl⟩
      | cons m ns => cases hlex
    | cons t toks ih =>
      cases ns with
      | nil => cases hlex
      | cons m ns =>
        obtain ⟨l, start, stop⟩ := t
        simp only [List.map_cons, List.cons.injEq] at hlex
        obtain ⟨rfl, hlex⟩ := hlex
        obtain ⟨h₁, h₂⟩ := ih hlex
        refine ⟨?_, ?_⟩
        · rw [List.cons_append, List.map_cons, List.takeWhile_cons_of_pos (by rfl),
            h₁, List.map_cons]
        · rw [List.map_cons]
          change _ :: ((toks.map noteOf?).filterMap id).map Note.bare = _
          rw [h₂]
          rfl
  refine ⟨_, blocks, ?_, hnotes.2⟩
  change (advance (((toks ++ rest).map noteOf?).takeWhile (·.isSome)).length >>= fun _ =>
    Pure.pure ((((toks ++ rest).map noteOf?).takeWhile (·.isSome)).filterMap id) : Parser _) c _ = _
  rw [hnotes.1, List.length_map]
  change Except.ok (_, State.mk ((toks ++ rest).drop toks.length)
    ((((toks ++ rest).take toks.length).getLast?).or last) blocks) = _
  rw [List.drop_left, List.take_left]

theorem wordsOf_notes (ns : List Note) (gap : Format.Gap) :
    (wordsOf (ns.flatMap fun n => [Format.notePiece d n, .gap gap])).map (·.1) =
      ns.map fun n => .note n.text := by
  induction ns with
  | nil => rfl
  | cons n ns ih =>
    rw [List.flatMap_cons, wordsOf_append, List.map_append, ih]
    rfl

def MethodTypeRereads (f g : Showing) (m a : MethodType) : Prop :=
  (a.rewrite (.erasing f)).bare = ((m.rewrite .rereading).rewrite (.erasing g)).bare

def OverloadRereads (f g : Showing) (o a : Overload) : Prop :=
  (a.rewrite (.erasing f)).bare = ((o.rewrite .rereading).rewrite (.erasing g)).bare

def signatureWords (d : Format.Context) (m : MethodType) : List Word :=
  wordsOf (Format.signaturePiecesOf d [] (Format.blockPieces d m.block) m.signature)

theorem wordsOf_methodType (m : MethodType) :
    wordsOf (methodTypePieces d m) =
      wordsOf (typeParamsPieces d m.params) ++ signatureWords d m := by
  have hspaced (ps : List Format.Piece) : wordsOf (Format.spacedPieces ps) = wordsOf ps := by
    unfold Format.spacedPieces
    split
    case isTrue h => rw [List.isEmpty_iff.mp h]
    case isFalse => simp
  obtain ⟨l, s, ps, block⟩ := m
  cases s
  simp [methodTypePieces, signatureWords, Format.signaturePiecesOf, Format.signaturePieces, hspaced]

theorem signatureWords_head (m : MethodType) (x : List Lexeme) :
    ∃ k ∈ [Mark.lparen, .lbrace, .question, .arrow],
      (lexemesOf (signatureWords d m) ++ x).head? = some (.mark k) := by
  obtain ⟨l, s, ps, block⟩ := m
  rw [signatureWords, signaturePiecesOf_eq, Format.signaturePieces]
  cases hs : s.slots with
  | cons e es => exact ⟨.lparen, by decide, by rw [List.nil_append, wordsOf_append,
      wordsOf_append, wordsOf_list (by simp)]; rfl⟩
  | nil =>
    rcases block with _ | ⟨lb, inner, required⟩
    · exact ⟨.arrow, by decide, rfl⟩
    · cases required with
      | true => exact ⟨.lbrace, by decide, by simp [Format.listPieces, Format.blockPieces,
          Format.clausePieces]⟩
      | false => exact ⟨.question, by decide, by simp [Format.listPieces, Format.blockPieces,
          Format.clausePieces]⟩

theorem map_rereads {γ : Type} {P : γ → γ → Prop} {u v : γ → γ} (hP : ∀ p a, P p a → u a = v p)
    {ps as : List γ} (h : List.Forall₂ P ps as) : as.map u = ps.map v := by
  induction h with
  | nil => rfl
  | cons ha _ ih => rw [List.map_cons, List.map_cons, ih, hP _ _ ha]

theorem reads_methodType (hk : Keeps c d f g) {m : MethodType} (h : m.Formed scope d.source)
    {fuel : Nat} (hf : 4 * (wordsOf (methodTypePieces d m)).length ≤ fuel) :
    Reads c (methodType fuel scope) (wordsOf (methodTypePieces d m))
      (Bound 1 (wordsOf (methodTypePieces d m))) (MethodTypeRereads f g m) := by
  rw [wordsOf_methodType] at hf ⊢
  rw [List.length_append] at hf
  obtain ⟨front, hfront⟩ := signature_ends (d := d) (Format.blockPieces d m.block) m.signature
  have hresult := words_ne_nil (typeLike_ty d true m.signature.result h.signature.result)
  unfold methodType
  refine .here_bind fun start => ?_
  refine (reads_typeParams hk h.params (by omega)).bind (fun ps hps => ?_) fun x _ => ?_
  · rw [within_eq hps]
    have hsig := (readsBack (c := c) hk fuel).signature h.signature (Format.blockPieces d m.block)
      (show 4 * (signatureWords d m).length ≤ fuel by omega)
    refine (reads_signature hsig fun b hb => ?_).last (fun r hr => ?_) fun x hx => ?_
    · obtain ⟨lb, inner, required⟩ := b
      have hblock := length_block (d := d) lb inner required
      have houter := (length_signature (d := d) (Format.blockPieces d m.block) m.signature).2.2.2
      rw [hb] at houter
      have hformed := h.block
      rw [hb] at hformed
      refine (readsBack hk fuel).signature hformed [] ?_
      rw [signatureWords, hb] at hf
      change 4 * (wordsOf (Format.signaturePiecesOf d [] [] inner)).length ≤ fuel
      omega
    · obtain ⟨inner, block⟩ := r
      refine .span_bind fun l => .pure ?_
      have hparams : (ps.map (TypeParam.rewrite (.erasing f))).map TypeParam.bare =
          ((m.params.map (TypeParam.rewrite .rereading)).map
            (TypeParam.rewrite (.erasing g))).map TypeParam.bare := by
        rw [List.map_map, List.map_map, List.map_map]
        exact map_rereads (fun p a ha => ha) hps
      simp only [MethodTypeRereads, MethodType.rewrite, MethodType.bare, Rewriting.erasing,
        Rewriting.rereading]
      simp only [Rewriting.erasing, Rewriting.rereading] at hparams
      rw [hparams, hr.1, hr.2]
    · rw [signatureWords, hfront, ← List.append_assoc] at hx
      exact hx.of_last hresult
  · obtain ⟨k, hk, hx⟩ := signatureWords_head (d := d) m x
    rw [hx]
    rintro ⟨⟩
    exact absurd hk (by decide)

theorem Bound.suffix {level : Nat} {ws vs : List Word} {x : List Lexeme}
    (h : Bound level (ws ++ vs) x) : Bound level vs x := by
  by_cases hv : vs = []
  · subst hv
    exact ⟨h.bracket, by simp, h.question, h.ampersand, h.pipe⟩
  · exact h.of_last hv

def overload (depth : Nat) (scope : List String) : Parser Overload := do
  let start ← here
  let ns ← notes
  let method ← methodType depth scope
  return ⟨← spanFrom start, method, ns⟩

theorem overloads_succ (depth fuel : Nat) (scope : List String) :
    overloads depth scope (fuel + 1) = (do
      if ← eat (.mark .ellipsis) then return ([], true)
      let o ← overload depth scope
      if ← eat (.mark .pipe) then
        let (more, overloading) ← overloads depth scope fuel
        return (o :: more, overloading)
      else return ([o], false)) := by
  rw [overloads]
  simp only [overload, bind_assoc]
  refine bind_congr fun stop => ?_
  cases stop with
  | true => rfl
  | false => simp

def overloadWords (d : Format.Context) (o : Overload) : List Word := wordsOf (overloadPieces d o)

theorem overloadWords_eq (o : Overload) : overloadWords d o =
    wordsOf (o.notes.flatMap fun n => [Format.notePiece d n, .gap .blank]) ++
      wordsOf (methodTypePieces d o.method) := by
  rw [overloadWords, overloadPieces, wordsOf_append]

/-- A signature of a method starts with a bracket, an arrow or a question mark. -/
theorem methodTypeWords_head (m : MethodType) (x : List Lexeme) :
    ∃ k ∈ [Mark.lparen, .lbrace, .question, .arrow, .lbracket],
      (lexemesOf (wordsOf (methodTypePieces d m)) ++ x).head? = some (.mark k) := by
  rw [wordsOf_methodType, lexemesOf_append]
  cases hp : m.params with
  | nil =>
    obtain ⟨k, hk, hx⟩ := signatureWords_head (d := d) m x
    exact ⟨k, by simp at hk ⊢; tauto, hx⟩
  | cons p ps =>
    rw [typeParamsPieces, wordsOf_bracketed (by simp)]
    exact ⟨.lbracket, by decide, rfl⟩

theorem reads_overload (hk : Keeps c d f g) {o : Overload} (h : o.method.Formed scope d.source)
    {depth : Nat} (hd : 4 * (overloadWords d o).length ≤ depth) :
    Reads c (overload depth scope) (overloadWords d o) (Bound 1 (overloadWords d o))
      (OverloadRereads f g o) := by
  rw [overloadWords_eq] at hd ⊢
  rw [List.length_append] at hd
  unfold overload
  refine .here_bind fun start => ?_
  refine (reads_notes (wordsOf_notes o.notes .blank)).bind (fun ns hns => ?_) fun x _ l hl => ?_
  · refine (reads_methodType hk h (by omega)).last (fun m hm => .span_bind fun l => .pure ?_)
      fun x hx => hx.suffix
    have hm' : (m.rewrite (.erasing f)).bare =
      ((o.method.rewrite .rereading).rewrite (.erasing g)).bare := hm
    simp only [OverloadRereads, Overload.rewrite, Overload.bare, hns, hm']
  · obtain ⟨k, -, hx⟩ := methodTypeWords_head (d := d) o.method x
    rw [hx] at hl
    cases hl
    rfl

theorem overloadWords_head (o : Overload) (x : List Lexeme) :
    ∃ l, (lexemesOf (overloadWords d o) ++ x).head? = some l ∧ l ≠ .mark .ellipsis := by
  rw [overloadWords_eq, lexemesOf_append, List.append_assoc]
  cases hn : o.notes with
  | nil =>
    obtain ⟨k, hk, hx⟩ := methodTypeWords_head (d := d) o.method x
    refine ⟨.mark k, hx, ?_⟩
    rintro ⟨⟩
    exact absurd hk (by decide)
  | cons n ns => exact ⟨.note n.text, rfl, by simp⟩

def entryWords (d : Format.Context) (os : List Overload) (overloading : Bool) : List Word :=
  wordsOf (entriesPieces (methodEntryPieces d os overloading))

theorem entryWords_eq (os : List Overload) (overloading : Bool) : entryWords d os overloading =
    [(.mark .pipe, Mark.pipe.text.toList)].intercalate (os.map (overloadWords d) ++
      if overloading then [[(.mark .ellipsis, Mark.ellipsis.text.toList)]] else []) := by
  rw [entryWords, entriesPieces, wordsOf_intercalate, methodEntryPieces,
    List.map_append, List.map_map]
  cases overloading <;> rfl

theorem reads_overloads (hk : Keeps c d f g) {os : List Overload} {overloading : Bool} {depth : Nat}
    (h : ∀ o ∈ os, o.method.Formed scope d.source)
    (hd : ∀ o ∈ os, 4 * (overloadWords d o).length ≤ depth) :
    ∀ fuel, os.length + 1 ≤ fuel → (os ≠ [] ∨ overloading = true) →
      Reads c (overloads depth scope fuel) (entryWords d os overloading)
        (Bound 3 (entryWords d os overloading))
        fun r => List.Forall₂ (OverloadRereads f g) os r.1 ∧ r.2 = overloading := by
  induction os with
  | nil =>
    intro fuel hf hne
    obtain ⟨fuel, rfl⟩ : ∃ k, fuel = k + 1 := ⟨fuel - 1, by omega⟩
    obtain rfl : overloading = true := by simpa using hne
    rw [entryWords_eq, overloads_succ]
    exact .eat_bind (.pure ⟨.nil, rfl⟩)
  | cons o os ih =>
    intro fuel hf _
    rw [List.length_cons] at hf
    obtain ⟨fuel, rfl⟩ : ∃ k, fuel = k + 1 := ⟨fuel - 1, by omega⟩
    have ho := h o (List.mem_cons_self ..)
    have hread := reads_overload hk ho (hd o (List.mem_cons_self ..))
    have hhead (ws : List Word) (x : List Lexeme) :
        (lexemesOf (overloadWords d o ++ ws) ++ x).head? ≠ some (.mark .ellipsis) := by
      obtain ⟨l, hl, hne⟩ := overloadWords_head (d := d) o (lexemesOf ws ++ x)
      rw [lexemesOf_append, List.append_assoc, hl]
      simpa using hne
    rw [overloads_succ]
    by_cases hmore : os ≠ [] ∨ overloading = true
    · have hsplit : entryWords d (o :: os) overloading = overloadWords d o ++
          ((.mark .pipe, Mark.pipe.text.toList) :: entryWords d os overloading) := by
        rw [entryWords_eq, entryWords_eq, List.map_cons, List.cons_append]
        generalize hrest : os.map (overloadWords d) ++ _ = rest
        cases rest with
        | nil =>
          rcases hmore with hmore | rfl
          · simp [hmore] at hrest
          · simp at hrest
        | cons ws rest => rw [List.intercalate_cons_cons, List.append_assoc]; rfl
      rw [hsplit]
      refine .eat_miss (fun x _ => hhead _ x) ?_
      refine hread.bind (fun a ha => .eat_bind ?_) fun x _ => (bound_pipe _ _).mono (by decide)
      refine (ih (fun u hu => h u (List.mem_cons_of_mem _ hu))
        (fun u hu => hd u (List.mem_cons_of_mem _ hu)) fuel (by omega) hmore).last
          (fun r hr => ?_) fun x hx => ?_
      · obtain ⟨more, dots⟩ := r
        exact .pure ⟨.cons ha hr.1, hr.2⟩
      · rw [← List.singleton_append, ← List.append_assoc] at hx
        exact hx.suffix
    · obtain ⟨rfl, rfl⟩ : os = [] ∧ overloading = false := by simpa using hmore
      have hone : entryWords d [o] false = overloadWords d o := by simp [entryWords_eq]
      rw [hone, ← List.append_nil (overloadWords d o)]
      refine .eat_miss (fun x _ => hhead [] x) ?_
      refine hread.bind (fun a ha => ?_) fun x hx => ?_
      · exact .eat_miss (fun x hx => hx.pipe (Nat.le_refl 3)) (.pure ⟨.cons ha .nil, rfl⟩)
      · rw [List.append_nil] at hx
        exact hx.mono (by decide)

end RubySig.Grammar
