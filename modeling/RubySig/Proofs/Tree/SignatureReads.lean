import RubySig.Proofs.Tree.ParamReads

/-! Printed signatures are read back: the entries of a signature, its block and its return type. -/
namespace RubySig

open Format (wordsOf tyPieces paramPieces paramsPieces restPieces keywordsPieces namePiece)
open Format.Piece (mark)
open Grammar (ParamSlot Params Runs)

namespace Param

theorem eraseAll_eq_map (f : Showing) (ps : List Param) :
    Param.eraseAll f ps = ps.map (Param.erase f) := by
  induction ps with
  | nil => rfl
  | cons p ps ih => rw [Param.eraseAll, ih, List.map_cons]

theorem eraseOption_eq_map (f : Showing) (p : Option Param) :
    Param.eraseOption f p = p.map (Param.erase f) := by
  cases p <;> rfl

theorem eraseKeywords_eq_map (f : Showing) (ps : List (String × Param)) :
    Param.eraseKeywords f ps = ps.map fun k => (k.1, k.2.erase f) := by
  induction ps with
  | nil => rfl
  | cons p ps ih => rw [Param.eraseKeywords, ih, List.map_cons]

theorem rereadAll_eq_map (ps : List Param) : Param.rereadAll ps = ps.map Param.reread := by
  induction ps with
  | nil => rfl
  | cons p ps ih => rw [Param.rereadAll, ih, List.map_cons]

theorem rereadOption_eq_map (p : Option Param) :
    Param.rereadOption p = p.map Param.reread := by
  cases p <;> rfl

theorem rereadKeywords_eq_map (ps : List (String × Param)) :
    Param.rereadKeywords ps = ps.map fun k => (k.1, k.2.reread) := by
  induction ps with
  | nil => rfl
  | cons p ps ih => rw [Param.rereadKeywords, ih, List.map_cons]

end Param

namespace Signature

/-- The entries of a signature in the order in which they are printed. -/
def slots (s : Signature) : List ParamSlot :=
  s.required.map .required ++ s.optional.map .optional ++ s.rest.toList.map .rest ++
    s.trailing.map .trailing ++ s.requiredKeywords.map (fun k => .keyword k.1 false k.2) ++
    s.optionalKeywords.map (fun k => .keyword k.1 true k.2) ++
      s.restKeywords.toList.map .restKeywords

def params (s : Signature) : Params :=
  ⟨s.required, s.optional, s.rest, s.trailing, s.requiredKeywords, s.optionalKeywords,
    s.restKeywords⟩

end Signature

namespace Grammar

variable {c : Context} {type result : Parser Ty} {d : Format.Context} {f g : Showing}

theorem paramsPieces_eq_map (lead : List Format.Piece) (ps : List Param) :
    paramsPieces d lead ps = ps.map fun p => lead ++ paramPieces d p := by
  induction ps with
  | nil => rfl
  | cons p ps ih => rw [paramsPieces, ih, List.map_cons]

theorem restPieces_eq_map (lead : List Format.Piece) (p : Option Param) :
    restPieces d lead p = p.toList.map fun p => lead ++ paramPieces d p := by
  cases p <;> rfl

theorem keywordsPieces_eq_map (lead : List Format.Piece) (ps : List (String × Param)) :
    keywordsPieces d lead ps = ps.map fun k =>
      lead ++ namePiece k.1 true :: mark .colon :: .gap .blank :: paramPieces d k.2 := by
  induction ps with
  | nil => rfl
  | cons p ps ih => rw [keywordsPieces, ih, List.map_cons]

theorem signaturePiecesOf_eq (typeParams block : List Format.Piece) (s : Signature) :
    Format.signaturePiecesOf d typeParams block s =
      Format.signaturePieces typeParams (s.slots.map (ParamSlot.pieces d)) block
        (Format.tyPieces d true s.result) := by
  obtain ⟨l, r, required, optional, rest, trailing, requiredKeywords, optionalKeywords,
    restKeywords⟩ := s
  rw [Format.signaturePiecesOf]
  simp only [Signature.slots, List.map_append, List.map_map, paramsPieces_eq_map, restPieces_eq_map,
    keywordsPieces_eq_map]
  rfl

namespace Params

def erase (f : Showing) (ps : Params) : Params :=
  ⟨ps.required.map (Param.erase f), ps.optional.map (Param.erase f), ps.rest.map (Param.erase f),
    ps.trailing.map (Param.erase f), ps.requiredKeywords.map fun k => (k.1, k.2.erase f),
    ps.optionalKeywords.map fun k => (k.1, k.2.erase f), ps.restKeywords.map (Param.erase f)⟩

theorem erase_add (f : Showing) (ps : Params) (s : ParamSlot) :
    (ps.add s).erase f = (ps.erase f).add (s.erase f) := by
  cases s with
  | keyword name maybe p =>
    cases maybe <;> simp [erase, add, ParamSlot.erase, ParamSlot.withParam, ParamSlot.param]
  | _ => simp [erase, add, ParamSlot.erase, ParamSlot.withParam, ParamSlot.param]

theorem erase_foldl (f : Showing) (ps : Params) (slots : List ParamSlot) :
    (slots.foldl add ps).erase f = (slots.map (ParamSlot.erase f)).foldl add (ps.erase f) := by
  induction slots generalizing ps with
  | nil => rfl
  | cons s slots ih => rw [List.foldl_cons, ih, erase_add, List.map_cons, List.foldl_cons]

theorem foldl_required (ps : Params) (qs : List Param) :
    (qs.map ParamSlot.required).foldl add ps = { ps with required := ps.required ++ qs } := by
  induction qs generalizing ps with
  | nil => simp
  | cons q qs ih => rw [List.map_cons, List.foldl_cons, ih]; simp [add]

theorem foldl_optional (ps : Params) (qs : List Param) :
    (qs.map ParamSlot.optional).foldl add ps = { ps with optional := ps.optional ++ qs } := by
  induction qs generalizing ps with
  | nil => simp
  | cons q qs ih => rw [List.map_cons, List.foldl_cons, ih]; simp [add]

theorem foldl_trailing (ps : Params) (qs : List Param) :
    (qs.map ParamSlot.trailing).foldl add ps = { ps with trailing := ps.trailing ++ qs } := by
  induction qs generalizing ps with
  | nil => simp
  | cons q qs ih => rw [List.map_cons, List.foldl_cons, ih]; simp [add]

theorem foldl_requiredKeywords (ps : Params) (ks : List (String × Param)) :
    (ks.map fun k => ParamSlot.keyword k.1 false k.2).foldl add ps =
      { ps with requiredKeywords := ps.requiredKeywords ++ ks } := by
  induction ks generalizing ps with
  | nil => simp
  | cons k ks ih => rw [List.map_cons, List.foldl_cons, ih]; simp [add]

theorem foldl_optionalKeywords (ps : Params) (ks : List (String × Param)) :
    (ks.map fun k => ParamSlot.keyword k.1 true k.2).foldl add ps =
      { ps with optionalKeywords := ps.optionalKeywords ++ ks } := by
  induction ks generalizing ps with
  | nil => simp
  | cons k ks ih => rw [List.map_cons, List.foldl_cons, ih]; simp [add]

/-- The entries of a signature make its parameters. -/
theorem foldl_slots (s : Signature) : s.slots.foldl add .empty = s.params := by
  obtain ⟨l, r, required, optional, rest, trailing, requiredKeywords, optionalKeywords,
    restKeywords⟩ := s
  simp only [Signature.slots, List.foldl_append, foldl_required, foldl_optional, foldl_trailing,
    foldl_requiredKeywords, foldl_optionalKeywords, empty, Signature.params]
  cases rest <;> cases restKeywords <;> rfl

theorem erase_signature {f : Showing} {ps : Params} (location : Option Span) (r : Ty) :
    (ps.signature location r).erase f = (ps.erase f).signature none (r.erase f) := by
  simp only [Params.signature, Signature.erase, Params.erase, Param.eraseAll_eq_map,
    Param.eraseOption_eq_map, Param.eraseKeywords_eq_map]

end Params

theorem slots_reread (s : Signature) : s.reread.slots = s.slots.map ParamSlot.reread := by
  obtain ⟨l, r, required, optional, rest, trailing, requiredKeywords, optionalKeywords,
    restKeywords⟩ := s
  simp only [Signature.reread, Signature.slots, Param.rereadAll_eq_map, Param.rereadOption_eq_map,
    Param.rereadKeywords_eq_map, List.map_append, List.map_map]
  cases rest <;> cases restKeywords <;> rfl

theorem erase_params (s : Signature) {ps : Params} {a : Ty} {location : Option Span}
    (hp : ps.erase f = s.reread.params.erase g) (ha : a.erase f = s.reread.result.erase g) :
    (ps.signature location a).erase f = s.reread.erase g := by
  rw [Params.erase_signature, hp, ha, ← Params.erase_signature s.reread.location]
  cases s
  rfl

theorem runs_restKeywords {stage : Stage} (h : stage ≠ .done) (used : List String)
    (p : Option Param) : Runs stage used (p.toList.map .restKeywords) := by
  cases p with
  | none => trivial
  | some p => exact ⟨.done, by simp [ParamSlot.after, h], by simp [ParamSlot.keyword?], trivial⟩

theorem runs_keywords {tail : List ParamSlot}
    (htail : ∀ stage used, stage ≠ .done → Runs stage used tail) {stage : Stage} (h : stage ≠ .done)
    {used : List String} {ks : List (String × Bool × Param)} (hn : (ks.map (·.1)).Nodup)
    (hu : ∀ name ∈ ks.map (·.1), name ∉ used) :
    Runs stage used ((ks.map fun k => .keyword k.1 k.2.1 k.2.2) ++ tail) := by
  induction ks generalizing stage used with
  | nil => exact htail stage used h
  | cons k ks ih =>
    rw [List.map_cons, List.nodup_cons] at hn
    refine ⟨.keywords, by simp [ParamSlot.after, h], ?_, ih (by simp) hn.2 fun name hm => ?_⟩
    · rintro _ ⟨⟩
      exact hu _ (List.mem_cons_self ..)
    · simp only [ParamSlot.keyword?, Option.toList_some, List.singleton_append,
        List.mem_cons, not_or]
      exact ⟨fun he => hn.1 (he ▸ hm), hu name (List.mem_cons_of_mem _ hm)⟩

theorem runs_trailing {tail : List ParamSlot} {used : List String}
    (htail : Runs .trailing used tail) (ps : List Param) :
    Runs .trailing used (ps.map .trailing ++ tail) := by
  induction ps with
  | nil => exact htail
  | cons p ps ih => exact ⟨.trailing, rfl, by simp [ParamSlot.keyword?], ih⟩

theorem runs_optional {tail : List ParamSlot} {used : List String}
    (htail : ∀ stage, stage = .required ∨ stage = .optional → Runs stage used tail) {stage : Stage}
    (h : stage = .required ∨ stage = .optional) (ps : List Param) :
    Runs stage used (ps.map .optional ++ tail) := by
  induction ps generalizing stage with
  | nil => exact htail stage h
  | cons p ps ih =>
    exact ⟨.optional, by simp [ParamSlot.after, h], by simp [ParamSlot.keyword?], ih (.inr rfl)⟩

theorem runs_required {tail : List ParamSlot} {used : List String}
    (htail : Runs .required used tail) (ps : List Param) :
    Runs .required used (ps.map .required ++ tail) := by
  induction ps with
  | nil => exact htail
  | cons p ps ih => exact ⟨.required, rfl, by simp [ParamSlot.keyword?], ih⟩

theorem runs_slots {s : Signature} (h : s.Ordered) : Runs .required [] s.slots := by
  have hkeywords {stage : Stage} (hs : stage ≠ .done) :
      Runs stage [] (s.requiredKeywords.map (fun k => .keyword k.1 false k.2) ++
        s.optionalKeywords.map (fun k => .keyword k.1 true k.2) ++
        s.restKeywords.toList.map .restKeywords) := by
    have key (ks : List (String × Bool × Param)) (hn : (ks.map (·.1)).Nodup) :=
      runs_keywords (fun stage used h => runs_restKeywords h used s.restKeywords) hs hn
        fun _ _ => List.not_mem_nil
    have := key (s.requiredKeywords.map (fun k => (k.1, false, k.2)) ++
      s.optionalKeywords.map fun k => (k.1, true, k.2))
        (by simpa [Function.comp_def] using h.keywords)
    simpa [Function.comp_def] using this
  unfold Signature.slots
  simp only [List.append_assoc] at hkeywords ⊢
  refine runs_required (runs_optional (fun stage hs => ?_) (.inl rfl) _) _
  cases hrest : s.rest with
  | none =>
    rw [h.trailing hrest]
    exact hkeywords (by rcases hs with rfl | rfl <;> simp)
  | some p =>
    exact ⟨.trailing, by simp [ParamSlot.after, hs], by simp [ParamSlot.keyword?],
      runs_trailing (hkeywords (by simp)) _⟩

theorem wordsOf_list {pss : List (List Format.Piece)} (hne : pss ≠ []) :
    wordsOf (Format.listPieces pss) = (.mark .lparen, Mark.lparen.text.toList) ::
      ([(.mark .comma, Mark.comma.text.toList)].intercalate (pss.map wordsOf) ++
        [(.mark .rparen, Mark.rparen.text.toList)]) := by
  have hempty : pss.isEmpty = false := by
    cases pss with
    | nil => exact absurd rfl hne
    | cons ps pss => rfl
  rw [Format.listPieces, hempty, if_neg Bool.false_ne_true]
  simp [Format.commaPieces, wordsOf_intercalate]

theorem reads_paramList {s : Signature} (ho : s.Ordered)
    (h : ∀ e ∈ s.slots, Ready c type d f g e.param.type) (fuel : Nat)
    (hfuel : s.slots.length ≤ fuel) :
    Reads c (paramList type fuel) (wordsOf (Format.listPieces (s.slots.map (ParamSlot.pieces d))))
      (fun x => x.head? ≠ some (.mark .lparen)) fun ps => ps.erase f = s.reread.params.erase g := by
  have hread {r : List ParamSlot}
      (hr : r.map (ParamSlot.erase f) = s.slots.map (fun e => e.reread.erase g)) :
      (r.foldl Params.add .empty).erase f = s.reread.params.erase g := by
    rw [Params.erase_foldl, hr, ← Params.foldl_slots, Params.erase_foldl,
      slots_reread, List.map_map]
    rfl
  unfold paramList
  cases hs : s.slots with
  | nil =>
    refine .eat_miss (fun x hx => hx) (.pure ?_)
    exact hread (r := []) (by rw [hs]; rfl)
  | cons e es =>
    rw [← hs, wordsOf_list (by simp [hs]), List.map_map]
    refine .eat_bind ?_
    have hfits : Fits .required [] .empty :=
      ⟨by simp [Params.hasKeyword, Params.empty], fun _ => rfl⟩
    refine (reads_params h (runs_slots ho) hfits fuel hfuel).bind (fun ps hps => ?_) fun x _ => rfl
    obtain ⟨read, hr, rfl⟩ := hps
    exact .expect_bind (.pure (hread hr))

/-- A type is read as the result of a signature. -/
def ReadsResult (c : Context) (result : Parser Ty) (d : Format.Context) (f g : Showing) (t : Ty) :
    Prop :=
  Reads c result (wordsOf (tyPieces d true t)) (Bound 1 (wordsOf (tyPieces d true t)))
    fun a => a.erase f = (t.reread true).erase g

/-- What is known of a signature that is going to be read. -/
structure SignatureReady (c : Context) (type result : Parser Ty) (d : Format.Context)
    (f g : Showing) (fuel : Nat) (s : Signature) : Prop where
  ordered : s.Ordered
  entries : ∀ e ∈ s.slots, Ready c type d f g e.param.type
  fuel : s.slots.length ≤ fuel
  result : ReadsResult c result d f g s.result

theorem reread_result (s : Signature) : s.reread.result = s.result.reread true := by
  cases s
  rfl

theorem reads_blockClause {fuel : Nat} {block : Option Block}
    (h : ∀ b ∈ block, SignatureReady c type result d f g fuel b.signature) :
    Reads c (blockClause type result fuel) (wordsOf (Format.blockPieces d block))
      (fun x => x.head? = some (.mark .arrow))
      fun b => Ty.eraseBlock f b = Ty.eraseBlock g (Ty.rereadBlock block) := by
  unfold blockClause
  refine .here_bind fun start => ?_
  cases block with
  | none =>
    refine .isNext_bind (b := false) (fun x hx => by simp [Format.blockPieces, hx]) ?_
    refine .peek_bind (l := some (.mark .arrow)) (fun x hx => ?_) (.pure rfl)
    simpa [Format.blockPieces] using hx
  | some b =>
    obtain ⟨l, s, required⟩ := b
    have hs := h _ rfl
    have inside (start : Position) : Reads c (do
          let ps ← paramList type fuel
          expect (.mark .arrow) .arrowOfBlock
          let r ← result
          let inner := ps.signature (← spanFrom start) r
          expect (.mark .rbrace) .closeOfBlock
          return some ⟨← spanFrom start, inner, required⟩)
        (wordsOf (Format.signaturePiecesOf d [] [] s) ++ [(.mark .rbrace, Mark.rbrace.text.toList)])
        (fun x => x.head? = some (.mark .arrow))
        fun b => Ty.eraseBlock f b = Ty.eraseBlock g (Ty.rereadBlock (some ⟨l, s, required⟩)) := by
      rw [signaturePiecesOf_eq, Format.signaturePieces]
      simp only [List.nil_append, List.append_nil, wordsOf_append, List.append_assoc]
      refine (reads_paramList hs.ordered hs.entries fuel hs.fuel).bind (fun ps hps => ?_)
        fun x _ => by simp
      refine .expect_bind ?_
      refine hs.result.bind (fun a ha => ?_) fun x _ => bound_mark (by decide) _ _ _
      refine .span_bind fun location => .expect_bind (.span_bind fun location' => .pure ?_)
      rw [← reread_result] at ha
      simp only [Ty.eraseBlock, Ty.rereadBlock, erase_params s hps ha]
    have hwords : wordsOf (Format.blockPieces d (some ⟨l, s, required⟩)) =
        (if required then [] else [(.mark .question, Mark.question.text.toList)]) ++
          ((.mark .lbrace, Mark.lbrace.text.toList) ::
            (wordsOf (Format.signaturePiecesOf d [] [] s) ++
              [(.mark .rbrace, Mark.rbrace.text.toList)])) := by
      cases required <;> simp [Format.blockPieces, Format.clausePieces]
    rw [hwords]
    cases required with
    | true =>
      refine .isNext_bind (b := false) (fun x _ => rfl) ?_
      refine .peek_bind (l := some (.mark .lbrace)) (fun x _ => rfl) ?_
      exact .advance_one (inside start)
    | false =>
      refine .isNext_bind (b := true) (fun x _ => rfl) ?_
      refine .peekAt_bind (l := some (.mark .lbrace)) (fun x _ => rfl) ?_
      exact .advance_two (inside start)

theorem reads_signature {fuel : Nat} {s : Signature} {block : Option Block}
    (hs : SignatureReady c type result d f g fuel s)
    (hb : ∀ b ∈ block, SignatureReady c type result d f g fuel b.signature) :
    Reads c (signature type result fuel)
      (wordsOf (Format.signaturePiecesOf d [] (Format.blockPieces d block) s))
      (Bound 1 (wordsOf (tyPieces d true s.result)))
      fun r => r.1.erase f = s.reread.erase g ∧
        Ty.eraseBlock f r.2 = Ty.eraseBlock g (Ty.rereadBlock block) := by
  unfold signature
  rw [signaturePiecesOf_eq, Format.signaturePieces]
  simp only [List.nil_append, wordsOf_append, List.append_assoc]
  refine .here_bind fun start => ?_
  refine (reads_paramList hs.ordered hs.entries fuel hs.fuel).bind (fun ps hps => ?_) fun x _ => ?_
  · refine (reads_blockClause hb).bind (fun b hb => ?_) fun x _ => rfl
    refine .expect_bind ?_
    rw [← List.append_nil (wordsOf _)]
    refine hs.result.bind (fun a ha => ?_) fun x hx => hx
    rw [← reread_result] at ha
    exact .span_bind fun location => .pure ⟨erase_params s hps ha, hb⟩
  · cases block with
    | none => simp [Format.blockPieces]
    | some b =>
      obtain ⟨l, s, required⟩ := b
      cases required <;> simp [Format.blockPieces, Format.clausePieces]

end Grammar
end RubySig
