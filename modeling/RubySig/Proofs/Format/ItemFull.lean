import RubySig.Proofs.Format.TyFull
import RubySig.Proofs.Tree.DeclarationLikeness

/-! The pieces of members, and those above and in front of bodies, leave no line empty. -/
namespace RubySig.Format

open List (Forall₂)
open Grammar (Likeness)
open Piece (mark keyword named fill)

variable {ps qs : List Piece}

theorem full_of_words (hne : ps ≠ []) (h : ∀ p ∈ ps, ∃ l w, p = .word l w ∧ Solid w) : Full ps := by
  induction ps with
  | nil => exact absurd rfl hne
  | cons p ps ih =>
    obtain ⟨l, w, rfl, hw⟩ := h p List.mem_cons_self
    cases ps with
    | nil => exact .word hw
    | cons q ps =>
      exact (Full.word hw).append (ih (by simp) fun q hq => h q (List.mem_cons_of_mem _ hq))

theorem signPieces_ne_nil {cs : List Char} (h : cs ≠ []) : signPieces cs ≠ [] := by
  unfold signPieces
  split
  · exact absurd rfl h
  all_goals simp

theorem wholeNamePieces_full {cs : List Char} (h : MethodName.isWhole cs = true) :
    Full (wholeNamePieces cs) := by
  rcases isWhole_cases h with ho | ⟨base, ending, rfl, hb, he⟩
  · obtain ⟨hne, hspaceless⟩ := operators_solid cs ho
    rw [wholeNamePieces_operator ho]
    exact full_of_words (signPieces_ne_nil hne) (signPieces_solid hspaceless)
  · rw [wholeNamePieces_identifier hb he]
    refine full_of_words (by simp) (List.forall_mem_cons.mpr ⟨?_, ?_⟩)
    · exact ⟨_, _, rfl, (isName_of_isIdentifier hb).solid⟩
    · exact signPieces_solid fun c hc => (whole_spaceless h).2 c (List.mem_append_right _ hc)

theorem methodNamePieces_full {name : String} (h : '\n' ∉ name.toList) (quoteReserved : Bool) :
    Full (methodNamePieces name quoteReserved) := by
  unfold methodNamePieces
  split
  case isTrue =>
    have hquoted : (Spell.backquoted name).toList = '`' :: name.toList ++ ['`'] := by
      simp [Spell.backquoted]
    refine .word ?_
    rw [hquoted]
    exact .enclosed rfl rfl h
  case isFalse hq =>
    rw [isQuotedMethod, Bool.or_eq_true, not_or] at hq
    exact wholeNamePieces_full (by simpa using hq.2)

/-- What corresponding parts of two trees are printed as, one by one. -/
theorem map_full {α : Type} {R : α → α → Prop} {f : α → List Piece} {xs xs' : List α}
    (h : Forall₂ R xs xs') (hf : ∀ x x', R x x' → x ∈ xs → Full (f x)) :
    ∀ ps ∈ xs.map f, Full ps := by
  induction h with
  | nil => simp
  | @cons x x' xs xs' hx _ ih =>
    rw [List.map_cons, List.forall_mem_cons]
    exact ⟨hf x x' hx List.mem_cons_self, ih fun y y' hy hmem =>
      hf y y' hy (List.mem_cons_of_mem _ hmem)⟩

theorem entriesPieces_full {pss : List (List Piece)} (h : ∀ ps ∈ pss, Full ps) (hne : pss ≠ []) :
    Full (entriesPieces pss) := by
  refine .intercalate (fun qs k ps h => ?_) h hne
  have := h.gap .line ((Full.mark .pipe).gap .blank k)
  simpa using this

theorem Full.keywordBlank (k : Keyword) : Full [Piece.keyword k, .gap .blank] :=
  (Full.keyword k).blank_behind

theorem visibilityPieces_loose (v : Option Visibility) : Loose (visibilityPieces v) := by
  cases v with
  | none => exact .nil
  | some v => exact .inr (.keywordBlank _)

theorem receiverPieces_loose (level : MemberLevel) : Loose (receiverPieces level) := by
  cases level with
  | instance_ => exact .nil
  | singleton => exact .inr ((Full.keyword .self).append (.mark .dot))

theorem methodReceiverPieces_loose (level : MethodLevel) : Loose (methodReceiverPieces level) := by
  cases level with
  | instance_ => exact .nil
  | singleton => exact .inr ((Full.keyword .self).append (.mark .dot))
  | both => exact .inr (((Full.keyword .self).append (.mark .question)).append (.mark .dot))

section Tree

variable {c c' : Grammar.Context} {L : Likeness c c'} {d : Context}

theorem backingPieces_loose (hL : L.Flat) {backing : Backing}
    (h : ∀ ivar, backing = .named ivar → L.Spelt (.instanceVariable ivar)) :
    Loose (backingPieces backing) := by
  cases backing with
  | implied => exact .nil
  | absent => exact .inr ((Full.mark .lparen).append (.mark .rparen))
  | named name =>
    have hname : Full [.word (.instanceVariable name) name.toList] :=
      .word (hL.instanceVariable (h name rfl))
    exact .inr (((Full.mark .lparen).append hname).append (.mark .rparen))

theorem variablePieces_full (hL : L.Flat) {name : String} (h : L.VariableNamed name)
    (kind : VariableKind) : Full (variablePieces kind name) := by
  have hname := hL.variableNamed h
  cases kind with
  | instance_ => exact .word hname
  | classInstance =>
    exact ((Full.keyword .self).append (.mark .dot)).append (.word hname)
  | class_ => exact .word hname

variable (hL : L.Flat) (hd : d.source = c.text)

include hL hd

theorem typeParamPieces_full {p p' : TypeParam} (h : L.SameTypeParam p p')
    (hpass : p.passes .wellFormed = true) : Full (typeParamPieces d p) := by
  have hunchecked : Loose (if p.unchecked then [keyword .unchecked, .gap .blank] else []) := by
    split
    · exact .inr (.keywordBlank _)
    · exact .nil
  have hvariance : Loose (varianceWords p.variance) := by
    cases p.variance with
    | invariant => exact .nil
    | covariant => exact .inr (.keywordBlank _)
    | contravariant => exact .inr (.keywordBlank _)
  have hbound : Loose (boundPieces d p.bound) := by
    have hrel := h.bound
    generalize p'.bound = bound' at hrel
    rw [TypeParam.passes] at hpass
    generalize p.bound = bound at hrel hpass
    cases hrel with
    | none => exact .nil
    | some ht =>
      exact .inr ((Full.mark .lt).gap .blank (tyPieces_full hL hd false _ _ ht hpass)).blank_front
  unfold typeParamPieces
  have hname : Full [named p.name] := .named (hL.constant h.spelt)
  rw [List.append_assoc, List.append_assoc]
  exact hunchecked.append (hvariance.append (hbound.behind hname))

theorem typeParamsPieces_loose {params params' : List TypeParam}
    (h : Forall₂ L.SameTypeParam params params')
    (hpass : params.all (·.passes .wellFormed) = true) :
    Loose (typeParamsPieces d params) := by
  refine Full.bracketed (map_full h ?_)
  intro p p' hp hmem
  exact typeParamPieces_full hL hd hp (List.all_eq_true.mp hpass p hmem)

theorem classRefPieces_full {r r' : ClassRef} (h : L.SameClassRef r r')
    (hpass : r.passes .wellFormed = true) : Full (classRefPieces d r) :=
  (Full.bracketed (tysPieces_full hL hd false _ _ h.args hpass)).behind (namePieces_full hL h.name)

theorem methodTypePieces_full {m m' : MethodType} (h : L.SameMethodType m m')
    (hpass : m.passes .wellFormed = true) : Full (methodTypePieces d m) := by
  rw [MethodType.passes, Bool.and_eq_true, Bool.and_eq_true] at hpass
  obtain ⟨⟨hparams, hsignature⟩, hblock⟩ := hpass
  exact signaturePieces_full hL hd (typeParamsPieces_loose hL hd h.params hparams).blank_behind
    (blockPieces_full hL hd _ _ h.block hblock) _ _ h.signature hsignature

theorem note_full {n n' : Note} (h : L.SameNote n n') : Full [notePiece d n] :=
  ⟨fun _ hp => List.mem_singleton.mp hp ▸ hL.note hd h, rfl⟩

theorem overloadPieces_full {o o' : Overload} (h : L.SameOverload o o')
    (hpass : o.method.passes .wellFormed = true) : Full (overloadPieces d o) := by
  have hmethod := methodTypePieces_full hL hd h.method hpass
  have hnotes := h.notes
  unfold overloadPieces
  generalize o.notes = notes at hnotes
  generalize o'.notes = notes' at hnotes
  induction hnotes with
  | nil => exact hmethod
  | cons hn _ ih => exact (note_full hL hd hn).gap .blank ih

theorem memberPieces_full {m m' : Member} (h : L.SameMember m m')
    (hpass : m.passes .wellFormed = true) :
    Full (memberPieces d m) := by
  cases h with
  | @«alias» new old level hnew hold =>
    have hreceiver := receiverPieces_loose level
    have hsecond := hreceiver.append (methodNamePieces_full (hL.methodNamed hold) false)
    have hfirst := hreceiver.append (methodNamePieces_full (hL.methodNamed hnew) false)
    have := (Full.keyword .alias).gap .blank (hfirst.gap .blank hsecond)
    simpa [memberPieces] using this
  | @«attribute» access name t t' backing level visibility hname ht hbacking =>
    have htype := tyPieces_full hL hd false _ _ ht (Bool.and_eq_true_iff.mp hpass).1
    have hcolon : Full ([mark .colon, .gap .blank] ++ tyPieces d false t) :=
      (Full.mark .colon).gap .blank htype
    have hbehind := (Full.spelledName (hL.named hname) true).append
      ((backingPieces_loose hL hbacking).append hcolon)
    have := (visibilityPieces_loose visibility).append
      ((Full.keyword access.keyword).gap .blank ((receiverPieces_loose level).append hbehind))
    simpa [memberPieces] using this
  | @«variable» kind name t t' hname ht =>
    have htype := tyPieces_full hL hd false _ _ ht hpass
    have := (variablePieces_full hL hname kind).append ((Full.mark .colon).gap .blank htype)
    simpa [memberPieces] using this
  | @mixin kind n n' args args' hn hargs =>
    have hargs := Full.bracketed (tysPieces_full hL hd false _ _ hargs hpass)
    exact (Full.keyword kind.keyword).gap .blank (hargs.behind (namePieces_full hL hn))
  | visibility => exact .keyword _
  | @method name os os' level overloading visibility hname hos =>
    obtain ⟨hentries, hpass⟩ := Bool.and_eq_true_iff.mp hpass
    have hheading : Full (headingPieces visibility level name) := by
      have := (visibilityPieces_loose visibility).append ((Full.keyword .def_).gap .blank
        ((methodReceiverPieces_loose level).append
          (methodNamePieces_full (hL.methodNamed hname) true)))
      simpa [headingPieces] using this
    have hfull : ∀ ps ∈ methodEntryPieces d os overloading, Full ps := by
      intro ps hps
      rcases List.mem_append.mp hps with hps | hps
      · refine map_full hos (fun o o' ho hmem => ?_) ps hps
        exact overloadPieces_full hL hd ho (List.all_eq_true.mp hpass o hmem)
      · split at hps
        · obtain rfl := List.mem_singleton.mp hps
          exact .mark .ellipsis
        · cases hps
    have hne : methodEntryPieces d os overloading ≠ [] := by
      rintro hnil
      obtain ⟨hos, hdots⟩ := List.append_eq_nil_iff.mp hnil
      rw [List.map_eq_nil_iff] at hos
      subst hos
      cases overloading with
      | true => cases hdots
      | false => cases hentries
    have := hheading.append ((Full.mark .colon).gap .blank (entriesPieces_full hfull hne))
    simpa [memberPieces] using this

theorem leadPieces_full {lead lead' : Lead} (h : L.SameLead lead lead') (hps : Full ps) :
    Full (leadPieces d lead ++ ps) := by
  have hnotes : Full (notesPieces d lead.notes ++ ps) := by
    have hrel := h.notes
    unfold notesPieces
    generalize lead.notes = notes at hrel
    generalize lead'.notes = notes' at hrel
    induction hrel with
    | nil => exact hps
    | cons hn _ ih => exact (note_full hL hd hn).gap .line ih
  have hremarks (lines : List (List Char)) (hlines : ∀ line ∈ lines, '\n' ∉ line) :
      Full (lines.map Piece.remark ++ (notesPieces d lead.notes ++ ps)) := by
    induction lines with
    | nil => exact hnotes
    | cons line lines ih =>
      have hrest := ih fun l hl => hlines l (List.mem_cons_of_mem _ hl)
      exact ⟨List.forall_mem_cons.mpr ⟨hlines line List.mem_cons_self, hrest.fair⟩, hrest.fill⟩
  unfold leadPieces
  rw [List.append_assoc]
  cases lead.comment with
  | none => exact hnotes
  | some comment => exact hremarks _ not_mem_of_mem_splitOn

theorem superclassPieces_loose {r r' : Option ClassRef} (h : Option.Rel L.SameClassRef r r')
    (hpass : r.all (·.passes .wellFormed) = true) : Loose (superclassPieces d r) := by
  cases h with
  | none => exact .nil
  | some hr =>
    exact .inr ((Full.mark .lt).gap .blank (classRefPieces_full hL hd hr hpass)).blank_front

theorem selfTypesPieces_loose {selves selves' : List ClassRef}
    (h : Forall₂ L.SameClassRef selves selves') (hpass : selves.all (·.passes .wellFormed) = true) :
    Loose (selfTypesPieces d selves) := by
  have hfull : ∀ ps ∈ selves.map (classRefPieces d), Full ps :=
    map_full h fun r r' hr hmem => classRefPieces_full hL hd hr (List.all_eq_true.mp hpass r hmem)
  cases selves with
  | nil => exact .nil
  | cons r selves =>
    exact .inr ((Full.mark .colon).gap .blank (.inline hfull (by simp))).blank_front

/-- A keyword in front of a name with its type parameters. -/
theorem openingPieces_full {n n' : TypeName} {params params' : List TypeParam} (k : Keyword)
    (hn : L.SameName n n') (hps : Forall₂ L.SameTypeParam params params')
    (hpass : params.all (·.passes .wellFormed) = true) :
    Full (keyword k :: .gap .blank :: namePieces n ++ typeParamsPieces d params) :=
  (Full.keyword k).gap .blank
    ((typeParamsPieces_loose hL hd hps hpass).behind (namePieces_full hL hn))

theorem constantPieces_full {n n' : TypeName} {t t' : Ty} (hn : L.SameName n n')
    (ht : L.SameTy t t') (hpass : t.passes .wellFormed = true) :
    Full (namePieces n ++ [mark .colon, .gap .blank] ++ tyPieces d false t) := by
  have htype := tyPieces_full hL hd false t t' ht hpass
  have := (namePieces_full hL hn).append ((Full.mark .colon).gap .blank htype)
  simpa using this

theorem globalPieces_full {name : String} {t t' : Ty} (hname : L.Spelt (.globalVariable name))
    (ht : L.SameTy t t') (hpass : t.passes .wellFormed = true) :
    Full ([.word (.globalVariable name) name.toList, mark .colon, .gap .blank] ++
      tyPieces d false t) := by
  have hvariable : Full [Piece.word (.globalVariable name) name.toList] :=
    .word (hL.globalVariable hname)
  exact hvariable.append ((Full.mark .colon).gap .blank (tyPieces_full hL hd false t t' ht hpass))

theorem typeAliasPieces_full {n n' : TypeName} {t t' : Ty} {params params' : List TypeParam}
    (hn : L.SameName n n') (ht : L.SameTy t t') (hps : Forall₂ L.SameTypeParam params params')
    (hpass : t.passes .wellFormed = true) (hparams : params.all (·.passes .wellFormed) = true) :
    Full (keyword .type :: .gap .blank :: namePieces n ++ typeParamsPieces d params ++
      [.gap .blank, mark .eq, .gap .space] ++ tyPieces d false t) := by
  have htype := (Full.mark .eq).gap .space (tyPieces_full hL hd false t t' ht hpass)
  have := (openingPieces_full hL hd .type hn hps hparams).gap .blank htype
  simpa using this

end Tree

end RubySig.Format
