import RubySig.Proofs.Tree.TyLevels

/-!
Printed types are read back: by induction on the fuel, on every level of precedence. The fuel pays
four steps for each word, one for each level between a type and its parts.
-/
namespace RubySig

theorem Param.type_of_formed {scope : List String} {source : List Char} {p : Param}
    (h : p.Formed scope source) : p.type.Formed scope source := by
  cases p
  exact h.1

theorem Param.types_of_formedAll {scope : List String} {source : List Char} {ps : List Param}
    (h : Param.FormedAll scope source ps) : ∀ p ∈ ps, p.type.Formed scope source := by
  induction ps with
  | nil => simp
  | cons p ps ih => exact List.forall_mem_cons.mpr ⟨Param.type_of_formed h.1, ih h.2⟩

theorem Param.type_of_formedOption {scope : List String} {source : List Char} {p : Option Param}
    (h : Param.FormedOption scope source p) : ∀ q ∈ p, q.type.Formed scope source := by
  rintro q rfl
  exact Param.type_of_formed h

theorem Param.types_of_formedKeywords {scope : List String} {source : List Char}
    {ps : List (String × Param)} (h : Param.FormedKeywords scope source ps) :
    ∀ k ∈ ps, k.2.type.Formed scope source := by
  induction ps with
  | nil => simp
  | cons p ps ih => exact List.forall_mem_cons.mpr ⟨Param.type_of_formed h.2.1, ih h.2.2⟩

theorem Signature.Formed.ordered {scope : List String} {source : List Char} {s : Signature}
    (h : s.Formed scope source) : s.Ordered := by
  cases s
  exact h.1

theorem Signature.Formed.result {scope : List String} {source : List Char} {s : Signature}
    (h : s.Formed scope source) : s.result.Formed scope source := by
  cases s
  exact h.2.1

theorem Signature.Formed.entries {scope : List String} {source : List Char} {s : Signature}
    (h : s.Formed scope source) : ∀ e ∈ s.slots, e.param.type.Formed scope source := by
  obtain ⟨l, r, required, optional, rest, trailing, requiredKeywords, optionalKeywords,
    restKeywords⟩ := s
  obtain ⟨-, -, h₁, h₂, h₃, h₄, h₅, h₆, h₇⟩ := h
  simp only [Signature.slots, List.forall_mem_append, List.forall_mem_map, Option.mem_toList]
  exact ⟨⟨⟨⟨⟨⟨Param.types_of_formedAll h₁, Param.types_of_formedAll h₂⟩,
    Param.type_of_formedOption h₃⟩, Param.types_of_formedAll h₄⟩,
    Param.types_of_formedKeywords h₅⟩, Param.types_of_formedKeywords h₆⟩,
    Param.type_of_formedOption h₇⟩

namespace Grammar

open Format (wordsOf tyPieces tysPieces)
open Format.Piece (mark)

variable {c : Context} {d : Format.Context} {f g : Showing} {scope : List String} {fuel : Nat}

/-- The words of a printed type. -/
def tyWords (d : Format.Context) (wrap : Bool) (t : Ty) : List Word := wordsOf (tyPieces d wrap t)

theorem length_tyWords_pos {t : Ty} (h : t.Formed scope d.source) (wrap : Bool) :
    1 ≤ (tyWords d wrap t).length :=
  List.length_pos_of_ne_nil (words_ne_nil (typeLike_ty d wrap t h))

theorem length_slot (e : ParamSlot) :
    (tyWords d false e.param.type).length ≤ (wordsOf (e.pieces d)).length := by
  have hparam (p : Param) : (tyWords d false p.type).length ≤
      (wordsOf (Format.paramPieces d p)).length := by
    obtain ⟨l, t, name⟩ := p
    cases name with
    | none => exact Nat.le_refl _
    | some s =>
      rw [Format.paramPieces, Format.namedPieces, wordsOf_append, List.length_append]
      exact Nat.le_add_right _ _
  cases e with
  | required p => exact hparam p
  | trailing p => exact hparam p
  | keyword name maybe p =>
    refine (hparam p).trans ?_
    cases maybe
    all_goals
      simp [ParamSlot.pieces, Format.namePiece]
      omega
  | _ p => exact (hparam p).trans (Nat.le_succ _)

theorem length_signature (block : List Format.Piece) (s : Signature) :
    (∀ e ∈ s.slots, (tyWords d false e.param.type).length <
      (wordsOf (Format.signaturePiecesOf d [] block s)).length) ∧
    s.slots.length ≤ (wordsOf (Format.signaturePiecesOf d [] block s)).length ∧
    (tyWords d true s.result).length < (wordsOf (Format.signaturePiecesOf d [] block s)).length ∧
    (wordsOf block).length ≤ (wordsOf (Format.signaturePiecesOf d [] block s)).length := by
  rw [signaturePiecesOf_eq, Format.signaturePieces]
  simp only [List.nil_append, wordsOf_append, wordsOf_mark, wordsOf_gap, List.length_append,
    List.length_cons]
  refine ⟨fun e he => ?_, ?_, ?_, by omega⟩
  · have hne : s.slots.map (ParamSlot.pieces d) ≠ [] := by
      intro hm
      rw [List.map_eq_nil_iff.mp hm] at he
      cases he
    rw [wordsOf_list hne, List.length_cons, List.length_append]
    have hmem := length_le_intercalate [(.mark .comma, Mark.comma.text.toList)]
      (List.mem_map_of_mem (f := wordsOf) (List.mem_map_of_mem (f := ParamSlot.pieces d) he))
    have hslot := length_slot (d := d) e
    omega
  · cases hs : s.slots with
    | nil => simp
    | cons e es =>
      rw [← hs, wordsOf_list (by simp [hs]), List.length_cons, List.length_append]
      have hcount := count_le_intercalate (.mark .comma, Mark.comma.text.toList)
        ((s.slots.map (ParamSlot.pieces d)).map wordsOf)
      rw [List.length_map, List.length_map] at hcount
      simp only [List.length_singleton]
      omega
  · change _ < _ + _ + ((tyWords d true s.result).length + 1)
    omega

theorem signature_ends (block : List Format.Piece) (s : Signature) :
    ∃ front, wordsOf (Format.signaturePiecesOf d [] block s) =
      front ++ tyWords d true s.result := by
  rw [signaturePiecesOf_eq, Format.signaturePieces, wordsOf_append, wordsOf_mark, wordsOf_gap]
  exact ⟨_, List.append_cons ..⟩

theorem length_block (l : Option Span) (s : Signature) (required : Bool) :
    (wordsOf (Format.signaturePiecesOf d [] [] s)).length <
      (wordsOf (Format.blockPieces d (some ⟨l, s, required⟩))).length := by
  simp only [Format.blockPieces, Format.clausePieces, wordsOf_append, wordsOf_mark, wordsOf_gap,
    wordsOf_nil, List.length_append, List.length_cons]
  omega

def readTy : (level : Nat) → (fuel : Nat) → (scope : List String) → Parser Ty
  | 0 => simpleType
  | 1 => optionalType
  | 2 => intersection
  | _ => Grammar.type

/-- With this much fuel, printed types of few words are read back. -/
def ReadsBack (c : Context) (d : Format.Context) (f g : Showing) (scope : List String)
    (fuel : Nat) : Prop :=
  ∀ t : Ty, t.Formed scope d.source → ∀ wrap level, t.level wrap ≤ level → level ≤ 3 →
    4 * (tyWords d wrap t).length + level ≤ fuel + 3 →
      Reads c (readTy level fuel scope) (tyWords d wrap t)
        (Bound (max level (t.openLevel wrap)) (tyWords d wrap t))
        fun a => a.erase f = (t.reread wrap).erase g

theorem level_le (t : Ty) (wrap : Bool) : t.level wrap ≤ 3 := by
  cases t with
  | optional l type =>
    rw [Ty.level]
    split <;> decide
  | _ => cases wrap <;> simp [Ty.level]

theorem openLevel_le (t : Ty) (wrap : Bool) : t.openLevel wrap ≤ 1 := by
  cases t <;> cases wrap <;> simp [Ty.openLevel]

theorem level_true_le (t : Ty) : t.level true ≤ 1 := by
  cases t with
  | optional l type =>
    rw [Ty.level]
    split <;> decide
  | _ => simp [Ty.level]

theorem level_of_not_optional {t : Ty} (h : t.isOptional = false) :
    t.level true = 0 ∧ t.openLevel true = 0 := by
  cases t with
  | optional => cases h
  | _ => exact ⟨rfl, rfl⟩

theorem ReadsBack.ready (h : ReadsBack c d f g scope fuel) {t : Ty}
    (ht : t.Formed scope d.source) (hf : 4 * (tyWords d false t).length ≤ fuel) :
    Ready c (Grammar.type fuel scope) d f g t where
  reads := by
    have hr := h t ht false 3 (level_le t false) (Nat.le_refl _) (by omega)
    rw [Nat.max_eq_left (by have := openLevel_le t false; omega)] at hr
    exact hr
  typeLike := typeLike_ty d false t ht

theorem ReadsBack.signature (h : ReadsBack c d f g scope fuel) {s : Signature}
    (hs : s.Formed scope d.source) (block : List Format.Piece)
    (hf : 4 * (wordsOf (Format.signaturePiecesOf d [] block s)).length ≤ fuel) :
    SignatureReady c (Grammar.type fuel scope) (optionalType fuel scope) d f g fuel s := by
  obtain ⟨hentries, hcount, hresult, -⟩ := length_signature (d := d) block s
  refine ⟨hs.ordered, fun e he => ?_, by omega, ?_⟩
  · have := hentries e he
    exact h.ready (hs.entries e he) (by omega)
  · have hr := h s.result hs.result true 1 (level_true_le _) (by decide) (by omega)
    rw [Nat.max_eq_left (openLevel_le s.result true)] at hr
    exact hr

section Simple

variable (ih : ∀ k < fuel, ReadsBack c d f g scope k)

include ih

theorem reads_union_parens {l : Option Span} {ts : List Ty}
    (h : Ty.Formed scope d.source (.union l ts))
    (hf : 4 * (tyWords d true (.union l ts)).length ≤ fuel + 3) :
    Reads c (simpleType fuel scope) (tyWords d true (.union l ts)) (fun _ => True)
      fun a => a.erase f = ((Ty.union l ts).reread true).erase g := by
  have hwords : tyWords d true (.union l ts) = (.mark .lparen, Mark.lparen.text.toList) ::
      ([(.mark .pipe, Mark.pipe.text.toList)].intercalate (ts.map (tyWords d true)) ++
        [(.mark .rparen, Mark.rparen.text.toList)]) := by
    rw [tyWords, words_union, Format.parenthesizedPieces, if_pos rfl]
    simp [wordsOf_alternatives, tysPieces_eq_map, List.map_map]
    rfl
  rw [hwords] at hf ⊢
  rw [List.length_cons, List.length_append, List.length_singleton] at hf
  obtain ⟨k, rfl⟩ : ∃ k, fuel = k + 2 := ⟨fuel - 2, by omega⟩
  refine reads_parens ?_
  have hcount := count_le_intercalate (.mark .pipe, Mark.pipe.text.toList)
    (ts.map (tyWords d true))
  rw [List.length_map] at hcount
  rw [type_succ]
  refine reads_layer (S := fun t a => a.erase f = (t.reread true).erase g) (by decide)
    (fun ws x hx => hx.pipe (by decide)) (fun ws x => bound_pipe ws x)
    (List.forall₂_map_left_iff.mpr (List.forall₂_same.mpr fun t ht => ?_)) ?_ h.1
    (by rw [List.length_map]; omega) fun l' as has => ?_
  · have hlen := length_le_intercalate [(.mark .pipe, Mark.pipe.text.toList)]
      (List.mem_map_of_mem (f := tyWords d true) ht)
    have hr := ih k (by omega) t (Ty.formedAll_iff.mp h.2 t ht) true 2
      ((level_true_le t).trans (by decide)) (by decide) (by omega)
    rw [Nat.max_eq_left (by have := openLevel_le t true; omega)] at hr
    exact hr
  · intro ws hws
    obtain ⟨t, ht, rfl⟩ := List.mem_map.mp hws
    exact words_ne_nil (typeLike_ty d true t (Ty.formedAll_iff.mp h.2 t ht))
  · rw [Ty.erase, Rereads.erase has, Ty.reread, if_pos rfl]
    rfl

/-- A type in parentheses is read as the type inside. -/
theorem reads_wrapped {t : Ty} (h : t.Formed scope d.source)
    (hw : tyWords d true t = (.mark .lparen, Mark.lparen.text.toList) ::
      (tyWords d false t ++ [(.mark .rparen, Mark.rparen.text.toList)]))
    (hf : 4 * (tyWords d true t).length ≤ fuel + 3) (hr : t.reread true = t.reread false) :
    Reads c (simpleType fuel scope) (tyWords d true t) (fun _ => True)
      fun a => a.erase f = (t.reread true).erase g := by
  rw [hw, List.length_cons, List.length_append, List.length_singleton] at hf
  rw [hw, hr]
  obtain ⟨k, rfl⟩ : ∃ k, fuel = k + 1 := ⟨fuel - 1, by omega⟩
  exact reads_parens ((ih k (by omega)).ready h (by omega)).reads

theorem ready_args {ts : List Ty} (h : Ty.FormedAll scope d.source ts)
    {k size : Nat} (hk : k < fuel)
    (hlen : ([(.mark .comma, Mark.comma.text.toList)].intercalate
      (ts.map (tyWords d false))).length ≤ size) (hf : 4 * size ≤ k) :
    ∀ t ∈ ts, Ready c (Grammar.type k scope) d f g t := by
  intro t ht
  have hmem := length_le_intercalate [(.mark .comma, Mark.comma.text.toList)]
    (List.mem_map_of_mem (f := tyWords d false) ht)
  exact (ih k hk).ready (Ty.formedAll_iff.mp h t ht) (by omega)

/-- A type with arguments is read back. -/
theorem reads_application {name : TypeName} {last : String → Lexeme} (hn : name.Formed last)
    (hl : ∀ s, last s = .constant s ∨ last s = .interfaceName s ∨ last s = .identifier s)
    (hscope : name.isClass = true → name.isBare = true → name.name ∉ scope) {args : List Ty}
    (h : Ty.FormedAll scope d.source args) {R : Ty → Prop} {ws : List Word}
    (hw : ws = wordsOf (Format.namePieces name ++ Format.bracketedPieces (tysPieces d false args)))
    (hf : 4 * ws.length ≤ fuel + 3)
    (hR : ∀ location (a : TypeName) as, a.erase = name.erase → Rereads f g false args as →
      R (if name.isInterface then .interface location a as
        else if name.isClass then .classInstance location a as else .alias location a as)) :
    Reads c (simpleType fuel scope) ws (Bound 0 ws) R := by
  subst hw
  have hone : 1 ≤ (wordsOf (Format.namePieces name)).length := by
    rw [wordsOf_name hn hl]
    simp
    omega
  rw [wordsOf_append, List.length_append] at hf
  obtain ⟨k, rfl⟩ : ∃ k, fuel = k + 1 := ⟨fuel - 1, by omega⟩
  cases args with
  | nil => exact reads_applied hn hl hscope (by simp) (Nat.zero_le _) hR
  | cons t ts =>
    rw [tysPieces_eq_map, wordsOf_bracketed (by simp), List.length_cons, List.length_append,
      List.length_singleton, List.map_map] at hf
    have hcount := count_le_intercalate (.mark .comma, Mark.comma.text.toList)
      ((t :: ts).map (wordsOf ∘ tyPieces d false))
    rw [List.length_map] at hcount
    exact reads_applied hn hl hscope (ready_args ih h (Nat.lt_succ_self k) (Nat.le_refl _)
      (by
        change 4 * (List.intercalate _ ((t :: ts).map (wordsOf ∘ tyPieces d false))).length ≤ k;
          omega))
      (by omega) hR

theorem reads_tuple_back {wrap : Bool} {l : Option Span} {ts : List Ty}
    (h : Ty.FormedAll scope d.source ts)
    (hf : 4 * (tyWords d wrap (.tuple l ts)).length ≤ fuel + 3) :
    Reads c (simpleType fuel scope) (tyWords d wrap (.tuple l ts)) (fun _ => True)
      fun a => a.erase f = ((Ty.tuple l ts).reread wrap).erase g := by
  have hw : tyWords d wrap (.tuple l ts) = wordsOf (Format.tuplePieces (tysPieces d false ts)) := by
    rw [tyWords, tyPieces]
  have hcount := count_le_intercalate (.mark .comma, Mark.comma.text.toList)
    (ts.map (tyWords d false))
  rw [List.length_map] at hcount
  rw [hw] at hf ⊢
  rw [wordsOf_tuple, List.length_cons, List.length_append, List.length_singleton] at hf
  obtain ⟨n, rfl⟩ : ∃ n, fuel = n + 1 := ⟨fuel - 1, by omega⟩
  change 4 * ((List.intercalate _ (ts.map (tyWords d false))).length + 1 + 1) ≤ n + 1 + 3 at hf
  refine reads_tuple (ready_args ih h (Nat.lt_succ_self n) (Nat.le_refl _) (by omega)) (by omega) ?_
  intro l' as has
  rw [Ty.erase, has.erase]
  rfl

theorem reads_record_back (hk : Keeps c d f g) {wrap : Bool} {l : Option Span} {fields : List Field}
    (h : Ty.FormedFields scope d.source fields)
    (hf : 4 * (tyWords d wrap (.record l fields)).length ≤ fuel + 3) :
    Reads c (simpleType fuel scope) (tyWords d wrap (.record l fields)) (fun _ => True)
      fun a => a.erase f = ((Ty.record l fields).reread wrap).erase g := by
  have hw : tyWords d wrap (.record l fields) =
      wordsOf (Format.recordPieces (Format.fieldsPieces d fields)) := by
    rw [tyWords, tyPieces]
  rw [hw] at hf ⊢
  rw [wordsOf_record, List.length_cons, List.length_append, List.length_singleton] at hf
  have hcount := count_le_intercalate (.mark .comma, Mark.comma.text.toList) (fields.map fun e =>
    wordsOf (Format.keyPieces d e.keyLocation e.key ++ tyPieces d false e.type))
  rw [List.length_map] at hcount
  obtain ⟨n, rfl⟩ : ∃ n, fuel = n + 2 := ⟨fuel - 2, by omega⟩
  refine reads_record hk (fun e he => ?_) (by omega) fun l' as has => ?_
  · obtain ⟨hkey, ht⟩ := Ty.formedFields_iff.mp h e he
    have hmem := length_le_intercalate [(.mark .comma, Mark.comma.text.toList)]
      (List.mem_map_of_mem (f := fun e : Field =>
        wordsOf (Format.keyPieces d e.keyLocation e.key ++ tyPieces d false e.type)) he)
    rw [wordsOf_append, List.length_append] at hmem
    refine ⟨hkey, (ih (n + 1) (by omega)).ready ht ?_⟩
    change 4 * (wordsOf (tyPieces d false e.type)).length ≤ n + 1
    omega
  · rw [Ty.erase, erase_fields has]
    rfl

/-- A procedure reads as far as its result does. -/
theorem reads_proc_back {l : Option Span} {s : Signature} {block : Option Block}
    (h : Ty.Formed scope d.source (.proc l s block))
    (hf : 4 * (tyWords d false (.proc l s block)).length ≤ fuel + 3) :
    Reads c (simpleType fuel scope) (tyWords d false (.proc l s block))
      (Bound 1 (tyWords d false (.proc l s block)))
      fun a => a.erase f = ((Ty.proc l s block).reread false).erase g := by
  have hw : tyWords d false (.proc l s block) =
      (.mark .caret, Mark.caret.text.toList) ::
        wordsOf (Format.signaturePiecesOf d [] (Format.blockPieces d block) s) := by
    simp [tyWords, tyPieces, Format.parenthesizedPieces]
  rw [hw, List.length_cons] at hf
  obtain ⟨n, rfl⟩ : ∃ n, fuel = n + 1 := ⟨fuel - 1, by omega⟩
  have hn := ih n (Nat.lt_succ_self n)
  have hproc := reads_proc (R := fun a => a.erase f = ((Ty.proc l s block).reread false).erase g)
    (hn.signature h.1 (Format.blockPieces d block) (by omega)) (fun b hb => ?_)
    fun l' s' block' hs' hb' => by rw [Ty.erase, hs', hb']; rfl
  · obtain ⟨front, hfront⟩ := signature_ends (d := d) (Format.blockPieces d block) s
    refine hproc.imp (fun x hx => ?_) fun a ha => ha
    rw [hw, hfront, ← List.cons_append] at hx
    exact hx.of_last (words_ne_nil (typeLike_ty d true s.result h.1.result))
  · subst hb
    obtain ⟨lb, inner, required⟩ := b
    have hblock := length_block (d := d) lb inner required
    have houter := (length_signature (d := d)
      (Format.blockPieces d (some ⟨lb, inner, required⟩)) s).2.2.2
    have hinner : 4 * (wordsOf (Format.signaturePiecesOf d [] [] inner)).length ≤ n := by omega
    exact hn.signature h.2 [] hinner

/-- Types on the lowest level are read back. -/
theorem reads_simple (hk : Keeps c d f g) {wrap : Bool} : (t : Ty) → t.Formed scope d.source →
    t.level wrap = 0 → 4 * (tyWords d wrap t).length ≤ fuel + 3 →
    Reads c (simpleType fuel scope) (tyWords d wrap t)
      (Bound (t.openLevel wrap) (tyWords d wrap t)) fun a => a.erase f = (t.reread wrap).erase g
  | .base l kind, _, _, hf => by
    obtain ⟨k, hname, hkind⟩ := baseKind_text kind
    have hw : tyWords d wrap (.base l kind) = [(.keyword k, kind.text.toList)] := by
      rw [tyWords, tyPieces, wordsOf_named, hname]
      rfl
    rw [hw] at hf ⊢
    obtain ⟨n, rfl⟩ : ∃ n, fuel = n + 1 := ⟨fuel - 1, by simp at hf; omega⟩
    exact reads_base hkind (fun l => rfl) n
  | .variable l name, h, _, hf => by
    obtain ⟨n, rfl⟩ : ∃ n, fuel = n + 1 := ⟨fuel - 1, by simp [tyWords, tyPieces] at hf; omega⟩
    exact reads_variable h.1 h.2 fun l => rfl
  | .classInstance l name args, h, _, hf => by
    have hlex := (h.1.name.name (.inl rfl)).2
    obtain ⟨hclass, hinterface⟩ := class_of_constant hlex
    refine reads_application ih h.1 (fun s => .inl rfl) (fun _ => h.2.1) h.2.2 rfl hf ?_
    intro l' a as ha has
    rw [hclass, hinterface, Ty.reread, if_neg Bool.false_ne_true, if_pos rfl]
    simp only [Ty.erase, ha, has.erase]
  | .interface l name args, h, _, hf => by
    have hlex := (h.1.name.name (.inr (.inl rfl))).2
    obtain ⟨hclass, hinterface⟩ := interface_of_interfaceName hlex
    refine reads_application ih h.1 (fun s => .inr (.inl rfl)) (fun hc => ?_) h.2 rfl hf ?_
    · rw [hclass] at hc
      cases hc
    · intro l' a as ha has
      rw [hinterface, Ty.reread, if_pos rfl]
      simp only [Ty.erase, ha, has.erase]
  | .alias l name args, h, _, hf => by
    have hlex := (h.1.name.name (.inr (.inr rfl))).2
    obtain ⟨hclass, hinterface⟩ := neither_of_identifier hlex
    refine reads_application ih h.1 (fun s => .inr (.inr rfl)) (fun hc => ?_) h.2 rfl hf ?_
    · rw [hclass] at hc
      cases hc
    · intro l' a as ha has
      rw [hclass, hinterface, Ty.reread, if_neg Bool.false_ne_true, if_neg Bool.false_ne_true]
      simp only [Ty.erase, ha, has.erase]
  | .classSingleton l name, h, _, hf => by
    obtain ⟨n, rfl⟩ : ∃ n, fuel = n + 1 := ⟨fuel - 1, by simp [tyWords, tyPieces] at hf; omega⟩
    exact reads_singleton h fun l a ha => by rw [Ty.erase, ha]; rfl
  | .optional l type, h, hl, hf => by
    cases ho : type.openSymbol? with
    | none => simp [Ty.level, ho] at hl
    | some s =>
      have hw : tyWords d wrap (.optional l type) =
          [(.symbol (s ++ "?"), (Spell.symbol (s ++ "?")).toList)] := by
        rw [tyWords, tyPieces, ho]
        rfl
      rw [hw] at hf ⊢
      obtain ⟨n, rfl⟩ : ∃ n, fuel = n + 1 := ⟨fuel - 1, by simp at hf; omega⟩
      refine reads_literal rfl (fun t _ => ?_) n
      rw [Ty.reread, ho]
      rfl
  | .union l ts, h, hl, hf => by
    cases wrap with
    | false => simp [Ty.level] at hl
    | true => exact (reads_union_parens ih h hf).imp (fun _ _ => trivial) fun _ ha => ha
  | .intersection l ts, h, hl, hf => by
    cases wrap with
    | false => simp [Ty.level] at hl
    | true =>
      refine (reads_wrapped ih h ?_ hf rfl).imp (fun _ _ => trivial) fun _ ha => ha
      simp [tyWords, tyPieces, Format.parenthesizedPieces]
  | .tuple l ts, h, _, hf => (reads_tuple_back ih h hf).imp (fun _ _ => trivial) fun _ ha => ha
  | .record l fields, h, _, hf =>
    (reads_record_back ih hk h hf).imp (fun _ _ => trivial) fun _ ha => ha
  | .literal l value, h, _, hf => by
    obtain ⟨n, rfl⟩ : ∃ n, fuel = n + 1 := by
      cases value <;>
        exact ⟨fuel - 1, by simp [tyWords, tyPieces, Format.literalPiece] at hf; omega⟩
    exact reads_literalPiece hk h n
  | .proc l s block, h, _, hf => by
    cases wrap with
    | true =>
      refine (reads_wrapped ih h ?_ hf rfl).imp (fun _ _ => trivial) fun _ ha => ha
      simp [tyWords, tyPieces, Format.parenthesizedPieces]
    | false => exact reads_proc_back ih h hf

/-- Types on the level of optional types are read back. -/
theorem reads_optional (hk : Keeps c d f g) {wrap : Bool} {t : Ty} (h : t.Formed scope d.source)
    (hl : t.level wrap ≤ 1) (hf : 4 * (tyWords d wrap t).length + 1 ≤ fuel + 3) :
    Reads c (optionalType fuel scope) (tyWords d wrap t) (Bound 1 (tyWords d wrap t))
      fun a => a.erase f = (t.reread wrap).erase g := by
  obtain ⟨n, rfl⟩ : ∃ n, fuel = n + 1 := ⟨fuel - 1, by have := length_tyWords_pos h wrap; omega⟩
  have below : ∀ k < n, ReadsBack c d f g scope k :=
    fun k hk => ih k (hk.trans (Nat.lt_succ_self n))
  unfold optionalType
  refine .here_bind fun start => ?_
  by_cases hlevel : t.level wrap = 0
  · rw [← List.append_nil (tyWords d wrap t)]
    refine (reads_simple below hk t h hlevel (by omega)).bind (fun a ha => ?_) fun x hx => ?_
    · exact .eat_miss (fun x hx => hx.question (Nat.le_refl 1)) (.pure ha)
    · simpa using hx.mono (openLevel_le t wrap)
  · obtain ⟨l, type, rfl, ho⟩ : ∃ l type, t = .optional l type ∧ type.openSymbol? = none := by
      cases t with
      | optional l type => exact ⟨l, type, rfl, by simpa [Ty.level] using hlevel⟩
      | union l ts => cases wrap <;> simp [Ty.level] at hl hlevel
      | intersection l ts => cases wrap <;> simp [Ty.level] at hl hlevel
      | _ => simp [Ty.level] at hlevel
    have hwords : tyWords d wrap (.optional l type) =
        wordsOf (Format.parenthesizedPieces type.isOptional (tyPieces d true type)) ++
          [(.mark .question, Mark.question.text.toList)] := by
      rw [tyWords, tyPieces, ho]
      simp
    have inner : Reads c (simpleType n scope)
        (wordsOf (Format.parenthesizedPieces type.isOptional (tyPieces d true type)))
        (Bound 0 (wordsOf (Format.parenthesizedPieces type.isOptional (tyPieces d true type))))
        fun a => a.erase f = (type.reread true).erase g := by
      rw [hwords, List.length_append, List.length_singleton] at hf
      have ht : type.Formed scope d.source := h
      cases hopt : type.isOptional with
      | true =>
        obtain ⟨l', inside, rfl⟩ : ∃ l' inside, type = .optional l' inside := by
          cases type <;> first | exact ⟨_, _, rfl⟩ | cases hopt
        have hw :
            wordsOf (Format.parenthesizedPieces true (tyPieces d true (.optional l' inside))) =
            (.mark .lparen, Mark.lparen.text.toList) :: (tyWords d false (.optional l' inside) ++
              [(.mark .rparen, Mark.rparen.text.toList)]) := by
          simp [tyWords, tyPieces, Format.parenthesizedPieces]
        rw [hopt, hw, List.length_cons, List.length_append, List.length_singleton] at hf
        rw [hw]
        obtain ⟨k, rfl⟩ : ∃ k, n = k + 1 := ⟨n - 1, by omega⟩
        exact reads_parens ((below k (by omega)).ready ht (by omega)).reads
      | false =>
        obtain ⟨hlow, hopen⟩ := level_of_not_optional hopt
        rw [hopt] at hf
        have hr := reads_simple below hk type ht hlow (by
          change 4 * ((tyWords d true type).length + 1) + 1 ≤ n + 1 + 3 at hf
          omega)
        rw [hopen] at hr
        exact hr
    rw [hwords]
    refine inner.bind (fun a ha => ?_) fun x _ => bound_question _ _
    refine .eat_bind (.span_bind fun l' => .pure ?_)
    rw [Ty.erase, ha, Ty.reread, ho]
    rfl

/-- Types on the level of intersections are read back. -/
theorem reads_intersection (hk : Keeps c d f g) {wrap : Bool} {t : Ty}
    (h : t.Formed scope d.source) (hl : t.level wrap ≤ 2)
    (hf : 4 * (tyWords d wrap t).length + 2 ≤ fuel + 3) :
    Reads c (intersection fuel scope) (tyWords d wrap t) (Bound 2 (tyWords d wrap t))
      fun a => a.erase f = (t.reread wrap).erase g := by
  obtain ⟨n, rfl⟩ : ∃ n, fuel = n + 1 := ⟨fuel - 1, by have := length_tyWords_pos h wrap; omega⟩
  have below : ∀ k < n, ReadsBack c d f g scope k :=
    fun k hk => ih k (hk.trans (Nat.lt_succ_self n))
  have hpos := length_tyWords_pos h wrap
  rw [intersection_succ]
  by_cases hlevel : t.level wrap ≤ 1
  · exact reads_layer_one (fun x hx => hx.ampersand (Nat.le_refl 2)) (by decide)
      (reads_optional below hk h hlevel (by omega)) (by omega)
  · obtain ⟨l, ts, rfl, rfl⟩ : ∃ l ts, t = .intersection l ts ∧ wrap = false := by
      cases t with
      | optional l type => exact absurd (level_true_le (.optional l type)) hlevel
      | union l ts => cases wrap <;> simp [Ty.level] at hl hlevel
      | intersection l ts => cases wrap <;> simp [Ty.level] at hlevel ⊢
      | _ => simp [Ty.level] at hlevel
    have hwords : tyWords d false (.intersection l ts) =
        [(.mark .ampersand, Mark.ampersand.text.toList)].intercalate (ts.map (tyWords d true)) := by
      rw [tyWords, tyPieces, Format.parenthesizedPieces, if_neg Bool.false_ne_true,
        wordsOf_alternatives, tysPieces_eq_map, List.map_map]
      rfl
    have hcount := count_le_intercalate (.mark .ampersand, Mark.ampersand.text.toList)
      (ts.map (tyWords d true))
    rw [List.length_map] at hcount
    rw [hwords] at hf hpos ⊢
    refine reads_layer (S := fun t a => a.erase f = (t.reread true).erase g) (by decide)
      (fun ws x hx => hx.ampersand (Nat.le_refl 2)) (fun ws x => bound_ampersand ws x)
      (List.forall₂_map_left_iff.mpr (List.forall₂_same.mpr fun t ht => ?_)) ?_ h.1
      (by rw [List.length_map]; omega) fun l' as has => ?_
    · have hlen := length_le_intercalate [(.mark .ampersand, Mark.ampersand.text.toList)]
        (List.mem_map_of_mem (f := tyWords d true) ht)
      exact reads_optional below hk (Ty.formedAll_iff.mp h.2 t ht) (level_true_le t) (by omega)
    · intro ws hws
      obtain ⟨t, ht, rfl⟩ := List.mem_map.mp hws
      exact words_ne_nil (typeLike_ty d true t (Ty.formedAll_iff.mp h.2 t ht))
    · rw [Ty.erase, Rereads.erase has]
      rfl

/-- Types on the loosest level are read back. -/
theorem reads_type (hk : Keeps c d f g) {wrap : Bool} {t : Ty} (h : t.Formed scope d.source)
    (hf : 4 * (tyWords d wrap t).length + 3 ≤ fuel + 3) :
    Reads c (Grammar.type fuel scope) (tyWords d wrap t) (Bound 3 (tyWords d wrap t))
      fun a => a.erase f = (t.reread wrap).erase g := by
  obtain ⟨n, rfl⟩ : ∃ n, fuel = n + 1 := ⟨fuel - 1, by have := length_tyWords_pos h wrap; omega⟩
  have below : ∀ k < n, ReadsBack c d f g scope k :=
    fun k hk => ih k (hk.trans (Nat.lt_succ_self n))
  have hpos := length_tyWords_pos h wrap
  rw [type_succ]
  by_cases hlevel : t.level wrap ≤ 2
  · exact reads_layer_one (fun x hx => hx.pipe (Nat.le_refl 3)) (by decide)
      (reads_intersection below hk h hlevel (by omega)) (by omega)
  · obtain ⟨l, ts, rfl, rfl⟩ : ∃ l ts, t = .union l ts ∧ wrap = false := by
      cases t with
      | optional l type =>
        exact absurd ((level_true_le (.optional l type)).trans (by decide)) hlevel
      | union l ts => cases wrap <;> simp [Ty.level] at hlevel ⊢
      | intersection l ts => cases wrap <;> simp [Ty.level] at hlevel
      | _ => simp [Ty.level] at hlevel
    have hwords : tyWords d false (.union l ts) = [(.mark .pipe, Mark.pipe.text.toList)].intercalate
        ((Ty.branchesAll ts).map (bareWords d)) :=
      words_branches (.union l ts) h
    have hcount := count_le_intercalate (.mark .pipe, Mark.pipe.text.toList)
      ((Ty.branchesAll ts).map (bareWords d))
    rw [List.length_map] at hcount
    rw [hwords] at hf hpos ⊢
    refine reads_layer (S := fun t a => a.erase f = (t.reread false).erase g) (by decide)
      (fun ws x hx => hx.pipe (Nat.le_refl 3)) (fun ws x => bound_pipe ws x)
      (List.forall₂_map_left_iff.mpr (List.forall₂_same.mpr fun t ht => ?_)) ?_
      (h.1.trans (length_branchesAll ts h.2)) (by rw [List.length_map]; omega) fun l' as has => ?_
    · obtain ⟨ht', hunion⟩ := formed_branchesAll ts h.2 t ht
      have hlen := length_le_intercalate [(.mark .pipe, Mark.pipe.text.toList)]
        (List.mem_map_of_mem (f := bareWords d) ht)
      refine reads_intersection below hk ht' ?_ ?_
      · cases t with
        | union => cases hunion
        | optional l type => exact (level_true_le (.optional l type)).trans (by decide)
        | _ => simp [Ty.level]
      · change 4 * (bareWords d t).length + 2 ≤ n + 3
        omega
    · intro ws hws
      obtain ⟨t, ht, rfl⟩ := List.mem_map.mp hws
      exact words_ne_nil (typeLike_ty d false t (formed_branchesAll ts h.2 t ht).1)
    · rw [Ty.erase, Rereads.erase has, Ty.reread, if_neg Bool.false_ne_true, Ty.parts_rereadAll,
        Ty.rereadAll_eq_map]
      rfl

end Simple

/-- With enough fuel every printed type is read back. -/
theorem readsBack (hk : Keeps c d f g) (fuel : Nat) : ReadsBack c d f g scope fuel := by
  induction fuel using Nat.strong_induction_on with
  | _ fuel ih =>
    intro t h wrap level hl hmax hf
    have hopen := openLevel_le t wrap
    match level, hmax with
    | 0, _ =>
      rw [Nat.zero_max]
      exact reads_simple ih hk t h (Nat.le_zero.mp hl) hf
    | 1, _ =>
      rw [Nat.max_eq_left (by omega)]
      exact reads_optional ih hk h hl hf
    | 2, _ =>
      rw [Nat.max_eq_left (by omega)]
      exact reads_intersection ih hk h hl hf
    | 3, _ =>
      rw [Nat.max_eq_left (by omega)]
      exact reads_type ih hk h hf

end Grammar
end RubySig
