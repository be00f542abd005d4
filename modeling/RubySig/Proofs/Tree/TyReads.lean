import RubySig.Proofs.Tree.SignatureReads

/-!
Printed types are read back. A type in front of which nothing is in doubt is read on the level of
precedence that it was printed for; the fuel pays four steps for each word.
-/
namespace RubySig.Grammar

open Format (wordsOf tyPieces tysPieces namePieces bracketedPieces)
open Format.Piece (mark keyword named)

variable {c : Context} {type : Parser Ty} {d : Format.Context} {f g : Showing} {scope : List String}
  {R : Ty → Prop} {n : List Lexeme → Prop} {ws : List Word} {fuel : Nat}

/-- A token that is a literal is read with its place. -/
theorem reads_literal {l : Lexeme} {w : List Char} {value : Literal} (hl : literal? l = some value)
    (h : ∀ t : Token, t.At c.text (l, w) → R (.literal (some t.span) value)) (fuel : Nat) :
    Reads c (simpleType (fuel + 1) scope) [(l, w)] n R := by
  intro toks rest last blocks ht _
  cases ht with
  | @cons t _ _ _ ht hnil =>
    cases hnil
    have hr := h t ht
    obtain ⟨k, start, stop⟩ := t
    obtain rfl : k = l := ht.lexeme
    refine ⟨_, blocks, ?_, hr⟩
    cases k with
    | keyword k => cases k <;> first | (cases hl; done) | (cases hl; rfl)
    | integer _ => cases hl; rfl
    | string _ => cases hl; rfl
    | symbol _ => cases hl; rfl
    | _ => cases hl

theorem reads_base {kind : BaseKind} {k : Keyword} {w : List Char} (hk : baseKind? k = some kind)
    (h : ∀ l, R (.base l kind)) (fuel : Nat) :
    Reads c (simpleType (fuel + 1) scope) [(.keyword k, w)] n R := by
  unfold simpleType
  refine .here_bind fun start => ?_
  refine .peek_bind (l := some (.keyword k)) (fun x _ => rfl) ?_
  cases k <;>
    first | (cases hk; done) | (cases hk; exact .advance_one (.span_bind fun l => .pure (h l)))

theorem baseKind_text (kind : BaseKind) :
    ∃ k, Lexer.nameLexeme kind.text.toList = .keyword k ∧ baseKind? k = some kind := by
  cases kind with
  | untyped => exact ⟨.untyped, by decide, rfl⟩
  | bool => exact ⟨.bool, by decide, rfl⟩
  | bottom => exact ⟨.bot, by decide, rfl⟩
  | class_ => exact ⟨.class_, by decide, rfl⟩
  | instance_ => exact ⟨.instance_, by decide, rfl⟩
  | nil => exact ⟨.nil, by decide, rfl⟩
  | self => exact ⟨.self, by decide, rfl⟩
  | top => exact ⟨.top, by decide, rfl⟩
  | void => exact ⟨.void, by decide, rfl⟩

theorem tysPieces_eq_map (wrap : Bool) (ts : List Ty) :
    tysPieces d wrap ts = ts.map (tyPieces d wrap) := by
  induction ts with
  | nil => rfl
  | cons t ts ih => rw [tysPieces, ih, List.map_cons]

/-- Types are what another list of types is read as. -/
def Rereads (f g : Showing) (wrap : Bool) (ts : List Ty) (as : List Ty) : Prop :=
  List.Forall₂ (fun t a => a.erase f = (t.reread wrap).erase g) ts as

theorem Rereads.erase {wrap : Bool} {ts as : List Ty} (h : Rereads f g wrap ts as) :
    Ty.eraseAll f as = Ty.eraseAll g (Ty.rereadAll wrap ts) := by
  rw [Ty.eraseAll_eq_map, Ty.eraseAll_eq_map, Ty.rereadAll_eq_map]
  induction h with
  | nil => rfl
  | cons ha _ ih => rw [List.map_cons, ih, ha]; rfl

theorem bound_closer {m : Mark} (hm : m ∉ continuers) {x : List Lexeme}
    (hx : x.head? = some (.mark m)) (level : Nat) (ws : List Word) : Bound level ws x := by
  cases x with
  | nil => cases hx
  | cons l x =>
    cases hx
    exact bound_mark hm level ws x

theorem reads_types {close : Mark} (hc : close ∉ continuers) (hcomma : close ≠ .comma)
    (hs : startsType (.mark close) = false) {ts : List Ty} (h : ∀ t ∈ ts, Ready c type d f g t)
    (fuel : Nat) (hf : ts.length < fuel) :
    Reads c (listed (.mark close) type fuel)
      ([(.mark .comma, Mark.comma.text.toList)].intercalate
        (ts.map fun t => wordsOf (tyPieces d false t)))
      (fun x => x.head? = some (.mark close)) (Rereads f g false ts) := by
  refine reads_listed (N := fun ws => Bound 3 ws) (fun ws x => bound_mark (by decide) _ _ _)
    (fun ws x => bound_mark hc _ _ _) (by simpa using hcomma) ?_ ?_ fuel (by simpa using hf)
  · refine List.forall₂_map_left_iff.mpr (List.forall₂_same.mpr fun t ht => (h t ht).reads)
  · intro ws hws
    obtain ⟨t, ht, rfl⟩ := List.mem_map.mp hws
    obtain ⟨l, rest, hl, hstart, -⟩ := (h t ht).typeLike
    refine ⟨l, by rw [hl]; rfl, ?_⟩
    rintro rfl
    rw [hs] at hstart
    cases hstart

theorem wordsOf_inline (pss : List (List Format.Piece)) :
    wordsOf (Format.inlinePieces pss) =
      [(.mark .comma, Mark.comma.text.toList)].intercalate (pss.map wordsOf) := by
  rw [Format.inlinePieces, wordsOf_intercalate]
  rfl

/-- The words between the brackets of arguments. -/
theorem wordsOf_bracketed {pss : List (List Format.Piece)} (hne : pss ≠ []) :
    wordsOf (bracketedPieces pss) = (.mark .lbracket, Mark.lbracket.text.toList) ::
      ([(.mark .comma, Mark.comma.text.toList)].intercalate (pss.map wordsOf) ++
        [(.mark .rbracket, Mark.rbracket.text.toList)]) := by
  have hempty : pss.isEmpty = false := by
    cases pss with
    | nil => exact absurd rfl hne
    | cons ps pss => rfl
  rw [bracketedPieces, hempty, if_neg Bool.false_ne_true]
  simp [wordsOf_inline]

theorem reads_typeArgs {ts : List Ty} (h : ∀ t ∈ ts, Ready c type d f g t) (fuel : Nat)
    (hf : ts.length ≤ fuel) :
    Reads c (typeArgs type fuel) (wordsOf (bracketedPieces (tysPieces d false ts)))
      (fun x => ts = [] → x.head? ≠ some (.mark .lbracket)) (Rereads f g false ts) := by
  unfold typeArgs
  cases ts with
  | nil => exact .eat_miss (fun x hx => hx rfl) (.pure .nil)
  | cons t ts =>
    have hfirst := (h t (List.mem_cons_self ..)).reads
    rw [tysPieces_eq_map, wordsOf_bracketed (by simp), List.map_map]
    refine .eat_bind ?_
    cases ts with
    | nil =>
      rw [List.map_singleton, List.intercalate_singleton]
      refine hfirst.bind (fun a ha => ?_) fun x _ => bound_mark (by decide) _ _ _
      refine .eat_miss (fun x _ => by simp) ?_
      refine .bind (n := fun _ => True) (R := (· = [])) (.pure rfl)
        (fun as has => ?_) fun x _ => trivial
      subst has
      exact .expect_bind (.pure (.cons ha .nil))
    | cons u ts =>
      rw [List.map_cons, List.map_cons, List.intercalate_cons_cons, List.append_assoc,
        List.append_assoc]
      refine hfirst.bind (fun a ha => ?_) fun x _ => bound_mark (by decide) _ _ _
      refine .eat_bind ?_
      refine (reads_types (by decide) (by decide) rfl
        (fun v hv => h v (List.mem_cons_of_mem _ hv)) fuel hf).bind
          (fun as has => ?_) fun x _ => rfl
      exact .expect_bind (.pure (.cons ha has))

/-- A token that the name of a type can start with. -/
def startsName : Lexeme → Bool
  | .constant _ | .interfaceName _ | .identifier _ | .mark .doubleColon => true
  | _ => false

theorem reads_named (hws : ∃ l, (lexemesOf ws).head? = some l ∧ startsName l = true)
    (h : Reads c (namedType scope (Grammar.type fuel scope) fuel) ws n R) :
    Reads c (simpleType (fuel + 1) scope) ws n R := by
  obtain ⟨l, hl, hstart⟩ := hws
  unfold simpleType
  refine .here_bind fun start => ?_
  refine .peek_bind (l := some l) (fun x _ => by rw [List.head?_append, hl]; rfl) ?_
  cases l with
  | mark m => cases m <;> first | (cases hstart; done) | exact h
  | constant _ => exact h
  | interfaceName _ => exact h
  | identifier _ => exact h
  | _ => cases hstart

theorem startsName_name {name : TypeName} {last : String → Lexeme} (h : name.Formed last)
    (hl : ∀ s, last s = .constant s ∨ last s = .interfaceName s ∨ last s = .identifier s)
    (vs : List Word) :
    ∃ l, (lexemesOf (wordsOf (namePieces name) ++ vs)).head? = some l ∧ startsName l = true := by
  rw [wordsOf_name h hl]
  split
  case isTrue => exact ⟨_, rfl, rfl⟩
  case isFalse =>
    cases hp : name.path with
    | nil =>
      refine ⟨_, rfl, ?_⟩
      rcases hl name.name with h | h | h <;> simp [h, startsName]
    | cons s path => exact ⟨_, rfl, rfl⟩

/-- What a token says about the first letters of its name. -/
theorem capital_of_nameLexeme {s : String} :
    (Lexer.nameLexeme s.toList = .constant s → ∃ c cs, s.toList = c :: cs ∧
      Text.isCapital c = true) ∧
    (Lexer.nameLexeme s.toList = .interfaceName s →
      ∃ c cs, s.toList = '_' :: c :: cs ∧ Text.isCapital c = true) ∧
    (Lexer.nameLexeme s.toList = .identifier s →
      (∀ c cs, s.toList = c :: cs → c ≠ '_' → Text.isCapital c = false) ∧
        ∀ c cs, s.toList = '_' :: c :: cs → Text.isCapital c = false) := by
  unfold Lexer.nameLexeme
  simp only
  split
  · exact ⟨by simp, by simp, by simp⟩
  · split
    case _ c cs hs =>
      rw [hs]
      split
      case isTrue hc => exact ⟨by simp, fun _ => ⟨c, cs, rfl, hc⟩, by simp⟩
      case isFalse hc =>
        refine ⟨by simp, by simp, fun _ => ⟨?_, ?_⟩⟩
        · rintro _ _ ⟨⟩ hne
          exact absurd rfl hne
        · rintro _ _ ⟨⟩
          simpa using hc
    case _ c cs hne hs =>
      rw [hs]
      split
      case isTrue hc => exact ⟨fun _ => ⟨c, cs, rfl, hc⟩, by simp, by simp⟩
      case isFalse hc =>
        refine ⟨by simp, by simp, fun _ => ⟨?_, ?_⟩⟩
        · rintro _ _ ⟨⟩ _
          simpa using hc
        · rintro b bs ⟨⟩
          exact absurd rfl (hne b bs rfl)
    case _ hs =>
      rw [hs]
      exact ⟨by simp, by simp, by simp⟩

theorem not_capital_underscore : Text.isCapital '_' = false := by decide

theorem class_of_constant {name : TypeName}
    (h : Lexer.nameLexeme name.name.toList = .constant name.name) :
    name.isClass = true ∧ name.isInterface = false := by
  obtain ⟨b, cs, hs, hb⟩ := capital_of_nameLexeme.1 h
  refine ⟨by rw [TypeName.isClass, hs]; exact hb, ?_⟩
  rw [TypeName.isInterface, hs]
  split
  case _ heq =>
    cases heq
    rw [not_capital_underscore] at hb
    cases hb
  case _ => rfl

theorem interface_of_interfaceName {name : TypeName}
    (h : Lexer.nameLexeme name.name.toList = .interfaceName name.name) :
    name.isClass = false ∧ name.isInterface = true := by
  obtain ⟨b, cs, hs, hb⟩ := capital_of_nameLexeme.2.1 h
  exact ⟨by rw [TypeName.isClass, hs]; exact not_capital_underscore,
    by rw [TypeName.isInterface, hs]; exact hb⟩

theorem neither_of_identifier {name : TypeName}
    (h : Lexer.nameLexeme name.name.toList = .identifier name.name) :
    name.isClass = false ∧ name.isInterface = false := by
  obtain ⟨h₁, h₂⟩ := capital_of_nameLexeme.2.2 h
  constructor
  · rw [TypeName.isClass]
    split
    case _ b cs hs =>
      by_cases hb : b = '_'
      · rw [hb]
        exact not_capital_underscore
      · exact h₁ b cs hs hb
    case _ => rfl
  · rw [TypeName.isInterface]
    split
    case _ b cs hs => exact h₂ b cs hs
    case _ => rfl

theorem reads_applied {name : TypeName} {last : String → Lexeme} (hn : name.Formed last)
    (hl : ∀ s, last s = .constant s ∨ last s = .interfaceName s ∨ last s = .identifier s)
    (hscope : name.isClass = true → name.isBare = true → name.name ∉ scope) {args : List Ty}
    (h : ∀ t ∈ args, Ready c (Grammar.type fuel scope) d f g t) (hf : args.length ≤ fuel)
    (hR : ∀ location (a : TypeName) as, a.erase = name.erase → Rereads f g false args as →
      R (if name.isInterface then .interface location a as
        else if name.isClass then .classInstance location a as else .alias location a as)) :
    Reads c (simpleType (fuel + 1) scope)
      (wordsOf (namePieces name ++ bracketedPieces (tysPieces d false args)))
      (Bound 0 (wordsOf (namePieces name ++ bracketedPieces (tysPieces d false args)))) R := by
  rw [wordsOf_append]
  refine reads_named (startsName_name hn hl _) ?_
  unfold namedType
  refine .here_bind fun start => ?_
  have hseg (s : String) : Segment.name? .any (last s) = some s := by
    rcases hl s with h | h | h <;> rw [h] <;> rfl
  refine (reads_typeName hn hl hseg _).bind (fun a ha => ?_) fun x hx => ?_
  · obtain ⟨hname, hpath, habs⟩ := TypeName.eq_of_erase ha
    have hclass : a.isClass = name.isClass := by rw [TypeName.isClass, hname]; rfl
    have hinterface : a.isInterface = name.isInterface := by rw [TypeName.isInterface, hname]; rfl
    have hout : (a.isClass && !a.absolute && a.path.isEmpty && scope.contains a.name) = false := by
      rw [hclass, habs, hpath, hname, Bool.and_assoc name.isClass]
      cases hc : name.isClass with
      | false => rfl
      | true =>
        cases hb : !name.absolute && name.path.isEmpty with
        | false => rfl
        | true => simpa using hscope hc hb
    rw [hout, if_neg Bool.false_ne_true, ← List.append_nil (wordsOf (bracketedPieces _))]
    refine (reads_typeArgs h fuel hf).bind (fun as has => ?_) fun x hx he => ?_
    · refine .span_bind fun location => ?_
      have hr := hR location a as ha has
      rw [hclass, hinterface]
      split
      case isTrue hi => rw [if_pos hi] at hr; exact .pure hr
      case isFalse hi =>
        rw [if_neg hi] at hr
        split
        case isTrue hc => rw [if_pos hc] at hr; exact .pure hr
        case isFalse hc => rw [if_neg hc] at hr; exact .pure hr
    · exact hx.bracket
  · cases args with
    | nil =>
      refine hx.name (last name.name, name.name.toList) ?_
      rw [wordsOf_name hn hl, tysPieces]
      simp [bracketedPieces]
    | cons t ts =>
      rw [tysPieces, wordsOf_bracketed (by simp)]
      simp [NameStops]

theorem reads_variable {name : String} (h : Lexer.ReadsAs name (.constant name)) (hs : name ∈ scope)
    (hR : ∀ l, R (.variable l name)) :
    Reads c (simpleType (fuel + 1) scope) (wordsOf [named name])
      (Bound 0 (wordsOf [named name])) R := by
  have hn : TypeName.Formed .constant ⟨none, name, [], false⟩ := ⟨by simp, h⟩
  have hl (s : String) : (.constant s : Lexeme) = .constant s ∨ (.constant s : Lexeme) =
      .interfaceName s ∨
      (.constant s : Lexeme) = .identifier s := .inl rfl
  have hstart := startsName_name hn hl []
  have hlex := (h.name (.inl rfl)).2
  rw [List.append_nil] at hstart
  refine reads_named (c := c) hstart ?_
  unfold namedType
  refine .here_bind fun start => ?_
  have hname : Reads c (typeName .any .typeName) _ _ _ := reads_typeName hn hl (fun s => rfl) _
  rw [← List.append_nil (wordsOf _)]
  refine hname.bind (fun a ha => ?_) fun x hx => ?_
  · obtain ⟨hname, hpath, habs⟩ := TypeName.eq_of_erase ha
    have hclass : a.isClass = true := by
      refine (class_of_constant ?_).1
      rw [hname]
      exact hlex
    have hin : (a.isClass && !a.absolute && a.path.isEmpty && scope.contains a.name) = true := by
      rw [hclass, habs, hpath, hname]
      simpa using hs
    rw [hin, if_pos rfl]
    refine .span_bind fun location => .pure ?_
    rw [hname]
    exact hR location
  · refine hx.name (.constant name, name.toList) ?_
    simp [hlex]

theorem reads_singleton {name : TypeName} (hn : name.Formed .constant)
    (hR : ∀ l (a : TypeName), a.erase = name.erase → R (.classSingleton l a)) :
    Reads c (simpleType (fuel + 1) scope)
      (wordsOf (keyword .singleton :: mark .lparen :: namePieces name ++ [mark .rparen])) n R := by
  unfold simpleType
  simp only [List.cons_append, wordsOf_keyword, wordsOf_mark, wordsOf_append, wordsOf_nil]
  refine .here_bind fun start => ?_
  refine .peek_bind (l := some (.keyword .singleton)) (fun x _ => rfl) ?_
  refine .advance_one (.expect_bind ?_)
  refine (reads_typeName hn (fun s => .inl rfl) (fun s => rfl) .className).bind (fun a ha => ?_)
    fun x _ _ => by simp
  exact .expect_bind (.span_bind fun location => .pure (hR location a ha))

theorem wordsOf_tuple (ts : List Ty) : wordsOf (Format.tuplePieces (tysPieces d false ts)) =
    (.mark .lbracket, Mark.lbracket.text.toList) ::
      ([(.mark .comma, Mark.comma.text.toList)].intercalate
        (ts.map fun t => wordsOf (tyPieces d false t)) ++
        [(.mark .rbracket, Mark.rbracket.text.toList)]) := by
  cases ts with
  | nil => rfl
  | cons t ts =>
    rw [tysPieces_eq_map, Format.tuplePieces, if_neg (by simp), wordsOf_bracketed (by simp),
      List.map_map]
    rfl

theorem reads_tuple {ts : List Ty} (h : ∀ t ∈ ts, Ready c (Grammar.type fuel scope) d f g t)
    (hf : ts.length < fuel) (hR : ∀ l as, Rereads f g false ts as → R (.tuple l as)) :
    Reads c (simpleType (fuel + 1) scope)
      (wordsOf (Format.tuplePieces (tysPieces d false ts))) n R := by
  rw [wordsOf_tuple]
  unfold simpleType
  refine .here_bind fun start => ?_
  refine .peek_bind (l := some (.mark .lbracket)) (fun x _ => rfl) ?_
  refine .advance_one ?_
  refine (reads_types (by decide) (by decide) rfl h fuel hf).bind (fun as has => ?_) fun x _ => rfl
  exact .expect_bind (.span_bind fun location => .pure (hR location as has))

theorem reads_parens {vs : List Word} (h : Reads c (Grammar.type fuel scope) vs (Bound 3 vs) R) :
    Reads c (simpleType (fuel + 1) scope)
      ((.mark .lparen, Mark.lparen.text.toList) ::
        (vs ++ [(.mark .rparen, Mark.rparen.text.toList)]))
      n R := by
  unfold simpleType
  refine .here_bind fun start => ?_
  refine .peek_bind (l := some (.mark .lparen)) (fun x _ => rfl) ?_
  refine .advance_one ?_
  refine h.bind (fun a ha => ?_) fun x _ => bound_mark (by decide) _ _ _
  exact .expect_bind (.pure ha)

theorem reads_proc {s : Signature} {block : Option Block}
    (hs : SignatureReady c (Grammar.type fuel scope) (optionalType fuel scope) d f g fuel s)
    (hb : ∀ b ∈ block, SignatureReady c (Grammar.type fuel scope)
      (optionalType fuel scope) d f g fuel
      b.signature)
    (hR : ∀ l s' block', s'.erase f = s.reread.erase g →
      Ty.eraseBlock f block' = Ty.eraseBlock g (Ty.rereadBlock block) → R (.proc l s' block')) :
    Reads c (simpleType (fuel + 1) scope)
      (wordsOf (mark .caret :: Format.signaturePiecesOf d [] (Format.blockPieces d block) s))
      (Bound 1 (wordsOf (tyPieces d true s.result))) R := by
  unfold simpleType
  rw [wordsOf_mark]
  refine .here_bind fun start => ?_
  refine .peek_bind (l := some (.mark .caret)) (fun x _ => rfl) ?_
  refine .advance_one ?_
  rw [← List.append_nil (wordsOf _)]
  refine (reads_signature hs hb).bind (fun r hr => ?_) fun x hx => hx
  obtain ⟨s', block'⟩ := r
  exact .span_bind fun location => .pure (hR location s' block' hr.1 hr.2)

/-- A string that was printed is shown by its place as it was shown before. -/
def Keeps (c : Context) (d : Format.Context) (f g : Showing) : Prop :=
  ∀ (t : Token) (location : Option Span) (v : String), (Literal.string v).Formed d.source location →
    t.At c.text (.string v, Format.stringChars d location v) → f (some t.span) v = g location v

theorem reads_literalPiece (hk : Keeps c d f g) {location : Option Span} {value : Literal}
    (hv : value.Formed d.source location) (fuel : Nat) :
    Reads c (simpleType (fuel + 1) scope) (wordsOf [Format.literalPiece d location value]) n
      fun a => a.erase f = .literal none (value.erase g location) := by
  cases value with
  | integer k => exact reads_literal rfl (fun t _ => rfl) fuel
  | string v =>
    refine reads_literal rfl (fun t ht => ?_) fuel
    rw [Ty.erase, Literal.erase, Literal.erase, hk t location v hv ht]
  | symbol s => exact reads_literal rfl (fun t _ => rfl) fuel
  | truth b => cases b <;> exact reads_literal rfl (fun t _ => rfl) fuel

theorem literal_of_erase {a : Ty} {value : Literal} (h : a.erase f = .literal none value) :
    ∃ location v, a = .literal location v ∧ v.erase f location = value := by
  cases a with
  | literal location v =>
    rw [Ty.erase] at h
    cases h
    exact ⟨location, v, rfl, rfl⟩
  | _ => simp [Ty.erase] at h

/-- One entry of a record is what another is read as. -/
def FieldRereads (f g : Showing) (field a : Field) : Prop :=
  Ty.eraseFields f [a] = Ty.eraseFields g (Ty.rereadFields [field])

theorem eraseFields_cons (f : Showing) (field : Field) (fields : List Field) :
    Ty.eraseFields f (field :: fields) = Ty.eraseFields f [field] ++ Ty.eraseFields f fields := by
  cases field
  rfl

theorem rereadFields_cons (field : Field) (fields : List Field) :
    Ty.rereadFields (field :: fields) = Ty.rereadFields [field] ++ Ty.rereadFields fields := by
  cases field
  rfl

theorem eraseFields_append (f : Showing) (fields more : List Field) :
    Ty.eraseFields f (fields ++ more) = Ty.eraseFields f fields ++ Ty.eraseFields f more := by
  induction fields with
  | nil => rfl
  | cons field fields ih =>
    rw [List.cons_append, eraseFields_cons, ih, eraseFields_cons f field fields, List.append_assoc]

theorem erase_fields {fields as : List Field} (h : List.Forall₂ (FieldRereads f g) fields as) :
    Ty.eraseFields f as = Ty.eraseFields g (Ty.rereadFields fields) := by
  induction h with
  | nil => rfl
  | @cons field a fields as ha _ ih =>
    rw [eraseFields_cons, ih, ha, rereadFields_cons field fields, eraseFields_append]

theorem keyPieces_cases (location : Option Span) (key : Literal) :
    (∃ s, key = .symbol s ∧ Format.keyPieces d location key = [named s, mark .colon, .gap .blank]) ∨
    Format.keyPieces d location key =
      [Format.literalPiece d location key, .gap .blank, mark .fatArrow, .gap .blank] := by
  cases key with
  | symbol s =>
    rw [Format.keyPieces]
    split
    case isTrue => exact .inl ⟨s, rfl, rfl⟩
    case isFalse => exact .inr rfl
  | _ => exact .inr rfl

theorem reads_recordField (hk : Keeps c d f g) {l keyLocation : Option Span} {key : Literal}
    {t : Ty} (hkey : key.Formed d.source keyLocation) (ht : Ready c type d f g t) (fuel : Nat) :
    Reads c (recordField (simpleType (fuel + 1) scope) type)
      (wordsOf (Format.keyPieces d keyLocation key ++ tyPieces d false t))
      (Bound 3 (wordsOf (tyPieces d false t))) (FieldRereads f g ⟨l, keyLocation, key, t⟩) := by
  rw [wordsOf_append]
  unfold recordField
  refine .here_bind fun start => ?_
  rcases keyPieces_cases (d := d) keyLocation key with ⟨s, rfl, hp⟩ | hp
  · rw [hp]
    refine .peek_bind (l := some (Lexer.nameLexeme s.toList)) (fun x _ => rfl) ?_
    refine .peekAt_bind (l := some (.mark .colon)) (fun x _ => rfl) ?_
    rw [Option.bind_some, name?_nameLexeme, String.ofList_toList]
    refine .advance_one (.span_bind fun keyLocation' => .advance_one ?_)
    change Reads c _ (wordsOf (tyPieces d false t)) _ _
    rw [← List.append_nil (wordsOf _)]
    refine ht.reads.bind (fun a ha => .span_bind fun l' => .pure ?_) fun x hx => by simpa using hx
    simp only [FieldRereads, Ty.eraseFields, Ty.rereadFields, Literal.erase, ha]
  · obtain ⟨k, w, hone⟩ : ∃ k w, wordsOf [Format.literalPiece d keyLocation key] = [(k, w)] := by
      cases key <;> exact ⟨_, _, rfl⟩
    have hwords : wordsOf (Format.keyPieces d keyLocation key) =
        wordsOf [Format.literalPiece d keyLocation key] ++
          [(.mark .fatArrow, Mark.fatArrow.text.toList)] := by
      rw [hp]
      cases key <;> rfl
    refine .peek_bind (l := some k) (fun x _ => by rw [hwords, hone]; rfl) ?_
    refine .peekAt_bind (l := some (.mark .fatArrow)) (fun x _ => by rw [hwords, hone]; rfl) ?_
    rw [Option.bind_some, hwords, List.append_assoc]
    cases k.name?
    all_goals
      refine (reads_literalPiece (n := fun _ => True) hk hkey fuel).bind (fun a ha => ?_)
        fun x _ => trivial
      obtain ⟨location, v, rfl, hv⟩ := literal_of_erase ha
      refine .expect_bind (ht.reads.last (fun a ha => .span_bind fun l' => .pure ?_) fun x hx => hx)
      simp only [FieldRereads, Ty.eraseFields, Ty.rereadFields, hv, ha]

theorem fieldsPieces_eq_map (fields : List Field) : Format.fieldsPieces d fields =
    fields.map fun e => Format.keyPieces d e.keyLocation e.key ++ tyPieces d false e.type := by
  induction fields with
  | nil => rfl
  | cons e fields ih =>
    cases e
    rw [Format.fieldsPieces, ih, List.map_cons]

theorem head_key (location : Option Span) (key : Literal) (vs : List Word) :
    ∃ l, (lexemesOf (wordsOf (Format.keyPieces d location key) ++ vs)).head? = some l ∧
      l ≠ .mark .rbrace := by
  rcases keyPieces_cases (d := d) location key with ⟨s, -, hp⟩ | hp
  · exact ⟨_, by rw [hp]; rfl, Lexeme.not_mark_of_name (name?_nameLexeme _) _⟩
  · rw [hp]
    cases key with
    | truth b => exact ⟨_, rfl, by simp⟩
    | _ => exact ⟨_, rfl, by simp⟩

theorem words_ne_nil {ps : List Format.Piece} (h : TypeLike (lexemesOf (wordsOf ps))) :
    wordsOf ps ≠ [] := by
  obtain ⟨l, rest, hl, -⟩ := h
  intro he
  rw [he] at hl
  cases hl

theorem wordsOf_record (fields : List Field) :
    wordsOf (Format.recordPieces (Format.fieldsPieces d fields)) =
      (.mark .lbrace, Mark.lbrace.text.toList) ::
        ([(.mark .comma, Mark.comma.text.toList)].intercalate
          (fields.map fun e => wordsOf (Format.keyPieces d e.keyLocation e.key ++
            tyPieces d false e.type)) ++ [(.mark .rbrace, Mark.rbrace.text.toList)]) := by
  rw [fieldsPieces_eq_map]
  cases fields with
  | nil => rfl
  | cons e fields =>
    rw [Format.recordPieces, if_neg (by simp)]
    simp only [Format.commaPieces, List.cons_append, wordsOf_mark, wordsOf_gap, wordsOf_append,
      wordsOf_intercalate, List.map_map, wordsOf_nil, Function.comp_def]

theorem reads_record (hk : Keeps c d f g) {fields : List Field}
    (h : ∀ e ∈ fields, e.key.Formed d.source e.keyLocation ∧
      Ready c (Grammar.type (fuel + 1) scope) d f g e.type)
    (hf : fields.length ≤ fuel)
    (hR : ∀ l as, List.Forall₂ (FieldRereads f g) fields as → R (.record l as)) :
    Reads c (simpleType (fuel + 2) scope)
      (wordsOf (Format.recordPieces (Format.fieldsPieces d fields))) n R := by
  rw [wordsOf_record]
  unfold simpleType
  refine .here_bind fun start => ?_
  refine .peek_bind (l := some (.mark .lbrace)) (fun x _ => rfl) ?_
  refine .advance_one ?_
  have hitems : List.Forall₂ (fun ws e => Reads c
      (recordField (simpleType (fuel + 1) scope) (Grammar.type (fuel + 1) scope)) ws
      (Bound 3 ws) (FieldRereads f g e))
      (fields.map fun e =>
        wordsOf (Format.keyPieces d e.keyLocation e.key ++ tyPieces d false e.type))
      fields := by
    refine List.forall₂_map_left_iff.mpr (List.forall₂_same.mpr fun e he => ?_)
    obtain ⟨hkey, ht⟩ := h e he
    obtain ⟨l, keyLocation, key, t⟩ := e
    refine (reads_recordField hk hkey ht fuel).imp (fun x hx => ?_) fun a ha => ha
    rw [wordsOf_append] at hx
    exact hx.of_last (words_ne_nil ht.typeLike)
  have hfield : Reads c (listed (.mark .rbrace) _ (fuel + 1)) _ _ _ := reads_listed
    (N := fun ws => Bound 3 ws) (w := Mark.comma.text.toList)
      (fun ws x => bound_mark (by decide) _ _ _)
    (fun ws x => bound_mark (by decide) _ _ _) (by simp) hitems (fun ws hws => by
      obtain ⟨e, -, rfl⟩ := List.mem_map.mp hws
      rw [wordsOf_append]
      exact head_key _ _ _) (fuel + 1) (by simpa using Nat.lt_succ_of_le hf)
  refine hfield.bind (fun as has => ?_) fun x _ => rfl
  exact .expect_bind (.span_bind fun location => .pure (hR location as has))

end RubySig.Grammar
