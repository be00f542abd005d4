import RubySig.Proofs.Tree.MemberReads

/-! Printed items, with the bodies inside them, and whole files are read back. -/
namespace RubySig.Grammar

open Format (Piece wordsOf tyPieces namePieces typeParamsPieces classRefPieces superclassPieces
  selfTypesPieces memberPieces declarationPieces itemPieces bodyPieces itemTail)
open Format.Piece (mark keyword)

variable {c : Context} {d : Format.Context} {f g : Showing} {scope : List String} {fuel : Nat}
  {α β : Type} {p : Parser α} {ps qs : List Piece} {n : List Piece → Prop}
    {R : α → Prop} {S : β → Prop}

def nameStart (name : TypeName) : Lexeme :=
  if name.absolute then .mark .doubleColon else .constant (name.path.headD name.name)

def declarationStart : Declaration → Lexeme
  | .class_ _ _ _ _ => .keyword .class_
  | .module_ _ _ _ _ => .keyword .module_
  | .interface _ _ _ => .keyword .interface
  | .constant name _ => nameStart name
  | .global name _ => .globalVariable name
  | .typeAlias _ _ _ => .keyword .type

/-- The first annotation, or the token that something starts with behind them. -/
def noteOr (l : Lexeme) : List Note → Lexeme
  | n :: _ => .note n.text
  | [] => l

def itemStart : Item → Lexeme
  | .member _ lead m => noteOr (memberStart m) lead.notes
  | .declaration _ lead a => noteOr (declarationStart a) lead.notes

theorem name_head {name : TypeName} (h : name.Formed .constant) (x : List Piece) :
    ∃ ls, lexemesOf (wordsOf (namePieces name ++ x)) = nameStart name :: ls := by
  rw [wordsOf_append, wordsOf_name h fun _ => .inl rfl, nameStart]
  cases name.absolute with
  | true => exact ⟨_, rfl⟩
  | false =>
    cases name.path with
    | nil => exact ⟨_, rfl⟩
    | cons s path => exact ⟨_, rfl⟩

theorem declaration_head {a : Declaration} (h : a.Formed scope d.source) (x : List Piece) :
    ∃ ls, lexemesOf (wordsOf (declarationPieces d a ++ x)) = declarationStart a :: ls := by
  cases a with
  | constant name t =>
    rw [declarationPieces, List.append_assoc, List.append_assoc]
    exact name_head h.1 _
  | class_ name params superclass members => exact ⟨_, rfl⟩
  | module_ name params selfTypes members => exact ⟨_, rfl⟩
  | interface name params members => exact ⟨_, rfl⟩
  | global name t => exact ⟨_, rfl⟩
  | typeAlias name t params => exact ⟨_, rfl⟩

/-- Comments and line ends in front of pieces do not matter. -/
theorem Takes.remarks (h : Takes c p ps n R) (comment : Option Comment) :
    Takes c p (Format.remarkPieces comment ++ ps) n R := by
  cases comment with
  | none => exact h
  | some comment =>
    rw [Format.remarkPieces]
    induction Spell.commentLines comment.text.toList with
    | nil => exact h
    | cons line lines ih => exact ih.remark

theorem wordsOf_remarks (comment : Option Comment) :
    wordsOf (Format.remarkPieces comment) = [] := by
  cases comment with
  | none => rfl
  | some comment =>
    rw [Format.remarkPieces]
    induction Spell.commentLines comment.text.toList with
    | nil => rfl
    | cons line lines ih => exact ih

theorem lead_head (lead : Lead) {l : Lexeme} {x : List Piece}
    (hx : ∃ ls, lexemesOf (wordsOf x) = l :: ls) :
    ∃ ls, lexemesOf (wordsOf (Format.leadPieces d lead ++ x)) = noteOr l lead.notes :: ls := by
  rw [Format.leadPieces, List.append_assoc, wordsOf_append, wordsOf_remarks, List.nil_append]
  cases lead.notes with
  | nil => exact hx
  | cons note ns => exact ⟨_, rfl⟩

theorem item_head {nested : Bool} {item : Item} (h : item.Formed nested scope d.source)
    (x : List Piece) :
    ∃ ls, lexemesOf (wordsOf (itemPieces d item ++ x)) = itemStart item :: ls := by
  cases item with
  | member l lead m =>
    rw [itemPieces, List.append_assoc]
    exact lead_head lead (member_head d m x)
  | declaration l lead a =>
    rw [itemPieces, List.append_assoc]
    exact lead_head lead (declaration_head h.2.2.2 x)

theorem topItem_head {item : Item} (h : item.FormedTop d.source) (x : List Piece) :
    ∃ ls, lexemesOf (wordsOf (itemPieces d item ++ x)) = itemStart item :: ls := by
  cases item with
  | member l lead m => cases h
  | declaration l lead a =>
    rw [itemPieces, List.append_assoc]
    exact lead_head lead (declaration_head h.2 x)

/-- An item starts with no mark but the one of an absolute name, and not with `end`. -/
theorem itemStart_cases (item : Item) : itemStart item ≠ .keyword .end_ ∧
    ∀ m, itemStart item = .mark m → m = .doubleColon ∧ item.startsAbsolute = true := by
  have note {l : Lexeme} (hl : l ≠ .keyword .end_) {P : Mark → Prop} (hm : ∀ m, l = .mark m → P m)
      (ns : List Note) : noteOr l ns ≠ .keyword .end_ ∧ ∀ m, noteOr l ns = .mark m →
      ns = [] ∧ P m := by
    cases ns with
    | nil => exact ⟨hl, fun m h => ⟨rfl, hm m h⟩⟩
    | cons n ns => exact ⟨by simp [noteOr], fun m h => by cases h⟩
  cases item with
  | member l lead m =>
    have hend : memberStart m ≠ .keyword .end_ := by
      cases m with
      | «alias» newName oldName level => simp [memberStart]
      | «attribute» access name t backing level v =>
        rcases v with _ | (_ | _) <;> cases access <;>
          simp [memberStart, markedStart, Access.keyword,
          Visibility.keyword]
      | «variable» kind name t => cases kind <;> simp [memberStart]
      | mixin kind name args => cases kind <;> simp [memberStart, MixinKind.keyword]
      | visibility v => cases v <;> simp [memberStart, Visibility.keyword]
      | method name os level overloading v =>
        rcases v with _ | (_ | _) <;> simp [memberStart, markedStart, Visibility.keyword]
    have hmark : ∀ k, memberStart m = .mark k → False := by
      intro k hk
      cases m with
      | «variable» kind name t => cases kind <;> cases hk
      | _ => cases hk
    obtain ⟨h₁, h₂⟩ := note hend hmark lead.notes
    exact ⟨h₁, fun k hk => (h₂ k hk).2.elim⟩
  | declaration l lead a =>
    have hend : declarationStart a ≠ .keyword .end_ := by
      cases a with
      | constant name t =>
        simp only [declarationStart, nameStart]
        split <;> simp
      | _ => simp [declarationStart]
    have hmark : ∀ k, declarationStart a = .mark k → k = .doubleColon ∧
        ∃ name t, a = .constant name t ∧ name.absolute = true := by
      intro k hk
      cases a with
      | constant name t =>
        simp only [declarationStart, nameStart] at hk
        split at hk
        case isTrue habs =>
          cases hk
          exact ⟨rfl, name, t, rfl, habs⟩
        case isFalse => cases hk
      | _ => cases hk
    obtain ⟨h₁, h₂⟩ := note hend hmark lead.notes
    refine ⟨h₁, fun k hk => ?_⟩
    obtain ⟨hnotes, rfl, name, t, rfl, habs⟩ := h₂ k hk
    exact ⟨rfl, by simp [Item.startsAbsolute, hnotes, habs]⟩

theorem memberStart_note (m : Member) : isNote (memberStart m) = false := by
  cases m with
  | «variable» kind name t => cases kind <;> rfl
  | _ => rfl

theorem memberStart_plain (m : Member) : startsDeclaration (memberStart m) = false := by
  cases m with
  | «attribute» access name t backing level v => rcases v with _ | (_ | _) <;> cases access <;> rfl
  | «variable» kind name t => cases kind <;> rfl
  | mixin kind name args => cases kind <;> rfl
  | visibility v => cases v <;> rfl
  | method name os level overloading v => rcases v with _ | (_ | _) <;> rfl
  | _ => rfl

theorem declarationStart_note (a : Declaration) : isNote (declarationStart a) = false := by
  cases a with
  | constant name t =>
    simp only [declarationStart, nameStart]
    split <;> rfl
  | _ => rfl

theorem declarationStart_starts {a : Declaration} (h : a.isGlobal = false) :
    startsDeclaration (declarationStart a) = true := by
  cases a with
  | constant name t =>
    simp only [declarationStart, nameStart]
    split <;> rfl
  | global name t => cases h
  | _ => rfl

theorem endsInConstant_iff {ps : List Piece} : Format.endsInConstant ps = false ↔
    ∀ w ∈ (wordsOf ps).getLast?, ∀ s, w.1 ≠ .constant s := by
  unfold Format.endsInConstant
  split
  case _ s w hlast =>
    rw [hlast]
    simp
  case _ hlast =>
    refine ⟨fun _ w hw s hs => ?_, fun _ => rfl⟩
    obtain ⟨l, v⟩ := w
    obtain rfl : l = .constant s := hs
    exact hlast s v hw

/-- Behind an item stands `end`, or another item that does not go on with it. -/
theorem endsItem_of_head {front x : List Piece} (hline : ∃ y, x = .gap .line :: y)
    (hmark : ∀ m, (lexemesOf (wordsOf x)).head? = some (.mark m) →
      m = .doubleColon ∧ Format.endsInConstant front = false) : EndsItem (wordsOf front) x where
  line := hline
  mark m hm := (hmark m hm).1
  name w hw hconstant he := by
    obtain ⟨s, hs⟩ := hconstant
    exact endsInConstant_iff.mp (hmark .doubleColon he).2 w hw s hs

theorem not_endsInConstant {item : Item} {front : List Piece}
    (h : !(item.startsAbsolute && Format.endsInConstant front)) {m : Mark}
    (hm : itemStart item = .mark m) : m = .doubleColon ∧ Format.endsInConstant front = false := by
  obtain ⟨hcolon, habs⟩ := (itemStart_cases item).2 m hm
  rw [habs, Bool.true_and, Bool.not_eq_true'] at h
  exact ⟨hcolon, h⟩

theorem body_follows {nested : Bool} {items : List Item} {front y : List Piece} (last : Option Int)
    (h : Item.FormedAll nested scope d.source items) (ha : Item.allApart d front items = true) :
    EndsItem (wordsOf front) (bodyPieces d last items ++ .gap .line :: keyword .end_ :: y) := by
  cases items with
  | nil =>
    refine endsItem_of_head ⟨_, rfl⟩ fun m hm => ?_
    cases hm
  | cons item items =>
    simp only [Item.allApart, Bool.and_eq_true] at ha
    obtain ⟨ls, hls⟩ := item_head h.1 (bodyPieces d (item.location.map (·.endLine)) items ++
      .gap .line :: keyword .end_ :: y)
    refine endsItem_of_head ⟨_, rfl⟩ fun m hm => not_endsInConstant ha.1.1 ?_
    have hwords (b : Bool) (x : List Piece) : wordsOf (Format.itemBreak b ++ x) = wordsOf x := by
      cases b <;> rfl
    rw [bodyPieces, List.append_assoc, List.append_assoc, hwords, hls] at hm
    exact Option.some.inj hm

/-- A name with type parameters, in front of more. -/
theorem takes_named (hk : Keeps c d f g) {segment : Segment} {role : Role} {name : TypeName}
    {last : String → Lexeme} (hn : name.Formed last)
    (hl : ∀ s, last s = .constant s ∨ last s = .interfaceName s ∨ last s = .identifier s)
    (hseg : ∀ s, segment.name? (last s) = some s) {params : List TypeParam}
    (hp : TypeParam.FormedAll scope d.source params)
    (hf : 4 * (wordsOf (typeParamsPieces d params)).length ≤ fuel)
    {k : TypeName → List TypeParam → Parser β}
    (h : ∀ a as, a.erase = name.erase → List.Forall₂ (TypeParamRereads f g) params as →
      Takes c (k a as) qs n S)
    (hstops : ∀ x, n x →
      (params = [] → NameStops (last name.name) (lexemesOf (wordsOf (qs ++ x)))) ∧
      (lexemesOf (wordsOf (qs ++ x))).head? ≠ some (.mark .lbracket)) :
    Takes c (do
      let a ← typeName segment role
      let as ← typeParams fuel scope
      k a as) (namePieces name ++ (typeParamsPieces d params ++ qs)) n S := by
  refine (reads_typeName hn hl hseg role).takes.bind (fun a ha => ?_) fun x hx => ?_
  · exact (reads_typeParams hk hp hf).takes.bind
      (fun as has => h a as ha has) fun x hx => (hstops x hx).2
  · cases hps : params with
    | nil => exact (hstops x hx).1 hps
    | cons q params =>
      have hbracket : (lexemesOf (wordsOf (typeParamsPieces d (q :: params) ++ qs ++ x))).head? =
          some (.mark .lbracket) := by
        rw [typeParamsPieces, List.append_assoc, wordsOf_append, wordsOf_bracketed (by simp)]
        rfl
      rw [NameStops, hbracket]
      simp

/-- What stands behind a name with type parameters, up to the end of the body, does not go on with
them. -/
theorem heading_stops {k : Keyword} {name : TypeName} {last : String → Lexeme}
    (hn : name.Formed last)
    (hl : ∀ s, last s = .constant s ∨ last s = .interfaceName s ∨ last s = .identifier s)
    {params : List TypeParam} {tail : List Piece} {nested : Bool} {items : List Item}
    (h : Item.FormedAll nested scope d.source items)
    (ha : Item.allApart d
      (keyword k :: .gap .blank :: namePieces name ++ typeParamsPieces d params ++ tail)
      items = true)
    (ht : tail = [] ∨ ∃ m ls, lexemesOf (wordsOf tail) = .mark m :: ls ∧
      m ∉ [.doubleColon, .lbracket])
    (x : List Piece) :
    (params = [] → NameStops (last name.name) (lexemesOf (wordsOf
      (tail ++ (bodyPieces d none items ++ [.gap .line, keyword .end_]) ++ x)))) ∧
    (lexemesOf
      (wordsOf (tail ++ (bodyPieces d none items ++ [.gap .line, keyword .end_]) ++ x))).head? ≠
      some (.mark .lbracket) := by
  rcases ht with rfl | ⟨m, ls, hls, hm⟩
  · have hends := body_follows (y := x) none h ha
    rw [List.append_nil] at hends
    rw [List.nil_append, List.append_assoc]
    refine ⟨?_, hends.bound.bracket⟩
    rintro rfl
    refine hends.name (last name.name, name.name.toList) ?_
    have hwords : wordsOf (keyword k :: .gap .blank :: namePieces name ++ typeParamsPieces d []) =
        ((.keyword k, k.text.toList) :: ((if name.absolute then
          [(.mark .doubleColon, Mark.doubleColon.text.toList)] else []) ++ pathWords name.path)) ++
            [(last name.name, name.name.toList)] := by
      rw [wordsOf_append, wordsOf_keyword, wordsOf_gap, wordsOf_name hn hl]
      simp [typeParamsPieces, Format.bracketedPieces]
    rw [hwords, List.getLast?_append]
    rfl
  · simp only [List.mem_cons, List.not_mem_nil, or_false, not_or] at hm
    rw [List.append_assoc, wordsOf_append, lexemesOf_append, hls]
    exact ⟨fun _ _ => by simpa using hm.1, by simpa using hm.2⟩

theorem takes_superclass (hk : Keeps c d f g) {r : Option ClassRef}
    (hr : ∀ a ∈ r, a.name.Formed .constant ∧ Ty.FormedAll scope d.source a.args)
    (hf : 4 * (wordsOf (superclassPieces d r)).length ≤ fuel) (front : List Piece) :
    Takes c (show Parser (Option ClassRef) from do
      if ← eat (.mark .lt) then return some (← classRef .constant .superclassName fuel scope)
      else return none) (superclassPieces d r)
      (EndsItem (wordsOf (front ++ superclassPieces d r))) fun a =>
        (a.map (ClassRef.rewrite (.erasing f))).map ClassRef.bare =
          ((r.map (ClassRef.rewrite .rereading)).map (ClassRef.rewrite (.erasing g))).map
            ClassRef.bare := by
  cases r with
  | none =>
    have hread : Reads c (show Parser (Option ClassRef) from do
        if ← eat (.mark .lt) then return some (← classRef .constant .superclassName fuel scope)
        else return none) [] (fun x => x.head? ≠ some (.mark .lt)) (· = none) :=
      .eat_miss (fun x hx => hx) (.pure rfl)
    refine hread.takes_nothing.imp (fun x hx he => ?_) (by rintro a rfl; rfl)
    cases hx.mark .lt he
  | some r =>
    have hwords : wordsOf (superclassPieces d (some r)) =
        (.mark .lt, Mark.lt.text.toList) :: wordsOf (classRefPieces d r) := rfl
    obtain ⟨hname, hargs⟩ := hr r rfl
    rw [hwords, List.length_cons] at hf
    have hbounded : 4 * (wordsOf (classRefPieces d r)).length ≤ fuel := by omega
    have hsegment (s : String) : Segment.constant.name? (.constant s) = some s := rfl
    have hclass := reads_classRef hk hname
      (fun _ => .inl rfl) hsegment hargs hbounded .superclassName
    have hread : Reads c (show Parser (Option ClassRef) from do
        if ← eat (.mark .lt) then return some (← classRef .constant .superclassName fuel scope)
        else return none) (wordsOf (superclassPieces d (some r)))
          (Bound 0 (wordsOf (classRefPieces d r)))
        (fun a => ∃ b, a = some b ∧ ClassRefRereads f g r b) :=
      .eat_bind (hclass.last (fun b hb => .pure ⟨b, rfl, hb⟩) fun x hx => hx)
    refine hread.takes.imp (fun x hx => ?_) ?_
    · have hbound := hx.suffix.mono (Nat.zero_le 3)
      rw [hwords] at hbound
      rw [← List.singleton_append] at hbound
      exact hbound.suffix
    · rintro a ⟨b, rfl, hb⟩
      exact congrArg some hb

theorem takes_selfTypes (hk : Keeps c d f g) {rs : List ClassRef}
    (h : ∀ r ∈ rs, r.Formed scope d.source)
    (hf : 4 * (wordsOf (selfTypesPieces d rs)).length ≤ fuel) (front : List Piece) :
    Takes c (selfTypes fuel scope) (selfTypesPieces d rs)
      (EndsItem (wordsOf (front ++ selfTypesPieces d rs)))
        (List.Forall₂ (ClassRefRereads f g) rs) := by
  cases rs with
  | nil =>
    have hread : Reads c (selfTypes fuel scope) [] (fun x => x.head? ≠ some (.mark .colon))
        (List.Forall₂ (ClassRefRereads f g) []) :=
      .eat_miss (fun x hx => hx) (.pure .nil)
    refine hread.takes_nothing.imp (fun x hx he => ?_) fun _ ha => ha
    cases hx.mark .colon he
  | cons r rs =>
    have hwords : wordsOf (selfTypesPieces d (r :: rs)) = (.mark .colon, Mark.colon.text.toList) ::
        [(.mark .comma, Mark.comma.text.toList)].intercalate
          ((r :: rs).map (wordsOf ∘ classRefPieces d)) := by
      rw [← List.map_map, ← wordsOf_inline]
      rfl
    have hcount := count_le_intercalate (.mark .comma, Mark.comma.text.toList)
      ((r :: rs).map (wordsOf ∘ classRefPieces d))
    rw [hwords, List.length_cons] at hf
    rw [List.length_map] at hcount
    have hitems : List.Forall₂
        (fun ws q => Reads c (classRef .any .selfType fuel scope) ws (Bound 0 ws)
        (ClassRefRereads f g q)) ((r :: rs).map (wordsOf ∘ classRefPieces d)) (r :: rs) := by
      refine List.forall₂_map_left_iff.mpr (List.forall₂_same.mpr fun q hq => ?_)
      have hmem := length_le_intercalate [(.mark .comma, Mark.comma.text.toList)]
        (List.mem_map_of_mem (f := wordsOf ∘ classRefPieces d) hq)
      refine reads_classLike hk (h q hq) ?_ .selfType
      change 4 * ((wordsOf ∘ classRefPieces d) q).length ≤ fuel
      omega
    have hread : Reads c (selfTypes fuel scope) (wordsOf (selfTypesPieces d (r :: rs)))
        (fun x => (∀ ws ∈ ((r :: rs).map (wordsOf ∘ classRefPieces d)).getLast?, Bound 0 ws x) ∧
          x.head? ≠ some (.mark .comma)) (List.Forall₂ (ClassRefRereads f g) (r :: rs)) := by
      rw [hwords]
      refine .eat_bind ?_
      exact reads_separated (N := Bound 0)
        (fun ws x => bound_mark (by decide) _ _ _) hitems (by simp)
        (fun ws hws x hx => hx.1 ws hws) (fun x hx => hx.2) fuel (by simp at hf hcount ⊢; omega)
    refine hread.takes.imp (fun x hx => ⟨fun ws hws => ?_, fun he => ?_⟩) fun _ ha => ha
    · obtain ⟨before, hbefore⟩ := intercalate_last [(.mark .comma, Mark.comma.text.toList)] hws
      have hbound := hx.suffix.mono (Nat.zero_le 3)
      rw [hwords, hbefore, ← List.cons_append] at hbound
      exact hbound.suffix
    · cases hx.mark .comma he

theorem takes_got {k : State → Parser α} {l : α → Parser β}
    (h : Takes c ((get >>= k) >>= l) ps n S) : Takes c (get >>= fun s => k s >>= l) ps n S := by
  rwa [bind_assoc] at h

/-- A member behind what is written above it. -/
theorem takes_memberItem (hk : Keeps c d f g) {nested : Bool} {location : Option Span} {lead : Lead}
    {m : Member} (h : m.Formed nested scope d.source)
    (hf : 4 * (wordsOf (memberPieces d m)).length ≤ fuel) (before : State) :
    Takes c (bodyItem fuel nested scope before) (itemPieces d (.member location lead m))
      (EndsItem (wordsOf (itemTail d (.member location lead m))))
      (ItemRereads f g (.member location lead m)) := by
  have hhead (x : List Piece) := member_head d m x
  rw [itemPieces, Format.leadPieces, List.append_assoc]
  refine Takes.remarks ?_ lead.comment
  unfold bodyItem
  refine (Reads.takes (reads_notes (wordsOf_notes lead.notes .line))).bind (fun ns hns => ?_)
    fun x _ l hl => ?_
  · refine .here_bind fun start => .peek_bind (l := some (memberStart m)) (fun x _ => ?_) ?_
    · obtain ⟨ls, hls⟩ := hhead x
      rw [hls]
      rfl
    · have hstart :
          (nested && ((some (memberStart m)).map startsDeclaration).getD false) = false := by
        rw [Option.map_some, Option.getD_some, memberStart_plain, Bool.and_false]
      rw [hstart]
      refine (takes_member hk m h hf).last
        (fun a ha => .span_bind fun l => .lead_bind fun comment =>
        .pure ?_) fun x hx => hx
      have ha' : (a.rewrite (.erasing f)).bare =
          ((m.rewrite .rereading).rewrite (.erasing g)).bare := ha
      simp only [ItemRereads, Item.rewrite, Item.bare, Lead.bare, hns, ha']
  · obtain ⟨ls, hls⟩ := hhead x
    rw [hls] at hl
    cases hl
    exact memberStart_note m

/-- A declaration behind what is written above it. -/
theorem takes_declarationItem {location : Option Span} {lead : Lead} {a : Declaration}
    (ha : a.Formed scope d.source)
    (h : Takes c (declarationBody fuel scope) (declarationPieces d a) n
      (DeclarationRereads f g a)) :
    Takes c (declaration (fuel + 1) scope) (itemPieces d (.declaration location lead a)) n
      (ItemRereads f g (.declaration location lead a)) := by
  rw [itemPieces, Format.leadPieces, List.append_assoc, declaration_succ]
  refine Takes.remarks ?_ lead.comment
  refine (Reads.takes (reads_notes (wordsOf_notes lead.notes .line))).bind (fun ns hns => ?_)
    fun x _ l hl => ?_
  · refine .here_bind fun start => h.last (fun b hb => .span_bind fun l => .lead_bind fun comment =>
      .pure ?_) fun x hx => hx
    have hb' : (b.rewrite (.erasing f)).bare =
        ((a.rewrite .rereading).rewrite (.erasing g)).bare := hb
    simp only [ItemRereads, Item.rewrite, Item.bare, Lead.bare, hns, hb']
  · obtain ⟨ls, hls⟩ := declaration_head ha x
    rw [hls] at hl
    cases hl
    exact declarationStart_note a

theorem bodyItem_declaration {s s' : State} {ns : List Note} {l : Lexeme}
    (hnotes : notes c s = .ok (ns, s')) (hl : s'.tokens.head?.map (·.lexeme) = some l)
    (hstart : startsDeclaration l = true) :
    bodyItem fuel true scope s c s = declaration fuel scope c s := by
  have hrun : bodyItem fuel true scope s c s = (notes c s >>= fun r =>
      (if ((r.2.tokens.head?.map (·.lexeme)).map startsDeclaration).getD false then (do
        set s
        declaration fuel scope)
      else (do
        let m ← member true fuel scope
        let location ← spanFrom (((r.2.tokens.head?).map (·.start)).getD c.finish)
        let start := ((r.2.tokens.head?).map (·.start)).getD c.finish
        return .member location (← leadOf r.1 start) m) : Parser Item) c r.2) := rfl
  rw [hrun, hnotes]
  change (if ((s'.tokens.head?.map (·.lexeme)).map startsDeclaration).getD false then (do
      set s
      declaration fuel scope)
    else _ : Parser Item) c s' = _
  rw [hl, Option.map_some, Option.getD_some, hstart, if_pos rfl]
  rfl

/-- In a body a declaration is read from where its annotations start. -/
theorem takes_nestedDeclaration {location : Option Span} {lead : Lead} {a : Declaration}
    (ha : a.Formed scope d.source) (hglobal : a.isGlobal = false) {Q : Item → Prop}
    (h : Takes c (declaration fuel scope) (itemPieces d (.declaration location lead a)) n Q) :
    Takes c (get >>= fun before => bodyItem fuel true scope before)
      (itemPieces d (.declaration location lead a)) n Q := by
  intro qs toks last blocks hn hs
  have hstands := hs
  have hnotes : Takes c notes (Format.leadPieces d lead)
      (fun x => ∀ l ∈ (lexemesOf (wordsOf x)).head?, isNote l = false) fun _ => True :=
    ((Reads.takes (reads_notes (wordsOf_notes lead.notes .line))).remarks lead.comment).imp
      (fun _ hx => hx) fun _ _ => trivial
  obtain ⟨ls, hls⟩ := declaration_head ha qs
  rw [itemPieces, List.append_assoc] at hs
  obtain ⟨ns, rest, last', left, hrun, hrest, -⟩ :=
    hnotes (declarationPieces d a ++ qs) toks last blocks
    (fun l hl => by rw [hls] at hl; cases hl; exact declarationStart_note a) hs
  have hpeek : rest.head?.map (·.lexeme) = some (declarationStart a) := by
    rw [← List.head?_map, hrest.lexemes, hls]
    rfl
  obtain ⟨item, rest', last'', left', hitem, hbehind, hQ⟩ := h qs toks last blocks hn hstands
  refine ⟨item, rest', last'', left', ?_, hbehind, hQ⟩
  rw [← hitem]
  exact bodyItem_declaration hrun hpeek (declarationStart_starts hglobal)

def ItemsReread (f g : Showing) (items as : List Item) :
    Prop := List.Forall₂ (ItemRereads f g) items as

theorem ItemsReread.eq {items as : List Item} (h : ItemsReread f g items as) :
    Item.bareAll (Item.rewriteAll (.erasing f) as) =
      Item.bareAll (Item.rewriteAll (.erasing g) (Item.rewriteAll .rereading items)) := by
  induction h with
  | nil => rfl
  | @cons item a items as ha _ ih =>
    have ha' : (a.rewrite (.erasing f)).bare =
        ((item.rewrite .rereading).rewrite (.erasing g)).bare := ha
    simp only [Item.rewriteAll, Item.bareAll, ha', ih]

theorem typeParams_eq {params as : List TypeParam}
    (h : List.Forall₂ (TypeParamRereads f g) params as) :
    (as.map (TypeParam.rewrite (.erasing f))).map TypeParam.bare =
      ((params.map (TypeParam.rewrite .rereading)).map (TypeParam.rewrite (.erasing g))).map
        TypeParam.bare := by
  rw [List.map_map, List.map_map, List.map_map]
  exact map_rereads (fun p a ha => ha) h

theorem classRefs_eq {rs as : List ClassRef} (h : List.Forall₂ (ClassRefRereads f g) rs as) :
    (as.map (ClassRef.rewrite (.erasing f))).map ClassRef.bare =
      ((rs.map (ClassRef.rewrite .rereading)).map (ClassRef.rewrite (.erasing g))).map
        ClassRef.bare := by
  rw [List.map_map, List.map_map, List.map_map]
  exact map_rereads (fun p a ha => ha) h

/-- A body with the `end` behind it. -/
theorem takes_bodied {nested : Bool} {last : Option Int} {items : List Item} {what : Missing}
    {build : List Item → Declaration} {Q : Declaration → Prop}
    (h : Takes c (body fuel nested scope) (bodyPieces d last items)
      (fun x => ∃ y, x = .gap .line :: keyword .end_ :: y) (ItemsReread f g items))
    (hQ : ∀ as, ItemsReread f g items as → Q (build as)) :
    Takes c (do
      let members ← body fuel nested scope
      expect (.keyword .end_) what
      return build members) (bodyPieces d last items ++ [.gap .line, keyword .end_]) n Q := by
  refine h.bind (fun as has => ?_) fun x _ => ⟨x, rfl⟩
  exact .gap (.expect_bind (.pure (hQ as has)))

theorem length_bodied (heading body : List Piece) :
    (wordsOf (Format.bodiedPieces heading body)).length =
    (wordsOf heading).length + (wordsOf body).length + 1 := by
  simp only [Format.bodiedPieces, wordsOf_append, List.length_append]
  rfl

theorem length_item_pos {nested : Bool} {item : Item} (h : item.Formed nested scope d.source) :
    1 ≤ (wordsOf (itemPieces d item)).length := by
  obtain ⟨ls, hls⟩ := item_head h []
  rw [List.append_nil] at hls
  have hlength := congrArg List.length hls
  rw [lexemesOf, List.length_map, List.length_cons] at hlength
  omega

theorem length_body_cons (last : Option Int) (item : Item) (items : List Item) :
    (wordsOf (bodyPieces d last (item :: items))).length = (wordsOf (itemPieces d item)).length +
      (wordsOf (bodyPieces d (item.location.map (·.endLine)) items)).length := by
  have hbreak (b : Bool) : wordsOf (Format.itemBreak b) = [] := by cases b <;> rfl
  rw [bodyPieces, wordsOf_append, wordsOf_append, hbreak, List.nil_append, List.length_append]

theorem length_lead_le (lead : Lead) (ps : List Piece) :
    (wordsOf ps).length ≤ (wordsOf (Format.leadPieces d lead ++ ps)).length := by
  rw [wordsOf_append, List.length_append]
  exact Nat.le_add_left _ _

theorem takes_end {nested : Bool} : Takes c (body (fuel + 1) nested scope) []
    (fun x => ∃ y, x = .gap .line :: keyword .end_ :: y) (ItemsReread f g []) := by
  rw [body_succ]
  refine .isNext_bind (b := true) ?_ (.pure .nil)
  rintro x ⟨y, rfl⟩
  rfl

/-- The members of a declaration are taken as themselves, up to its `end`. -/
def BodyTaken (c : Context) (d : Format.Context) (f g : Showing) (fuel : Nat) (nested : Bool)
    (scope : List String) (members : List Item) : Prop :=
  4 * (wordsOf (bodyPieces d none members)).length + 4 ≤ fuel →
    Takes c (body fuel nested scope) (bodyPieces d none members)
      (fun x => ∃ y, x = .gap .line :: keyword .end_ :: y) (ItemsReread f g members)

/-- A declaration is taken as itself, in front of all that may follow its last words. -/
def DeclarationTaken (c : Context) (d : Format.Context) (f g : Showing) (fuel : Nat)
    (scope : List String) (a : Declaration) : Prop :=
  Takes c (declarationBody fuel scope) (declarationPieces d a)
    (EndsItem (wordsOf (declarationPieces d a))) (DeclarationRereads f g a)

section Declarations

variable {name : TypeName} {params : List TypeParam} {members : List Item} {t : Ty}

theorem takes_class {superclass : Option ClassRef} (hk : Keeps c d f g)
    (h : (Declaration.class_ name params superclass members).Formed scope d.source)
    (ha : (Declaration.class_ name params superclass members).isApart d = true)
    (hf : 4 * (wordsOf (declarationPieces d
      (.class_ name params superclass members))).length ≤ fuel)
    (hbody : BodyTaken c d f g fuel true (within params scope) members) :
    DeclarationTaken c d f g fuel scope (.class_ name params superclass members) := by
  obtain ⟨hname, hparams, hsuper, hmembers⟩ := h
  simp only [declarationPieces, length_bodied, List.cons_append, List.append_assoc,
    wordsOf_keyword, wordsOf_gap, List.length_cons, wordsOf_append, List.length_append] at hf
  have hmembersTaken := hbody (by omega)
  rw [DeclarationTaken, declarationPieces, Format.bodiedPieces]
  simp only [List.cons_append, List.append_assoc]
  unfold declarationBody
  refine .peek_bind (l := some (.keyword .class_)) (fun x _ => rfl) (.word_bind (.gap ?_))
  refine takes_named hk hname (fun _ => .inl rfl) (fun _ => rfl) hparams (by omega)
    (fun a as hna hpas => ?_) fun x _ => ?_
  · rw [within_eq hpas]
    have hlong : 4 * (wordsOf (superclassPieces d superclass)).length ≤ fuel := by omega
    have hparent := takes_superclass (c := c) hk hsuper hlong
      (keyword .class_ :: .gap .blank :: namePieces name ++ typeParamsPieces d params)
    refine hparent.bind (fun r hr => takes_bodied hmembersTaken fun ms hms => ?_) fun x _ => ?_
    · simp only [DeclarationRereads, Declaration.rewrite, Declaration.bare, hna,
        typeParams_eq hpas, hr, hms.eq]
    · rw [List.append_assoc (bodyPieces d none members)]
      exact body_follows none hmembers ha
  · refine heading_stops hname (fun _ => .inl rfl) hmembers ha ?_ x
    cases superclass with
    | none => exact .inl rfl
    | some r => exact .inr ⟨_, _, rfl, by decide⟩

theorem takes_module {selves : List ClassRef} (hk : Keeps c d f g)
    (h : (Declaration.module_ name params selves members).Formed scope d.source)
    (ha : (Declaration.module_ name params selves members).isApart d = true)
    (hf : 4 * (wordsOf (declarationPieces d (.module_ name params selves members))).length ≤ fuel)
    (hbody : BodyTaken c d f g fuel true (within params scope) members) :
    DeclarationTaken c d f g fuel scope (.module_ name params selves members) := by
  obtain ⟨hname, hparams, hselves, hmembers⟩ := h
  simp only [declarationPieces, length_bodied, List.cons_append, List.append_assoc,
    wordsOf_keyword, wordsOf_gap, List.length_cons, wordsOf_append, List.length_append] at hf
  have hmembersTaken := hbody (by omega)
  rw [DeclarationTaken, declarationPieces, Format.bodiedPieces]
  simp only [List.cons_append, List.append_assoc]
  unfold declarationBody
  refine .peek_bind (l := some (.keyword .module_)) (fun x _ => rfl) (.word_bind (.gap ?_))
  refine takes_named hk hname (fun _ => .inl rfl) (fun _ => rfl) hparams (by omega)
    (fun a as hna hpas => ?_) fun x _ => ?_
  · rw [within_eq hpas]
    have hlong : 4 * (wordsOf (selfTypesPieces d selves)).length ≤ fuel := by omega
    have htypes := takes_selfTypes (c := c) hk hselves hlong
      (keyword .module_ :: .gap .blank :: namePieces name ++ typeParamsPieces d params)
    refine htypes.bind (fun rs hrs => takes_bodied hmembersTaken fun ms hms => ?_) fun x _ => ?_
    · simp only [DeclarationRereads, Declaration.rewrite, Declaration.bare, hna,
        typeParams_eq hpas, classRefs_eq hrs, hms.eq]
    · rw [List.append_assoc (bodyPieces d none members)]
      exact body_follows none hmembers ha
  · refine heading_stops hname (fun _ => .inl rfl) hmembers ha ?_ x
    cases selves with
    | nil => exact .inl rfl
    | cons r rs => exact .inr ⟨_, _, rfl, by decide⟩

theorem takes_interface (hk : Keeps c d f g)
    (h : (Declaration.interface name params members).Formed scope d.source)
    (ha : (Declaration.interface name params members).isApart d = true)
    (hf : 4 * (wordsOf (declarationPieces d (.interface name params members))).length ≤ fuel)
    (hbody : BodyTaken c d f g fuel false (within params scope) members) :
    DeclarationTaken c d f g fuel scope (.interface name params members) := by
  obtain ⟨hname, hparams, hmembers⟩ := h
  simp only [declarationPieces, length_bodied, List.cons_append, wordsOf_keyword,
    wordsOf_gap, List.length_cons, wordsOf_append, List.length_append] at hf
  have hmembersTaken := hbody (by omega)
  rw [DeclarationTaken, declarationPieces, Format.bodiedPieces]
  simp only [List.cons_append, List.append_assoc]
  unfold declarationBody
  refine .peek_bind (l := some (.keyword .interface)) (fun x _ => rfl) (.word_bind (.gap ?_))
  refine takes_named hk hname (fun _ => .inr (.inl rfl)) (fun _ => rfl) hparams (by omega)
    (fun a as hna hpas => ?_) fun x _ => ?_
  · rw [within_eq hpas]
    refine takes_bodied hmembersTaken fun ms hms => ?_
    simp only [DeclarationRereads, Declaration.rewrite, Declaration.bare, hna,
      typeParams_eq hpas, hms.eq]
  · have hfront : Item.allApart d (keyword .interface :: .gap .blank :: namePieces name ++
        typeParamsPieces d params ++ []) members = true := by
      rw [List.append_nil]
      exact ha
    exact heading_stops hname (fun _ => .inr (.inl rfl)) hmembers hfront (.inl rfl) x

theorem takes_constant (hk : Keeps c d f g)
    (h : (Declaration.constant name t).Formed scope d.source)
    (hf : 4 * (wordsOf (declarationPieces d (.constant name t))).length ≤ fuel) :
    DeclarationTaken c d f g fuel scope (.constant name t) := by
  rw [declarationPieces, wordsOf_append, List.length_append] at hf
  have hconstant : Takes c (constant fuel scope) (declarationPieces d (.constant name t))
      (EndsItem (wordsOf (declarationPieces d (.constant name t))))
      (DeclarationRereads f g (.constant name t)) := by
    have hlong : 4 * (wordsOf (tyPieces d false t)).length ≤ fuel := by omega
    have hread := reads_constant hk h.1 h.2 hlong
    refine Takes.imp (Reads.takes ?_) (fun x hx => hx.suffix) fun _ ha => ha
    rw [declarationPieces, wordsOf_append, wordsOf_append]
    rw [List.append_assoc]
    exact hread
  unfold DeclarationTaken declarationBody
  refine .peek_bind (l := some (nameStart name)) (fun x _ => ?_) ?_
  · obtain ⟨ls, hls⟩ := declaration_head (a := .constant name t) h x
    rw [hls]
    rfl
  · rw [nameStart]
    cases name.absolute <;> exact hconstant

theorem takes_global {variableName : String} (hk : Keeps c d f g)
    (h : (Declaration.global variableName t).Formed scope d.source)
    (hf : 4 * (wordsOf (declarationPieces d (.global variableName t))).length ≤ fuel) :
    DeclarationTaken c d f g fuel scope (.global variableName t) := by
  rw [declarationPieces, wordsOf_append, List.length_append] at hf
  have hty := ((readsBack hk fuel).ready h.2
    (by change 4 * (wordsOf (tyPieces d false t)).length ≤ fuel; omega)).reads
  have hread : Reads c (declarationBody fuel scope)
      (wordsOf (declarationPieces d (.global variableName t)))
      (Bound 3 (tyWords d false t)) (DeclarationRereads f g (.global variableName t)) := by
    unfold declarationBody
    refine .peek_bind (l := some (.globalVariable variableName)) (fun x _ => rfl)
      (.advance_one (.expect_bind ?_))
    refine hty.last (fun u hu => .pure ?_) fun x hx => hx
    simp only [DeclarationRereads, Declaration.rewrite, Rewriting.erasing, Rewriting.rereading,
      Declaration.bare, hu]
  exact hread.takes.imp (fun x hx => hx.suffix) fun _ ha => ha

theorem takes_typeAlias (hk : Keeps c d f g)
    (h : (Declaration.typeAlias name t params).Formed scope d.source)
    (hf : 4 * (wordsOf (declarationPieces d (.typeAlias name t params))).length ≤ fuel) :
    DeclarationTaken c d f g fuel scope (.typeAlias name t params) := by
  obtain ⟨hname, hparams, ht⟩ := h
  simp only [declarationPieces, List.cons_append, List.append_assoc, List.nil_append,
    wordsOf_keyword, wordsOf_gap, wordsOf_mark, List.length_cons, wordsOf_append,
    List.length_append] at hf
  have hty := ((readsBack hk fuel).ready ht
    (by change 4 * (wordsOf (tyPieces d false t)).length ≤ fuel; omega)).reads
  rw [DeclarationTaken, declarationPieces]
  simp only [List.cons_append, List.append_assoc, List.nil_append]
  unfold declarationBody
  refine .peek_bind (l := some (.keyword .type)) (fun x _ => rfl) (.word_bind (.gap ?_))
  unfold typeAlias
  refine takes_named hk hname (fun _ => .inr (.inr rfl)) (fun _ => rfl) hparams (by omega)
    (fun a as hna hpas => ?_) fun x _ => ⟨fun _ _ => by simp, by simp⟩
  rw [within_eq hpas]
  refine .gap (.expect_bind (.gap ?_))
  refine hty.takes.last (fun u hu => .pure ?_) fun x hx => ?_
  · simp only [DeclarationRereads, Declaration.rewrite, Declaration.bare, hna, typeParams_eq hpas]
    simp only [Rewriting.erasing, Rewriting.rereading, hu]
  · have hends : EndsItem (wordsOf ((keyword .type :: .gap .blank :: namePieces name ++
        typeParamsPieces d params ++ [.gap .blank, mark .eq, .gap .space]) ++
          tyPieces d false t)) x := by
      simpa only [List.cons_append, List.append_assoc, List.nil_append] using hx
    exact hends.suffix

end Declarations

mutual

theorem takes_declarationBody (hk : Keeps c d f g) (scope : List String) (fuel : Nat) :
    (a : Declaration) → a.Formed scope d.source → a.isApart d = true →
      4 * (wordsOf (declarationPieces d a)).length ≤ fuel → DeclarationTaken c d f g fuel scope a
  | .class_ _ params _ members, h, ha, hf =>
    takes_class hk h ha hf
      (takes_body hk true (within params scope) members none fuel h.2.2.2 ⟨_, ha⟩)
  | .module_ _ params _ members, h, ha, hf =>
    takes_module hk h ha hf
      (takes_body hk true (within params scope) members none fuel h.2.2.2 ⟨_, ha⟩)
  | .interface _ params members, h, ha, hf =>
    takes_interface hk h ha hf
      (takes_body hk false (within params scope) members none fuel h.2.2 ⟨_, ha⟩)
  | .constant _ _, h, _, hf => takes_constant hk h hf
  | .global _ _, h, _, hf => takes_global hk h hf
  | .typeAlias _ _ _, h, _, hf => takes_typeAlias hk h hf
termination_by structural a => a

theorem takes_item (hk : Keeps c d f g) (nested : Bool) (scope : List String) (fuel : Nat) :
    (item : Item) → item.Formed nested scope d.source → item.isApart d = true →
      4 * (wordsOf (itemPieces d item)).length + 1 ≤ fuel →
        Takes c (get >>= fun before => bodyItem fuel nested scope before) (itemPieces d item)
          (EndsItem (wordsOf (itemTail d item))) (ItemRereads f g item)
  | .member location lead m, h, _, hf => by
    have hle := length_lead_le (d := d) lead (memberPieces d m)
    rw [itemPieces] at hf
    exact .get_bind fun before => takes_memberItem hk h.2 (by omega) before
  | .declaration location lead a, h, ha, hf => by
    have hle := length_lead_le (d := d) lead (declarationPieces d a)
    rw [itemPieces] at hf
    obtain ⟨rfl, hglobal, -, hformed⟩ := h
    obtain ⟨fuel, rfl⟩ : ∃ k, fuel = k + 1 := ⟨fuel - 1, by omega⟩
    have hbody := takes_declarationBody hk scope fuel a hformed ha (by omega)
    exact takes_nestedDeclaration hformed hglobal (takes_declarationItem hformed hbody)
termination_by structural item => item

theorem takes_body (hk : Keeps c d f g) (nested : Bool) (scope : List String) :
    (items : List Item) →
    (last : Option Int) → (fuel : Nat) → Item.FormedAll nested scope d.source items →
      (∃ front, Item.allApart d front items = true) →
        4 * (wordsOf (bodyPieces d last items)).length + 4 ≤ fuel →
          Takes c (body fuel nested scope) (bodyPieces d last items)
            (fun x => ∃ y, x = .gap .line :: keyword .end_ :: y) (ItemsReread f g items)
  | [], last, fuel, _, _, hf => by
    obtain ⟨fuel, rfl⟩ : ∃ k, fuel = k + 1 := ⟨fuel - 1, by omega⟩
    exact takes_end
  | item :: items, last, fuel, h, ⟨front, ha⟩, hf => by
    obtain ⟨fuel, rfl⟩ : ∃ k, fuel = k + 1 := ⟨fuel - 1, by omega⟩
    rw [length_body_cons] at hf
    have hpos := length_item_pos h.1
    simp only [Item.allApart, Bool.and_eq_true] at ha
    have hitem := takes_item hk nested scope fuel item h.1 ha.1.2 (by omega)
    have hitems := takes_body hk nested scope items
      (item.location.map (·.endLine)) fuel h.2 ⟨_, ha.2⟩
      (by omega)
    have hbreak (x : List Piece) :
        ∃ ls, lexemesOf (wordsOf (bodyPieces d last (item :: items) ++ x)) =
        itemStart item :: ls := by
      have hwords (b : Bool) (y : List Piece) : wordsOf (Format.itemBreak b ++ y) = wordsOf y := by
        cases b <;> rfl
      rw [bodyPieces, List.append_assoc, List.append_assoc, hwords]
      exact item_head h.1 _
    rw [body_succ]
    refine .isNext_bind (b := false) (fun x _ => ?_) (.peek_bind (l := some (itemStart item))
      (fun x _ => ?_) ?_)
    · obtain ⟨ls, hls⟩ := hbreak x
      rw [hls]
      exact beq_false_of_ne (by simpa using (itemStart_cases item).1)
    · obtain ⟨ls, hls⟩ := hbreak x
      rw [hls]
      rfl
    · have hgaps (b : Bool) {ps : List Piece} {Q : List Item → Prop} {p : Parser (List Item)}
          {m : List Piece → Prop} (hp : Takes c p ps m Q) :
          Takes c p (Format.itemBreak b ++ ps) m Q := by
        cases b with
        | false => exact hp.gap
        | true => exact hp.gap.gap
      rw [bodyPieces, List.append_assoc]
      refine hgaps _ (takes_got (hitem.bind (fun b hb => ?_) fun x hx => ?_))
      · exact hitems.last (fun as has => .pure (.cons hb has)) fun x hx => hx
      · obtain ⟨y, rfl⟩ := hx
        exact body_follows _ h.2 ha.2
termination_by structural items => items

end

theorem takes_topItem (hk : Keeps c d f g) {item : Item} (h : item.FormedTop d.source)
    (ha : item.isApart d = true) (hf : 4 * (wordsOf (itemPieces d item)).length + 1 ≤ fuel) :
    Takes c (declaration fuel []) (itemPieces d item) (EndsItem (wordsOf (itemTail d item)))
      (ItemRereads f g item) := by
  cases item with
  | member l lead m => cases h
  | declaration l lead a =>
    have hle := length_lead_le (d := d) lead (declarationPieces d a)
    rw [itemPieces] at hf
    obtain ⟨fuel, rfl⟩ : ∃ k, fuel = k + 1 := ⟨fuel - 1, by omega⟩
    exact takes_declarationItem h.2 (takes_declarationBody hk [] fuel a h.2 ha (by omega))

def filePieces (d : Format.Context) (items : List Item) : List Piece :=
  [.gap .line, .gap .line].intercalate (items.map (itemPieces d)) ++ [.gap .line]

theorem filePieces_cons (item : Item) (items : List Item) : ∃ gaps : List Format.Gap,
    filePieces d (item :: items) = itemPieces d item ++ (gaps.map Piece.gap ++ filePieces d items) ∧
      ∃ y, gaps.map Piece.gap ++ filePieces d items = .gap .line :: y := by
  cases items with
  | nil => exact ⟨[], by simp [filePieces], [], rfl⟩
  | cons next items =>
    exact ⟨[.line, .line], by simp [filePieces, List.intercalate_cons_cons], _, rfl⟩

theorem Takes.gaps (h : Takes c p ps n R) (gaps : List Format.Gap) :
    Takes c p (gaps.map Piece.gap ++ ps) n R := by
  induction gaps with
  | nil => exact h
  | cons gap gaps ih => exact ih.gap

theorem wordsOf_gaps (gaps : List Format.Gap) : wordsOf (gaps.map Piece.gap) = [] := by
  induction gaps with
  | nil => rfl
  | cons gap gaps ih => exact ih

theorem file_goes_on {items : List Item} {front : List Piece}
    (h : ∀ item ∈ items, item.FormedTop d.source) (ha : Item.allApart d front items = true)
    {gaps : List Format.Gap}
    (hline : ∃ y, gaps.map Piece.gap ++ filePieces d items = .gap .line :: y) :
    EndsItem (wordsOf front) (gaps.map Piece.gap ++ filePieces d items) := by
  refine endsItem_of_head hline fun m hm => ?_
  rw [wordsOf_append, wordsOf_gaps, List.nil_append] at hm
  cases items with
  | nil => cases hm
  | cons item items =>
    simp only [Item.allApart, Bool.and_eq_true] at ha
    obtain ⟨gaps, hpieces, -⟩ := filePieces_cons (d := d) item items
    obtain ⟨ls, hls⟩ := topItem_head (h item (List.mem_cons_self ..)) (gaps.map Piece.gap ++
      filePieces d items)
    rw [hpieces, hls] at hm
    exact not_endsInConstant ha.1.1 (Option.some.inj hm)

/-- The declarations of a file, each with less than the words that the depth allows. -/
theorem takes_declarations (hk : Keeps c d f g) (depth : Nat) {items : List Item}
    {front : List Piece} (h : ∀ item ∈ items, item.FormedTop d.source)
    (ha : Item.allApart d front items = true)
    (hd : ∀ item ∈ items, 4 * (wordsOf (itemPieces d item)).length + 1 ≤ depth)
    (hf : items.length < fuel) :
    Takes c (declarations depth fuel) (filePieces d items) (· = []) (ItemsReread f g items) := by
  induction items generalizing front fuel with
  | nil =>
    obtain ⟨fuel, rfl⟩ : ∃ k, fuel = k + 1 := ⟨fuel - 1, by omega⟩
    unfold declarations
    refine .peek_bind (l := none) ?_ (Takes.gap (.pure .nil))
    rintro x rfl
    rfl
  | cons item items ih =>
    rw [List.length_cons] at hf
    obtain ⟨fuel, rfl⟩ : ∃ k, fuel = k + 1 := ⟨fuel - 1, by omega⟩
    simp only [Item.allApart, Bool.and_eq_true] at ha
    rw [List.forall_mem_cons] at h hd
    have hitem := takes_topItem (c := c) hk h.1 ha.1.2 hd.1
    have hitems := ih h.2 ha.2 hd.2 (Nat.lt_of_succ_lt_succ hf)
    obtain ⟨gaps, hpieces, hline⟩ := filePieces_cons (d := d) item items
    rw [hpieces]
    unfold declarations
    refine .peek_bind (l := some (itemStart item)) (fun x _ => ?_) ?_
    · obtain ⟨ls, hls⟩ := topItem_head h.1 (gaps.map Piece.gap ++ filePieces d items ++ x)
      rw [List.append_assoc, hls]
      rfl
    · refine hitem.bind (fun a ha => ?_) fun x hx => ?_
      · exact (hitems.gaps gaps).last (fun as has => .pure (.cons ha has)) fun x hx => hx
      · rw [hx, List.append_nil]
        exact file_goes_on h.2 ha.2 hline

theorem length_file_ge {items : List Item} (h : ∀ item ∈ items, item.FormedTop d.source) :
    items.length ≤ (wordsOf (filePieces d items)).length ∧ ∀ item ∈ items,
      (wordsOf (itemPieces d item)).length ≤ (wordsOf (filePieces d items)).length := by
  induction items with
  | nil => exact ⟨Nat.zero_le _, fun _ hm => by cases hm⟩
  | cons item items ih =>
    rw [List.forall_mem_cons] at h
    obtain ⟨gaps, hpieces, -⟩ := filePieces_cons (d := d) item items
    obtain ⟨hcount, hmem⟩ := ih h.2
    obtain ⟨ls, hls⟩ := topItem_head h.1 []
    rw [List.append_nil] at hls
    have hpos := congrArg List.length hls
    rw [lexemesOf, List.length_map, List.length_cons] at hpos
    rw [hpieces, wordsOf_append, wordsOf_append, wordsOf_gaps, List.nil_append, List.length_append,
      List.length_cons, List.forall_mem_cons]
    refine ⟨by omega, Nat.le_add_right _ _, fun a ha => ?_⟩
    exact Nat.le_trans (hmem a ha) (Nat.le_add_left _ _)

/-- With the fuel for its words a whole file is read back. -/
theorem takes_file (hk : Keeps c d f g) {root : Root} (h : root.Formed d.source)
    (ha : Item.allApart d [] root.declarations = true) :
    Takes c (declarations (fuelFor (wordsOf (Format.rootPieces d root)).length)
      (fuelFor (wordsOf (Format.rootPieces d root)).length)) (Format.rootPieces d root) (· = [])
      (ItemsReread f g root.declarations) := by
  obtain ⟨hcount, hmem⟩ := length_file_ge (d := d) h
  change _ ≤ (wordsOf (Format.rootPieces d root)).length at hcount
  refine takes_declarations hk _ h ha (fun item hm => ?_) ?_
  · have hle : _ ≤ (wordsOf (Format.rootPieces d root)).length := hmem item hm
    rw [fuelFor]
    omega
  · rw [fuelFor]
    omega

end RubySig.Grammar
