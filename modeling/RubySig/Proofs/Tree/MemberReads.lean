import RubySig.Proofs.Tree.ItemFormed
import RubySig.Proofs.Tree.MethodReads

/-! Printed members of bodies are read back. -/
namespace RubySig.Grammar

open Format (Piece wordsOf tyPieces tysPieces namePiece namePieces methodNamePieces bracketedPieces
  classRefPieces memberPieces receiverPieces backingPieces)
open Format.Piece (mark keyword)

variable {c : Context} {d : Format.Context} {f g : Showing} {scope : List String}
  {fuel : Nat} {α : Type}
  {p : Parser α} {ps : List Piece} {n : List Piece → Prop} {R : α → Prop}

def ClassRefRereads (f g : Showing) (r a : ClassRef) : Prop :=
  (a.rewrite (.erasing f)).bare = ((r.rewrite .rereading).rewrite (.erasing g)).bare

theorem reads_args (hk : Keeps c d f g) {args : List Ty} (h : Ty.FormedAll scope d.source args)
    (hf : 4 * (wordsOf (bracketedPieces (tysPieces d false args))).length ≤ fuel) :
    Reads c (typeArgs (type fuel scope) fuel) (wordsOf (bracketedPieces (tysPieces d false args)))
      (fun x => args = [] → x.head? ≠ some (.mark .lbracket)) (Rereads f g false args) := by
  cases args with
  | nil => exact reads_typeArgs (by simp) fuel (Nat.zero_le _)
  | cons t ts =>
    rw [tysPieces_eq_map, wordsOf_bracketed (by simp), List.length_cons, List.length_append,
      List.length_singleton, List.map_map] at hf
    have hcount := count_le_intercalate (.mark .comma, Mark.comma.text.toList)
      ((t :: ts).map (wordsOf ∘ tyPieces d false))
    rw [List.length_map] at hcount
    refine reads_typeArgs (fun u hu => ?_) fuel (by omega)
    have hmem := length_le_intercalate [(.mark .comma, Mark.comma.text.toList)]
      (List.mem_map_of_mem (f := wordsOf ∘ tyPieces d false) hu)
    refine (readsBack hk fuel).ready (Ty.formedAll_iff.mp h u hu) ?_
    change 4 * ((wordsOf ∘ tyPieces d false) u).length ≤ fuel
    omega

theorem reads_classRef (hk : Keeps c d f g) {segment : Segment} {r : ClassRef}
    {last : String → Lexeme} (hn : r.name.Formed last)
    (hl : ∀ s, last s = .constant s ∨ last s = .interfaceName s)
    (hseg : ∀ s, segment.name? (last s) = some s) (ha : Ty.FormedAll scope d.source r.args)
    (hf : 4 * (wordsOf (classRefPieces d r)).length ≤ fuel) (role : Role) :
    Reads c (classRef segment role fuel scope) (wordsOf (classRefPieces d r))
      (Bound 0 (wordsOf (classRefPieces d r))) (ClassRefRereads f g r) := by
  have hlast (s : String) :
      last s = .constant s ∨ last s = .interfaceName s ∨ last s = .identifier s := by
    rcases hl s with h | h
    · exact .inl h
    · exact .inr (.inl h)
  have hlike : r.name.isClass || r.name.isInterface := by
    have hname := (hn.name.name (hlast r.name.name)).2
    rcases hl r.name.name with h | h
    · rw [(class_of_constant (hname.trans h)).1, Bool.true_or]
    · rw [(interface_of_interfaceName (hname.trans h)).2, Bool.or_true]
  rw [classRefPieces, wordsOf_append, List.length_append] at hf
  rw [classRefPieces, wordsOf_append]
  unfold classRef
  refine .here_bind fun start => ?_
  refine (reads_typeName hn hlast hseg role).bind (fun a hname => ?_) fun x hx => ?_
  · obtain ⟨hequal, -, -⟩ := TypeName.eq_of_erase hname
    have hout : (segment == .any && !(a.isClass || a.isInterface)) = false := by
      have hsame : (a.isClass || a.isInterface) = (r.name.isClass || r.name.isInterface) := by
        rw [TypeName.isClass, TypeName.isInterface, hequal]
        rfl
      rw [hsame, hlike]
      exact Bool.and_false _
    rw [hout, if_neg Bool.false_ne_true]
    refine (reads_args hk ha (by omega)).last (fun as has => .span_bind fun l => .pure ?_)
      fun x hx _ => hx.bracket
    have hargs : as.map (Ty.erase f) = (r.args.map (Ty.reread false)).map (Ty.erase g) := by
      rw [← Ty.eraseAll_eq_map, ← Ty.eraseAll_eq_map, ← Ty.rereadAll_eq_map]
      exact has.erase
    simp only [ClassRefRereads, ClassRef.rewrite, ClassRef.bare, Rewriting.erasing,
      Rewriting.rereading,
      hname, hargs]
  · cases hargs : r.args with
    | nil =>
      rw [hargs] at hx
      refine hx.name (last r.name.name, r.name.name.toList) ?_
      rw [wordsOf_name hn hlast, tysPieces]
      simp [bracketedPieces]
    | cons t ts =>
      rw [tysPieces, wordsOf_bracketed (by simp)]
      simp [NameStops]

theorem reads_classLike (hk : Keeps c d f g) {r : ClassRef} (h : r.Formed scope d.source)
    (hf : 4 * (wordsOf (classRefPieces d r)).length ≤ fuel) (role : Role) :
    Reads c (classRef .any role fuel scope) (wordsOf (classRefPieces d r))
      (Bound 0 (wordsOf (classRefPieces d r))) (ClassRefRereads f g r) := by
  rcases h.name with hn | hn
  · exact reads_classRef hk hn (fun _ => .inl rfl) (fun _ => rfl) h.args hf role
  · exact reads_classRef hk hn (fun _ => .inr rfl) (fun _ => rfl) h.args hf role

theorem reads_receiver (level : MemberLevel) : Reads c selfDot (wordsOf (receiverPieces level))
    (fun x => (x.head? == some (.keyword .self) && x[1]? == some (.mark .dot)) = false)
    (fun b => (if b then MemberLevel.singleton else .instance_) = level) := by
  cases level with
  | instance_ =>
    refine reads_no_selfDot.imp (fun _ h => h) ?_
    rintro b rfl
    rfl
  | singleton =>
    refine reads_selfDot.imp (fun _ h => h) ?_
    rintro b rfl
    rfl

theorem reads_backing (backing : Backing) : Reads c (show Parser Backing from do
      if ← eat (.mark .lparen) then
        let backing ← show Parser Backing from do
          match ← peek with
          | some (.instanceVariable ivar) =>
            advance 1
            return .named ivar
          | _ => return .absent
        expect (.mark .rparen) .closeOfBacking
        return backing
      else return .implied) (wordsOf (backingPieces backing))
    (fun x => x.head? ≠ some (.mark .lparen)) (· = backing) := by
  cases backing with
  | implied => exact .eat_miss (fun x hx => hx) (.pure rfl)
  | absent =>
    refine .eat_bind ?_
    have hnone : Reads c (show Parser Backing from do
        match ← peek with
        | some (.instanceVariable ivar) =>
          advance 1
          return .named ivar
        | _ => return .absent) [] (fun x => x.head? = some (.mark .rparen)) (· = .absent) :=
      .peek_bind (fun x hx => hx) (.pure rfl)
    refine hnone.before (fun b hb => .expect_bind (.pure hb)) fun x _ => rfl
  | named ivar =>
    refine .eat_bind ?_
    have hnamed : Reads c (show Parser Backing from do
        match ← peek with
        | some (.instanceVariable ivar) =>
          advance 1
          return .named ivar
        | _ => return .absent) [(.instanceVariable ivar, ivar.toList)] (fun _ => True)
            (· = .named ivar) :=
      .peek_bind (l := some (.instanceVariable ivar)) (fun x _ => rfl) (.advance_one (.pure rfl))
    exact hnamed.bind (fun b hb => .expect_bind (.pure hb)) fun _ _ => trivial

def attributePieces (d : Format.Context) (name : String) (t : Ty) (backing : Backing)
    (level : MemberLevel) : List Piece :=
  receiverPieces level ++ ([namePiece name true] ++ (backingPieces backing ++
    (mark .colon :: .gap .blank :: tyPieces d false t)))

theorem reads_attributeMember (hk : Keeps c d f g) (access : Access) (name : String) {t : Ty}
    (ht : t.Formed scope d.source) (backing : Backing) (level : MemberLevel) (v : Option Visibility)
    (hf : 4 * (tyWords d false t).length ≤ fuel) :
    Reads c (attributeMember access fuel scope v)
      (wordsOf (attributePieces d name t backing level)) (Bound 3 (tyWords d false t))
      (MemberRereads f g (.attribute access name t backing level v)) := by
  obtain ⟨l, hword, hname⟩ := name?_namePiece name true
  have hafter (x : List Lexeme) : ∃ m ls, lexemesOf (wordsOf (backingPieces backing ++
      (mark .colon :: .gap .blank :: tyPieces d false t))) ++ x = .mark m :: ls ∧ m ≠ .dot := by
    cases backing <;> exact ⟨_, _, rfl, by decide⟩
  rw [attributePieces, wordsOf_append, wordsOf_append, hword]
  unfold attributeMember
  refine (reads_receiver level).bind (fun b hb => ?_) fun x _ => ?_
  · refine .peek_bind (l := some l) (fun x _ => rfl) ?_
    simp only [Option.bind_some, hname]
    refine .advance_one ?_
    rw [wordsOf_append]
    refine (reads_backing backing).bind (fun back hback => ?_) fun x _ => by simp
    refine .expect_bind ?_
    refine ((readsBack hk fuel).ready ht hf).reads.last (fun u hu => .pure ?_) fun x hx => hx
    simp only [MemberRereads, Member.rewrite, Member.bare, Rewriting.erasing,
      Rewriting.rereading, hu,
      hb, hback]
  · obtain ⟨m, ls, hls, hm⟩ := hafter x
    have hbehind :
        (lexemesOf ([(l, (Spell.name name true).toList)] ++ wordsOf (backingPieces backing ++
        (mark .colon :: .gap .blank :: tyPieces d false t))) ++ x)[1]? = some (.mark m) := by
      rw [lexemesOf_append, List.append_assoc, hls]
      rfl
    have hne : (some (Lexeme.mark m) == some (.mark .dot)) = false :=
      beq_false_of_ne (by simpa using hm)
    rw [hbehind, hne, Bool.and_false]

theorem Takes.expect_bind {l : Lexeme} {w : List Char} {what : Missing} {k : Unit → Parser α}
    (h : Takes c (k ()) qs n R) : Takes c (expect l what >>= k) (.word l w :: qs) n R := by
  have hread : Reads c (expect l what >>= Pure.pure) [(l, w)] (fun _ => True) (fun _ => True) :=
    .expect_bind (.pure trivial)
  rw [bind_pure] at hread
  exact hread.takes_word.bind (fun _ _ => h) fun _ _ => trivial

def aliasPieces (newName oldName : String) (level : MemberLevel) : List Piece :=
  receiverPieces level ++
    (methodNamePieces newName false ++ (.gap .blank :: (receiverPieces level ++
    methodNamePieces oldName false)))

theorem takes_alias (newName oldName : String) (level : MemberLevel) :
    Takes c aliasMember (aliasPieces newName oldName level) StopsName
      (· = .alias newName oldName level) := by
  unfold aliasMember
  refine (reads_receiver level).takes.bind (fun b hb => ?_) fun x _ => ?_
  · have hold := takes_methodName (c := c) oldName false
    have hnew := takes_methodName (c := c) newName false
    cases level with
    | instance_ =>
      obtain rfl : b = false := by simpa using hb
      refine hnew.bind (fun a ha => ?_) fun x _ => ⟨_, _, rfl, .inr (.inl rfl)⟩
      exact Takes.gap (hold.last (fun e he => .pure (by rw [ha, he])) fun x hx => hx)
    | singleton =>
      obtain rfl : b = true := by simpa using hb
      refine hnew.bind (fun a ha => ?_) fun x _ => ⟨_, _, rfl, .inr (.inl rfl)⟩
      refine Takes.gap ?_
      refine .expect_bind (.expect_bind ?_)
      exact hold.last (fun e he => .pure (by rw [ha, he])) fun x hx => hx
  · obtain ⟨l, ls, hl, hdot, hquestion⟩ := methodName_head oldName false
    have hhead : ∃ k ks, lexemesOf (wordsOf (.gap .blank :: (receiverPieces level ++
        methodNamePieces oldName false) ++ x)) = k :: ks ∧ k ≠ .mark .dot ∧
          k ≠ .mark .question := by
      cases level with
      | singleton => exact ⟨_, _, rfl, by simp, by simp⟩
      | instance_ =>
        refine ⟨l, ls ++ lexemesOf (wordsOf x), ?_, hdot, hquestion⟩
        rw [List.cons_append, wordsOf_gap, receiverPieces, List.nil_append, wordsOf_append,
          lexemesOf_append, hl, List.cons_append]
    obtain ⟨k, ks, hks, hkdot, hkquestion⟩ := hhead
    rw [List.append_assoc, wordsOf_append, lexemesOf_append, hks]
    exact (name_noReceiver newName false ⟨by simpa using hkdot, by simpa using hkquestion⟩).single

theorem reads_variableMember (hk : Keeps c d f g) (kind : VariableKind) (name : String) {t : Ty}
    (ht : t.Formed scope d.source) (hf : 4 * (tyWords d false t).length ≤ fuel) :
    Reads c (variableMember kind name fuel scope)
      (wordsOf (mark .colon :: .gap .blank :: tyPieces d false t)) (Bound 3 (tyWords d false t))
      (MemberRereads f g (.variable kind name t)) := by
  unfold variableMember
  refine .expect_bind ?_
  refine ((readsBack hk fuel).ready ht hf).reads.last (fun u hu => .pure ?_) fun x hx => hx
  simp only [MemberRereads, Member.rewrite, Member.bare, Rewriting.erasing, Rewriting.rereading, hu]

/-- What may follow an item that ends in some words: the end of its line, and a token that does not
go on with them. -/
structure EndsItem (ws : List Word) (x : List Piece) : Prop where
  line : ∃ y, x = .gap .line :: y
  mark : ∀ m, (lexemesOf (wordsOf x)).head? = some (.mark m) → m = .doubleColon
  name : ∀ w ∈ ws.getLast?, NameStops w.1 (lexemesOf (wordsOf x))

theorem EndsItem.bound {ws : List Word} {x : List Piece} (h : EndsItem ws x) :
    Bound 3 ws (lexemesOf (wordsOf x)) := by
  have hne {m : Mark} (hm : m ≠ .doubleColon) : (lexemesOf (wordsOf x)).head? ≠ some (.mark m) :=
    fun he => hm (h.mark m he)
  exact ⟨hne (by decide), h.name, fun _ => hne (by decide), fun _ => hne (by decide),
    fun _ => hne (by decide)⟩

theorem EndsItem.suffix {ps qs x : List Piece} (h : EndsItem (wordsOf (ps ++ qs)) x) :
    Bound 3 (wordsOf qs) (lexemesOf (wordsOf x)) := by
  have hbound := h.bound
  rw [wordsOf_append] at hbound
  exact hbound.suffix

theorem EndsItem.stopsName {ws : List Word} {x : List Piece} (h : EndsItem ws x) : StopsName x := by
  obtain ⟨y, rfl⟩ := h.line
  exact ⟨_, y, rfl, .inr (.inr rfl)⟩

/-- The keyword that something starts with that may have a visibility in front. -/
def markedStart (v : Option Visibility) (k : Keyword) : Keyword := (v.map Visibility.keyword).getD k

def memberStart : Member → Lexeme
  | .alias _ _ _ => .keyword .alias
  | .attribute access _ _ _ _ v => .keyword (markedStart v access.keyword)
  | .variable .instance_ name _ => .instanceVariable name
  | .variable .classInstance _ _ => .keyword .self
  | .variable .class_ name _ => .classVariable name
  | .mixin kind _ _ => .keyword kind.keyword
  | .visibility v => .keyword v.keyword
  | .method _ _ _ _ v => .keyword (markedStart v .def_)

theorem member_head (d : Format.Context) (m : Member) (x : List Piece) :
    ∃ ls, lexemesOf (wordsOf (memberPieces d m ++ x)) = memberStart m :: ls := by
  cases m with
  | «alias» newName oldName level => exact ⟨_, rfl⟩
  | «attribute» access name t backing level v => cases v <;> exact ⟨_, rfl⟩
  | «variable» kind name t => cases kind <;> exact ⟨_, rfl⟩
  | mixin kind name args => exact ⟨_, rfl⟩
  | visibility v => exact ⟨_, rfl⟩
  | method name os level overloading v => cases v <;> exact ⟨_, rfl⟩

theorem attribute_eq (access : Access) (name : String) (t : Ty) (backing : Backing)
    (level : MemberLevel) (v : Option Visibility) :
    memberPieces d (.attribute access name t backing level v) =
      Format.visibilityPieces v ++ keyword access.keyword :: .gap .blank ::
        attributePieces d name t backing level := by
  simp [memberPieces, attributePieces]

theorem takes_attribute (hk : Keeps c d f g) {access : Access} {name : String} {t : Ty}
    {backing : Backing} {level : MemberLevel} {v : Option Visibility} (ht : t.Formed scope d.source)
    (hf : 4 * (tyWords d false t).length ≤ fuel) :
    Takes c (member true fuel scope) (memberPieces d (.attribute access name t backing level v))
      (fun x => Bound 3 (tyWords d false t) (lexemesOf (wordsOf x)))
      (MemberRereads f g (.attribute access name t backing level v)) := by
  have hread := (reads_attributeMember hk access name ht backing level v hf).takes
  rw [attribute_eq]
  unfold member
  refine (takes_visibility v).bind (fun w hw => ?_) fun x _ => ⟨access.keyword, _, rfl, ?_⟩
  · rw [hw]
    refine .peek_bind (l := some (.keyword access.keyword)) (fun x _ => rfl) ?_
    cases access <;> exact .word_bind hread.gap
  · cases access <;> rfl

theorem not_visibility {k : Keyword} (h : k ∉ [Keyword.public_, .private_]) (v : Visibility) :
    Lexeme.keyword k ≠ .keyword v.keyword := by
  rintro ⟨⟩
  cases v <;> exact h (by decide)

theorem takes_mixin (hk : Keeps c d f g) {nested : Bool} {kind : MixinKind} {name : TypeName}
    {args : List Ty} (h : (Member.mixin kind name args).Formed nested scope d.source)
    (hf : 4 * (wordsOf (classRefPieces d ⟨none, name, args⟩)).length ≤ fuel) :
    Takes c (member nested fuel scope) (memberPieces d (.mixin kind name args))
      (fun x => Bound 0 (wordsOf (classRefPieces d ⟨none, name, args⟩)) (lexemesOf (wordsOf x)))
      (MemberRereads f g (.mixin kind name args)) := by
  have hread :=
    (reads_classLike hk (r := ⟨none, name, args⟩) ⟨h.2.1, h.2.2⟩ hf (.mixinTarget kind)).takes
  have htarget : Takes c (do
      let target ← classRef .any (.mixinTarget kind) fuel scope
      return Member.mixin kind target.name target.args) (classRefPieces d ⟨none, name, args⟩)
      (fun x => Bound 0 (wordsOf (classRefPieces d ⟨none, name, args⟩)) (lexemesOf (wordsOf x)))
      (MemberRereads f g (.mixin kind name args)) := by
    refine hread.last (fun r hr => .pure ?_) fun x hx => hx
    have hname : r.name.erase = name.erase := congrArg ClassRef.name hr
    have hargs : r.args.map (Ty.erase f) = (args.map (Ty.reread false)).map (Ty.erase g) :=
      congrArg ClassRef.args hr
    simp only [MemberRereads, Member.rewrite, Member.bare, Rewriting.erasing,
      Rewriting.rereading, hname,
      hargs]
  rw [memberPieces]
  unfold member
  refine takes_unmarked.before (fun v hv => ?_) fun x _ => ⟨.keyword kind.keyword, _, _, rfl,
    not_visibility (by cases kind <;> decide)⟩
  refine .peek_bind (l := some (.keyword kind.keyword)) (fun x _ => rfl) ?_
  cases kind with
  | include_ => cases nested <;> exact .word_bind htarget.gap
  | extend =>
    obtain rfl : nested = true := by simpa using h.1
    exact .word_bind htarget.gap
  | prepend =>
    obtain rfl : nested = true := by simpa using h.1
    exact .word_bind htarget.gap

theorem takes_variable (hk : Keeps c d f g) {kind : VariableKind} {name : String} {t : Ty}
    (ht : t.Formed scope d.source) (hf : 4 * (tyWords d false t).length ≤ fuel) :
    Takes c (member true fuel scope) (memberPieces d (.variable kind name t))
      (fun x => Bound 3 (tyWords d false t) (lexemesOf (wordsOf x)))
      (MemberRereads f g (.variable kind name t)) := by
  have hread := (reads_variableMember hk kind name ht hf).takes
  unfold member
  cases kind with
  | instance_ =>
    refine takes_unmarked.before (fun v _ => ?_) fun x _ =>
      ⟨.instanceVariable name, _, _, rfl, by simp⟩
    exact .peek_bind (l := some (.instanceVariable name)) (fun x _ => rfl) (.word_bind hread)
  | class_ =>
    refine takes_unmarked.before (fun v _ => ?_) fun x _ =>
      ⟨.classVariable name, _, _, rfl, by simp⟩
    exact .peek_bind (l := some (.classVariable name)) (fun x _ => rfl) (.word_bind hread)
  | classInstance =>
    refine takes_unmarked.before (fun v _ => ?_) fun x _ => ⟨.keyword .self, _, _, rfl,
      not_visibility (by decide)⟩
    refine .peek_bind (l := some (.keyword .self)) (fun x _ => rfl) ?_
    have hself : Reads c selfDot (wordsOf (receiverPieces .singleton)) (fun _ => True) (· = true) :=
      reads_selfDot
    refine hself.takes.bind (fun b hb => ?_) fun _ _ => trivial
    rw [hb]
    exact .peek_bind (l := some (.instanceVariable name)) (fun x _ => rfl) (.word_bind hread)

theorem takes_member (hk : Keeps c d f g) {nested : Bool} : (m : Member) →
    m.Formed nested scope d.source → 4 * (wordsOf (memberPieces d m)).length ≤ fuel →
      Takes c (member nested fuel scope) (memberPieces d m)
        (EndsItem (wordsOf (Format.memberTail d m)))
        (MemberRereads f g m)
  | .alias newName oldName level, _, _ => by
    have hread := takes_alias (c := c) newName oldName level
    have halias : memberPieces d (.alias newName oldName level) =
        keyword .alias :: .gap .blank :: aliasPieces newName oldName level := by
      simp [memberPieces, aliasPieces]
    rw [halias]
    unfold member
    refine takes_unmarked.before (fun v _ => ?_) fun x _ => ⟨.keyword .alias, _, _, rfl,
      not_visibility (by decide)⟩
    refine .peek_bind (l := some (.keyword .alias)) (fun x _ => rfl) ?_
    have hnames : Takes c aliasMember (aliasPieces newName oldName level)
        (EndsItem (wordsOf (Format.memberTail d (.alias newName oldName level))))
        (MemberRereads f g (.alias newName oldName level)) :=
      hread.imp (fun x hx => hx.stopsName) (by rintro a rfl; rfl)
    cases nested <;> exact .word_bind hnames.gap
  | .attribute access name t backing level v, h, hf => by
    obtain ⟨rfl, -, ht, -⟩ := h
    rw [memberPieces, wordsOf_append, List.length_append] at hf
    exact (takes_attribute hk ht
      (by change 4 * (wordsOf (tyPieces d false t)).length ≤ fuel; omega)).imp
      (fun x hx => hx.suffix) fun _ ha => ha
  | .variable kind name t, h, hf => by
    obtain ⟨rfl, -, ht⟩ := h
    rw [memberPieces, wordsOf_append, List.length_append] at hf
    exact (takes_variable hk ht
      (by change 4 * (wordsOf (tyPieces d false t)).length ≤ fuel; omega)).imp
      (fun x hx => hx.suffix) fun _ ha => ha
  | .mixin kind name args, h, hf => by
    rw [memberPieces, wordsOf_append, List.length_append] at hf
    exact (takes_mixin hk h (by
      change 4 * (wordsOf (namePieces name ++ bracketedPieces (tysPieces d false args))).length ≤
        fuel
      omega)).imp (fun x hx => hx.suffix.mono (by decide)) fun _ ha => ha
  | .visibility v, h, _ => by
    obtain rfl : nested = true := h
    unfold member
    refine (takes_alone v).before (fun w _ => ?_) fun x hx => ?_
    · refine .peek_bind (l := some (.keyword v.keyword)) (fun x _ => rfl) ?_
      cases v <;> exact .word_bind (.pure rfl)
    · obtain ⟨y, rfl⟩ := hx.line
      exact ⟨y, rfl⟩
  | .method name os level overloading v, h, hf => by
    rw [memberPieces, wordsOf_append, List.length_append] at hf
    have hready : EntriesReady d scope fuel os overloading := by
      refine ⟨fun o ho => (h.2.1 o ho).method, ?_, h.2.2⟩
      rw [wordsOf_append, List.length_append] at hf
      change 4 * (_ + 1 + (entryWords d os overloading).length) ≤ fuel at hf
      omega
    exact (takes_method hk hready v level name nested).imp (fun x hx => hx.suffix) fun _ ha => ha

end RubySig.Grammar
