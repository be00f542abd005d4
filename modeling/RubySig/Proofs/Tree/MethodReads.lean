import RubySig.Proofs.Tree.MethodNameReads
import RubySig.Proofs.Tree.OverloadReads

/-! A printed method is read back. -/
namespace RubySig.Grammar

open Format (Piece wordsOf methodNamePieces methodReceiverPieces headingPieces entriesPieces
  methodEntryPieces memberPieces)
open Format.Piece (mark keyword named)

variable {c : Context} {d : Format.Context} {f g : Showing} {scope : List String} {α β : Type}
  {ps qs : List Piece} {n : List Piece → Prop} {R : α → Prop} {S : β → Prop}

theorem Takes.peek_bind {k : Option Lexeme → Parser β} {l : Option Lexeme}
    (hl : ∀ x, n x → (lexemesOf (wordsOf (qs ++ x))).head? = l) (h : Takes c (k l) qs n S) :
    Takes c (peek >>= k) qs n S := by
  have hread : Reads c (peek >>= Pure.pure) [] (fun x => x.head? = l) (· = l) :=
    .peek_bind (fun x hx => hx) (.pure rfl)
  rw [bind_pure] at hread
  refine hread.takes_nothing.before (fun a ha => ?_) fun x hx => hl x hx
  rw [ha]
  exact h

theorem Takes.isNext_bind {k : Bool → Parser β} {l : Lexeme} {b : Bool}
    (hl : ∀ x, n x → ((lexemesOf (wordsOf (qs ++ x))).head? == some l) = b)
    (h : Takes c (k b) qs n S) : Takes c (isNext l >>= k) qs n S := by
  have hread : Reads c (isNext l >>= Pure.pure) [] (fun x => (x.head? == some l) = b) (· = b) :=
    .isNext_bind (fun x hx => hx) (.pure rfl)
  rw [bind_pure] at hread
  refine hread.takes_nothing.before (fun a ha => ?_) fun x hx => hl x hx
  rw [ha]
  exact h

theorem Takes.here_bind {k : Position → Parser β} (h : ∀ q, Takes c (k q) qs n S) :
    Takes c (here >>= k) qs n S := by
  have hread : Reads c (here >>= Pure.pure) [] (fun _ => True) (fun _ => True) :=
    .here_bind fun q => .pure trivial
  rw [bind_pure] at hread
  exact hread.takes_nothing.before (fun q _ => h q) fun _ _ => trivial

theorem Takes.span_bind {q : Position} {k : Option Span → Parser β}
    (h : ∀ l, Takes c (k l) qs n S) :
    Takes c (spanFrom q >>= k) qs n S := by
  have hread : Reads c (spanFrom q >>= Pure.pure) [] (fun _ => True) (fun _ => True) :=
    .span_bind fun q => .pure trivial
  rw [bind_pure] at hread
  exact hread.takes_nothing.before (fun l _ => h l) fun _ _ => trivial

theorem Takes.lead_bind {ns : List Note} {start : Position} {k : Lead → Parser β}
    (h : ∀ comment, Takes c (k ⟨comment, ns⟩) qs n S) : Takes c (leadOf ns start >>= k) qs n S := by
  have hread : Reads c (leadOf ns start >>= Pure.pure) [] (fun _ => True) (·.notes = ns) :=
    .lead_bind fun comment => .pure rfl
  rw [bind_pure] at hread
  refine hread.takes_nothing.before (fun lead hl => ?_) fun _ _ => trivial
  obtain ⟨comment, notes⟩ := lead
  obtain rfl : notes = ns := hl
  exact h comment

theorem Takes.get_bind {k : State → Parser β} (h : ∀ s, Takes c (k s) qs n S) :
    Takes c (get >>= k) qs n S :=
  fun rs toks last blocks hn hs => h _ rs toks last blocks hn hs

theorem Takes.word_bind {l : Lexeme} {w : List Char} {k : Unit → Parser β}
    (h : Takes c (k ()) qs n S) : Takes c (advance 1 >>= k) (.word l w :: qs) n S := by
  have hread : Reads c (advance 1 >>= Pure.pure) [(l, w)] (fun _ => True) (fun _ => True) :=
    .advance_one (.pure trivial)
  rw [bind_pure] at hread
  exact hread.takes_word.bind (fun _ _ => h) fun _ _ => trivial

/-- What stands between `def` and the name of a method. -/
def methodLevel : Parser MethodLevel := do
  if ← selfDot then return .singleton
  else if (← isNext (.keyword .self)) && (← peekAt 1) == some (.mark .question)
      && (← peekAt 2) == some (.mark .dot) then
    advance 3
    return .both
  else return .instance_

/-- Tokens that do not read as what stands in front of a method name. -/
structure NoReceiver (x : List Lexeme) : Prop where
  single : (x.head? == some (.keyword .self) && x[1]? == some (.mark .dot)) = false
  both : (x.head? == some (.keyword .self) && x[1]? == some (.mark .question) &&
    x[2]? == some (.mark .dot)) = false

theorem reads_selfDot {n : List Lexeme → Prop} : Reads c selfDot
    [(.keyword .self, Keyword.self.text.toList), (.mark .dot, Mark.dot.text.toList)] n
      (· = true) := by
  unfold selfDot
  refine .isNext_bind (b := true) (fun x _ => rfl) ?_
  refine .peekAt_bind (l := some (.mark .dot)) (fun x _ => rfl) ?_
  exact .advance_two (.pure rfl)

theorem reads_no_selfDot : Reads c selfDot []
    (fun x => (x.head? == some (.keyword .self) && x[1]? == some (.mark .dot)) = false)
      (· = false) := by
  intro toks rest last blocks ht hrest
  cases ht
  rw [List.head?_map, List.getElem?_map] at hrest
  refine ⟨false, blocks, ?_, rfl⟩
  change (if (rest.head?.map (·.lexeme) == some (.keyword .self) &&
    rest[1]?.map (·.lexeme) == some (.mark .dot)) = true then
      (advance 2 >>= fun _ => Pure.pure true : Parser Bool) else Pure.pure false) c _ = _
  rw [hrest]
  rfl

theorem reads_methodLevel (level : MethodLevel) :
    Reads c methodLevel (wordsOf (methodReceiverPieces level)) NoReceiver (· = level) := by
  unfold methodLevel
  cases level with
  | singleton =>
    refine reads_selfDot.last (m := NoReceiver) (fun b hb => ?_) fun _ hx => hx
    rw [hb]
    exact .pure rfl
  | both =>
    refine reads_no_selfDot.before (fun b hb => ?_) fun x _ => rfl
    rw [hb]
    refine .isNext_bind (b := true) (fun x _ => rfl) ?_
    refine .peekAt_bind (l := some (.mark .question)) (fun x _ => rfl) ?_
    refine .peekAt_bind (l := some (.mark .dot)) (fun x _ => rfl) ?_
    exact .advance_three (.pure rfl)
  | instance_ =>
    refine reads_no_selfDot.before (fun b hb => ?_) fun x hx => hx.single
    rw [hb]
    intro toks rest last blocks ht hrest
    cases ht
    have hboth := hrest.both
    rw [List.head?_map, List.getElem?_map, List.getElem?_map] at hboth
    refine ⟨.instance_, blocks, ?_, rfl⟩
    change (if (rest.head?.map (·.lexeme) == some (.keyword .self) &&
      rest[1]?.map (·.lexeme) == some (.mark .question) &&
      rest[2]?.map (·.lexeme) == some (.mark .dot)) = true then
        (advance 3 >>= fun _ => Pure.pure MethodLevel.both : Parser MethodLevel)
        else Pure.pure .instance_) c _ = _
    rw [hboth]
    rfl

theorem operators_head : ∀ cs ∈ MethodName.operators,
    ∃ l ls, lexemesOf (wordsOf (Format.signPieces cs)) = l :: ls ∧
      l ∉ [.keyword .self, .mark .dot, .mark .question] := by
  intro cs h
  have hhead : ∀ cs ∈ MethodName.operators, (lexemesOf (wordsOf (Format.signPieces cs))).head?.any
      (fun l => !(List.contains [.keyword .self, .mark .dot, .mark .question] l)) = true := by
    decide
  obtain ⟨l, hl, hnone⟩ := (Option.any_eq_true _ _).mp (hhead cs h)
  obtain ⟨ls, hls⟩ := List.head?_eq_some_iff.mp hl
  exact ⟨l, ls, hls, by simpa using hnone⟩

/-- A name that is not `self` itself is not taken for a receiver. -/
theorem noReceiver_of_head {l : Lexeme} {ls : List Lexeme} (h : l ≠ .keyword .self) :
    NoReceiver (l :: ls) := by
  have hl : (some l == some (Lexeme.keyword .self)) = false := beq_false_of_ne (by simpa using h)
  constructor
  · rw [List.head?_cons, hl, Bool.false_and]
  · rw [List.head?_cons, hl, Bool.false_and, Bool.false_and]

theorem name_noReceiver (name : String) (quoteReserved : Bool) {x : List Lexeme}
    (hx : x.head? ≠ some (.mark .dot) ∧ x.head? ≠ some (.mark .question)) :
    NoReceiver (lexemesOf (wordsOf (methodNamePieces name quoteReserved)) ++ x) := by
  unfold methodNamePieces
  split
  case isTrue => exact noReceiver_of_head (by simp)
  case isFalse hq =>
    have hw : MethodName.isWhole name.toList = true := by
      simp only [Format.isQuotedMethod, Bool.or_eq_true, Bool.not_eq_true', not_or,
        Bool.not_eq_false] at hq
      exact hq.2
    rcases Format.isWhole_cases hw with ho | ⟨base, ending, hs, hb, he⟩
    · obtain ⟨l, ls, hl, hne⟩ := operators_head _ ho
      rw [Format.wholeNamePieces_operator ho, hl]
      exact noReceiver_of_head fun h => hne (by simp [h])
    · rw [hs, Format.wholeNamePieces_identifier hb he]
      -- Behind `self` itself stands a sign that is no dot, or what follows the name.
      simp only [List.mem_cons, List.not_mem_nil, or_false] at he
      have hdot : (x.head? == some (.mark .dot)) = false := beq_false_of_ne hx.1
      have hquestion : (x.head? == some (.mark .question)) = false := beq_false_of_ne hx.2
      rw [List.head?_eq_getElem?] at hdot hquestion
      rcases he with rfl | rfl | rfl | rfl
      · exact ⟨by simp [Format.signPieces, hdot], by simp [Format.signPieces, hquestion]⟩
      · exact ⟨by simp [Format.signPieces, Format.signPiece, Mark.at?],
          by simp [Format.signPieces, Format.signPiece, Mark.at?, hdot]⟩
      · exact ⟨by simp [Format.signPieces, Format.signPiece, Mark.at?],
          by simp [Format.signPieces, Format.signPiece, Mark.at?]⟩
      · exact ⟨by simp [Format.signPieces, Format.signPiece, Mark.at?],
          by simp [Format.signPieces, Format.signPiece, Mark.at?]⟩

/-- The first token of a method name is no dot and no question mark. -/
theorem methodName_head (name : String) (quoteReserved : Bool) :
    ∃ l ls, lexemesOf (wordsOf (methodNamePieces name quoteReserved)) = l :: ls ∧
      l ≠ .mark .dot ∧ l ≠ .mark .question := by
  unfold methodNamePieces
  split
  case isTrue => exact ⟨_, _, rfl, by simp, by simp⟩
  case isFalse hq =>
    have hw : MethodName.isWhole name.toList = true := by
      simp only [Format.isQuotedMethod, Bool.or_eq_true, Bool.not_eq_true', not_or,
        Bool.not_eq_false] at hq
      exact hq.2
    rcases Format.isWhole_cases hw with ho | ⟨base, ending, hs, hb, he⟩
    · obtain ⟨l, ls, hl, hne⟩ := operators_head _ ho
      rw [Format.wholeNamePieces_operator ho]
      exact ⟨l, ls, hl, fun h => hne (by simp [h]), fun h => hne (by simp [h])⟩
    · rw [hs, Format.wholeNamePieces_identifier hb he]
      exact ⟨_, _, rfl, Lexeme.not_mark_of_name (name?_nameLexeme base) _,
        Lexeme.not_mark_of_name (name?_nameLexeme base) _⟩

def MemberRereads (f g : Showing) (member a : Member) : Prop :=
  (a.rewrite (.erasing f)).bare = ((member.rewrite .rereading).rewrite (.erasing g)).bare

def methodBody (fuel : Nat) (scope : List String) (visibility : Option Visibility)
    (level : MethodLevel) (name : String) : Parser Member := do
  expect (.mark .colon) (.colonOfMethod name)
  let (os, overloading) ← overloads fuel scope fuel
  return .method name os level overloading visibility

theorem methodDefinition_eq (fuel : Nat) (scope : List String) (visibility : Option Visibility) :
    methodDefinition fuel scope visibility = (do
      let level ← methodLevel
      let name ← methodName
      methodBody fuel scope visibility level name) := rfl

/-- What is known of the signatures of a method that is going to be read. -/
structure EntriesReady (d : Format.Context) (scope : List String) (fuel : Nat) (os : List Overload)
    (overloading : Bool) : Prop where
  formed : ∀ o ∈ os, o.method.Formed scope d.source
  fuel : 4 * (entryWords d os overloading).length + 4 ≤ fuel
  nonempty : os ≠ [] ∨ overloading = true

theorem EntriesReady.bounds {fuel : Nat} {os : List Overload} {overloading : Bool}
    (h : EntriesReady d scope fuel os overloading) :
    (∀ o ∈ os, 4 * (overloadWords d o).length ≤ fuel) ∧ os.length + 1 ≤ fuel := by
  have hfuel := h.fuel
  rw [entryWords_eq] at hfuel
  have hcount := count_le_intercalate (.mark .pipe, Mark.pipe.text.toList)
    (os.map (overloadWords d) ++
    if overloading then [[((.mark .ellipsis : Lexeme), Mark.ellipsis.text.toList)]] else [])
  rw [List.length_append, List.length_map] at hcount
  refine ⟨fun o ho => ?_, by omega⟩
  have hmem := length_le_intercalate [(.mark .pipe, Mark.pipe.text.toList)]
    (List.mem_append_left (if overloading then
      [[((.mark .ellipsis : Lexeme), Mark.ellipsis.text.toList)]] else [])
      (List.mem_map_of_mem (f := overloadWords d) ho))
  omega

theorem reads_methodBody (hk : Keeps c d f g) {fuel : Nat} {os : List Overload} {overloading : Bool}
    (h : EntriesReady d scope fuel os overloading) (visibility : Option Visibility)
    (level : MethodLevel) (name : String) :
    Reads c (methodBody fuel scope visibility level name)
      ((.mark .colon, Mark.colon.text.toList) :: entryWords d os overloading)
      (Bound 3 (entryWords d os overloading))
      (MemberRereads f g (.method name os level overloading visibility)) := by
  unfold methodBody
  refine .expect_bind ?_
  refine (reads_overloads hk h.formed h.bounds.1 fuel h.bounds.2 h.nonempty).last (fun r hr => ?_)
    fun x hx => hx
  obtain ⟨as, dots⟩ := r
  obtain ⟨has, rfl⟩ := hr
  refine .pure ?_
  have hentries : (as.map (Overload.rewrite (.erasing f))).map Overload.bare =
      ((os.map (Overload.rewrite .rereading)).map (Overload.rewrite (.erasing g))).map
        Overload.bare := by
    rw [List.map_map, List.map_map, List.map_map]
    exact map_rereads (fun o a ha => ha) has
  simp only [MemberRereads, Member.rewrite, Member.bare, hentries]

def definitionPieces (d : Format.Context) (name : String) (os : List Overload) (level : MethodLevel)
    (overloading : Bool) : List Piece :=
  methodReceiverPieces level ++ (methodNamePieces name true ++ (mark .colon :: .gap .blank ::
    entriesPieces (methodEntryPieces d os overloading)))

theorem takes_methodDefinition (hk : Keeps c d f g) {fuel : Nat} {os : List Overload}
    {overloading : Bool} (h : EntriesReady d scope fuel os overloading)
    (visibility : Option Visibility) (level : MethodLevel) (name : String) :
    Takes c (methodDefinition fuel scope visibility) (definitionPieces d name os level overloading)
      (fun x => Bound 3 (entryWords d os overloading) (lexemesOf (wordsOf x)))
      (MemberRereads f g (.method name os level overloading visibility)) := by
  rw [methodDefinition_eq]
  refine (reads_methodLevel level).takes.bind (fun l hl => ?_) fun x _ => ?_
  · rw [hl]
    refine (takes_methodName name true).bind (fun s hs => ?_) fun x _ => ⟨_, _, rfl, .inl rfl⟩
    rw [hs]
    have hbody : Reads c (methodBody fuel scope visibility level name) (wordsOf (mark .colon ::
        .gap .blank :: entriesPieces (methodEntryPieces d os overloading)))
        (Bound 3 (entryWords d os overloading))
        (MemberRereads f g (.method name os level overloading visibility)) :=
      reads_methodBody hk h visibility level name
    exact hbody.takes
  · rw [List.append_assoc, wordsOf_append, lexemesOf_append]
    exact name_noReceiver name true ⟨by simp, by simp⟩

theorem memberPieces_method (d : Format.Context) (name : String) (os : List Overload)
    (level : MethodLevel) (overloading : Bool) (visibility : Option Visibility) :
    memberPieces d (.method name os level overloading visibility) =
      Format.visibilityPieces visibility ++ keyword .def_ :: .gap .blank ::
        definitionPieces d name os level overloading := by
  simp [memberPieces, headingPieces, definitionPieces]

theorem takes_method (hk : Keeps c d f g) {fuel : Nat} {os : List Overload}
    {overloading : Bool} (h : EntriesReady d scope fuel os overloading)
    (visibility : Option Visibility) (level : MethodLevel) (name : String) (nested : Bool) :
    Takes c (member nested fuel scope)
      (memberPieces d (.method name os level overloading visibility))
      (fun x => Bound 3 (entryWords d os overloading) (lexemesOf (wordsOf x)))
      (MemberRereads f g (.method name os level overloading visibility)) := by
  rw [memberPieces_method]
  unfold member
  refine (takes_visibility visibility).bind (fun v hv => ?_) fun x _ => ⟨_, _, rfl, rfl⟩
  rw [hv]
  refine .peek_bind (l := some (.keyword .def_)) (fun x _ => rfl) ?_
  exact .word_bind (takes_methodDefinition hk h visibility level name).gap

end RubySig.Grammar
