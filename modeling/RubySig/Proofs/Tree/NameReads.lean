import RubySig.Proofs.Token.Sound
import RubySig.Proofs.Tree.Plain
import RubySig.Proofs.Tree.Reads

/-! Printed names are read back, and what may follow a type where its reader stops. -/
namespace RubySig.Grammar

open Format (wordsOf tyPieces namePieces)
open Format.Piece (mark keyword named)

@[simp] theorem wordsOf_nil : wordsOf [] = [] := rfl

@[simp] theorem wordsOf_word (l : Lexeme) (w : List Char) (ps : List Format.Piece) :
    wordsOf (.word l w :: ps) = (l, w) :: wordsOf ps := rfl

@[simp] theorem wordsOf_gap (g : Format.Gap) (ps : List Format.Piece) :
    wordsOf (.gap g :: ps) = wordsOf ps := rfl

@[simp] theorem wordsOf_mark (m : Mark) (ps : List Format.Piece) :
    wordsOf (mark m :: ps) = (.mark m, m.text.toList) :: wordsOf ps := rfl

@[simp] theorem wordsOf_keyword (k : Keyword) (ps : List Format.Piece) :
    wordsOf (keyword k :: ps) = (.keyword k, k.text.toList) :: wordsOf ps := rfl

@[simp] theorem wordsOf_named (s : String) (ps : List Format.Piece) :
    wordsOf (named s :: ps) = (Lexer.nameLexeme s.toList, s.toList) :: wordsOf ps := rfl

@[simp] theorem wordsOf_append (ps qs : List Format.Piece) :
    wordsOf (ps ++ qs) = wordsOf ps ++ wordsOf qs := by
  induction ps with
  | nil => rfl
  | cons p ps ih => cases p <;> simp [wordsOf, ih]

theorem wordsOf_intercalate (sep : List Format.Piece) (pss : List (List Format.Piece)) :
    wordsOf (sep.intercalate pss) = (wordsOf sep).intercalate (pss.map wordsOf) := by
  induction pss with
  | nil => rfl
  | cons ps pss ih =>
    cases pss with
    | nil => simp
    | cons qs pss =>
      rw [List.intercalate_cons_cons, wordsOf_append, wordsOf_append, ih]
      simp [List.intercalate_cons_cons]

variable {c : Context}

/-- The words of the segments in front of the last one. -/
def pathWords (path : List String) : List Word :=
  path.flatMap fun s =>
    [(.constant s, s.toList), (.mark .doubleColon, Mark.doubleColon.text.toList)]

theorem length_pathWords (path : List String) : (pathWords path).length = 2 * path.length := by
  induction path with
  | nil => rfl
  | cons s path ih =>
    rw [pathWords, List.flatMap_cons, List.length_append]
    change 2 + (pathWords path).length = _
    rw [ih, List.length_cons]
    omega

theorem wordsOf_name {n : TypeName} {last : String → Lexeme} (h : n.Formed last)
    (hl : ∀ s, last s = .constant s ∨ last s = .interfaceName s ∨ last s = .identifier s) :
    wordsOf (namePieces n) =
      (if n.absolute then [(.mark .doubleColon, Mark.doubleColon.text.toList)]
      else []) ++ (pathWords n.path ++ [(last n.name, n.name.toList)]) := by
  have hpath : wordsOf (n.path.flatMap fun s => [named s, mark .doubleColon]) =
      pathWords n.path := by
    have hsegment := h.path
    generalize n.path = path at hsegment
    induction path with
    | nil => rfl
    | cons s path ih =>
      have hs := ((hsegment s (List.mem_cons_self ..)).name (.inl rfl)).2
      rw [List.flatMap_cons, wordsOf_append, ih fun t ht => hsegment t (List.mem_cons_of_mem _ ht)]
      simp [pathWords, hs]
  rw [namePieces, wordsOf_append, wordsOf_append, hpath, List.append_assoc]
  simp only [wordsOf_named, wordsOf_nil, (h.name.name (hl n.name)).2]
  split <;> rfl

/-- What may not follow a name: a `::` behind a constant. -/
def NameStops (l : Lexeme) (x : List Lexeme) : Prop :=
  (∃ s, l = .constant s) → x.head? ≠ some (.mark .doubleColon)

theorem pathOf_words {text : List Char} {path : List String} {w : Word} {toks rest : List Token}
    (h : List.Forall₂ (Token.At text) toks (pathWords path ++ [w]))
    (hn : NameStops w.1 (rest.map (·.lexeme))) : pathOf (toks ++ rest) = path := by
  induction path generalizing toks with
  | nil =>
    cases h with
    | @cons t _ _ _ ht h =>
      cases h
      obtain ⟨l, start, stop⟩ := t
      obtain rfl : l = w.1 := ht.lexeme
      rw [List.singleton_append]
      unfold pathOf
      split
      case _ name _ _ _ _ rest' heq =>
        simp only [List.cons.injEq, Token.mk.injEq] at heq
        obtain ⟨⟨hw, -⟩, hrest⟩ := heq
        refine absurd ?_ (hn ⟨name, hw⟩)
        rw [hrest]
        rfl
      case _ => rfl
  | cons s path ih =>
    cases h with
    | @cons t _ _ _ ht h =>
      cases h with
      | @cons u _ toks _ hu h =>
        obtain ⟨l, start, stop⟩ := t
        obtain ⟨k, start', stop'⟩ := u
        obtain rfl : l = .constant s := ht.lexeme
        obtain rfl : k = .mark .doubleColon := hu.lexeme
        have := ih h
        simp only [List.cons_append, pathOf, this]

def nameBehind (segment : Segment) (role : Role) (start : Position) (absolute : Bool)
    (ts : List Token) : Parser TypeName := do
  advance (2 * (pathOf ts).length)
  match (← peek).bind segment.name? with
  | none => failMissing (.name role)
  | some name =>
    advance 1
    return ⟨← spanFrom start, name, pathOf ts, absolute⟩

theorem reads_typeName {n : TypeName} {last : String → Lexeme} (h : n.Formed last)
    (hl : ∀ s, last s = .constant s ∨ last s = .interfaceName s ∨ last s = .identifier s)
    {segment : Segment} (hseg : ∀ s, segment.name? (last s) = some s) (role : Role) :
    Reads c (typeName segment role) (wordsOf (namePieces n)) (NameStops (last n.name))
      (fun a => a.erase = n.erase) := by
  have behind (start : Position) : Reads c
      (get >>= fun s => nameBehind segment role start n.absolute s.tokens)
      (pathWords n.path ++ [(last n.name, n.name.toList)]) (NameStops (last n.name))
      (fun a => a.erase = n.erase) := by
    refine .get_bind (fun ts => pathOf ts = n.path) (fun toks rest ht hr => pathOf_words ht hr) ?_
    intro ts hts
    rw [nameBehind, hts]
    refine .advance_bind (length_pathWords n.path) ?_
    refine .peek_bind (l := some (last n.name)) (fun x _ => rfl) ?_
    simp only [Option.bind_some, hseg]
    exact .advance_one (.span_bind fun l => .pure rfl)
  rw [wordsOf_name h hl]
  unfold typeName
  refine .here_bind fun start => ?_
  have hbehind := behind start
  cases hb : n.absolute with
  | true =>
    rw [hb] at hbehind
    exact .eat_bind hbehind
  | false =>
    rw [hb] at hbehind
    refine .eat_miss (fun x _ => ?_) hbehind
    cases hp : n.path with
    | nil =>
      simp only [Bool.false_eq_true, if_false, pathWords, List.flatMap_nil, List.nil_append]
      rcases hl n.name with h | h | h <;> simp [h]
    | cons s path => simp [pathWords]

/-- Where the reader of a type stops: unions are read on level 3, intersections on level 2, optional
types on level 1 and the rest on level 0. -/
structure Bound (level : Nat) (ws : List Word) (x : List Lexeme) : Prop where
  bracket : x.head? ≠ some (.mark .lbracket)
  name : ∀ w ∈ ws.getLast?, NameStops w.1 x
  question : 1 ≤ level → x.head? ≠ some (.mark .question)
  ampersand : 2 ≤ level → x.head? ≠ some (.mark .ampersand)
  pipe : 3 ≤ level → x.head? ≠ some (.mark .pipe)

theorem Bound.mono {level low : Nat} {ws : List Word} {x : List Lexeme} (h : Bound level ws x)
    (hl : low ≤ level) : Bound low ws x :=
  ⟨h.bracket, h.name, fun k => h.question (by omega), fun k => h.ampersand (by omega),
    fun k => h.pipe (by omega)⟩

theorem Bound.of_last {level : Nat} {ws vs : List Word} {x : List Lexeme}
    (h : Bound level (ws ++ vs) x) (hv : vs ≠ []) : Bound level vs x where
  bracket := h.bracket
  name w hw := h.name w (by
    rw [List.getLast?_append]
    obtain ⟨v, hv⟩ : ∃ v, vs.getLast? = some v := ⟨_, List.getLast?_eq_some_getLast hv⟩
    rw [hv] at hw ⊢
    exact hw)
  question := h.question
  ampersand := h.ampersand
  pipe := h.pipe

/-- The marks that a type may go on with. -/
def continuers : List Mark := [.lbracket, .doubleColon, .question, .ampersand, .pipe]

theorem bound_of_head {l : Lexeme} (hl : ∀ m ∈ continuers, l ≠ .mark m) (level : Nat)
    (ws : List Word) (x : List Lexeme) : Bound level ws (l :: x) := by
  have key (m : Mark) (hm : m ∈ continuers) : (l :: x).head? ≠ some (.mark m) := by
    simpa using hl m hm
  exact ⟨key _ (by decide), fun _ _ _ => key _ (by decide), fun _ => key _ (by decide),
    fun _ => key _ (by decide), fun _ => key _ (by decide)⟩

theorem bound_mark {m : Mark} (hm : m ∉ continuers) (level : Nat) (ws : List Word)
    (x : List Lexeme) : Bound level ws (.mark m :: x) :=
  bound_of_head (by rintro k hk ⟨⟩; exact hm hk) level ws x

theorem bound_pipe (ws : List Word) (x : List Lexeme) : Bound 2 ws (.mark .pipe :: x) :=
  ⟨by simp, fun _ _ _ => by simp, fun _ => by simp, fun _ => by simp, fun h => by omega⟩

theorem bound_ampersand (ws : List Word) (x : List Lexeme) : Bound 1 ws (.mark .ampersand :: x) :=
  ⟨by simp, fun _ _ _ => by simp, fun _ => by simp, fun h => by omega, fun h => by omega⟩

theorem bound_question (ws : List Word) (x : List Lexeme) : Bound 0 ws (.mark .question :: x) :=
  ⟨by simp, fun _ _ _ => by simp, fun h => by omega, fun h => by omega, fun h => by omega⟩

def startsType : Lexeme → Bool
  | .integer _ | .string _ | .symbol _ | .identifier _ | .constant _ | .interfaceName _
  | .keyword _ => true
  | .mark m => [Mark.lparen, .lbracket, .lbrace, .caret, .doubleColon].contains m
  | _ => false

/-- The tokens of a type: no colon stands behind a name at their start. -/
def TypeLike (ls : List Lexeme) : Prop :=
  ∃ l rest, ls = l :: rest ∧ startsType l = true ∧
    (l.name?.isSome = true → rest.head? ≠ some (.mark .colon))

theorem TypeLike.append {ls : List Lexeme} (h : TypeLike ls) {x : List Lexeme}
    (hx : x.head? ≠ some (.mark .colon)) : TypeLike (ls ++ x) := by
  obtain ⟨l, rest, rfl, hl, hn⟩ := h
  refine ⟨l, rest ++ x, rfl, hl, fun hs => ?_⟩
  cases rest with
  | nil => exact hx
  | cons r rest => exact hn hs

theorem startsType_nameLexeme (w : List Char) : startsType (Lexer.nameLexeme w) = true := by
  unfold Lexer.nameLexeme
  simp only
  split
  · rfl
  · split
    · split <;> rfl
    · split <;> rfl
    · rfl

end RubySig.Grammar
