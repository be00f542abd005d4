import RubySig.Proofs.Format.ItemShow
import RubySig.Proofs.Format.MethodNeat
import RubySig.Proofs.Tree.TextReads

/-!
Printed method names and visibilities are read back. Both readers look at places: a name is taken
from the text, and the tokens that it covers are left out; a visibility must stand on the line of
its method.
-/
namespace RubySig

open Format (Piece Realizes wordsOf methodNamePieces wholeNamePieces signPieces visibilityPieces)
open Format.Piece (mark keyword)
open Lexer (Chunk Reader scanOf)

/-- What stands right behind a printed method name. -/
def MethodName.stops : List Char := [':', ' ', '\n']

theorem MethodName.at_operator {stop : Char} (hs : stop ∈ MethodName.stops) (rest : List Char) :
    ∀ cs ∈ MethodName.operators, MethodName.at? (cs ++ stop :: rest) = some cs := by
  intro cs h
  simp only [MethodName.stops, List.mem_cons, List.not_mem_nil, or_false] at hs
  simp only [MethodName.operators, List.mem_cons, List.not_mem_nil, or_false] at h
  rcases hs with rfl | rfl | rfl
  all_goals
    rcases h with rfl | rfl | rfl | rfl | rfl | rfl | rfl | rfl | rfl | rfl | rfl | rfl | rfl |
      rfl | rfl | rfl | rfl | rfl | rfl | rfl | rfl | rfl | rfl | rfl | rfl | rfl | rfl | rfl |
      rfl <;> rfl

theorem MethodName.not_part_of_stops : ∀ c ∈ MethodName.stops, MethodName.isPart c = false := by
  decide

theorem MethodName.ending_stops {stop : Char} (hs : stop ∈ MethodName.stops) {ending : List Char}
    (he : ending ∈ [[], ['?'], ['!'], ['=']]) (rest : List Char) :
    MethodName.ending (ending ++ stop :: rest) = ending := by
  simp only [MethodName.stops, List.mem_cons, List.not_mem_nil, or_false] at hs
  simp only [List.mem_cons, List.not_mem_nil, or_false] at he
  rcases hs with rfl | rfl | rfl <;> rcases he with rfl | rfl | rfl | rfl <;> rfl

theorem MethodName.at_identifier {base ending : List Char}
    (hb : MethodName.isIdentifier base = true) (he : ending ∈ [[], ['?'], ['!'], ['=']])
    {stop : Char} (hs : stop ∈ MethodName.stops) (rest : List Char) :
    MethodName.at? (base ++ ending ++ stop :: rest) = some (base ++ ending) := by
  cases base with
  | nil => cases hb
  | cons c cs =>
    have hpart : ∀ d ∈ cs, MethodName.isPart d = true := fun d hd =>
      Format.isPart_of_isIdentifier hb d (List.mem_cons_of_mem _ hd)
    have hhead : ∀ d ∈ (ending ++ stop :: rest).head?, MethodName.isPart d = false := by
      intro d hd
      cases ending with
      | nil =>
        cases hd
        exact MethodName.not_part_of_stops _ hs
      | cons e es => exact Format.ending_head he d hd
    obtain ⟨h₁, h₂⟩ := Format.takeWhile_append hpart hhead
    rw [MethodName.isIdentifier, Bool.and_eq_true] at hb
    rw [List.append_assoc, List.cons_append, MethodName.at?, if_pos hb.1, h₁, h₂,
      MethodName.ending_stops hs he]

theorem MethodName.at_whole {cs : List Char} (h : MethodName.isWhole cs = true) {stop : Char}
    (hs : stop ∈ MethodName.stops) (rest : List Char) :
    MethodName.at? (cs ++ stop :: rest) = some cs := by
  rcases Format.isWhole_cases h with ho | ⟨base, ending, rfl, hb, he⟩
  · exact MethodName.at_operator hs rest cs ho
  · exact MethodName.at_identifier hb he hs rest

/-- Pieces that can stand behind a method name: a colon, a blank or the end of the line. -/
def StopsName (x : List Piece) : Prop :=
  ∃ p y, x = p :: y ∧ (p = mark .colon ∨ p = .gap .blank ∨ p = .gap .line)

theorem StopsName.stops {x : List Piece} (h : StopsName x) {cs : List Chunk} (hc : Realizes x cs) :
    ∃ stop rest, Chunk.textOf cs = stop :: rest ∧ stop ∈ MethodName.stops := by
  obtain ⟨p, y, rfl, rfl | rfl | rfl⟩ := h
  · cases hc with
    | word _ => exact ⟨':', _, rfl, by decide⟩
  · cases hc with
    | @gap _ s _ cs hg _ =>
      rcases hg with rfl | ⟨rfl, hn⟩
      · exact ⟨' ', _, rfl, by decide⟩
      · obtain ⟨rest, hrest⟩ := List.head?_eq_some_iff.mp hn
        exact ⟨'\n', rest, hrest, by decide⟩
  · cases hc with
    | @gap _ s _ cs hg _ =>
      obtain ⟨n, rfl⟩ := hg
      exact ⟨'\n', _, rfl, by decide⟩

def piecesOf (ws : List Word) : List Piece := ws.map fun w => .word w.1 w.2

def chunksOf (ws : List Word) : List Chunk := ws.map fun w => .token w.1 w.2

theorem realizes_pieces {ws : List Word} {ps : List Piece} {cs : List Chunk}
    (h : Realizes (piecesOf ws ++ ps) cs) : ∃ ds, cs = chunksOf ws ++ ds ∧ Realizes ps ds := by
  induction ws generalizing cs with
  | nil => exact ⟨cs, rfl, h⟩
  | cons w ws ih =>
    cases h with
    | word h =>
      obtain ⟨ds, rfl, hd⟩ := ih h
      exact ⟨ds, rfl, hd⟩

theorem textOf_chunks (ws : List Word) : Chunk.textOf (chunksOf ws) = ws.flatMap (·.2) := by
  induction ws with
  | nil => rfl
  | cons w ws ih =>
    change w.2 ++ Chunk.textOf (chunksOf ws) = _
    rw [ih, List.flatMap_cons]

/-- The first token of chunks does not start before the place where they stand. -/
theorem scanOf_starts (cs : List Chunk) (r : Reader) :
    ∀ t ∈ (scanOf r cs).tokens.head?,
      r.position.offset ≤ t.start.offset ∧ r.position.line ≤ t.start.line := by
  induction cs generalizing r with
  | nil => simp [scanOf]
  | cons chunk cs ih =>
    have hbehind (w : List Char) : ∀ t ∈ (scanOf (r.pass w (Chunk.textOf cs)) cs).tokens.head?,
        r.position.offset ≤ t.start.offset ∧ r.position.line ≤ t.start.line := by
      intro t ht
      have := ih (r.pass w (Chunk.textOf cs)) t ht
      rw [Reader.position_pass, Position.offset_after, Position.line_after] at this
      omega
    cases chunk with
    | token l w =>
      rintro t ⟨⟩
      exact ⟨Nat.le_refl _, Nat.le_refl _⟩
    | white s => exact hbehind s
    | comment line => exact hbehind ('#' :: line)

/-- The tokens that start inside the words at the start of a text are the tokens of the words. -/
theorem covered_tokens {ws : List Word} (hw : ∀ w ∈ ws, w.2 ≠ []) (cs : List Chunk) {r : Reader}
    {stop : Nat} (hs : stop = r.position.offset + (ws.flatMap (·.2)).length) :
    ((scanOf r (chunksOf ws ++ cs)).tokens.takeWhile (·.start.offset < stop)).length =
      ws.length := by
  induction ws generalizing r with
  | nil =>
    have hstarts := scanOf_starts cs r
    change ((scanOf r cs).tokens.takeWhile (·.start.offset < stop)).length = 0
    cases hts : (scanOf r cs).tokens with
    | nil => rfl
    | cons t ts =>
      rw [hts] at hstarts
      have ht : ¬ t.start.offset < stop := by simpa [hs] using (hstarts t rfl).1
      rw [List.takeWhile_cons_of_neg (by simpa using ht), List.length_nil]
  | cons w ws ih =>
    have hpos := List.length_pos_iff.mpr (hw w (List.mem_cons_self ..))
    have hlen : ((w :: ws).flatMap (·.2)).length = w.2.length + (ws.flatMap (·.2)).length := by simp
    have hstart : r.position.offset < stop := by omega
    have hrest := ih (fun u hu => hw u (List.mem_cons_of_mem _ hu))
      (r := r.pass w.2 (Chunk.textOf (chunksOf ws ++ cs)))
      (by rw [Reader.position_pass, Position.offset_after]; omega)
    have hcons : ∃ stop', (scanOf r (chunksOf (w :: ws) ++ cs)).tokens =
        ⟨w.1, r.position, stop'⟩ :: (scanOf (r.pass w.2 (Chunk.textOf (chunksOf ws ++ cs)))
          (chunksOf ws ++ cs)).tokens := ⟨_, rfl⟩
    obtain ⟨stop', hcons⟩ := hcons
    rw [hcons, List.takeWhile_cons_of_pos (by simpa using hstart), List.length_cons, hrest,
      List.length_cons]

structure Unquoted (w : Word) : Prop where
  nonempty : w.2 ≠ []
  lexeme : ∀ s, w.1 ≠ .quotedIdentifier s

theorem signPiece_word (c : Char) : ∃ w, Format.signPiece c = .word w.1 w.2 ∧ Unquoted w := by
  unfold Format.signPiece
  cases h : Mark.at? [c] with
  | none => exact ⟨(.operator c, [c]), rfl, by simp, by simp⟩
  | some m =>
    refine ⟨(.mark m, m.text.toList), rfl, ?_, by simp⟩
    rw [Format.mark_at_single h]
    simp

theorem signPieces_words (cs : List Char) :
    ∃ ws, signPieces cs = piecesOf ws ∧ ∀ w ∈ ws, Unquoted w := by
  fun_induction signPieces cs with
  | case1 => exact ⟨[], rfl, by simp⟩
  | case2 cs ih =>
    obtain ⟨ws, hs, hw⟩ := ih
    exact ⟨(.mark .doubleStar, Mark.doubleStar.text.toList) :: ws, by rw [hs]; rfl,
      List.forall_mem_cons.mpr ⟨⟨by decide, by simp⟩, hw⟩⟩
  | case3 cs ih =>
    obtain ⟨ws, hs, hw⟩ := ih
    exact ⟨(.mark .fatArrow, Mark.fatArrow.text.toList) :: ws, by rw [hs]; rfl,
      List.forall_mem_cons.mpr ⟨⟨by decide, by simp⟩, hw⟩⟩
  | case4 c cs _ _ ih =>
    obtain ⟨ws, hs, hw⟩ := ih
    obtain ⟨w, hp, hu⟩ := signPiece_word c
    exact ⟨w :: ws, by rw [hs, hp]; rfl, List.forall_mem_cons.mpr ⟨hu, hw⟩⟩

theorem not_quoted_nameLexeme (w : List Char) (s : String) :
    Lexer.nameLexeme w ≠ .quotedIdentifier s := by
  unfold Lexer.nameLexeme
  simp only
  split
  · simp
  · split
    · split <;> simp
    · split <;> simp
    · simp

theorem wholeNamePieces_words (cs : List Char) :
    ∃ ws, wholeNamePieces cs = piecesOf ws ∧ (∀ w ∈ ws, Unquoted w) ∧ ws.flatMap (·.2) = cs := by
  obtain ⟨ws, hs, hw⟩ := signPieces_words (cs.dropWhile MethodName.isPart)
  have hink (ws : List Word) : (piecesOf ws).flatMap Piece.ink = ws.flatMap (·.2) := by
    rw [piecesOf, List.flatMap_map]
    rfl
  have hall := (Format.inked_wholeName cs).2
  unfold wholeNamePieces at hall ⊢
  rw [hs] at hall ⊢
  dsimp only at hall ⊢
  split at hall
  case isTrue he =>
    rw [if_pos he]
    refine ⟨ws, rfl, hw, ?_⟩
    rw [← hink]
    exact hall
  case isFalse he =>
    rw [if_neg he]
    have hne : cs.takeWhile MethodName.isPart ≠ [] := fun h => he (List.isEmpty_iff.mpr h)
    refine ⟨(Lexer.nameLexeme (cs.takeWhile MethodName.isPart), cs.takeWhile MethodName.isPart) ::
      ws,
      rfl, List.forall_mem_cons.mpr ⟨⟨hne, not_quoted_nameLexeme _⟩, hw⟩, ?_⟩
    rw [← hink]
    exact hall

namespace Grammar

variable {c : Context}

/-- Passes over the tokens of a name that was found in the text. -/
def methodNameFrom (offset : Nat) : (found : Option (List Char)) → Parser String
  | none => failMissing .methodName
  | some name => do
    advance ((← get).tokens.takeWhile (·.start.offset < offset + name.length)).length
    return String.ofList name

/-- A name that is read from the text passes over the tokens that start inside it. -/
theorem methodName_run {t : Token} {rest : List Token} (last : Option Token)
    (blocks : List CommentBlock) {found : List Char} (hq : ∀ s, t.lexeme ≠ .quotedIdentifier s)
    (hf : MethodName.at? (c.text.drop t.start.offset) = some found) {k : Nat}
    (hk : ((t :: rest).takeWhile (·.start.offset < t.start.offset + found.length)).length = k) :
    ∃ last', methodName c ⟨t :: rest, last, blocks⟩ =
      .ok (String.ofList found, ⟨(t :: rest).drop k, last', blocks⟩) := by
  obtain ⟨l, start, stop⟩ := t
  have hrun : methodName c ⟨⟨l, start, stop⟩ :: rest, last, blocks⟩ =
      methodNameFrom start.offset (MethodName.at? (c.text.drop start.offset)) c
        ⟨⟨l, start, stop⟩ :: rest, last, blocks⟩ := by
    cases l with
    | quotedIdentifier s => exact absurd rfl (hq s)
    | _ => rfl
  rw [hrun, hf]
  subst hk
  exact ⟨_, rfl⟩

theorem takes_quoted (name : String) (w : List Char) {next : List Piece → Prop} :
    Takes c methodName [.word (.quotedIdentifier name) w] next (· = name) := by
  intro qs toks last blocks _ hs
  obtain ⟨⟨l, start, stop⟩, rest, rfl, ht, hrest⟩ := Stands.word hs
  obtain rfl : l = .quotedIdentifier name := ht.lexeme
  exact ⟨name, rest, _, blocks, rfl, hrest, rfl⟩

/-- A method name is read back, whether or not reserved words are quoted. -/
theorem takes_methodName (name : String) (quoteReserved : Bool) :
    Takes c methodName (methodNamePieces name quoteReserved) StopsName (· = name) := by
  unfold methodNamePieces
  split
  case isTrue => exact takes_quoted name _
  case isFalse hq =>
    have hw : MethodName.isWhole name.toList = true := by
      simp only [Format.isQuotedMethod, Bool.or_eq_true, Bool.not_eq_true', not_or,
        Bool.not_eq_false] at hq
      exact hq.2
    obtain ⟨ws, hpieces, hwords, htext⟩ := wholeNamePieces_words name.toList
    rw [hpieces]
    intro x toks last blocks hx hs
    obtain ⟨xs, ys, hsplit, hxs, hys⟩ := hs.split
    have hlen : xs.length = ws.length := by
      rw [hxs.length_eq]
      clear hs hsplit hxs hpieces htext hwords
      induction ws with
      | nil => rfl
      | cons w ws ih => exact congrArg Nat.succ ih
    obtain ⟨front, cs, r, hc, ht, hr, rfl⟩ := hs
    obtain ⟨ds, rfl, hd⟩ := realizes_pieces hc
    obtain ⟨stop, rest, hstop, hstops⟩ := hx.stops hd
    cases ws with
    | nil =>
      rw [← htext] at hw
      exact absurd hw (by decide)
    | cons w ws =>
      have hcovered := covered_tokens (r := r) (fun u hu => (hwords u hu).nonempty) ds rfl
      rw [htext] at hcovered
      have hoffset : r.position.offset = front.length := by
        rw [hr, Position.offset_after]
        exact Nat.zero_add _
      have hat : MethodName.at? (c.text.drop r.position.offset) = some name.toList := by
        rw [ht, hoffset, List.drop_left, Chunk.textOf_append, textOf_chunks, htext, hstop]
        exact MethodName.at_whole hw hstops rest
      obtain ⟨last', hrun⟩ := methodName_run (t := ⟨w.1, r.position, _⟩) last blocks
        (hwords w (List.mem_cons_self ..)).lexeme hat hcovered
      refine ⟨_, _, last', blocks, hrun, ?_, String.ofList_toList⟩
      have hdrop : ((scanOf r (chunksOf (w :: ws) ++ ds)).tokens).drop (w :: ws).length = ys := by
        rw [hsplit, ← hlen, List.drop_left]
      exact hdrop ▸ hys

/-- Keywords that a visibility can stand in front of. -/
def takesVisibility (l : Lexeme) : Bool := l == .keyword .def_ || (access? l).isSome

/-- Takes the visibility that a keyword stands for, if it marks what follows it. -/
def visibilityOf : (k : Keyword) → (marks : Bool) → Parser (Option Visibility)
  | .public_, true => do
    advance 1
    return some .public_
  | .private_, true => do
    advance 1
    return some .private_
  | _, _ => return none

theorem visibilityMark_eq {t u : Token} {rest : List Token} {last : Option Token}
    {blocks : List CommentBlock} {k : Keyword} (ht : t.lexeme = .keyword k) :
    visibilityMark c ⟨t :: u :: rest, last, blocks⟩ =
      visibilityOf k (u.start.line == t.start.line && takesVisibility u.lexeme) c
        ⟨t :: u :: rest, last, blocks⟩ := by
  obtain ⟨l, start, stop⟩ := t
  obtain rfl : l = .keyword k := ht
  rfl

/-- A visibility in front of a method or attribute is read when no line ends between the two. -/
theorem visibilityMark_run (v : Visibility) {t u : Token} {rest : List Token} {last : Option Token}
    {blocks : List CommentBlock} (ht : t.lexeme = .keyword v.keyword)
    (hu : takesVisibility u.lexeme = true) (hline : u.start.line = t.start.line) :
    visibilityMark c ⟨t :: u :: rest, last, blocks⟩ =
      .ok (some v, ⟨u :: rest, some t, blocks⟩) := by
  rw [visibilityMark_eq ht, hu, hline, beq_self_eq_true]
  cases v <;> rfl

theorem visibilityMark_alone (v : Visibility) {t : Token} {rest : List Token} {last : Option Token}
    {blocks : List CommentBlock} (ht : t.lexeme = .keyword v.keyword)
    (hline : ∀ u ∈ rest.head?, t.start.line < u.start.line) :
    visibilityMark c ⟨t :: rest, last, blocks⟩ = .ok (none, ⟨t :: rest, last, blocks⟩) := by
  cases rest with
  | nil =>
    obtain ⟨l, start, stop⟩ := t
    obtain rfl : l = .keyword v.keyword := ht
    rfl
  | cons u rest =>
    have hne : (u.start.line == t.start.line) = false :=
      beq_false_of_ne (Nat.ne_of_gt (hline u rfl))
    rw [visibilityMark_eq ht, hne, Bool.false_and]
    cases v <;> rfl

theorem visibilityMark_none {t : Token} {rest : List Token} {last : Option Token}
    {blocks : List CommentBlock} (ht : ∀ v : Visibility, t.lexeme ≠ .keyword v.keyword) :
    visibilityMark c ⟨t :: rest, last, blocks⟩ = .ok (none, ⟨t :: rest, last, blocks⟩) := by
  obtain ⟨l, start, stop⟩ := t
  have hpublic : l ≠ .keyword .public_ := ht .public_
  have hprivate : l ≠ .keyword .private_ := ht .private_
  cases l with
  | keyword k =>
    cases rest with
    | nil => rfl
    | cons u rest =>
      rw [visibilityMark_eq rfl]
      cases k with
      | public_ => exact absurd rfl hpublic
      | private_ => exact absurd rfl hprivate
      | _ => rfl
  | _ => rfl

theorem takes_visibility (v : Option Visibility) : Takes c visibilityMark (visibilityPieces v)
    (fun x => ∃ k y, x = keyword k :: y ∧ takesVisibility (.keyword k) = true) (· = v) := by
  rintro _ toks last blocks ⟨k, y, rfl, hk⟩ hs
  cases v with
  | none =>
    obtain ⟨t, rest, rfl, ht, -⟩ := Stands.word hs
    have hnone : ∀ v : Visibility, t.lexeme ≠ .keyword v.keyword := by
      rw [ht.lexeme]
      rintro v ⟨⟩
      cases v <;> cases hk
    exact ⟨none, t :: rest, last, blocks, visibilityMark_none hnone, hs, rfl⟩
  | some v =>
    obtain ⟨front, cs, r, hc, htext, hr, rfl⟩ := hs
    cases hc with
    | word hc =>
      cases hc with
      | @gap _ s _ cs hg hc =>
        cases hc with
        | @word _ _ _ cs hc =>
          -- The blank is there, since no line ends in front of the keyword.
          obtain rfl : s = [' '] := by
            rcases hg with rfl | ⟨-, hg⟩
            · rfl
            · cases k <;> simp [Keyword.text, Chunk.text] at hg
          have hline : ((r.position.after v.keyword.text.toList).after [' ']).line =
              r.position.line := by
            rw [Position.line_after, Position.line_after]
            cases v <;> rfl
          exact ⟨some v, _, _, blocks, visibilityMark_run v rfl hk hline,
            (Stands.behind (.gap hg (.word hc)) htext hr).gap, rfl⟩

/-- A visibility on a line of its own marks nothing. -/
theorem takes_alone (v : Visibility) : Takes c visibilityMark []
    (fun x => ∃ y, x = keyword v.keyword :: .gap .line :: y) (· = none) := by
  rintro _ toks last blocks ⟨y, rfl⟩ hs
  have hstands := hs
  obtain ⟨front, cs, r, hc, -, -, rfl⟩ := hs
  cases hc with
  | word hc =>
    cases hc with
    | @gap _ s _ cs hg hc =>
      obtain ⟨n, rfl⟩ := hg
      refine ⟨none, _, last, blocks, visibilityMark_alone v rfl fun u hu => ?_, hstands, rfl⟩
      refine Nat.lt_of_lt_of_le ?_ (scanOf_starts cs _ u hu).2
      simp only [Reader.position_pass, Position.line_after, List.count_cons_self]
      omega

theorem takes_unmarked : Takes c visibilityMark []
    (fun x => ∃ l w y, x = .word l w :: y ∧ ∀ v : Visibility, l ≠ .keyword v.keyword)
      (· = none) := by
  rintro _ toks last blocks ⟨l, w, y, rfl, hl⟩ hs
  obtain ⟨t, rest, rfl, ht, -⟩ := Stands.word hs
  exact ⟨none, t :: rest, last, blocks, visibilityMark_none (by rwa [ht.lexeme]), hs, rfl⟩

end Grammar
end RubySig
