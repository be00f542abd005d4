import Mathlib.Algebra.Group.Nat.Defs
import RubySig.Proofs.Token.Sound

/-!
Tokens and comments tile a text: their ranges stand apart and in order, between them is white space,
and their lines and columns are those of their offsets.
-/
namespace RubySig

/-- The place of an offset: one line for each line end before it, one column for each character
behind the last of them. -/
def Position.at (text : List Char) (offset : Nat) : Position where
  line := (text.take offset).count '\n' + 1
  column := ((text.take offset).reverse.takeWhile (· != '\n')).length + 1
  offset := offset

theorem Position.first_after (cs : List Char) :
    Position.first.after cs =
      ⟨cs.count '\n' + 1, (cs.reverse.takeWhile (· != '\n')).length + 1, cs.length⟩ := by
  induction cs using List.reverseRecOn with
  | nil => rfl
  | append_singleton cs c ih =>
    rw [after_append, ih]
    change step _ c = _
    by_cases hc : c = '\n'
    · subst hc
      simp [step, List.count_append]
    · simp [step, hc, List.count_append]

/-- The place behind the first part of a text is the place of its length. -/
theorem Position.first_after_eq_at (front back : List Char) :
    Position.first.after front = Position.at (front ++ back) front.length := by
  rw [first_after, Position.at, List.take_left]

/-- The range behind the first part of a text has what stands there. -/
theorem Span.slice_between (front w back : List Char) :
    (Span.between (Position.first.after front) ((Position.first.after front).after w)).slice
      (front ++ w ++ back) = w := by
  have hclamp {n : Nat} (hn : n ≤ (front ++ w ++ back).length) :
      Span.clamp (front ++ w ++ back).length (n : Int) = n := by
    rw [Span.clamp, if_neg (by omega), Int.toNat_natCast, Nat.min_eq_left hn]
  have hfront : (Position.first.after front).offset = front.length := by
    rw [Position.offset_after]
    exact Nat.zero_add _
  simp only [Span.slice, Span.between, Position.offset_after _ w, hfront]
  rw [hclamp (by simp), hclamp (by simp), List.take_left' (by simp), List.drop_left]

/-- What stands at the place of a token spells what the token says. -/
theorem Token.In.taken {text : List Char} {t : Token} (h : t.In text) :
    t.lexeme.Taken (t.span.slice text) := by
  obtain ⟨front, w, back, htext, -, hstart, hstop, htaken⟩ := h
  have hslice : t.span.slice text = w := by
    rw [Token.span, hstop, hstart, htext]
    exact Span.slice_between front w back
  rwa [hslice]

structure Range where
  start : Position
  stop : Position

namespace Range

/-- A range that is not empty, inside a text, with the lines and columns of its offsets. -/
structure Stands (text : List Char) (r : Range) : Prop where
  start : r.start = Position.at text r.start.offset
  stop : r.stop = Position.at text r.stop.offset
  nonempty : r.start.offset < r.stop.offset
  inside : r.stop.offset ≤ text.length

def Before (a b : Range) : Prop := a.stop.offset ≤ b.start.offset

/-- Whether a range covers the character at an offset. -/
def Has (r : Range) (offset : Nat) : Prop := r.start.offset ≤ offset ∧ offset < r.stop.offset

end Range

def Token.range (t : Token) : Range := ⟨t.start, t.stop⟩

def CommentLine.range (c : CommentLine) : Range := ⟨c.start, c.stop⟩

namespace Lexer

def Scan.ranges (scan : Scan) : List Range :=
  scan.tokens.map Token.range ++ scan.comments.map CommentLine.range

/-- Ranges that cover a text from an offset on, but for white space. -/
structure Spread (text : List Char) (offset : Nat) (ranges : List Range) : Prop where
  stands : ∀ r ∈ ranges, r.Stands text
  behind : ∀ r ∈ ranges, offset ≤ r.start.offset
  covered : ∀ i c, offset ≤ i → text[i]? = some c → isSpace c = true ∨ ∃ r ∈ ranges, r.Has i

structure Scan.Tiles (text : List Char) (offset : Nat) (scan : Scan) : Prop where
  spread : Spread text offset scan.ranges
  tokens : (scan.tokens.map Token.range).Pairwise Range.Before
  comments : (scan.comments.map CommentLine.range).Pairwise Range.Before
  apart : ∀ t ∈ scan.tokens, ∀ c ∈ scan.comments,
    t.range.Before c.range ∨ c.range.Before t.range
  finish : scan.finish = Position.at text text.length

variable {text : List Char}

theorem Spread.nil : Spread text text.length [] where
  stands := by simp
  behind := by simp
  covered := by
    intro i c hi hc
    rw [List.getElem?_eq_none hi] at hc
    cases hc

theorem Spread.white {offset : Nat} {c : Char} {ranges : List Range}
    (h : Spread text (offset + 1) ranges) (hc : text[offset]? = some c)
    (hspace : isSpace c = true) :
    Spread text offset ranges where
  stands := h.stands
  behind := fun r hr => Nat.le_of_succ_le (h.behind r hr)
  covered := by
    intro i d hi hd
    obtain rfl | hi := Nat.eq_or_lt_of_le hi
    · rw [hc] at hd
      cases hd
      exact .inl hspace
    · exact h.covered i d hi hd

/-- One more range, in front of the others. -/
theorem Spread.insert {r : Range} {ranges more : List Range} (h : Spread text r.stop.offset ranges)
    (hr : r.Stands text) (hmore : ∀ q, q ∈ more ↔ q = r ∨ q ∈ ranges) :
    Spread text r.start.offset more where
  stands := by
    intro q hq
    obtain rfl | hq := (hmore q).mp hq
    · exact hr
    · exact h.stands q hq
  behind := by
    intro q hq
    obtain rfl | hq := (hmore q).mp hq
    · exact Nat.le_refl _
    · exact Nat.le_trans (Nat.le_of_lt hr.nonempty) (h.behind q hq)
  covered := by
    intro i c hi hc
    by_cases hstop : i < r.stop.offset
    · exact .inr ⟨r, (hmore r).mpr (.inl rfl), hi, hstop⟩
    · obtain hspace | ⟨q, hq, hhas⟩ := h.covered i c (Nat.le_of_not_lt hstop) hc
      · exact .inl hspace
      · exact .inr ⟨q, (hmore q).mpr (.inr hq), hhas⟩

namespace Scan.Tiles

variable {scan : Scan}

theorem nil : Tiles text text.length ⟨[], [], Position.at text text.length⟩ where
  spread := .nil
  tokens := .nil
  comments := .nil
  apart := by simp
  finish := rfl

theorem white {offset : Nat} {c : Char} (h : scan.Tiles text (offset + 1))
    (hc : text[offset]? = some c) (hspace : isSpace c = true) : scan.Tiles text offset :=
  { h with spread := h.spread.white hc hspace }

theorem token {t : Token} (h : scan.Tiles text t.stop.offset) (ht : t.range.Stands text) :
    Tiles text t.start.offset { scan with tokens := t :: scan.tokens } where
  spread := h.spread.insert ht (by simp [ranges])
  tokens := by
    rw [List.map_cons, List.pairwise_cons]
    constructor
    · exact fun r hr => h.spread.behind r (List.mem_append_left _ hr)
    · exact h.tokens
  comments := h.comments
  apart := by
    rw [List.forall_mem_cons]
    constructor
    · intro c hc
      exact .inl (h.spread.behind c.range (List.mem_append_right _ (List.mem_map_of_mem hc)))
    · exact h.apart
  finish := h.finish

theorem comment {c : CommentLine} (h : scan.Tiles text c.stop.offset) (hc : c.range.Stands text) :
    Tiles text c.start.offset { scan with comments := c :: scan.comments } where
  spread := h.spread.insert hc (by simp [ranges, or_left_comm])
  tokens := h.tokens
  comments := by
    rw [List.map_cons, List.pairwise_cons]
    constructor
    · exact fun r hr => h.spread.behind r (List.mem_append_right _ hr)
    · exact h.comments
  apart := by
    intro t ht
    rw [List.forall_mem_cons]
    constructor
    · exact .inr (h.spread.behind t.range (List.mem_append_left _ (List.mem_map_of_mem ht)))
    · exact h.apart t ht
  finish := h.finish

end Scan.Tiles

/-- What is cut off behind the first part of a text stands in the text. -/
theorem stands_between {front w back : List Char} (hw : w ≠ []) :
    Range.Stands (front ++ w ++ back)
      ⟨Position.first.after front, (Position.first.after front).after w⟩ where
  start := by
    rw [Position.offset_after, List.append_assoc, Position.first_after_eq_at front (w ++ back)]
    simp [Position.first]
  stop := by
    rw [← Position.after_append, Position.offset_after,
      Position.first_after_eq_at (front ++ w) back]
    simp [Position.first]
  nonempty := by
    have := List.length_pos_iff.mpr hw
    simp only [Position.offset_after]
    omega
  inside := by
    simp only [Position.offset_after, List.length_append, Position.first]
    omega

theorem tiles_end {front : List Char} {r : Reader} (hp : r.position = Position.first.after front)
    (hr : r.rest = []) : Scan.Tiles (front ++ r.rest) r.position.offset ⟨[], [], r.position⟩ := by
  have hat := Position.first_after_eq_at front []
  rw [List.append_nil, ← hp] at hat
  rw [hr, List.append_nil, hat]
  exact .nil

/-- What is read behind the first part of a text tiles the rest of it. By induction on the number of
steps that are left, which the length of the rest does not exceed. -/
theorem scanFrom_tiles (fuel : Nat) (r : Reader) (front : List Char) {scan : Scan}
    (hfuel : r.rest.length ≤ fuel) (hp : r.position = Position.first.after front)
    (h : scanFrom fuel r = .ok scan) : scan.Tiles (front ++ r.rest) r.position.offset := by
  induction fuel generalizing r front scan with
  | zero =>
    cases h
    exact tiles_end hp (List.eq_nil_of_length_eq_zero (Nat.le_zero.mp hfuel))
  | succ fuel ih =>
    have hbehind {w rest : List Char} {more : Scan} (hr : r.rest = w ++ rest) (hw : w ≠ [])
        (hm : scanFrom fuel (r.pass w rest) = .ok more) :
        more.Tiles (front ++ r.rest) (r.position.after w).offset ∧
          Range.Stands (front ++ r.rest) ⟨r.position, r.position.after w⟩ := by
      have hplace : (r.pass w rest).position = Position.first.after (front ++ w) := by
        rw [Position.after_append, ← hp]
        rfl
      have hlength : rest.length ≤ fuel := by
        have := List.length_pos_iff.mpr hw
        rw [hr, List.length_append] at hfuel
        omega
      rw [hr, ← List.append_assoc, hp]
      constructor
      · rw [← hp]
        exact ih (r.pass w rest) (front ++ w) hlength hplace hm
      · exact stands_between hw
    obtain ⟨hr, rfl⟩ | ⟨c, cs, hr, hspace, hm⟩ | ⟨cs, more, hr, hm, rfl⟩ |
      ⟨c, cs, piece, more, hr, -, -, hn, hm, rfl⟩ := scanFrom_cases h
    · exact tiles_end hp hr
    · obtain ⟨htiles, -⟩ := hbehind (w := [c]) hr (List.cons_ne_nil c []) hm
      apply Scan.Tiles.white (c := c) _ _ hspace
      · rwa [Position.offset_after] at htiles
      · rw [hr, hp, Position.offset_after]
        simp [Position.first]
    · have hline : r.rest = '#' :: cs.takeWhile (· != '\n') ++ cs.dropWhile (· != '\n') := by
        rw [hr, List.cons_append, List.takeWhile_append_dropWhile]
      obtain ⟨htiles, hstands⟩ := hbehind hline (List.cons_ne_nil _ _) hm
      exact Scan.Tiles.comment (c := ⟨_, _, _, _⟩) htiles hstands
    · obtain ⟨hsplit, hne, -⟩ := next_genuine hn
      obtain ⟨htiles, hstands⟩ := hbehind (hr.trans hsplit) hne hm
      exact Scan.Tiles.token (t := ⟨_, _, _⟩) htiles hstands

/-- The tokens and comments of every text that can be read tile it. -/
theorem source_tiled (text : List Char) (scan : Scan) (h : Lexer.scan text = .ok scan) :
    scan.Tiles text 0 :=
  scanFrom_tiles _ (.start text) [] (Nat.le_refl _) rfl h

/-- Every kind of range: comments on their own and behind tokens, and tokens over several lines. -/
def tiledText : List Char := "# a\nT: %a\x7bb\nc\x7d \"d\ne\" # f\n\t".toList

theorem source_tiled_sample : ∃ scan, Lexer.scan tiledText = .ok scan ∧ scan.tokens.length = 4 ∧
    scan.comments.length = 2 ∧ scan.Tiles tiledText 0 := by
  have hscan : ∃ scan, Lexer.scan tiledText = .ok scan ∧ scan.tokens.length = 4 ∧
      scan.comments.length = 2 := by
    refine ⟨_, rfl, ?_, ?_⟩ <;> decide
  obtain ⟨scan, h, htokens, hcomments⟩ := hscan
  exact ⟨scan, h, htokens, hcomments, source_tiled tiledText scan h⟩

end Lexer
end RubySig
