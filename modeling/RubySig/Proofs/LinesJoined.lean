import RubySig.Proofs.SourceTiled
import RubySig.Proofs.Token.Relaid

/-!
Texts one below the other. A text that can be read is made of legible chunks, and chunks stay
legible when a line feed and more chunks follow: two texts with a line feed between them are read as
the tokens and comments of the first and then those of the second, further down.
-/
namespace RubySig

/-- The place when so many lines and characters more stand in front of it. -/
def Position.moved (lines count : Nat) (p : Position) : Position :=
  ⟨p.line + lines, p.column, p.offset + count⟩

def Token.moved (lines count : Nat) (t : Token) : Token :=
  { t with start := t.start.moved lines count, stop := t.stop.moved lines count }

def CommentLine.moved (lines count : Nat) (c : CommentLine) : CommentLine :=
  { c with start := c.start.moved lines count, stop := c.stop.moved lines count }

namespace Position

variable {lines count : Nat}

theorem step_moved (p : Position) (c : Char) :
    (p.moved lines count).step c = (p.step c).moved lines count := by
  by_cases hc : c = '\n'
  · simp [step, moved, hc]
    omega
  · simp [step, moved, hc]
    omega

theorem after_moved (p : Position) (cs : List Char) :
    (p.moved lines count).after cs = (p.after cs).moved lines count := by
  induction cs generalizing p with
  | nil => rfl
  | cons c cs ih =>
    change ((p.moved lines count).step c).after cs = ((p.step c).after cs).moved lines count
    rw [step_moved, ih]

/-- Behind a line feed the first column starts again. -/
theorem first_after_newline (text : List Char) :
    first.after (text ++ ['\n']) = first.moved (text.count '\n' + 1) (text.length + 1) := by
  rw [first_after]
  simp [first, moved]
  omega

end Position

namespace Lexer

def Scan.moved (lines count : Nat) (s : Scan) : Scan where
  tokens := s.tokens.map (Token.moved lines count)
  comments := s.comments.map (CommentLine.moved lines count)
  finish := s.finish.moved lines count

/-- What is read first, and what is read behind it. -/
def Scan.join (s more : Scan) : Scan where
  tokens := s.tokens ++ more.tokens
  comments := s.comments ++ more.comments
  finish := more.finish

variable {before before' : Option Char} {cs ds : List Chunk} {r r' : Reader} {lines count : Nat}

theorem breaks_dropWhile (text : List Char) : Breaks (text.dropWhile (· != '\n')) := by
  intro c hc
  have hfirst := List.head?_dropWhile_not (· != '\n') text
  rw [Option.mem_def.mp hc] at hfirst
  simpa using hfirst

theorem splits_of_next {c : Char} {text : List Char} {p : Piece} (hspace : isSpace c = false)
    (hmark : c ≠ '#') (h : next before c text = .ok p) : Splits before p.lexeme p.taken p.rest := by
  obtain ⟨hsplit, hne, -⟩ := next_genuine h
  obtain ⟨d, w, hw⟩ := List.exists_cons_of_ne_nil hne
  rw [hw] at hsplit
  obtain ⟨rfl, rfl⟩ := List.cons.inj hsplit
  exact ⟨c, w, hw, hspace, hmark, h⟩

/-- A text that can be read is made of legible chunks. By induction on the steps that are left, each
of which passes one chunk. -/
theorem scanFrom_legible (fuel : Nat) (r : Reader) {s : Scan} (hfuel : r.rest.length ≤ fuel)
    (h : scanFrom fuel r = .ok s) : ∃ cs, Legible r.before cs ∧ Chunk.textOf cs = r.rest := by
  induction fuel generalizing r s with
  | zero =>
    have hr : r.rest = [] := List.eq_nil_of_length_eq_zero (Nat.le_zero.mp hfuel)
    exact ⟨[], trivial, hr.symm⟩
  | succ fuel ih =>
    have hbehind {w rest : List Char} {more : Scan} (hr : r.rest = w ++ rest) (hw : w ≠ [])
        (hm : scanFrom fuel (r.pass w rest) = .ok more) :
        ∃ cs, Legible (w.getLast?.or r.before) cs ∧ Chunk.textOf cs = rest := by
      have hpos := List.length_pos_iff.mpr hw
      rw [hr, List.length_append] at hfuel
      exact ih (r.pass w rest) (show rest.length ≤ fuel by omega) hm
    obtain ⟨hr, -⟩ | ⟨c, cs, hr, hspace, hm⟩ | ⟨cs, more, hr, hm, -⟩ |
      ⟨c, cs, p, more, hr, hspace, hmark, hn, hm, -⟩ := scanFrom_cases h
    · exact ⟨[], trivial, hr.symm⟩
    · obtain ⟨ds, hds, rfl⟩ := hbehind (w := [c]) hr (List.cons_ne_nil c []) hm
      exact ⟨.white [c] :: ds, ⟨by simpa using hspace, hds⟩, hr.symm⟩
    · have hline : r.rest = '#' :: cs.takeWhile (· != '\n') ++ cs.dropWhile (· != '\n') := by
        rw [hr, List.cons_append, List.takeWhile_append_dropWhile]
      obtain ⟨ds, hds, htext⟩ := hbehind hline (List.cons_ne_nil _ _) hm
      refine ⟨.comment (cs.takeWhile (· != '\n')) :: ds, ⟨?_, ?_, hds⟩, ?_⟩
      · intro hn
        simpa using List.mem_takeWhile_imp hn
      · rw [htext]
        exact breaks_dropWhile cs
      · rw [Chunk.textOf_cons, htext, hline]
        rfl
    · obtain ⟨hsplit, hne, -⟩ := next_genuine hn
      obtain ⟨ds, hds, htext⟩ := hbehind (hr.trans hsplit) hne hm
      refine ⟨.token p.lexeme p.taken :: ds, ⟨?_, hds⟩, ?_⟩
      · rw [htext]
        exact splits_of_next hspace hmark hn
      · rw [Chunk.textOf_cons, htext, hr, hsplit]
        rfl

/-- Of what stands in front of chunks only counts whether it is a name. -/
theorem Legible.elsewhere (h : Legible before cs) (hb : afterName before' = afterName before) :
    Legible before' cs := by
  induction cs generalizing before before' with
  | nil => trivial
  | cons c cs ih =>
    have hlast (w : List Char) :
        afterName (w.getLast?.or before') = afterName (w.getLast?.or before) := by
      cases hw : w.getLast? with
      | none => exact hb
      | some d => rfl
    cases c with
    | token l w =>
      obtain ⟨⟨d, v, rfl, hspace, hmark, hn⟩, hrest⟩ := h
      refine ⟨⟨d, v, rfl, hspace, hmark, ?_⟩, ih hrest (hlast _)⟩
      rw [next_before hb, hn]
    | white w => exact ⟨h.1, ih h.2 (hlast w)⟩
    | comment line => exact ⟨h.1, h.2.1, ih h.2.2 (hlast _)⟩

/-- A line feed and more lines leave the first line as it is. -/
theorem sameLine_newline (xs ys : List Char) : SameLine xs (xs ++ '\n' :: ys) := by
  have hnil : SameLine [] ('\n' :: ys) :=
    ⟨[], [], '\n' :: ys, by simp, by simp [Breaks], by simp [Breaks], rfl, rfl⟩
  have h := hnil.append xs
  rwa [List.append_nil] at h

/-- A token is split off where it was, with more lines below. -/
theorem Splits.append_lines {l : Lexeme} {w rest : List Char} (h : Splits before l w rest)
    (more : List Char) : Splits before l w (rest ++ '\n' :: more) := by
  obtain ⟨c, cs, rfl, hspace, hmark, hn⟩ := h
  obtain ⟨cs', hcs', hn'⟩ := next_kept hn (sameLine_newline rest more) (rfl : afterName before = _)
  obtain ⟨-, rfl⟩ := List.cons.inj hcs'
  exact ⟨c, cs, rfl, hspace, hmark, hn'⟩

theorem Legible.append_lines (h : Legible before cs) (hd : Legible none ds) :
    Legible before (cs ++ .white ['\n'] :: ds) := by
  induction cs generalizing before with
  | nil =>
    have hbreak : Legible (some '\n') ds := hd.elsewhere (by decide +kernel)
    exact ⟨by simp [isSpace], hbreak⟩
  | cons c cs ih =>
    have htext : Chunk.textOf (cs ++ .white ['\n'] :: ds) =
        Chunk.textOf cs ++ '\n' :: Chunk.textOf ds := by
      rw [Chunk.textOf_append, Chunk.textOf_cons]
      rfl
    cases c with
    | token l w =>
      refine ⟨?_, ih h.2⟩
      change Splits before l w (Chunk.textOf (cs ++ .white ['\n'] :: ds))
      rw [htext]
      exact h.1.append_lines _
    | white w => exact ⟨h.1, ih h.2⟩
    | comment line =>
      obtain ⟨hline, hbreak, hrest⟩ := h
      refine ⟨hline, ?_, ih hrest⟩
      change Breaks (Chunk.textOf (cs ++ .white ['\n'] :: ds))
      rw [htext]
      cases hcs : Chunk.textOf cs with
      | nil => simp [Breaks]
      | cons d text => simpa [hcs, Breaks] using hbreak

/-- Chunks further down are read as the same tokens and comments further down. What is in front of
them and behind them does not count. -/
theorem scanOf_moved (hp : r'.position = r.position.moved lines count) (hb : r'.blank = r.blank) :
    scanOf r' cs = (scanOf r cs).moved lines count := by
  induction cs generalizing r r' with
  | nil => simp [scanOf, Scan.moved, hp]
  | cons c cs ih =>
    have hrest (w : List Char) : scanOf (r'.pass w (Chunk.textOf cs)) cs =
        (scanOf (r.pass w (Chunk.textOf cs)) cs).moved lines count := by
      apply ih
      · rw [Reader.position_pass, Reader.position_pass, hp, Position.after_moved]
      · simp only [Reader.pass, hb]
    cases c with
    | token l w =>
      rw [scanOf, scanOf]
      simp only [hrest, Reader.position_pass, hp, Position.after_moved]
      rfl
    | white w => exact hrest w
    | comment line =>
      rw [scanOf, scanOf]
      simp only [hrest, Reader.position_pass, hp, Position.after_moved, hb]
      rfl

theorem scanOf_rest (t : List Char) : scanOf { r with rest := t } cs = scanOf r cs := by
  have h : scanOf { r with rest := t } cs = (scanOf r cs).moved 0 0 := scanOf_moved rfl rfl
  have htoken : Token.moved 0 0 = id := rfl
  have hcomment : CommentLine.moved 0 0 = id := rfl
  rw [h, Scan.moved, htoken, hcomment, List.map_id, List.map_id]
  rfl

theorem scanOf_append : scanOf r (cs ++ ds) =
    (scanOf r cs).join (scanOf (r.pass (Chunk.textOf cs) (Chunk.textOf ds)) ds) := by
  induction cs generalizing r with
  | nil => exact (scanOf_rest (r := r) (Chunk.textOf ds)).symm
  | cons c cs ih =>
    have hrest (w : List Char) : scanOf (r.pass w (Chunk.textOf (cs ++ ds))) (cs ++ ds) =
        (scanOf (r.pass w (Chunk.textOf cs)) cs).join
          (scanOf (r.pass (w ++ Chunk.textOf cs) (Chunk.textOf ds)) ds) := by
      rw [ih, Reader.pass_append]
      congr 1
      exact scanOf_rest (r := r.pass w (Chunk.textOf cs)) (Chunk.textOf (cs ++ ds))
    rw [Chunk.textOf_cons]
    cases c with
    | token l w =>
      rw [List.cons_append, scanOf, hrest, scanOf]
      rfl
    | white w => exact hrest w
    | comment line =>
      rw [List.cons_append, scanOf, hrest, scanOf]
      rfl

/-- A text is read through its chunks. -/
theorem scan_chunks {text : List Char} {s : Scan} (h : scan text = .ok s) :
    ∃ cs, Legible none cs ∧ Chunk.textOf cs = text ∧ s = scanOf (.start text) cs := by
  obtain ⟨cs, hcs, rfl⟩ := scanFrom_legible _ (.start text) (Nat.le_refl _) h
  refine ⟨cs, hcs, rfl, ?_⟩
  have hscan := scan_textOf hcs
  exact Except.ok.inj (h.symm.trans hscan)

/-- Where two texts can be read, so can the two with a line feed between them: first come the tokens
and comments of the first one, then those of the second one, as many lines and characters further
down as the first one has, and no columns further. -/
theorem lines_joined (text more : List Char) {s s' : Scan} (h : scan text = .ok s)
    (h' : scan more = .ok s') :
    scan (text ++ '\n' :: more) =
      .ok (s.join (s'.moved (text.count '\n' + 1) (text.length + 1))) := by
  obtain ⟨cs, hcs, htext, rfl⟩ := scan_chunks h
  obtain ⟨ds, hds, hmore, rfl⟩ := scan_chunks h'
  have hall : Chunk.textOf (cs ++ .white ['\n'] :: ds) = text ++ '\n' :: more := by
    rw [Chunk.textOf_append, Chunk.textOf_cons, htext, hmore]
    rfl
  have hscan := scan_textOf (hcs.append_lines hds)
  rw [hall, scanOf_append, htext] at hscan
  rw [hscan]
  congr 2
  · exact scanOf_rest (r := .start text) (text ++ '\n' :: more)
  · -- The reader is behind the line feed, at the beginning of a line as at the start of a text.
    rw [scanOf]
    apply scanOf_moved
    · rw [Reader.position_pass, Reader.position_pass, ← Position.after_append]
      exact Position.first_after_newline text
    · simp [Reader.pass, Reader.start]

/-- The first text ends in a backquote that has no partner on its line, and in a comment; the second
one begins with a colon. -/
def upperText : List Char := "class A\n  def `: () -> B #c\r".toList

def lowerText : List Char := ":a #d\n`b`".toList

theorem lines_joined_sample : ∃ s s', scan upperText = .ok s ∧ scan lowerText = .ok s' ∧
    s.tokens.length = 9 ∧ s'.tokens.length = 2 ∧
    scan (upperText ++ '\n' :: lowerText) = .ok (s.join (s'.moved 2 29)) := by
  have hupper : ((scan upperText).toOption.map (·.tokens.length)) = some 9 := by decide +kernel
  have hlower : ((scan lowerText).toOption.map (·.tokens.length)) = some 2 := by decide +kernel
  cases h : scan upperText with
  | error e =>
    rw [h] at hupper
    cases hupper
  | ok s =>
    cases h' : scan lowerText with
    | error e =>
      rw [h'] at hlower
      cases hlower
    | ok s' =>
      rw [h] at hupper
      rw [h'] at hlower
      exact ⟨s, s', rfl, rfl, Option.some.inj hupper, Option.some.inj hlower,
        lines_joined upperText lowerText h h'⟩

end Lexer
end RubySig
