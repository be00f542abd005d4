import RubySig.Proofs.SourceTiled
import RubySig.Proofs.Token.Relaid
import RubySig.Proofs.Token.Scan
import RubySig.Proofs.Tree.Likeness

/-!
A text and the same text with other indentation and other numbers of blank lines are scanned alike:
neither can be read, or both are read as tokens and comments that correspond. What is known of
corresponding tokens is gathered from the end of the texts to their start.
-/
namespace RubySig

open List (Forall₂)

namespace MethodName

open Lexer (Breaks)

variable {line tail cs name : List Char}

theorem ending_line (ht : Breaks tail) : ending (line ++ tail) = ending line := by
  cases line with
  | nil =>
    cases tail with
    | nil => rfl
    | cons c tail =>
      obtain rfl : c = '\n' := ht c rfl
      rfl
  | cons c line =>
    rw [List.cons_append]
    unfold ending
    split <;> simp_all

theorem at_line (ht : Breaks tail) : at? (line ++ tail) = at? line := by
  have hoperators (xs : List Char) : operators.find? (·.isPrefixOf (xs ++ tail)) =
      operators.find? (·.isPrefixOf xs) := Lexer.find_line (by decide) ht
  have hpart : isPart '\n' = false := by decide
  cases line with
  | nil =>
    cases tail with
    | nil => rfl
    | cons c tail =>
      obtain rfl : c = '\n' := ht c rfl
      have hnone : operators.find? (·.isPrefixOf ('\n' :: tail)) = none := hoperators []
      have hstart : ¬isStart '\n' = true := by decide
      rw [List.nil_append, at?, at?, if_neg hstart, hnone]
  | cons c line =>
    have hnone := hoperators (c :: line)
    rw [List.cons_append] at hnone ⊢
    rw [at?, at?, hnone, Lexer.takeWhile_inside hpart ht,
      Lexer.dropWhile_line hpart ht, ending_line ht]

theorem ending_prefix (cs : List Char) : ending cs <+: cs := by
  unfold ending
  split <;> simp

theorem at_prefix (h : at? cs = some name) : name <+: cs := by
  cases cs with
  | nil => cases h
  | cons c cs =>
    rw [at?] at h
    split at h
    · cases h
      obtain ⟨more, hmore⟩ := ending_prefix (cs.dropWhile isPart)
      refine ⟨more, ?_⟩
      rw [List.cons_append, List.cons_append, List.append_assoc, hmore,
        List.takeWhile_append_dropWhile]
    · have hprefix := List.find?_some h
      exact List.isPrefixOf_iff_prefix.mp hprefix

end MethodName

namespace Grammar.Likeness

variable {c c' : Context}

/-- Lines in front of all others correspond too. -/
def insertLine (L : Likeness c c') (a a' : Nat)
    (h : ∀ b b', L.line b b' → a ≤ b ∧ a' ≤ b' ∧ min (b - a) 2 = min (b' - a') 2) : Likeness c c' :=
  { L with
    line := fun b b' => (b = a ∧ b' = a') ∨ L.line b b'
    start := fun ht => .inr (L.start ht)
    stop := fun ht => .inr (L.stop ht)
    near := by
      rintro b b' d d' (⟨rfl, rfl⟩ | hb) (⟨rfl, rfl⟩ | hd)
      · omega
      · exact (h d d' hd).2.2
      · have := h b b' hb
        omega
      · exact L.near hb hd }

/-- Tokens in front of all others correspond too. -/
def insertToken (L : Likeness c c') (t t' : Token) (lexeme : t.lexeme = t'.lexeme)
    (start : L.line t.start.line t'.start.line) (stop : L.line t.stop.line t'.stop.line)
    (slice : t.span.slice c.text = t'.span.slice c'.text)
    (ahead : MethodName.at? (c.text.drop t.start.offset) =
      MethodName.at? (c'.text.drop t'.start.offset))
    (behind : ∀ u u', L.token u u' → t.start.offset < u.start.offset ∧
      t'.start.offset < u'.start.offset)
    (covered : ∀ name, MethodName.at? (c.text.drop t.start.offset) = some name →
      ∀ u u', L.token u u' →
      (u.start.offset < t.start.offset + name.length ↔
        u'.start.offset < t'.start.offset + name.length)) :
    Likeness c c' :=
  { L with
    token := fun u u' => (u = t ∧ u' = t') ∨ L.token u u'
    lexeme := by
      rintro u u' (⟨rfl, rfl⟩ | hu)
      · exact lexeme
      · exact L.lexeme hu
    start := by
      rintro u u' (⟨rfl, rfl⟩ | hu)
      · exact start
      · exact L.start hu
    stop := by
      rintro u u' (⟨rfl, rfl⟩ | hu)
      · exact stop
      · exact L.stop hu
    slice := by
      rintro u u' (⟨rfl, rfl⟩ | hu)
      · exact slice
      · exact L.slice hu
    ahead := by
      rintro u u' (⟨rfl, rfl⟩ | hu)
      · exact ahead
      · exact L.ahead hu
    covered := by
      rintro u u' v v' name (⟨rfl, rfl⟩ | hu) (⟨rfl, rfl⟩ | hv) hname
      · omega
      · exact covered name hname v v' hv
      · have := behind u u' hu
        omega
      · exact L.covered hu hv hname }

structure SameCommentLine (L : Likeness c c') (k k' : CommentLine) : Prop where
  text : k.text = k'.text
  alone : k.alone = k'.alone
  start : L.line k.start.line k'.start.line
  stop : L.line k.stop.line k'.stop.line

end Grammar.Likeness

namespace Lexer

open Grammar (Likeness)

def lineBehind (front : List Char) : Nat := (Position.first.after front).line

theorem lineBehind_append (front w : List Char) :
    lineBehind (front ++ w) = lineBehind front + w.count '\n' := by
  simp only [lineBehind, Position.first_after, List.count_append]
  omega

/-- How many characters are left on the line. -/
def lineLength (cs : List Char) : Nat := (cs.takeWhile (· != '\n')).length

theorem lineLength_append (w cs : List Char) : lineLength (w ++ cs) ≤ w.length + lineLength cs := by
  induction w with
  | nil => simp
  | cons c w ih =>
    rw [List.cons_append, lineLength, List.takeWhile_cons, List.length_cons]
    split
    · rw [List.length_cons]
      rw [lineLength] at ih
      omega
    · exact Nat.zero_le _

theorem Indentation.count {w : List Char} (h : Indentation w) : w.count '\n' = 0 := by
  rw [List.count_eq_zero]
  intro hmem
  obtain h | h := h _ hmem <;> cases h

theorem BlankLines.count {w : List Char} (h : BlankLines w) : 1 ≤ w.count '\n' := by
  obtain ⟨lines, hne, -, rfl⟩ := h
  obtain ⟨l, lines, rfl⟩ := List.exists_cons_of_ne_nil hne
  rw [List.one_le_count_iff]
  simp

variable {text text' front front' w w' t t' : List Char} {s s' : Scan} {fresh : Bool}

/-- Scans that correspond, of what stands behind the two fronts. On a line that has begun, they
begin at corresponding places; at the start of a line the line above is the one to count from. -/
structure Twins (L : Likeness ⟨text, s.finish⟩ ⟨text', s'.finish⟩) (front front' : List Char)
    (fresh : Bool) (t : List Char) : Prop where
  tokens : Forall₂ L.token s.tokens s'.tokens
  comments : Forall₂ L.SameCommentLine s.comments s'.comments
  line : ∀ a a', L.line a a' → lineBehind front ≤ a ∧ lineBehind front' ≤ a' ∧
    min (a + fresh.toNat - lineBehind front) 2 = min (a' + fresh.toNat - lineBehind front') 2
  token : ∀ u u', L.token u u' → front.length ≤ u.start.offset ∧ front'.length ≤ u'.start.offset
  ahead : fresh = false → ∀ n ≤ lineLength t, ∀ u u', L.token u u' →
    (u.start.offset < front.length + n ↔ u'.start.offset < front'.length + n)

namespace Twins

variable {L : Likeness ⟨text, s.finish⟩ ⟨text', s'.finish⟩}

/-- The same characters may stand in front. -/
theorem same (h : Twins L (front ++ w) (front' ++ w) false t) :
    Twins L front front' false (w ++ t) where
  tokens := h.tokens
  comments := h.comments
  line a a' ha := by
    have := h.line a a' ha
    rw [lineBehind_append, lineBehind_append] at this
    simp only [Bool.toNat_false] at this ⊢
    omega
  token u u' hu := by
    have := h.token u u' hu
    simp only [List.length_append] at this
    omega
  ahead _ n hn u u' hu := by
    have hle := lineLength_append w t
    have htoken := h.token u u' hu
    simp only [List.length_append] at htoken
    by_cases hw : n ≤ w.length
    · omega
    · have := h.ahead rfl (n - w.length) (by omega) u u' hu
      simp only [List.length_append] at this
      omega

theorem weaken (h : Twins L front front' false t) (fresh : Bool) :
    Twins L front front' fresh t where
  tokens := h.tokens
  comments := h.comments
  line a a' ha := by
    have := h.line a a' ha
    simp only [Bool.toNat_false] at this
    omega
  token := h.token
  ahead hf := by
    subst hf
    exact h.ahead rfl

/-- Other blanks may stand at the start of the line. -/
theorem indentation (h : Twins L (front ++ w) (front' ++ w') false t) (hw : Indentation w)
    (hw' : Indentation w') (cs : List Char) : Twins L front front' true cs where
  tokens := h.tokens
  comments := h.comments
  line a a' ha := by
    have := h.line a a' ha
    rw [lineBehind_append, lineBehind_append, hw.count, hw'.count] at this
    simp only [Bool.toNat_false, Bool.toNat_true] at this ⊢
    omega
  token u u' hu := by
    have := h.token u u' hu
    simp only [List.length_append] at this
    omega
  ahead := nofun

/-- Below a line, any number of blank lines stands apart as far as any other. -/
theorem blankLines (h : Twins L (front ++ w) (front' ++ w') true t) (hw : BlankLines w)
    (hw' : BlankLines w') (cs : List Char) : Twins L front front' true cs where
  tokens := h.tokens
  comments := h.comments
  line a a' ha := by
    have := h.line a a' ha
    have := hw.count
    have := hw'.count
    simp only [lineBehind_append, Bool.toNat_true] at *
    omega
  token u u' hu := by
    have := h.token u u' hu
    simp only [List.length_append] at this
    omega
  ahead := nofun

theorem newline (h : Twins L (front ++ ['\n']) (front' ++ ['\n']) true t) :
    Twins L front front' false ('\n' :: t) where
  tokens := h.tokens
  comments := h.comments
  line a a' ha := by
    have := h.line a a' ha
    simp only [lineBehind_append, List.count_singleton_self, Bool.toNat_true, Bool.toNat_false] at *
    omega
  token u u' hu := by
    have := h.token u u' hu
    simp only [List.length_append] at this
    omega
  ahead _ n hn u u' hu := by
    have hzero : lineLength ('\n' :: t) = 0 := rfl
    have := h.token u u' hu
    simp only [List.length_append] at this
    omega

/-- The line that the fronts end on is one more line. -/
theorem insertLine (h : Twins L front front' false t) :
    ∃ L' : Likeness ⟨text, s.finish⟩ ⟨text', s'.finish⟩, Twins L' front front' false t ∧
      L'.token = L.token ∧ (∀ a a', L.line a a' → L'.line a a') ∧
      L'.line (lineBehind front) (lineBehind front') := by
  refine ⟨L.insertLine (lineBehind front) (lineBehind front') fun b b' hb => ?_, ?_, rfl,
    fun a a' ha => .inr ha, .inl ⟨rfl, rfl⟩⟩
  · have := h.line b b' hb
    simpa using this
  · refine ⟨h.tokens, ?_, ?_, h.token, h.ahead⟩
    · exact h.comments.imp fun k k' hk => ⟨hk.text, hk.alone, .inr hk.start, .inr hk.stop⟩
    · rintro a a' (⟨rfl, rfl⟩ | ha)
      · simp
      · exact h.line a a' ha

end Twins

/-- Two scans correspond. -/
def Alike (text text' front front' : List Char) (fresh : Bool) (t : List Char) (s s' : Scan) :
    Prop :=
  ∃ L : Likeness ⟨text, s.finish⟩ ⟨text', s'.finish⟩, Twins L front front' fresh t

namespace Alike

/-- Texts without tokens and comments are alike, wherever they end. -/
theorem nil (fresh : Bool) (t : List Char) (finish finish' : Position) :
    Alike text text' front front' fresh t ⟨[], [], finish⟩ ⟨[], [], finish'⟩ := by
  let L : Likeness ⟨text, finish⟩ ⟨text', finish'⟩ :=
    { token := fun _ _ => False
      line := fun _ _ => False
      lexeme := fun h => h.elim
      start := fun h => h.elim
      stop := fun h => h.elim
      near := fun h => h.elim
      slice := fun h => h.elim
      ahead := fun h => h.elim
      covered := fun h => h.elim }
  exact ⟨L, .nil, .nil, fun a a' h => h.elim, fun u u' h => h.elim, fun _ n _ u u' h => h.elim⟩

/-- A comment may stand in front. -/
theorem comment {line : List Char}
    (h : Alike text text' (front ++ '#' :: line) (front' ++ '#' :: line) false t s s')
    (hl : '\n' ∉ line) (content : String) (alone : Bool) :
    Alike text text' front front' false ('#' :: line ++ t)
      (s.addComment ⟨content, .after .first front,
        (Position.after .first front).after ('#' :: line), alone⟩)
      (s'.addComment
        ⟨content, .after .first front',
          (Position.after .first front').after ('#' :: line), alone⟩) := by
  obtain ⟨L, h⟩ := h
  have hcount : ('#' :: line).count '\n' = 0 := by
    rw [List.count_eq_zero, List.mem_cons, not_or]
    exact ⟨by decide, hl⟩
  have hline (front : List Char) :
      ((Position.after .first front).after ('#' :: line)).line = lineBehind front := by
    rw [← Position.after_append, ← lineBehind, lineBehind_append, hcount, Nat.add_zero]
  obtain ⟨L', h', -, -, hfront⟩ := h.same.insertLine
  refine ⟨L', h'.tokens, .cons ⟨rfl, rfl, hfront, ?_⟩ h'.comments, h'.line, h'.token, h'.ahead⟩
  rw [hline, hline]
  exact hfront

/-- What is read as a method name is read from the rest of the line. -/
theorem methodName_line {xs ys : List Char} (h : SameLine xs ys) :
    MethodName.at? xs = MethodName.at? ys ∧
      ∀ name, MethodName.at? xs = some name → name.length ≤ lineLength xs := by
  obtain ⟨line, tail, tail', hl, ht, ht', rfl, rfl⟩ := h
  rw [MethodName.at_line ht, MethodName.at_line ht', lineLength, (takeWhile_line hl ht).1]
  exact ⟨rfl, fun name hname => (MethodName.at_prefix hname).length_le⟩

/-- A token may stand in front. -/
theorem token (h : Alike text text' (front ++ w) (front' ++ w) false t s s') (hw : w ≠ [])
    (htext : text = front ++ w ++ t) (htext' : text' = front' ++ w ++ t') (ht : SameLine t t')
    (l : Lexeme) : Alike text text' front front' false (w ++ t)
      (s.addToken ⟨l, .after .first front, (Position.after .first front).after w⟩)
      (s'.addToken ⟨l, .after .first front', (Position.after .first front').after w⟩) := by
  obtain ⟨L, h⟩ := h
  obtain ⟨L₁, h₁, htoken₁, -, hstop⟩ := h.insertLine
  obtain ⟨L₂, h₂, htoken₂, hline₂, hstart⟩ := h₁.same.insertLine
  have hoffset (front : List Char) : (Position.first.after front).offset = front.length := by
    rw [Position.offset_after]
    exact Nat.zero_add _
  have hrest : text.drop front.length = w ++ t := by rw [htext, List.append_assoc, List.drop_left]
  have hrest' : text'.drop front'.length = w ++ t' := by
    rw [htext', List.append_assoc, List.drop_left]
  obtain ⟨hahead, hinside⟩ := methodName_line (ht.append w)
  have hbehind (u u' : Token) (hu : L₂.token u u') :
      front.length < u.start.offset ∧ front'.length < u'.start.offset := by
    rw [htoken₂, htoken₁] at hu
    have := h.token u u' hu
    have := List.length_pos_iff.mpr hw
    simp only [List.length_append] at *
    omega
  let t₀ : Token := ⟨l, .after .first front, (Position.after .first front).after w⟩
  let t₀' : Token := ⟨l, .after .first front', (Position.after .first front').after w⟩
  have hline : L₂.line t₀.stop.line t₀'.stop.line := by
    change L₂.line ((Position.after .first front).after w).line
      ((Position.after .first front').after w).line
    rw [← Position.after_append, ← Position.after_append]
    exact hline₂ _ _ hstop
  have hslice : t₀.span.slice text = t₀'.span.slice text' := by
    rw [htext, htext']
    exact (Span.slice_between front w t).trans (Span.slice_between front' w t').symm
  let L' := L₂.insertToken t₀ t₀' rfl hstart hline hslice
    (by
      rw [hoffset, hoffset, hrest, hrest']
      exact hahead)
    (by
      rw [hoffset, hoffset]
      exact hbehind)
    (by
      rw [hoffset, hoffset, hrest]
      exact fun name hname => h₂.ahead rfl name.length (hinside name hname))
  refine ⟨L', ?_, ?_, h₂.line, ?_, ?_⟩
  · exact .cons (.inl ⟨rfl, rfl⟩) (h₂.tokens.imp fun _ _ => .inr)
  · exact h₂.comments.imp fun k k' hk => ⟨hk.text, hk.alone, hk.start, hk.stop⟩
  · rintro u u' (⟨rfl, rfl⟩ | hu)
    · exact ⟨(hoffset front).ge, (hoffset front').ge⟩
    · exact h₂.token u u' hu
  · rintro _ n hn u u' (⟨rfl, rfl⟩ | hu)
    · rw [hoffset, hoffset]
      omega
    · exact h₂.ahead rfl n hn u u' hu

theorem weaken (h : Alike text text' front front' false t s s') (fresh : Bool) :
    Alike text text' front front' fresh t s s' := by
  obtain ⟨L, h⟩ := h
  exact ⟨L, h.weaken fresh⟩

end Alike

/-- Two texts cannot be scanned, or both can and their scans are related. -/
inductive Agree (A : Scan → Scan → Prop) : Except Error Scan → Except Error Scan → Prop where
  | fail {e₁ e₂ : Error} : Agree A (.error e₁) (.error e₂)
  | ok {s₁ s₂ : Scan} : A s₁ s₂ → Agree A (.ok s₁) (.ok s₂)

theorem Agree.imp {A B : Scan → Scan → Prop} {x x' : Except Error Scan} (h : Agree A x x')
    (hB : ∀ s s', A s s' → B s s') : Agree B x x' := by
  cases h with
  | fail => exact .fail
  | ok hA => exact .ok (hB _ _ hA)

theorem Agree.map {A B : Scan → Scan → Prop} {x x' : Except Error Scan} (h : Agree A x x')
    {f f' : Scan → Scan} (hB : ∀ s s', A s s' → B (f s) (f' s')) :
    Agree B (x.map f) (x'.map f') := by
  cases h with
  | fail => exact .fail
  | ok hA => exact .ok (hB _ _ hA)

structure Stands (text front t : List Char) (r : Reader) : Prop where
  rest : r.rest = t
  text : text = front ++ t
  position : r.position = .after .first front

theorem Stands.pass {r : Reader} (h : Stands text front (w ++ t) r) :
    Stands text (front ++ w) t (r.pass w t) where
  rest := rfl
  text := by rw [h.text, List.append_assoc]
  position := by rw [Reader.position_pass, h.position, Position.after_append]

theorem Stands.scan_white {r : Reader} (h : Stands text front (w ++ t) r)
    (hw : ∀ c ∈ w, isSpace c = true) : r.scan = (r.pass w t).scan :=
  Reader.scan_white hw h.rest

/-- Readers at corresponding places. -/
structure Abreast (before : Option Char) (fresh : Bool) (r r' : Reader) : Prop where
  before : r.before = before
  after : afterName r'.before = afterName r.before
  blank : r'.blank = r.blank
  fresh : fresh = true → r.blank = true ∧ afterName r.before = false

namespace Abreast

variable {before : Option Char} {r r' : Reader}

/-- The same characters are read in both texts. -/
theorem pass (h : Abreast before fresh r r') (hw : w ≠ []) (t t' : List Char) :
    Abreast w.getLast? false (r.pass w t) (r'.pass w t') := by
  have hc := List.getLast?_eq_some_getLast hw
  refine ⟨?_, ?_, ?_, nofun⟩
  · rw [Reader.before_pass, hc, Option.some_or]
  · rw [Reader.before_pass, Reader.before_pass, hc, Option.some_or, Option.some_or]
  · rw [Reader.pass, Reader.pass, h.blank]

/-- White space at the start of a line leaves the line blank. -/
theorem white (h : Abreast before true r r') (hw : ∀ c ∈ w, c = ' ' ∨ c = '\t' ∨ c = '\n')
    (hw' : ∀ c ∈ w', c = ' ' ∨ c = '\t' ∨ c = '\n') (t t' : List Char) (fresh : Bool) :
    Abreast (w.getLast?.or before) fresh (r.pass w t) (r'.pass w' t') := by
  obtain ⟨hblank, hafter⟩ := h.fresh rfl
  have hkeep {w : List Char} (hw : ∀ c ∈ w, c = ' ' ∨ c = '\t' ∨ c = '\n') :
      w.foldl (fun blank c => c == '\n' || (blank && Text.isBlank c)) true = true := by
    induction w with
    | nil => rfl
    | cons c w ih =>
      have hc : (c == '\n' || (true && Text.isBlank c)) = true := by
        obtain rfl | rfl | rfl := hw c List.mem_cons_self <;> rfl
      rw [List.foldl_cons, hc]
      exact ih fun d hd => hw d (List.mem_cons_of_mem c hd)
  have hname {w : List Char} {before : Option Char} (hw : ∀ c ∈ w, c = ' ' ∨ c = '\t' ∨ c = '\n')
      (hbefore : afterName before = false) : afterName (w.getLast?.or before) = false := by
    cases hlast : w.getLast? with
    | none => exact hbefore
    | some c =>
      rw [Option.some_or]
      obtain rfl | rfl | rfl := hw c (List.mem_of_getLast? hlast) <;> decide +kernel
  have hwhite : (r.pass w t).blank = true := by
    rw [Reader.pass, hblank]
    exact hkeep hw
  have hbefore : afterName (r.pass w t).before = false := hname hw hafter
  have hbefore' : afterName (r'.pass w' t').before = false := hname hw' (h.after.trans hafter)
  refine ⟨?_, hbefore'.trans hbefore.symm, ?_, fun _ => ⟨hwhite, hbefore⟩⟩
  · rw [Reader.before_pass, h.before]
  · rw [hwhite, Reader.pass, h.blank, hblank]
    exact hkeep hw'

end Abreast

theorem isSpace_white (hw : ∀ c ∈ w, c = ' ' ∨ c = '\t' ∨ c = '\n') :
    ∀ c ∈ w, isSpace c = true := by
  intro c hc
  obtain rfl | rfl | rfl := hw c hc <;> rfl

theorem BlankLines.getLast? (hw : BlankLines w) : w.getLast? = some '\n' := by
  obtain ⟨lines, hne, -, rfl⟩ := hw
  obtain ⟨lines, l, rfl⟩ := List.eq_nil_or_concat lines |>.resolve_left hne
  simp

/-- The scans of a text and of the same text with other indentation and blank lines agree. -/
theorem relaid_scans {before : Option Char} (h : Relaid before fresh t t') {r r' : Reader}
    (hr : Stands text front t r) (hr' : Stands text' front' t' r')
    (hb : Abreast before fresh r r') :
    Agree (Alike text text' front front' fresh t) r.scan r'.scan := by
  induction h generalizing front front' r r' with
  | nil =>
    rw [r.scan_nil hr.rest, r'.scan_nil hr'.rest]
    exact .ok (.nil ..)
  | @indentation before w w' t t' hw hw' _ ih =>
    rw [hr.scan_white (isSpace_white hw.white), hr'.scan_white (isSpace_white hw'.white)]
    refine (ih hr.pass hr'.pass (hb.white hw.white hw'.white t t' false)).imp fun s s' hs => ?_
    obtain ⟨L, hL⟩ := hs
    exact ⟨L, hL.indentation hw hw' _⟩
  | @blankLines before w w' t t' hw hw' _ ih =>
    rw [hr.scan_white (isSpace_white hw.white), hr'.scan_white (isSpace_white hw'.white)]
    have habreast := hb.white hw.white hw'.white t t' true
    rw [hw.getLast?, Option.some_or] at habreast
    refine (ih hr.pass hr'.pass habreast).imp fun s s' hs => ?_
    obtain ⟨L, hL⟩ := hs
    exact ⟨L, hL.blankLines hw hw' _⟩
  | @ending before w w' hw hw' =>
    rw [← w.append_nil] at hr
    rw [← w'.append_nil] at hr'
    rw [hr.scan_white (isSpace_white hw.white), hr'.scan_white (isSpace_white hw'.white),
      Reader.scan_nil hr.pass.rest, Reader.scan_nil hr'.pass.rest]
    exact .ok (.nil ..)
  | @newline before fresh t t' _ ih =>
    have hpass := Stands.pass (w := ['\n']) hr
    have hpass' := Stands.pass (w := ['\n']) hr'
    rw [Stands.scan_white (w := ['\n']) hr (by decide),
      Stands.scan_white (w := ['\n']) hr' (by decide)]
    have habreast : Abreast (some '\n') true (r.pass ['\n'] t) (r'.pass ['\n'] t') :=
      ⟨rfl, rfl, rfl, fun _ => ⟨rfl, show afterName (some '\n') = false by decide +kernel⟩⟩
    refine (ih hpass hpass' habreast).imp fun s s' hs => ?_
    obtain ⟨L, hL⟩ := hs
    exact ⟨L, hL.newline.weaken fresh⟩
  | @space before fresh c t t' hc hne _ ih =>
    have hpass := Stands.pass (w := [c]) hr
    have hpass' := Stands.pass (w := [c]) hr'
    rw [Stands.scan_white (w := [c]) hr (by simpa using hc),
      Stands.scan_white (w := [c]) hr' (by simpa using hc)]
    have habreast : Abreast (some c) false (r.pass [c] t) (r'.pass [c] t') :=
      Abreast.pass (w := [c]) hb (by simp) t t'
    refine (ih hpass hpass' habreast).imp fun s s' hs => ?_
    obtain ⟨L, hL⟩ := hs
    exact ⟨L, hL.same.weaken fresh⟩
  | @comment before fresh line t t' hl ht hrel ih =>
    have hempty : SameLine ([] ++ t) t' := hrel.sameLine
    obtain ⟨tail, htail, ht'⟩ := hempty.line (by simp) ht
    obtain rfl : t' = tail := ht'
    rw [Reader.scan_comment hl ht hr.rest, Reader.scan_comment hl htail hr'.rest]
    refine (ih hr.pass hr'.pass (hb.pass (by simp) t t')).map fun s s' hs => ?_
    rw [hr.position, hr'.position, hb.blank]
    exact (hs.comment hl _ _).weaken fresh
  | @token before fresh c cs p t' hc hne hp hrel ih =>
    have hname : afterName r'.before = afterName before :=
      hb.after.trans (congrArg afterName hb.before)
    obtain ⟨cs', hcs', hp'⟩ := next_kept hp hrel.sameLine hname
    have hgenuine := next_genuine hp
    have hcs := hgenuine.split
    rw [Reader.scan_token hc hne (hb.before ▸ hp) hr.rest,
      Reader.scan_token hc hne hp' (hr'.rest.trans hcs'.symm)]
    rw [hcs] at hr ⊢
    refine (ih hr.pass hr'.pass (hb.pass hgenuine.nonempty _ _)).map fun s s' hs => ?_
    rw [hr.position, hr'.position]
    refine (hs.token hgenuine.nonempty ?_ ?_ hrel.sameLine p.lexeme).weaken fresh
    · rw [hr.text, List.append_assoc]
    · rw [hr'.text, List.append_assoc]
  | @stuck before fresh c w t t' e hc hne hn hvalue hedited =>
    have hname : afterName r'.before = afterName before :=
      hb.after.trans (congrArg afterName hb.before)
    obtain ⟨e₁, he₁⟩ := Reader.scan_stuck hc hne (hb.before ▸ hn) hr.rest
    obtain ⟨e', hn'⟩ := next_stuck hn hvalue hedited hname
    obtain ⟨e₂, he₂⟩ := Reader.scan_stuck hc hne hn' hr'.rest
    rw [he₁, he₂]
    exact .fail

end Lexer

namespace Grammar

open Likeness

variable {c c' : Context} {L : Likeness c c'}

theorem consBlock_same {k k' : CommentLine} (hk : L.SameCommentLine k k')
    {bs bs' : List CommentBlock} (h : Forall₂ L.SameCommentBlock bs bs') :
    Forall₂ L.SameCommentBlock (CommentBlock.cons k bs) (CommentBlock.cons k' bs') := by
  have hline : [k.text] = [k'.text] := by rw [hk.text]
  cases h with
  | nil => exact .cons ⟨hline, hk.start, hk.stop⟩ .nil
  | @cons b b' bs bs' hb hbs =>
    have hbelow := line_below hk.start hb.start
    rw [CommentBlock.cons, CommentBlock.cons]
    by_cases h : k.start.line + 1 = b.start.line
    · rw [if_pos (by simpa using h.symm), if_pos (by simpa using (hbelow.mp h).symm)]
      refine .cons ⟨?_, hk.start, hb.stop⟩ hbs
      rw [hk.text, hb.lines]
    · rw [if_neg (by simpa using Ne.symm h), if_neg (by simpa using Ne.symm (mt hbelow.mpr h))]
      exact .cons ⟨hline, hk.start, hk.stop⟩ (.cons hb hbs)

/-- The comments that stand alone form corresponding blocks. -/
theorem blocks_same {ks ks' : List CommentLine} (h : Forall₂ L.SameCommentLine ks ks') :
    Forall₂ L.SameCommentBlock (CommentBlock.ofLines (ks.filter (·.alone)))
      (CommentBlock.ofLines (ks'.filter (·.alone))) := by
  induction h with
  | nil => exact .nil
  | @cons k k' ks ks' hk _ ih =>
    cases halone : k.alone with
    | true =>
      rw [List.filter_cons_of_pos halone, List.filter_cons_of_pos (hk.alone ▸ halone)]
      exact consBlock_same hk ih
    | false =>
      have halone' : k'.alone = false := hk.alone ▸ halone
      rw [List.filter_cons_of_neg (by simp [halone]), List.filter_cons_of_neg (by simp [halone'])]
      exact ih

end Grammar

end RubySig
