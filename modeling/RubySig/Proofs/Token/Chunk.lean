import RubySig.Token.Lexer

/-!
Texts cut into chunks: tokens, white space and comments. When each token chunk can be split off in
front of the chunks behind it, the text is read as these tokens and comments.
-/
namespace RubySig

theorem Position.line_after (p : Position) (cs : List Char) :
    (p.after cs).line = p.line + cs.count '\n' := by
  induction cs generalizing p with
  | nil => rfl
  | cons c cs ih =>
    change ((p.step c).after cs).line = _
    rw [ih, step, List.count_cons]
    cases c == '\n' with
    | true => simp only [if_true]; omega
    | false => simp only [Bool.false_eq_true, if_false, Nat.add_zero]

namespace Lexer

section Decidable

variable (p : Char → Prop) [DecidablePred p]

/-- A property of all characters of a list is decided by a walk over the list; that characters can
be enumerated is no reason to try each of them. -/
instance (priority := 2000) decidableForallMem (cs : List Char) : Decidable (∀ c, c ∈ cs → p c) :=
  List.decidableBAll p cs

instance (priority := 2000) decidableForallMem? (c? : Option Char) :
    Decidable (∀ c, c ∈ c? → p c) :=
  Option.decidableForallMem c?

end Decidable

/-- A stretch of text: a token and its characters, white space, or a comment behind its `#`. -/
inductive Chunk where
  | token (lexeme : Lexeme) (text : List Char)
  | white (text : List Char)
  | comment (line : List Char)

namespace Chunk

def text : Chunk → List Char
  | .token _ w => w
  | .white s => s
  | .comment line => '#' :: line

def textOf (cs : List Chunk) : List Char := cs.flatMap text

@[simp] theorem textOf_nil : textOf [] = [] := rfl

@[simp] theorem textOf_cons (c : Chunk) (cs : List Chunk) :
    textOf (c :: cs) = c.text ++ textOf cs :=
  List.flatMap_cons

@[simp] theorem textOf_append (cs ds : List Chunk) : textOf (cs ++ ds) = textOf cs ++ textOf ds :=
  List.flatMap_append

end Chunk

/-- The first token of `w ++ rest` is `l`, written `w`. -/
def Splits (before : Option Char) (l : Lexeme) (w rest : List Char) : Prop :=
  ∃ c cs, w = c :: cs ∧ isSpace c = false ∧ c ≠ '#' ∧ next before c (cs ++ rest) = .ok ⟨l, w, rest⟩

/-- Every chunk can be split off where it stands. -/
def Legible (before : Option Char) : List Chunk → Prop
  | [] => True
  | .token l w :: cs => Splits before l w (Chunk.textOf cs) ∧ Legible (w.getLast?.or before) cs
  | .white s :: cs => (∀ c ∈ s, isSpace c = true) ∧ Legible (s.getLast?.or before) cs
  | .comment line :: cs => '\n' ∉ line ∧ (∀ c ∈ (Chunk.textOf cs).head?, c = '\n') ∧
      Legible (('#' :: line).getLast?.or before) cs

/-- The tokens and comments of chunks that follow a place. -/
def scanOf (r : Reader) : List Chunk → Scan
  | [] => ⟨[], [], r.position⟩
  | .token l w :: cs =>
    let behind := r.pass w (Chunk.textOf cs)
    let more := scanOf behind cs
    { more with tokens := ⟨l, r.position, behind.position⟩ :: more.tokens }
  | .white s :: cs => scanOf (r.pass s (Chunk.textOf cs)) cs
  | .comment line :: cs =>
    let behind := r.pass ('#' :: line) (Chunk.textOf cs)
    let more := scanOf behind cs
    { more with comments :=
      ⟨commentText line, r.position, behind.position, r.blank⟩ :: more.comments }

theorem Reader.pass_append (r : Reader) (xs ys zs rest : List Char) :
    (r.pass xs zs).pass ys rest = r.pass (xs ++ ys) rest := by
  simp [Reader.pass, Position.after_append, List.getLast?_append, Option.or_assoc]

theorem Reader.pass_nil (r : Reader) : r.pass [] r.rest = r := rfl

@[simp] theorem Reader.rest_pass (r : Reader) (xs rest : List Char) :
    (r.pass xs rest).rest = rest :=
  rfl

@[simp] theorem Reader.before_pass (r : Reader) (xs rest : List Char) :
    (r.pass xs rest).before = xs.getLast?.or r.before := rfl

@[simp] theorem Reader.position_pass (r : Reader) (xs rest : List Char) :
    (r.pass xs rest).position = r.position.after xs := rfl

/-- White space is passed over one character after the other. -/
theorem scanFrom_white (s rest : List Char) (hs : ∀ c ∈ s, isSpace c = true) (fuel : Nat)
    (r : Reader) (hr : r.rest = s ++ rest) :
    scanFrom (s.length + fuel) r = scanFrom fuel (r.pass s rest) := by
  induction s generalizing r with
  | nil =>
    obtain rfl : r.rest = rest := hr
    rw [Reader.pass_nil, List.length_nil, Nat.zero_add]
  | cons c s ih =>
    have hc : isSpace c = true := hs c (List.mem_cons_self ..)
    rw [show (c :: s).length + fuel = (s.length + fuel) + 1 by simp; omega, scanFrom, hr]
    simp only [List.cons_append, hc, if_true]
    rw [ih (fun d hd => hs d (List.mem_cons_of_mem _ hd)) _ rfl, Reader.pass_append]
    rfl

theorem takeWhile_line {line rest : List Char} (hl : '\n' ∉ line)
    (hr : ∀ c ∈ rest.head?, c = '\n') :
    (line ++ rest).takeWhile (· != '\n') = line ∧ (line ++ rest).dropWhile (· != '\n') = rest := by
  induction line with
  | nil =>
    cases rest with
    | nil => exact ⟨rfl, rfl⟩
    | cons c rest => obtain rfl := hr c rfl; exact ⟨rfl, rfl⟩
  | cons c line ih =>
    have hc : (c != '\n') = true := by
      simpa using fun h : c = '\n' => hl (h ▸ List.mem_cons_self ..)
    obtain ⟨h₁, h₂⟩ := ih fun h => hl (List.mem_cons_of_mem _ h)
    exact ⟨by simp [hc, h₁], by simp [hc, h₂]⟩

/-- Legible chunks are read as what they are. -/
theorem scanFrom_chunks (cs : List Chunk) (r : Reader) (h : Legible r.before cs)
    (hr : r.rest = Chunk.textOf cs) (fuel : Nat) (hf : r.rest.length ≤ fuel) :
    scanFrom fuel r = .ok (scanOf r cs) := by
  induction cs generalizing r fuel with
  | nil =>
    rw [Chunk.textOf_nil] at hr
    cases fuel with
    | zero => rfl
    | succ fuel => simp only [scanFrom, hr, scanOf]
  | cons c cs ih =>
    rw [Chunk.textOf_cons] at hr
    cases c with
    | white s =>
      obtain ⟨hs, h⟩ := h
      rw [hr, List.length_append] at hf
      obtain ⟨fuel, rfl⟩ := Nat.exists_eq_add_of_le (Nat.le_trans (Nat.le_add_right _ _) hf)
      change s.length + _ ≤ s.length + fuel at hf
      change scanFrom (s.length + fuel) r = _
      rw [scanFrom_white s _ hs fuel r hr, ih _ h rfl fuel (by simpa using hf), scanOf]
    | comment line =>
      obtain ⟨hl, hn, h⟩ := h
      obtain ⟨h₁, h₂⟩ := takeWhile_line hl hn
      rw [hr] at hf
      cases fuel with
      | zero => exact absurd hf (by simp [Chunk.text])
      | succ fuel =>
        have hk : (Chunk.textOf cs).length ≤ fuel := by
          simp [Chunk.text] at hf
          omega
        rw [scanFrom, hr]
        simp only [Chunk.text, List.cons_append, h₁, h₂]
        rw [if_neg (by decide), if_pos (by decide), ih _ h rfl fuel hk]
        rfl
    | token l w =>
      obtain ⟨⟨d, w, rfl, hd, hash, hn⟩, h⟩ := h
      rw [hr] at hf
      cases fuel with
      | zero => exact absurd hf (by simp [Chunk.text])
      | succ fuel =>
        have hk : (Chunk.textOf cs).length ≤ fuel := by
          simp [Chunk.text] at hf
          omega
        rw [scanFrom, hr]
        simp only [Chunk.text, List.cons_append, hn]
        rw [if_neg (by simp [hd]), if_neg (by simpa using hash), ih _ h rfl fuel hk]
        rfl

/-- A text made of legible chunks is read as their tokens and comments. -/
theorem scan_textOf {cs : List Chunk} (h : Legible none cs) :
    scan (Chunk.textOf cs) = .ok (scanOf (.start (Chunk.textOf cs)) cs) :=
  scanFrom_chunks cs _ h rfl _ (Nat.le_refl _)

end Lexer
end RubySig
