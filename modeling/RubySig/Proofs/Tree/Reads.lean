import RubySig.Proofs.Format.Legible
import RubySig.Tree.Grammar

/-!
What a parser does with a list of words: it takes them all, whatever follows, as long as the first
tokens behind them are such that it stops there.
-/
namespace RubySig

/-- A token with its characters. -/
abbrev Word := Lexeme × List Char

/-- A token is a word that stands in a text. -/
structure Token.At (text : List Char) (t : Token) (w : Word) : Prop where
  lexeme : t.lexeme = w.1
  place : ∃ front back, text = front ++ w.2 ++ back ∧ t.start = Position.first.after front ∧
    t.stop = t.start.after w.2

def lexemesOf (ws : List Word) : List Lexeme := ws.map (·.1)

@[simp] theorem lexemesOf_nil : lexemesOf [] = [] := rfl

@[simp] theorem lexemesOf_cons (w : Word) (ws : List Word) :
    lexemesOf (w :: ws) = w.1 :: lexemesOf ws := rfl

@[simp] theorem lexemesOf_append (ws vs : List Word) :
    lexemesOf (ws ++ vs) = lexemesOf ws ++ lexemesOf vs := List.map_append

namespace Grammar

variable {c : Context} {α β : Type}

/-- A parser takes exactly the words `ws` where `next` holds of the tokens behind them, and gives a
result with `R`. The comments that it takes are left open. -/
def Reads (c : Context) (p : Parser α) (ws : List Word) (next : List Lexeme → Prop)
    (R : α → Prop) : Prop :=
  ∀ (toks rest : List Token) (last : Option Token) (blocks : List CommentBlock),
    List.Forall₂ (Token.At c.text) toks ws → next (rest.map (·.lexeme)) →
      ∃ a left, p c ⟨toks ++ rest, last, blocks⟩ =
        .ok (a, ⟨rest, toks.getLast?.or last, left⟩) ∧ R a

theorem forall₂_split {r : Token → Word → Prop} {toks : List Token} {ws vs : List Word}
    (h : List.Forall₂ r toks (ws ++ vs)) :
    ∃ xs ys, toks = xs ++ ys ∧ List.Forall₂ r xs ws ∧ List.Forall₂ r ys vs := by
  induction ws generalizing toks with
  | nil => exact ⟨[], toks, rfl, .nil, h⟩
  | cons w ws ih =>
    cases h with
    | cons hw h =>
      obtain ⟨xs, ys, rfl, hx, hy⟩ := ih h
      exact ⟨_ :: xs, ys, rfl, .cons hw hx, hy⟩

theorem lexemes_eq {text : List Char} {toks : List Token} {ws : List Word}
    (h : List.Forall₂ (Token.At text) toks ws) : toks.map (·.lexeme) = lexemesOf ws := by
  induction h with
  | nil => rfl
  | cons ht _ ih => rw [List.map_cons, ih, lexemesOf_cons, ht.lexeme]

namespace Reads

variable {p : Parser α} {f : α → Parser β} {ws vs : List Word} {n m : List Lexeme → Prop}
  {R : α → Prop} {S : β → Prop}

theorem imp {n' : List Lexeme → Prop} {R' : α → Prop} (h : Reads c p ws n R) (hn : ∀ x, n' x → n x)
    (hR : ∀ a, R a → R' a) : Reads c p ws n' R' := by
  intro toks rest last blocks ht hrest
  obtain ⟨a, left, ha, hr⟩ := h toks rest last blocks ht (hn _ hrest)
  exact ⟨a, left, ha, hR a hr⟩

theorem pure {a : α} (h : R a) : Reads c (Pure.pure a) [] n R := by
  intro toks rest last blocks ht _
  cases ht
  exact ⟨a, blocks, rfl, h⟩

theorem bind (h : Reads c p ws n R) (k : ∀ a, R a → Reads c (f a) vs m S)
    (hn : ∀ x, m x → n (lexemesOf vs ++ x)) : Reads c (p >>= f) (ws ++ vs) m S := by
  intro toks rest last blocks ht hrest
  obtain ⟨xs, ys, rfl, hx, hy⟩ := forall₂_split ht
  have hnext : n ((ys ++ rest).map (·.lexeme)) := by
    rw [List.map_append, lexemes_eq hy]
    exact hn _ hrest
  obtain ⟨a, middle, ha, hr⟩ := h xs (ys ++ rest) last blocks hx hnext
  obtain ⟨b, left, hb, hs⟩ := k a hr ys rest (xs.getLast?.or last) middle hy hrest
  refine ⟨b, left, ?_, hs⟩
  change (p c ⟨xs ++ ys ++ rest, last, blocks⟩ >>= fun r => f r.1 c r.2) = _
  rw [List.append_assoc, ha]
  change f a c _ = _
  rw [hb, List.getLast?_append, Option.or_assoc]

/-- What comes first takes no words. -/
theorem before (h : Reads c p [] n R) (k : ∀ a, R a → Reads c (f a) vs m S)
    (hn : ∀ x, m x → n (lexemesOf vs ++ x)) : Reads c (p >>= f) vs m S :=
  h.bind k hn

/-- What follows the last words takes none. -/
theorem last (h : Reads c p ws n R) (k : ∀ a, R a → Reads c (f a) [] m S) (hn : ∀ x, m x → n x) :
    Reads c (p >>= f) ws m S := by
  rw [← List.append_nil ws]
  exact h.bind k hn

theorem here_bind {f : Position → Parser β} (k : ∀ q, Reads c (f q) ws n S) :
    Reads c (here >>= f) ws n S := by
  intro toks rest last blocks ht hrest
  exact k _ toks rest last blocks ht hrest

theorem span_bind {q : Position} {f : Option Span → Parser β} (k : ∀ l, Reads c (f l) ws n S) :
    Reads c (spanFrom q >>= f) ws n S := by
  intro toks rest last blocks ht hrest
  have hs : ∃ l, spanFrom q c ⟨toks ++ rest, last, blocks⟩ =
      .ok (l, ⟨toks ++ rest, last, blocks⟩) := by
    cases last with
    | none => exact ⟨_, rfl⟩
    | some t => exact ⟨_, rfl⟩
  obtain ⟨l, hl⟩ := hs
  obtain ⟨b, left, hb, hS⟩ := k l toks rest last blocks ht hrest
  refine ⟨b, left, ?_, hS⟩
  change (spanFrom q c ⟨toks ++ rest, last, blocks⟩ >>= fun r => f r.1 c r.2) = _
  rw [hl]
  exact hb

/-- What a parser does that looks at the next token may depend on a property of it alone. -/
theorem peek_of {f : Option Lexeme → Parser β} {P : Option Lexeme → Prop}
    (hP : ∀ x, n x → P (lexemesOf ws ++ x).head?) (k : ∀ l, P l → Reads c (f l) ws n S) :
    Reads c (peek >>= f) ws n S := by
  intro toks rest last blocks ht hrest
  have hl := hP _ hrest
  rw [← lexemes_eq ht, ← List.map_append, List.head?_map] at hl
  obtain ⟨b, left, hb, hS⟩ := k _ hl toks rest last blocks ht hrest
  exact ⟨b, left, hb, hS⟩

theorem peek_bind {f : Option Lexeme → Parser β} {l : Option Lexeme}
    (hl : ∀ x, n x → (lexemesOf ws ++ x).head? = l) (k : Reads c (f l) ws n S) :
    Reads c (peek >>= f) ws n S :=
  peek_of (P := (· = l)) hl fun _ h => by rw [h]; exact k

theorem peekAt_bind {f : Option Lexeme → Parser β} {l : Option Lexeme} {i : Nat}
    (hl : ∀ x, n x → (lexemesOf ws ++ x)[i]? = l) (k : Reads c (f l) ws n S) :
    Reads c (peekAt i >>= f) ws n S := by
  intro toks rest last blocks ht hrest
  obtain ⟨b, left, hb, hS⟩ := k toks rest last blocks ht hrest
  refine ⟨b, left, ?_, hS⟩
  change f ((toks ++ rest)[i]?.map (·.lexeme)) c ⟨toks ++ rest, last, blocks⟩ = _
  rw [← List.getElem?_map, List.map_append, lexemes_eq ht, hl _ hrest]
  exact hb

theorem isNext_bind {f : Bool → Parser β} {l : Lexeme} {b : Bool}
    (hl : ∀ x, n x → ((lexemesOf ws ++ x).head? == some l) = b) (k : Reads c (f b) ws n S) :
    Reads c (isNext l >>= f) ws n S := by
  intro toks rest last blocks ht hrest
  obtain ⟨a, left, ha, hS⟩ := k toks rest last blocks ht hrest
  refine ⟨a, left, ?_, hS⟩
  change f ((toks ++ rest).head?.map (·.lexeme) == some l) c ⟨toks ++ rest, last, blocks⟩ = _
  rw [← List.head?_map, List.map_append, lexemes_eq ht, hl _ hrest]
  exact ha

/-- What a parser looks up in the tokens that are left. -/
theorem get_bind {f : List Token → Parser β} (toks' : List Token → Prop)
    (hv : ∀ toks rest, List.Forall₂ (Token.At c.text) toks ws → n (rest.map (·.lexeme)) →
      toks' (toks ++ rest))
    (k : ∀ ts, toks' ts → Reads c (f ts) ws n S) :
    Reads c (get >>= fun s => f s.tokens) ws n S := by
  intro toks rest last blocks ht hrest
  exact k _ (hv toks rest ht hrest) toks rest last blocks ht hrest

theorem advance_bind {f : Unit → Parser β} {k : Nat} (hk : vs.length = k)
    (h : Reads c (f ()) ws n S) : Reads c (advance k >>= f) (vs ++ ws) n S := by
  intro toks rest last blocks ht hrest
  obtain ⟨xs, ys, rfl, hx, hy⟩ := forall₂_split ht
  obtain ⟨a, left, ha, hS⟩ := h ys rest (xs.getLast?.or last) blocks hy hrest
  refine ⟨a, left, ?_, hS⟩
  have hlen : xs.length = k := by rw [← hk, hx.length_eq]
  change f () c ⟨(xs ++ ys ++ rest).drop k,
    (((xs ++ ys ++ rest).take k).getLast?).or last, blocks⟩ = _
  rw [← hlen, List.append_assoc, List.drop_left, List.take_left, ha, List.getLast?_append,
    Option.or_assoc]

theorem advance_one {f : Unit → Parser β} {w : Word} (h : Reads c (f ()) ws n S) :
    Reads c (advance 1 >>= f) (w :: ws) n S :=
  have hw : [w].length = 1 := rfl
  advance_bind hw h

theorem advance_two {f : Unit → Parser β} {w v : Word} (h : Reads c (f ()) ws n S) :
    Reads c (advance 2 >>= f) (w :: v :: ws) n S :=
  have hw : [w, v].length = 2 := rfl
  advance_bind hw h

theorem advance_three {f : Unit → Parser β} {w v u : Word} (h : Reads c (f ()) ws n S) :
    Reads c (advance 3 >>= f) (w :: v :: u :: ws) n S :=
  have hw : [w, v, u].length = 3 := rfl
  advance_bind hw h

theorem eat_bind {f : Bool → Parser β} {l : Lexeme} {w : List Char}
    (h : Reads c (f true) ws n S) : Reads c (eat l >>= f) ((l, w) :: ws) n S := by
  intro toks rest last blocks ht hrest
  cases ht with
  | @cons t _ toks _ ht htoks =>
    obtain ⟨a, left, ha, hS⟩ := h toks rest (some t) blocks htoks hrest
    refine ⟨a, left, ?_, hS⟩
    have hl : (some t.lexeme == some l) = true := by rw [ht.lexeme]; simp
    have heat : eat l c ⟨t :: toks ++ rest, last, blocks⟩ =
        .ok (true, ⟨toks ++ rest, some t, blocks⟩) := by
      change (if (some t.lexeme == some l) = true then
        (advance 1 >>= fun _ => Pure.pure true : Parser Bool) else Pure.pure false) c _ = _
      rw [if_pos hl]
      rfl
    change (eat l c ⟨t :: toks ++ rest, last, blocks⟩ >>= fun r => f r.1 c r.2) = _
    rw [heat]
    change f true c _ = _
    rw [ha, List.getLast?_cons]
    cases toks.getLast? <;> rfl

theorem eat_miss {f : Bool → Parser β} {l : Lexeme}
    (hl : ∀ x, n x → (lexemesOf ws ++ x).head? ≠ some l) (h : Reads c (f false) ws n S) :
    Reads c (eat l >>= f) ws n S := by
  intro toks rest last blocks ht hrest
  obtain ⟨a, left, ha, hS⟩ := h toks rest last blocks ht hrest
  refine ⟨a, left, ?_, hS⟩
  have hne : ((toks ++ rest).head?.map (·.lexeme) == some l) = false := by
    rw [← List.head?_map, List.map_append, lexemes_eq ht]
    exact beq_false_of_ne (hl _ hrest)
  have heat : eat l c ⟨toks ++ rest, last, blocks⟩ = .ok (false, ⟨toks ++ rest, last, blocks⟩) := by
    change (if ((toks ++ rest).head?.map (fun t : Token => t.lexeme) == some l) = true then
      (advance 1 >>= fun _ => Pure.pure true : Parser Bool) else Pure.pure false) c _ = _
    rw [hne]
    rfl
  change (eat l c ⟨toks ++ rest, last, blocks⟩ >>= fun r => f r.1 c r.2) = _
  rw [heat]
  exact ha

theorem expect_bind {f : Unit → Parser β} {l : Lexeme} {w : List Char} {what : Missing}
    (h : Reads c (f ()) ws n S) : Reads c (expect l what >>= f) ((l, w) :: ws) n S := by
  have : (expect l what >>= f) = (eat l >>= fun b => (unless b do failMissing what) >>= f) := by
    rw [expect, bind_assoc]
  rw [this]
  exact eat_bind h

end Reads

section Lists

variable {item : Parser α} {S : β → α → Prop} {N : List Word → List Lexeme → Prop}
  {m : List Lexeme → Prop}

/-- Items with a separator between them are read one by one; `N` says where each of them stops. -/
theorem reads_separated {sep : Lexeme} {w : List Char} (hsep : ∀ ws x, N ws (sep :: x))
    {wss : List (List Word)} {bs : List β}
    (h : List.Forall₂ (fun ws b => Reads c item ws (N ws) (S b)) wss bs) (hne : wss ≠ [])
    (hm : ∀ ws ∈ wss.getLast?, ∀ x, m x → N ws x) (hs : ∀ x, m x → x.head? ≠ some sep) (fuel : Nat)
    (hf : wss.length ≤ fuel) :
    Reads c (separated sep item fuel) ([(sep, w)].intercalate wss) m (List.Forall₂ S bs) := by
  induction h generalizing fuel with
  | nil => exact absurd rfl hne
  | @cons ws b wss bs hw hrest ih =>
    cases fuel with
    | zero => cases hf
    | succ fuel =>
      rw [separated]
      cases wss with
      | nil =>
        cases hrest
        rw [List.intercalate_singleton, ← List.append_nil ws]
        refine hw.bind (fun a ha => ?_) fun x hx => hm ws rfl x hx
        exact .eat_miss hs (.pure (.cons ha .nil))
      | cons vs wss =>
        rw [List.intercalate_cons_cons, List.append_assoc]
        refine hw.bind (fun a ha => ?_) fun x _ => hsep ws _
        refine .eat_bind ?_
        rw [if_pos rfl, ← List.append_nil (List.intercalate _ _)]
        have hlast : (ws :: vs :: wss).getLast? = (vs :: wss).getLast? := List.getLast?_cons_cons
        refine (ih (by simp) (hlast ▸ hm) fuel (by simpa using hf)).bind (fun as has => ?_)
          fun x hx => hx
        exact .pure (.cons ha has)

/-- Items with commas up to a closing token are read one by one. -/
theorem reads_listed {close : Lexeme} {w : List Char} (hcomma : ∀ ws x, N ws (.mark .comma :: x))
    (hclose : ∀ ws x, N ws (close :: x)) (hc : close ≠ .mark .comma) {wss : List (List Word)}
    {bs : List β} (h : List.Forall₂ (fun ws b => Reads c item ws (N ws) (S b)) wss bs)
    (hne : ∀ ws ∈ wss, ∃ l, (lexemesOf ws).head? = some l ∧ l ≠ close) (fuel : Nat)
    (hf : wss.length < fuel) :
    Reads c (listed close item fuel) ([(.mark .comma, w)].intercalate wss)
      (fun x => x.head? = some close) (List.Forall₂ S bs) := by
  induction h generalizing fuel with
  | nil =>
    cases fuel with
    | zero => cases hf
    | succ fuel =>
      rw [listed]
      refine .isNext_bind (b := true) (fun x hx => ?_) (.pure .nil)
      rw [List.intercalate_nil, lexemesOf_nil, List.nil_append, hx]
      simp
  | @cons ws b wss bs hw hrest ih =>
    cases fuel with
    | zero => cases hf
    | succ fuel =>
      obtain ⟨l, hl, hlc⟩ := hne ws (List.mem_cons_self ..)
      have hhead (vs : List Word) (x : List Lexeme) :
          ((lexemesOf (ws ++ vs) ++ x).head? == some close) = false := by
        rw [lexemesOf_append, List.append_assoc, List.head?_append, hl]
        simpa using hlc
      rw [listed]
      cases wss with
      | nil =>
        cases hrest
        rw [List.intercalate_singleton, ← List.append_nil ws]
        refine .isNext_bind (b := false) (fun x _ => hhead [] x) ?_
        refine hw.bind (fun a ha => ?_) fun x hx => ?_
        · refine .eat_miss (fun x hx => ?_) (.pure (.cons ha .nil))
          rw [lexemesOf_nil, List.nil_append, hx]
          simpa using hc
        · rw [lexemesOf_nil, List.nil_append]
          obtain ⟨y, rfl⟩ : ∃ y, x = close :: y := by
            cases x with
            | nil => cases hx
            | cons d y => cases hx; exact ⟨y, rfl⟩
          exact hclose ws y
      | cons vs wss =>
        rw [List.intercalate_cons_cons, List.append_assoc]
        refine .isNext_bind (b := false) (fun x _ => hhead _ x) ?_
        refine hw.bind (fun a ha => ?_) fun x _ => hcomma ws _
        refine .eat_bind ?_
        rw [if_pos rfl, ← List.append_nil (List.intercalate _ _)]
        refine (ih (fun us hu => hne us (List.mem_cons_of_mem _ hu)) fuel (by simpa using hf)).bind
          (fun as has => ?_) fun x hx => hx
        exact .pure (.cons ha has)

end Lists

end Grammar
end RubySig
