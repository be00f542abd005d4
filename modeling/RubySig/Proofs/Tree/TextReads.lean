import RubySig.Format.Text
import RubySig.Proofs.Format.Show
import RubySig.Proofs.Tree.NameReads

/-!
A document that shows neat pieces is written as a text whose tokens are the words of the pieces, and
what parsers do with the tokens of pieces: unlike words, pieces tell how far apart tokens stand.
-/
namespace RubySig

open Format (Piece Realizes Shows Neat wordsOf)
open Lexer (Chunk Reader scanOf)

/-- Tokens are those of the end of a text that pieces come out as. -/
def Stands (text : List Char) (ps : List Piece) (toks : List Token) : Prop :=
  ∃ front cs r, Realizes ps cs ∧ text = front ++ Chunk.textOf cs ∧
    r.position = Position.first.after front ∧ toks = (scanOf r cs).tokens

namespace Stands

variable {text : List Char} {ps qs : List Piece} {toks : List Token}

theorem nil (h : Stands text [] toks) : toks = [] := by
  obtain ⟨front, cs, r, hc, -, -, rfl⟩ := h
  cases hc
  rfl

/-- Reading on behind a chunk. -/
theorem behind {front : List Char} {chunk : Chunk} {cs : List Chunk} {r : Reader}
    (hc : Realizes ps cs) (ht : text = front ++ Chunk.textOf (chunk :: cs))
    (hr : r.position = Position.first.after front) :
    Stands text ps (scanOf (r.pass chunk.text (Chunk.textOf cs)) cs).tokens := by
  refine ⟨front ++ chunk.text, cs, _, hc, ?_, ?_, rfl⟩
  · rw [ht, Chunk.textOf_cons, List.append_assoc]
  · rw [Reader.position_pass, hr, Position.after_append]

theorem gap {g : Format.Gap} (h : Stands text (.gap g :: ps) toks) : Stands text ps toks := by
  obtain ⟨front, cs, r, hc, ht, hr, rfl⟩ := h
  cases hc with
  | gap _ hc => exact behind hc ht hr

theorem remark {line : List Char} (h : Stands text (.remark line :: ps) toks) :
    Stands text ps toks := by
  obtain ⟨front, cs, r, hc, ht, hr, rfl⟩ := h
  cases hc with
  | @remark _ n _ cs hc =>
    obtain ⟨front', cs', r', hc', ht', hr', htoks⟩ :
        Stands text (.gap .line :: ps) _ := behind (.gap (g := .line) ⟨n, rfl⟩ hc) ht hr
    exact (show Stands text (.gap .line :: ps) _ from ⟨front', cs', r', hc', ht', hr', htoks⟩).gap

/-- The first word is the first token. -/
theorem word {l : Lexeme} {w : List Char} (h : Stands text (.word l w :: ps) toks) :
    ∃ t rest, toks = t :: rest ∧ t.At text (l, w) ∧ Stands text ps rest := by
  obtain ⟨front, cs, r, hc, ht, hr, rfl⟩ := h
  cases hc with
  | @word _ _ _ cs hc =>
    have htext : text = front ++ w ++ Chunk.textOf cs := by
      rw [ht, Chunk.textOf_cons, List.append_assoc]
      rfl
    exact ⟨_, _, rfl, ⟨rfl, front, Chunk.textOf cs, htext, hr, rfl⟩, behind hc ht hr⟩

theorem split (h : Stands text (ps ++ qs) toks) :
    ∃ xs ys, toks = xs ++ ys ∧ List.Forall₂ (Token.At text) xs (wordsOf ps) ∧
    Stands text qs ys := by
  induction ps generalizing toks with
  | nil => exact ⟨[], toks, rfl, .nil, h⟩
  | cons p ps ih =>
    cases p with
    | word l w =>
      obtain ⟨t, rest, rfl, ht, hrest⟩ := h.word
      obtain ⟨xs, ys, rfl, hx, hy⟩ := ih hrest
      exact ⟨t :: xs, ys, rfl, .cons ht hx, hy⟩
    | gap g => exact ih h.gap
    | remark line => exact ih h.remark

theorem forall₂ (h : Stands text ps toks) : List.Forall₂ (Token.At text) toks (wordsOf ps) := by
  rw [← List.append_nil ps] at h
  obtain ⟨xs, ys, rfl, hx, hy⟩ := h.split
  rw [hy.nil, List.append_nil]
  exact hx

theorem lexemes (h : Stands text ps toks) : toks.map (·.lexeme) = lexemesOf (wordsOf ps) :=
  Grammar.lexemes_eq h.forall₂

end Stands

/-- Whatever the settings, the written text of neat pieces is read as their words. -/
theorem scan_render {docs : List Doc} {ps : List Piece} (hs : Shows docs ps) (hn : Neat ps)
    (settings : Settings) : ∃ scan, Lexer.scan (settings.render docs).toList = .ok scan ∧
      Stands (settings.render docs).toList ps scan.tokens := by
  obtain ⟨ss, hl, ht⟩ := Doc.render_lays settings.maxWidth (Doc.grouped docs)
  obtain ⟨cs, hc, htext⟩ := (hs.grouped 0 ss hl).realizes hn.sound
  have hlegible := hc.legible hn.sound hn.chain none (by simp)
  have hall : (settings.render docs).toList = Chunk.textOf cs := ht.trans htext.symm
  refine ⟨scanOf (.start (Chunk.textOf cs)) cs, ?_, ?_⟩
  · rw [hall]
    exact Lexer.scan_textOf hlegible
  · exact ⟨[], cs, _, hc, hall, rfl, rfl⟩

namespace Grammar

variable {c : Context} {α β : Type} {p : Parser α} {f : α → Parser β} {ps qs : List Piece}
  {n m : List Piece → Prop} {R : α → Prop} {S : β → Prop}

/-- A parser takes exactly the tokens of the pieces `ps` where `next` holds of the pieces behind
them, and gives a result with `R`. -/
def Takes (c : Context) (p : Parser α) (ps : List Piece) (next : List Piece → Prop)
    (R : α → Prop) : Prop :=
  ∀ (qs : List Piece) (toks : List Token) (last : Option Token) (blocks : List CommentBlock),
    next qs → Stands c.text (ps ++ qs) toks →
      ∃ a rest last' left, p c ⟨toks, last, blocks⟩ = .ok (a, ⟨rest, last', left⟩) ∧
        Stands c.text qs rest ∧ R a

/-- What takes words takes the pieces that have them. -/
theorem Reads.takes {next : List Lexeme → Prop} (h : Reads c p (wordsOf ps) next R) :
    Takes c p ps (fun qs => next (lexemesOf (wordsOf qs))) R := by
  intro qs toks last blocks hn hs
  obtain ⟨xs, ys, rfl, hx, hy⟩ := hs.split
  rw [← hy.lexemes] at hn
  obtain ⟨a, left, ha, hr⟩ := h xs ys last blocks hx hn
  exact ⟨a, ys, _, left, ha, hy, hr⟩

theorem Reads.takes_nothing {next : List Lexeme → Prop} (h : Reads c p [] next R) :
    Takes c p [] (fun qs => next (lexemesOf (wordsOf qs))) R := by
  have hwords : Reads c p (wordsOf []) next R := h
  exact hwords.takes

theorem Reads.takes_word {next : List Lexeme → Prop} {l : Lexeme} {w : List Char}
    (h : Reads c p [(l, w)] next R) :
    Takes c p [.word l w] (fun qs => next (lexemesOf (wordsOf qs))) R := by
  have hwords : Reads c p (wordsOf [.word l w]) next R := h
  exact hwords.takes

namespace Takes

theorem imp {n' : List Piece → Prop} {R' : α → Prop} (h : Takes c p ps n R)
    (hn : ∀ x, n' x → n x) (hR : ∀ a, R a → R' a) : Takes c p ps n' R' := by
  intro qs toks last blocks hq hs
  obtain ⟨a, rest, last', left, ha, hrest, hr⟩ := h qs toks last blocks (hn _ hq) hs
  exact ⟨a, rest, last', left, ha, hrest, hR a hr⟩

theorem pure {a : α} (h : R a) : Takes c (Pure.pure a) [] n R := by
  intro qs toks last blocks _ hs
  exact ⟨a, toks, last, blocks, rfl, hs, h⟩

theorem bind (h : Takes c p ps n R) (k : ∀ a, R a → Takes c (f a) qs m S)
    (hn : ∀ x, m x → n (qs ++ x)) : Takes c (p >>= f) (ps ++ qs) m S := by
  intro rs toks last blocks hr hs
  rw [List.append_assoc] at hs
  obtain ⟨a, rest, last', left, ha, hrest, hR⟩ := h (qs ++ rs) toks last blocks (hn _ hr) hs
  obtain ⟨b, rest', last'', left', hb, hrest', hS⟩ := k a hR rs rest last' left hr hrest
  refine ⟨b, rest', last'', left', ?_, hrest', hS⟩
  change (p c ⟨toks, last, blocks⟩ >>= fun r => f r.1 c r.2) = _
  rw [ha]
  exact hb

/-- What comes first takes nothing. -/
theorem before (h : Takes c p [] n R) (k : ∀ a, R a → Takes c (f a) qs m S)
    (hn : ∀ x, m x → n (qs ++ x)) : Takes c (p >>= f) qs m S :=
  h.bind k hn

/-- What follows the last pieces takes nothing. -/
theorem last (h : Takes c p ps n R) (k : ∀ a, R a → Takes c (f a) [] m S) (hn : ∀ x, m x → n x) :
    Takes c (p >>= f) ps m S := by
  rw [← List.append_nil ps]
  exact h.bind k hn

/-- Gaps in front of pieces do not matter. -/
theorem gap {g : Format.Gap} (h : Takes c p ps n R) : Takes c p (.gap g :: ps) n R := by
  intro qs toks last blocks hq hs
  exact h qs toks last blocks hq hs.gap

theorem remark {line : List Char} (h : Takes c p ps n R) : Takes c p (.remark line :: ps) n R := by
  intro qs toks last blocks hq hs
  exact h qs toks last blocks hq hs.remark

end Takes

/-- Tokens that a reader of declarations takes are read as a file. -/
theorem file_of_takes {text : List Char} {scan : Lexer.Scan} (hs : Stands text ps scan.tokens)
    {R : List Item → Prop}
    (h : Takes ⟨text, scan.finish⟩ (declarations (fuelFor (wordsOf ps).length)
      (fuelFor (wordsOf ps).length)) ps (· = []) R) (blocks : List CommentBlock) :
    ∃ items left, file text scan blocks = .ok (items, left) ∧ R items := by
  obtain ⟨items, rest, last, left, hrun, -, hitems⟩ := h [] scan.tokens none blocks rfl
    (by rwa [List.append_nil])
  refine ⟨items, left, ?_, hitems⟩
  rw [file, hs.forall₂.length_eq]
  simp only [ReaderT.run, StateT.run, hrun]

end Grammar

/-- A document whose pieces are taken as declarations is written as a text that is read as them. -/
theorem Root.read_takes {docs : List Doc} {ps : List Piece} (hs : Shows docs ps) (hn : Neat ps)
    (settings : Settings) {R : List Item → Prop}
    (h : ∀ finish, Grammar.Takes ⟨(settings.render docs).toList, finish⟩
      (Grammar.declarations (Grammar.fuelFor (wordsOf ps).length)
        (Grammar.fuelFor (wordsOf ps).length)) ps (· = []) R) :
    ∃ root, (Root.read (settings.render docs)).result = .ok root ∧ R root.declarations := by
  obtain ⟨scan, hscan, htokens⟩ := scan_render hs hn settings
  obtain ⟨items, left, hitems, hR⟩ := Grammar.file_of_takes htokens (h scan.finish)
    (CommentBlock.ofLines (scan.comments.filter (·.alone)))
  refine ⟨⟨some (Root.wholeSpan (settings.render docs).toList scan), items⟩, ?_, hR⟩
  simp only [Root.read, hscan, hitems]

end RubySig
