import RubySig.Proofs.Format.TyNeat
import RubySig.Proofs.Token.Line
import RubySig.Proofs.Tree.ItemFormed

/-! Neighbours fit in the annotations and the comments above an item, and in front of what they
stand above. -/
namespace RubySig.Format

open Piece (firm Joins)

theorem closing_solid {opening closing : Char} (h : Lexer.closing? opening = some closing) :
    Doc.isTrailing closing = false := by
  unfold Lexer.closing? at h
  split at h <;> cases h <;> decide

/-- An annotation can be read from what one like it was read from. -/
theorem spelled_note {text : String} {w : List Char} (h : (Lexeme.note text).Taken w) :
    Spelled (.note text) w := by
  obtain ⟨opening, closing, body, hc, hbody, rfl, rfl⟩ := h
  constructor
  · intro c hlast
    rw [List.getLast?_append] at hlast
    cases hlast
    exact closing_solid hc
  · intro before rest _ _
    refine ⟨'%', 'a' :: opening :: body ++ [closing], rfl, by decide, by decide, ?_⟩
    have hplain : ∀ c ∈ body, (c != closing) = true :=
      fun c hm => bne_iff_ne.mpr fun he => hbody (he ▸ hm)
    have hstop : ∀ c ∈ (closing :: rest).head?, (c != closing) = false := by
      rintro c ⟨⟩
      simp
    obtain ⟨h₁, h₂⟩ := takeWhile_append hplain hstop
    have hnote : Lexer.noteAt opening closing (body ++ closing :: rest) =
        .ok ⟨.note (String.ofList (Text.strip body)),
          '%' :: 'a' :: opening :: body ++ [closing], rest⟩ := by
      rw [Lexer.noteAt, h₂]
      simp only [h₁]
    have hchars : 'a' :: opening :: body ++ [closing] ++ rest =
        'a' :: opening :: (body ++ closing :: rest) := by simp
    have hstart : Lexer.noteStart? ('a' :: opening :: (body ++ closing :: rest)) =
        some (opening, closing, body ++ closing :: rest) := Lexer.noteStart_eq.mpr ⟨rfl, hc⟩
    rw [hchars, Lexer.next_note hstart, hnote]

/-- What begins with a character that stays keeps all its characters. -/
theorem dropWhile_stays {p : Char → Bool} {cs : List Char} (h : ∀ c ∈ cs.head?, p c = false) :
    cs.dropWhile p = cs := by
  cases cs with
  | nil => rfl
  | cons c cs => rw [List.dropWhile_cons_of_neg (by simp [h c rfl])]

theorem dropWhile_head {p : Char → Bool} (cs : List Char) :
    ∀ c ∈ (cs.dropWhile p).head?, p c = false := by
  intro c hc
  have h := List.head?_dropWhile_not p cs
  rwa [Option.mem_def.mp hc] at h

theorem strip_strip (cs : List Char) : Text.strip (Text.strip cs) = Text.strip cs := by
  have hprefix : Text.strip cs <+: cs.dropWhile Text.isBlank := by
    rw [Text.strip, ← List.reverse_suffix, List.reverse_reverse]
    exact List.dropWhile_suffix Text.isBlank
  have hhead : ∀ c ∈ (Text.strip cs).head?, Text.isBlank c = false := by
    intro c hc
    obtain ⟨more, hmore⟩ := hprefix
    refine dropWhile_head cs c ?_
    rw [← hmore, List.head?_append, Option.mem_def.mp hc]
    rfl
  have hstays : (Text.strip cs).dropWhile Text.isBlank = Text.strip cs := dropWhile_stays hhead
  have hback : (Text.strip cs).reverse =
      (cs.dropWhile Text.isBlank).reverse.dropWhile Text.isBlank := by
    rw [Text.strip, List.reverse_reverse]
  conv =>
    lhs; rw [Text.strip, hstays, hback, dropWhile_stays (dropWhile_head _), ← hback,
      List.reverse_reverse]

theorem braced_taken {text : String} (hs : Text.strip text.toList = text.toList)
    (hb : '\x7d' ∉ text.toList) :
    (Lexeme.note text).Taken ('%' :: 'a' :: '\x7b' :: text.toList ++ ['\x7d']) :=
  ⟨'\x7b', '\x7d', text.toList, rfl, hb, rfl, by rw [hs, String.ofList_toList]⟩

/-- An annotation is printed between braces, or as it stands in the source where it has a brace in
it. -/
theorem noteChars_taken {c : Context} {n : Note} (h : n.Written c.source) :
    (Lexeme.note n.text).Taken (noteChars c n) := by
  unfold noteChars
  rcases h with h | ⟨span, hspan, htaken⟩
  · rw [h.location]
    exact braced_taken h.stripped h.braceFree.2
  · rw [hspan]
    dsimp only
    split
    case isTrue => exact htaken
    case isFalse hbrace =>
      obtain ⟨_, _, body, _, _, _, hs⟩ := htaken
      have hstripped : Text.strip n.text.toList = n.text.toList := by
        rw [hs, String.toList_ofList, strip_strip]
      refine braced_taken hstripped fun hm => hbrace (List.any_eq_true.mpr ⟨_, hm, rfl⟩)

theorem compact_note {c : Context} {n : Note} (h : n.Written c.source) :
    Compact .plain false [notePiece c n] := by
  have htaken := noteChars_taken h
  refine .word (spelled_note htaken) ⟨?_, fun he => by cases he⟩ ⟨fun _ _ => rfl, fun _ => rfl⟩
  obtain ⟨_, _, _, -, -, hw, -⟩ := htaken
  rw [hw]
  rintro ⟨⟩

/-- Annotations in front of a signature. -/
theorem notes_opening {c : Context} {inner : Front} {notes : List Note}
    (h : ∀ n ∈ notes, n.Written c.source) :
    Opening .plain inner (notes.flatMap fun n => [notePiece c n, .gap .blank]) := by
  induction notes with
  | nil => exact .nil _ _
  | cons n notes ih =>
    have hn := compact_note (h n (List.mem_cons_self ..))
    have hrest := ih fun m hm => h m (List.mem_cons_of_mem _ hm)
    rw [List.flatMap_cons]
    cases notes with
    | nil =>
      rw [List.flatMap_nil, List.append_nil]
      exact hn.opening_blank
    | cons m notes =>
      have hfirst : Opening .plain .plain ([notePiece c n] ++ [.gap .blank]) := hn.opening_blank
      exact hfirst.append hrest (by simp)

/-- No part of a split text holds the separator. -/
theorem not_mem_of_mem_splitOn {c : Char} {cs : List Char} : ∀ part ∈ cs.splitOn c, c ∉ part := by
  induction cs with
  | nil => simp
  | cons x cs ih =>
    rw [List.splitOn, List.splitOnP_cons_eq_if_modifyHead]
    split
    case isTrue => exact List.forall_mem_cons.mpr ⟨List.not_mem_nil, ih⟩
    case isFalse hx =>
      obtain ⟨part, parts, hp⟩ : ∃ part parts, cs.splitOn c = part :: parts :=
        List.exists_cons_of_ne_nil (List.splitOn_ne_nil c cs)
      rw [hp] at ih
      rw [List.splitOn] at hp
      rw [hp, List.modifyHead_cons]
      refine List.forall_mem_cons.mpr ⟨?_, fun q hq => ih q (List.mem_cons_of_mem _ hq)⟩
      rw [List.mem_cons, not_or]
      exact ⟨fun h => hx (by simp [h]), ih part (List.mem_cons_self ..)⟩

theorem remarks_chain (lines : List (List Char)) : (firm (lines.map .remark)).IsChain Joins := by
  induction lines with
  | nil => exact .nil
  | cons line lines ih =>
    refine List.isChain_cons.mpr ⟨?_, ih⟩
    cases lines with
    | nil => simp
    | cons next lines =>
      rintro q ⟨⟩
      trivial

theorem neat_remarks (comment : Option Comment) : Neat (remarkPieces comment) := by
  cases comment with
  | none => exact .nil
  | some comment =>
    refine ⟨fun p hp => ?_, remarks_chain _⟩
    obtain ⟨line, hl, rfl⟩ := List.mem_map.mp hp
    exact not_mem_of_mem_splitOn line hl

theorem neat_notes (c : Context) {notes : List Note} (h : ∀ n ∈ notes, n.Written c.source) :
    Neat (notesPieces c notes) := by
  induction notes with
  | nil => exact .nil
  | cons n notes ih =>
    have hn := (compact_note (h n (List.mem_cons_self ..))).neat
    rw [notesPieces, List.flatMap_cons]
    refine (hn.append (.gap .line) (meets_gap _ _)).append
      (ih fun m hm => h m (List.mem_cons_of_mem _ hm)) ?_
    rintro p ⟨⟩ q hq
    cases notes with
    | nil => cases hq
    | cons m notes =>
      cases hq
      trivial

/-- Behind a line end or a comment line stands anything. -/
theorem meets_line {ps qs : List Piece}
    (h : ∀ p ∈ (firm ps).getLast?, p = .gap .line ∨ ∃ line, p = .remark line) : Meets ps qs := by
  intro p hp q _
  rcases h p hp with rfl | ⟨line, rfl⟩
  · cases q <;> trivial
  · cases q <;> trivial

theorem remarks_end (comment : Option Comment) :
    ∀ p ∈ (firm (remarkPieces comment)).getLast?, p = .gap .line ∨ ∃ line, p = .remark line := by
  intro p hp
  cases comment with
  | none => cases hp
  | some comment =>
    have hm := List.mem_of_mem_filter (List.mem_of_getLast? hp)
    obtain ⟨line, -, rfl⟩ := List.mem_map.mp hm
    exact .inr ⟨line, rfl⟩

theorem notes_end (c : Context) (notes : List Note) :
    ∀ p ∈ (firm (notesPieces c notes)).getLast?, p = .gap .line ∨ ∃ line, p = .remark line := by
  intro p hp
  induction notes with
  | nil => cases hp
  | cons n notes ih =>
    rw [notesPieces, List.flatMap_cons, Piece.firm_append, List.getLast?_append] at hp
    cases hlast : (firm (notesPieces c notes)).getLast? with
    | none =>
      rw [notesPieces] at hlast
      rw [hlast] at hp
      cases hp
      exact .inl rfl
    | some q =>
      rw [notesPieces] at hlast ih
      rw [hlast] at hp ih
      exact ih hp

/-- What is written above an item is neat in front of anything. -/
theorem neat_lead (c : Context) {lead : Lead} (h : lead.Formed c.source) {ps : List Piece}
    (hp : Neat ps) : Neat (leadPieces c lead ++ ps) := by
  rw [leadPieces, List.append_assoc]
  exact (neat_remarks lead.comment).append
    ((neat_notes c h).append hp (meets_line (notes_end c lead.notes)))
    (meets_line (remarks_end lead.comment))

end RubySig.Format
