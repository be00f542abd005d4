import RubySig.Proofs.SourceTiled
import RubySig.Proofs.Token.Faults
import RubySig.Proofs.Tree.Refusals

/-!
Where a text is refused. An error in the source's form stands at a place of the text: at a character
that begins no token, at a token that the grammar does not accept, or at the end, and it names what
is found there. All other errors come from literals: from integers with too many digits or with
digits that are not decimal, and from code points in braces that no character has.
-/
namespace RubySig

open Lexer (Stuck)

namespace SourceError

/-- What an error tells of a text. -/
inductive Describes (text : List Char) : SourceError → Prop where
  /-- No token begins behind `front`; the place is that of the character at fault. -/
  | lexer {front skip back : List Char} {cause : Lexer.Cause} : text = front ++ skip ++ back →
      Stuck (skip ++ back) (.cause cause skip) →
      Describes text (.lexer cause (Position.first.after (front ++ skip)))
  /-- What comes next behind some tokens is refused. -/
  | grammar {scan : Lexer.Scan} {rest : List Token} {cause : Grammar.Cause} :
      Lexer.scan text = .ok scan → rest <:+ scan.tokens →
      cause.Finds (rest.head?.map (·.lexeme)) →
      Describes text (.grammar cause ((rest.head?.map (·.start)).getD scan.finish))
  | value {front back : List Char} {fault : ValueFault} : text = front ++ back →
      Stuck back (.value fault) → Describes text (.value fault)

end SourceError

theorem errors_located {source : String} {e : SourceError}
    (h : (Root.read source).result = .error e) : e.Describes source.toList := by
  unfold Root.read at h
  dsimp only at h
  split at h
  case _ cause p hscan =>
    cases h
    obtain ⟨front, back, failure, htext, hstuck, he⟩ := Lexer.scan_fault hscan
    cases failure with
    | value fault => cases he
    | cause cause skip =>
      obtain ⟨rest, rfl⟩ := hstuck.skipped
      cases he
      rw [← Position.after_append]
      exact .lexer (by rw [htext, List.append_assoc]) hstuck
  case _ fault hscan =>
    cases h
    obtain ⟨front, back, failure, htext, hstuck, he⟩ := Lexer.scan_fault hscan
    cases failure with
    | cause cause skip => cases he
    | value fault =>
      cases he
      exact .value htext hstuck
  case _ scan hscan =>
    split at h
    case _ cause p hfile =>
      cases h
      obtain ⟨rest, hrest, hfinds, rfl⟩ := Grammar.file_refuses hfile
      exact .grammar hscan hrest hfinds
    case _ => cases h

/-- The place of an error is a place in the text. -/
theorem SourceError.Describes.place {text : List Char} {e : SourceError} (h : e.Describes text)
    {message : String} {p : Position} (hp : e.report? = some (message, p)) :
    p.offset ≤ text.length ∧ p = Position.at text p.offset := by
  have inside (front back : List Char) (hfront : text = front ++ back) :
      (Position.first.after front).offset ≤ text.length ∧
        Position.first.after front = Position.at text (Position.first.after front).offset := by
    have hoffset : (Position.first.after front).offset = front.length := by
      rw [Position.first_after]
    rw [hoffset, hfront, ← Position.first_after_eq_at]
    exact ⟨by simp, rfl⟩
  cases h with
  | lexer htext =>
    cases hp
    exact inside _ _ htext
  | @grammar scan rest cause hscan hrest =>
    cases hp
    cases rest with
    | nil =>
      have hfinish := (Lexer.source_tiled text scan hscan).finish
      change scan.finish.offset ≤ _ ∧ scan.finish = Position.at text scan.finish.offset
      rw [hfinish]
      exact ⟨Nat.le_refl _, rfl⟩
    | cons t ts =>
      obtain ⟨front, w, back, htext, -, hstart, -⟩ :=
        Lexer.scan_sound hscan t (hrest.subset (List.mem_cons_self ..))
      change t.start.offset ≤ _ ∧ t.start = Position.at text t.start.offset
      rw [hstart]
      exact inside front (w ++ back) (by rw [htext, List.append_assoc])
  | value => cases hp

/-- No literal of the text can fail on its value: all digits are decimal, no number has too many of
them, and no backslash stands in front of code points in braces. -/
structure Text.ValuesClear (text : List Char) : Prop where
  decimal : ∀ c ∈ text, Text.isDigit c = true → (Text.decimalValue? c).isSome = true
  short : ∀ w, w <:+: text → (∀ c ∈ w, Text.isDigit c = true ∨ c = '_') →
    (w.filter (· != '_')).length ≤ Text.maxIntegerDigits
  unbraced : ¬['\\', 'u', '\x7b'] <:+: text

theorem Text.ValuesClear.not_stuck {front back : List Char} {fault : ValueFault}
    (h : Text.ValuesClear (front ++ back)) : ¬Stuck back (.value fault) := by
  intro hstuck
  cases hstuck with
  | @digits w rest hback hpart hw =>
    have hsigned : Text.unsigned w <:+: w := by
      unfold Text.unsigned
      split
      · exact (List.suffix_cons _ _).isInfix
      · exact (List.suffix_cons _ _).isInfix
      · exact List.infix_rfl
    have hinside : Text.unsigned w <:+: front ++ back := by
      rw [hback, ← List.append_assoc]
      exact (hsigned.trans (List.suffix_append front w).isInfix).trans
        (List.prefix_append _ _).isInfix
    cases hw with
    | many hmany => exact absurd hmany (Nat.not_lt_of_le (h.short _ hinside hpart))
    | odd hd hne hnone =>
      have hsome := h.decimal _ (hinside.subset hd) ((hpart _ hd).resolve_right hne)
      rw [hnone] at hsome
      cases hsome
  | @codePoint lead body rest fault hback hbody =>
    obtain ⟨before, codes, behind, word, rfl, -, -⟩ := hbody
    refine h.unbraced ⟨front ++ lead ++ '"' :: before, codes ++ '\x7d' :: behind ++ '"' :: rest, ?_⟩
    rw [hback]
    simp

/-- A text without such literals is read, or refused at a place of the text. -/
theorem errors_reported {source : String} (h : Text.ValuesClear source.toList) :
    (∃ root, (Root.read source).result = .ok root) ∨
    ∃ e message p, (Root.read source).result = .error e ∧ e.report? = some (message, p) ∧
      p.offset ≤ source.toList.length ∧ p = Position.at source.toList p.offset := by
  cases hread : (Root.read source).result with
  | ok root => exact .inl ⟨root, rfl⟩
  | error e =>
    have hdescribes := errors_located hread
    cases he : e.report? with
    | some report => exact .inr ⟨e, report.1, report.2, rfl, he, hdescribes.place he⟩
    | none =>
      cases hdescribes with
      | lexer => cases he
      | grammar => cases he
      | @value front back fault htext hstuck =>
        rw [htext] at h
        exact (h.not_stuck hstuck).elim

/-- A superscript is a digit, but not a decimal one. -/
example : (Root.read "T: ²").result.map (fun _ => ()) = .error (.value .unreadableInteger) := by
  decide +kernel

end RubySig
