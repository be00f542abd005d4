import RubySig.Command.Run
import RubySig.Proofs.Format.Words

/-!
Reports of errors on a console that puts pictures in the place of their names. Such a console takes
a line number between two colons for the name of a picture, so a report stands there word for word
exactly where its line is no such name.
-/
namespace RubySig

open Format (toDigits_isDigit)

namespace Message

theorem name_eq {cs name rest : List Char} (h : name? cs = some (name, rest)) :
    cs = name ++ ':' :: rest := by
  have hword : cs.takeWhile (fun c => c != ':' && !Text.isBlank c) <+: cs := List.takeWhile_prefix _
  simp only [name?] at h
  split at h
  case h_1 rest' hrest =>
    cases h
    rw [List.prefix_iff_eq_append, hrest] at hword
    exact hword.symm
  case h_2 => cases h

/-- A name ends at the next colon. -/
theorem name_of_word {word : List Char} (h : ∀ c ∈ word, c ≠ ':' ∧ Text.isBlank c = false)
    (rest : List Char) : name? (word ++ ':' :: rest) = some (word, rest) := by
  have hword : (word ++ ':' :: rest).takeWhile (fun c => c != ':' && !Text.isBlank c) = word := by
    rw [List.takeWhile_append_of_pos, List.takeWhile_cons_of_neg, List.append_nil]
    · simp
    · intro c hc
      simp [h c hc]
  simp [name?, hword]

/-- No name begins with a blank. -/
theorem name_of_blank {c : Char} (h : Text.isBlank c = true) (hc : c ≠ ':') (rest : List Char) :
    name? (c :: rest) = none := by
  have hnone : (c :: rest).takeWhile (fun c => c != ':' && !Text.isBlank c) = [] := by
    simp [h]
  unfold name?
  rw [hnone]
  simp only [List.length_nil, List.drop_zero]
  split
  case h_1 heq => exact absurd (List.cons.inj heq).1 hc
  case h_2 => rfl

variable {picture? : List Char → Option (List Char)}

/-- A name between colons, as it is shown. -/
def pictureOf (picture? : List Char → Option (List Char)) (name : List Char) : List Char :=
  (picture? name).getD (':' :: name ++ [':'])

def depicted (picture? : List Char → Option (List Char)) (cs : List Char) : List Char :=
  pictured picture? cs.length cs

theorem pictured_fuel {n : Nat} {cs : List Char} (h : cs.length ≤ n) :
    pictured picture? n cs = depicted picture? cs := by
  induction n using Nat.strongRecOn generalizing cs with
  | ind n ih =>
    cases cs with
    | nil => cases n <;> rfl
    | cons c cs =>
      cases n with
      | zero => simp at h
      | succ n =>
        rw [List.length_cons, Nat.add_le_add_iff_right] at h
        rw [depicted, List.length_cons, pictured, pictured]
        split
        case isFalse => rw [ih n (by omega) h, ← depicted]
        case isTrue =>
          cases hname : name? cs with
          | none =>
            dsimp only
            rw [ih n (by omega) h, ← depicted]
          | some found =>
            obtain ⟨name, rest⟩ := found
            have hlength : rest.length < cs.length := by
              simp [name_eq hname]
              omega
            dsimp only
            rw [ih n (by omega) (by omega), ih cs.length (by omega) hlength.le]

theorem depicted_nil : depicted picture? [] = [] := rfl

theorem depicted_cons {c : Char} (h : c ≠ ':') (cs : List Char) :
    depicted picture? (c :: cs) = c :: depicted picture? cs := by
  have hc : (c == ':') = false := by simpa using h
  rw [depicted, List.length_cons, pictured, hc]
  rfl

theorem depicted_plain {cs : List Char} (h : ':' ∉ cs) (rest : List Char) :
    depicted picture? (cs ++ rest) = cs ++ depicted picture? rest := by
  induction cs with
  | nil => rfl
  | cons c cs ih =>
    rw [List.mem_cons, not_or] at h
    rw [List.cons_append, depicted_cons (Ne.symm h.1), ih h.2, List.cons_append]

theorem depicted_name {cs name rest : List Char} (h : name? cs = some (name, rest)) :
    depicted picture? (':' :: cs) = pictureOf picture? name ++ depicted picture? rest := by
  have hlength : rest.length ≤ cs.length := by simp [name_eq h]; omega
  rw [depicted, List.length_cons, pictured, beq_self_eq_true, if_pos rfl, h,
    ← pictured_fuel hlength]
  rfl

theorem depicted_colon {cs : List Char} (h : name? cs = none) :
    depicted picture? (':' :: cs) = ':' :: depicted picture? cs := by
  rw [depicted, List.length_cons, pictured, beq_self_eq_true, if_pos rfl, h]
  rfl

theorem shown_eq (s : String) :
    shown picture? s = String.ofList (kept (depicted picture? s.toList)) := by
  rw [shown, depicted, String.length_toList]

theorem kept_append (xs ys : List Char) : kept (xs ++ ys) = kept xs ++ kept ys :=
  List.filter_append ..

theorem kept_eq_self {cs : List Char} : kept cs = cs ↔ ∀ c ∈ cs, isDropped c = false := by
  simp [kept]

/-- A character that is shown as it is wherever it stands. -/
def isPlain (c : Char) : Bool := c != ':' && c != '\t' && !isDropped c

theorem no_colon_of_plain {cs : List Char} (h : ∀ c ∈ cs, isPlain c = true) : ':' ∉ cs :=
  fun hc => absurd (h _ hc) (by decide)

theorem no_tab_of_plain {cs : List Char} (h : ∀ c ∈ cs, isPlain c = true) : '\t' ∉ cs :=
  fun hc => absurd (h _ hc) (by decide)

theorem kept_plain {cs : List Char} (h : ∀ c ∈ cs, isPlain c = true) : kept cs = cs := by
  refine kept_eq_self.mpr fun c hc => ?_
  have hplain := h c hc
  simp only [isPlain, Bool.and_eq_true, Bool.not_eq_true'] at hplain
  exact hplain.2

/-- A text of plain characters is shown as it is. -/
theorem shown_plain {s : String} (h : ∀ c ∈ s.toList, isPlain c = true) :
    shown picture? s = s := by
  have hdepicted : depicted picture? (s.toList ++ []) = s.toList ++ depicted picture? [] :=
    depicted_plain (no_colon_of_plain h) []
  rw [List.append_nil, depicted_nil, List.append_nil] at hdepicted
  rw [shown_eq, hdepicted, kept_plain h, String.ofList_toList]

theorem digit_plain {n : Nat} {c : Char} (h : c ∈ (toString n).toList) :
    c ≠ ':' ∧ Text.isBlank c = false ∧ isDropped c = false := by
  have hdigit := toDigits_isDigit (n := n) (by simpa using h)
  simp only [Char.isDigit, Bool.and_eq_true, decide_eq_true_eq, UInt32.le_iff_toNat_le] at hdigit
  obtain ⟨hlow, hhigh⟩ : 48 ≤ c.toNat ∧ c.toNat ≤ 57 := hdigit
  constructor
  · rintro rfl
    exact absurd hhigh (by decide)
  · constructor
    · simp [Text.isBlank, Text.blankRanges, Text.inRanges]
      omega
    · simp [isDropped]
      omega

theorem report_toList (name message : String) (line column : Nat) :
    (s!"{name}:{line}:{column}: {message}").toList = name.toList ++
      ((':' :: (toString line).toList ++ [':']) ++ ((toString column).toList ++
        ':' :: ' ' :: message.toList)) := by
  simp
  rfl

/-- What is shown of the report of an error in a file with a plain name. -/
theorem shown_report {name message : String} (hname : ∀ c ∈ name.toList, isPlain c = true)
    (line column : Nat) :
    (shown picture? s!"{name}:{line}:{column}: {message}").toList =
      name.toList ++ (kept (pictureOf picture? (toString line).toList) ++
        ((toString column).toList ++ ':' :: ' ' :: (shown picture? message).toList)) := by
  have hline := name_of_word (fun c hc => ⟨(digit_plain hc).1, (digit_plain hc).2.1⟩ :
    ∀ c ∈ (toString line).toList, _) ((toString column).toList ++ ':' :: ' ' :: message.toList)
  have hcolumn : ':' ∉ (toString column).toList := fun h => (digit_plain h).1 rfl
  have hkept : kept (toString column).toList = (toString column).toList :=
    kept_eq_self.mpr fun c hc => (digit_plain hc).2.2
  simp only [shown_eq, String.toList_ofList]
  rw [report_toList, depicted_plain (no_colon_of_plain hname), List.append_assoc,
    List.cons_append, List.singleton_append, depicted_name hline, depicted_plain hcolumn,
    depicted_colon (name_of_blank (by decide) (by decide) _), depicted_cons (by decide)]
  simp only [kept_append, hkept, kept_plain hname]
  rfl

/-- A line number between its colons is shown as it is unless it is the name of a picture. -/
theorem kept_pictureOf (hcolon : ∀ name picture, picture? name = some picture → ':' ∉ picture)
    (line : Nat) :
    kept (pictureOf picture? (toString line).toList) = ':' :: (toString line).toList ++ [':'] ↔
      picture? (toString line).toList = none := by
  unfold pictureOf
  constructor
  · intro h
    cases hpicture : picture? (toString line).toList with
    | none => rfl
    | some picture =>
      rw [hpicture, Option.getD_some] at h
      have hmem : ':' ∈ kept picture := h ▸ List.mem_cons_self
      exact absurd (List.mem_of_mem_filter hmem) (hcolon _ _ hpicture)
  · intro h
    rw [h, Option.getD_none, kept_eq_self]
    intro c hc
    rw [List.mem_append, List.mem_cons, List.mem_singleton] at hc
    rcases hc with (rfl | hc) | rfl
    · decide
    · exact (digit_plain hc).2.2
    · decide

/-- A report with a plain name and a message that is shown as it is stands there word for word
exactly where its line is not the name of a picture. -/
theorem report_verbatim (hcolon : ∀ name picture, picture? name = some picture → ':' ∉ picture)
    {name message : String} (hname : ∀ c ∈ name.toList, isPlain c = true)
    (hmessage : shown picture? message = message) (line column : Nat) :
    shown picture? s!"{name}:{line}:{column}: {message}" =
        s!"{name}:{line}:{column}: {message}" ↔
      picture? (toString line).toList = none := by
  rw [← kept_pictureOf hcolon, ← String.toList_inj, shown_report hname, report_toList, hmessage]
  simp only [List.append_cancel_left_eq, List.append_cancel_right_eq]

/-- An error in line 100 of a file. -/
example : shown numberPicture? "a.rbs:100:4: Expected type, got ')'" =
    "a.rbs💯4: Expected type, got ')'" := by decide

end Message

namespace Command

open Message (isPlain)

/-- A console that knows pictures by their names. It fills up tabs, so no more is said of texts with
tabs. -/
structure Console.KnowsPictures (console : Console) (picture? : List Char → Option (List Char)) :
    Prop where
  message : ∀ s, '\t' ∉ s.toList → console.message s = Message.shown picture? s
  /-- No picture has a colon of its own. -/
  colon : ∀ name picture, picture? name = some picture → ':' ∉ picture

/-- A console that shows plain texts as they are. -/
def Console.ShowsPlain (console : Console) : Prop :=
  ∀ s, (∀ c ∈ s.toList, isPlain c = true) → console.message s = s

theorem Console.KnowsPictures.showsPlain {console : Console}
    {picture? : List Char → Option (List Char)} (h : console.KnowsPictures picture?) :
    console.ShowsPlain := by
  intro s hs
  rw [h.message s (Message.no_tab_of_plain hs), Message.shown_plain hs]

theorem Console.standard_knowsPictures : Console.standard.KnowsPictures Message.numberPicture? where
  message _ _ := rfl
  colon name picture h := by
    unfold Message.numberPicture? at h
    split at h
    · cases h
      decide
    · split at h
      · cases h
        decide
      · cases h

/-- What a report of an error adds to the error output. -/
theorem reportError_verbatim {console : Console} {picture? : List Char → Option (List Char)}
    (hconsole : console.KnowsPictures picture?) {input : Input} {message : String}
    (hname : ∀ c ∈ input.name.toList, isPlain c = true)
    (hmessage : '\t' ∉ message.toList ∧ Message.shown picture? message = message) (s : Session)
    (place : Position) :
    (reportError console s input message place).err =
        s.err ++ s!"{input.name}:{place.line}:{place.column}: {message}" ++ "\n" ↔
      picture? (toString place.line).toList = none := by
  have htab : '\t' ∉ (s!"{input.name}:{place.line}:{place.column}: {message}").toList := by
    have hdigit (n : Nat) : '\t' ∉ (toString n).toList := fun h => by
      have := (Message.digit_plain h).2.1
      exact absurd this (by decide)
    rw [Message.report_toList]
    simp only [List.mem_append, List.mem_cons, List.not_mem_nil, not_or, or_false]
    exact ⟨Message.no_tab_of_plain hname, ⟨⟨by decide, hdigit _⟩, by decide⟩,
      hdigit _, by decide, by decide,
      hmessage.1⟩
  rw [← Message.report_verbatim hconsole.colon hname hmessage.2 place.line place.column,
    ← hconsole.message _ htab, reportError, Session.complain]
  dsimp only
  rw [String.append_left_inj, String.append_right_inj]

end Command
end RubySig
