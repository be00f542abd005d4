import RubySig.Proofs.Format.Literals

/-!
Forms without their layout, and the pieces that the text of a form is cut into: words, strings and
brackets. Blanks and line ends only separate pieces, so the layout of a form does not count; the
pieces tell the form.
-/
namespace RubySig

inductive Form where
  | word (text : String)
  | string (text : String)
  | list (items : List Form)
  | node (label : String) (parts : List Form)
  /-- A field behind its name. -/
  | field (name : String) (value : Form)
  /-- An entry of a table behind its key. -/
  | entry (key : String) (value : Form)

/-- A piece of the text of a form. -/
inductive Atom where
  | opening (label : String)
  | closing
  | openList
  | closeList
  | field (name : String)
  | key (text : String)
  | word (text : String)
  | string (text : String)

namespace Atom

/-- The characters that mean nothing to the text of a form. -/
def isPlain (c : Char) : Bool :=
  !([' ', '\t', '\n', '"', '(', ')', '[', ']', '='].contains c)

def text : Atom → List Char
  | .opening label => '(' :: label.toList
  | .closing => [')']
  | .openList => ['[']
  | .closeList => [']']
  | .field name => name.toList ++ ['=']
  | .key text => text.toList ++ [':']
  | .word text => text.toList
  | .string text => (Spell.string text).toList

/-- A piece that is told from the others by its text. -/
def Sound : Atom → Prop
  | .opening s | .field s | .key s => ∀ c ∈ s.toList, isPlain c = true
  | .word s => s.toList ≠ [] ∧ (∀ c ∈ s.toList, isPlain c = true) ∧ s.toList.getLast? ≠ some ':'
  | .closing | .openList | .closeList | .string _ => True

instance : (a : Atom) → Decidable a.Sound
  | .opening s | .field s | .key s => inferInstanceAs (Decidable (∀ c ∈ s.toList, isPlain c = true))
  | .word s => inferInstanceAs (Decidable (s.toList ≠ [] ∧ (∀ c ∈ s.toList, isPlain c = true) ∧
      s.toList.getLast? ≠ some ':'))
  | .closing | .openList | .closeList | .string _ => .isTrue trivial

/-- The character at one of the ends of a piece that says what it is; words have none. -/
def sign (cs : List Char) : Option Char :=
  match cs.head?.filter ['(', ')', '[', ']', '"'].contains with
  | some c => some c
  | none => cs.getLast?.filter [':', '='].contains

theorem sign_plain {s cs : List Char} (hs : ∀ c ∈ s, isPlain c = true)
    (hcs : ∀ c ∈ cs.head?, ['(', ')', '[', ']', '"'].contains c = false) :
    sign (s ++ cs) = (s ++ cs).getLast?.filter [':', '='].contains := by
  have hhead : (s ++ cs).head?.filter ['(', ')', '[', ']', '"'].contains = none := by
    rw [Option.filter_eq_none_iff]
    intro c hc
    cases s with
    | nil => simpa using hcs c hc
    | cons d s =>
      obtain rfl : d = c := Option.some.inj hc
      have hd := hs d List.mem_cons_self
      simp only [isPlain, Bool.not_eq_true', List.contains_eq_mem, List.mem_cons,
        decide_eq_false_iff_not, not_or] at hd
      simp [hd]
  unfold sign
  rw [hhead]

/-- The sign of each piece. -/
def mark : Atom → Option Char
  | .opening _ => some '('
  | .closing => some ')'
  | .openList => some '['
  | .closeList => some ']'
  | .field _ => some '='
  | .key _ => some ':'
  | .word _ => none
  | .string _ => some '"'

theorem sign_text {a : Atom} (h : a.Sound) : sign a.text = a.mark := by
  cases a with
  | opening label => rfl
  | closing => rfl
  | openList => rfl
  | closeList => rfl
  | string s =>
    rw [text, Format.toList_string]
    rfl
  | field name =>
    rw [text, sign_plain h (by simp), List.getLast?_concat]
    rfl
  | key s =>
    rw [text, sign_plain h (by simp), List.getLast?_concat]
    rfl
  | word s =>
    obtain ⟨hne, hplain, hlast⟩ := h
    have hsign := @sign_plain s.toList [] hplain (by simp)
    rw [List.append_nil] at hsign
    rw [text, hsign, mark, Option.filter_eq_none_iff]
    intro c hc
    have hplain := hplain c (List.mem_of_getLast? hc)
    rw [hc] at hlast
    simp only [isPlain, Bool.not_eq_true', List.contains_eq_mem, List.mem_cons,
      decide_eq_false_iff_not, not_or] at hplain
    simpa [hplain] using hlast

end Atom

/-- A spelled string tells its value. -/
theorem Spell.string_injective {s t : String} (h : Spell.string s = Spell.string t) : s = t := by
  have hbody : s.toList.flatMap Spell.stringChar = t.toList.flatMap Spell.stringChar := by
    have hlist := congrArg String.toList h
    rw [Format.toList_string, Format.toList_string, List.cons_append, List.cons_append] at hlist
    exact List.append_cancel_right (List.cons.inj hlist).2
  have hvalue := (Format.quotes_string s).value
  rw [hbody, (Format.quotes_string t).value] at hvalue
  exact (Except.ok.inj hvalue).symm

theorem Atom.text_injective {a b : Atom} (ha : a.Sound) (hb : b.Sound) (h : a.text = b.text) :
    a = b := by
  have hmark : a.mark = b.mark := by
    rw [← sign_text ha, h, sign_text hb]
  cases a <;> cases b <;> cases hmark
  case opening.opening s t => exact congrArg _ (String.toList_inj.mp (List.cons.inj h).2)
  case closing.closing => rfl
  case openList.openList => rfl
  case closeList.closeList => rfl
  case field.field s t => exact congrArg _ (String.toList_inj.mp (List.append_cancel_right h))
  case key.key s t => exact congrArg _ (String.toList_inj.mp (List.append_cancel_right h))
  case word.word s t => exact congrArg _ (String.toList_inj.mp h)
  case string.string s t => exact congrArg _ (Spell.string_injective (String.toList_inj.mp h))

theorem Atom.map_text_injective {as bs : List Atom} (ha : ∀ a ∈ as, a.Sound)
    (hb : ∀ b ∈ bs, b.Sound) (h : as.map Atom.text = bs.map Atom.text) : as = bs := by
  induction as generalizing bs with
  | nil => exact (List.map_eq_nil_iff.mp h.symm).symm
  | cons a as ih =>
    cases bs with
    | nil => cases h
    | cons b bs =>
      obtain ⟨hhead, htail⟩ := List.cons.inj h
      rw [Atom.text_injective (ha a List.mem_cons_self) (hb b List.mem_cons_self) hhead,
        ih (fun c hc => ha c (List.mem_cons_of_mem a hc))
          (fun c hc => hb c (List.mem_cons_of_mem b hc))
          htail]

namespace Form

mutual

def atoms : Form → List Atom
  | .word s => [.word s]
  | .string s => [.string s]
  | .list items => .openList :: allAtoms items ++ [.closeList]
  | .node label parts => .opening label :: allAtoms parts ++ [.closing]
  | .field name value => .field name :: value.atoms
  | .entry key value => .key key :: value.atoms

def allAtoms : List Form → List Atom
  | [] => []
  | f :: fs => f.atoms ++ allAtoms fs

end

/-- A form whose pieces are told from each other by their texts. -/
def Sound (f : Form) : Prop := ∀ a ∈ f.atoms, a.Sound

theorem allAtoms_eq_flatMap (fs : List Form) : allAtoms fs = fs.flatMap atoms := by
  induction fs with
  | nil => rfl
  | cons f fs ih => rw [allAtoms, ih, List.flatMap_cons]

/-- Whether a piece ends what is in brackets. -/
def closes : Atom → Bool
  | .closing | .closeList => true
  | _ => false

theorem atoms_head (f : Form) : ∃ a as, f.atoms = a :: as ∧ closes a = false := by
  cases f with
  | list items => exact ⟨.openList, _, List.cons_append, rfl⟩
  | node label parts => exact ⟨.opening label, _, List.cons_append, rfl⟩
  | _ => exact ⟨_, _, rfl, rfl⟩

mutual

/-- The pieces of a form tell it, whatever follows them. -/
theorem atoms_injective : (f g : Form) → {r r' : List Atom} → f.atoms ++ r = g.atoms ++ r' →
    f = g ∧ r = r'
  | .word s, g, r, r', h => by
    cases g <;> simp_all [atoms]
  | .string s, g, r, r', h => by
    cases g <;> simp_all [atoms]
  | .list items, g, r, r', h => by
    cases g with
    | list items' =>
      simp only [atoms, List.cons_append, List.append_assoc, List.cons.injEq,
        true_and] at h
      obtain ⟨hitems, -, hrest⟩ := allAtoms_injective items items' rfl rfl h
      exact ⟨congrArg _ hitems, hrest⟩
    | _ => simp [atoms] at h
  | .node label parts, g, r, r', h => by
    cases g with
    | node label' parts' =>
      simp only [atoms, List.cons_append, List.append_assoc, List.cons.injEq,
        Atom.opening.injEq] at h
      obtain ⟨hparts, -, hrest⟩ := allAtoms_injective parts parts' rfl rfl h.2
      rw [h.1, hparts]
      exact ⟨rfl, hrest⟩
    | _ => simp [atoms] at h
  | .field name value, g, r, r', h => by
    cases g with
    | field name' value' =>
      simp only [atoms, List.cons_append, List.cons.injEq, Atom.field.injEq] at h
      obtain ⟨hvalue, hrest⟩ := atoms_injective value value' h.2
      rw [h.1, hvalue]
      exact ⟨rfl, hrest⟩
    | _ => simp [atoms] at h
  | .entry key value, g, r, r', h => by
    cases g with
    | entry key' value' =>
      simp only [atoms, List.cons_append, List.cons.injEq, Atom.key.injEq] at h
      obtain ⟨hvalue, hrest⟩ := atoms_injective value value' h.2
      rw [h.1, hvalue]
      exact ⟨rfl, hrest⟩
    | _ => simp [atoms] at h

theorem allAtoms_injective : (fs gs : List Form) → {a b : Atom} → {r r' : List Atom} →
    closes a = true → closes b = true → allAtoms fs ++ a :: r = allAtoms gs ++ b :: r' →
    fs = gs ∧ a = b ∧ r = r'
  | [], [], _, _, _, _, _, _, h => ⟨rfl, List.cons.inj h⟩
  | [], g :: gs, a, b, r, r', ha, _, h => by
    obtain ⟨c, cs, hg, hc⟩ := g.atoms_head
    rw [allAtoms, allAtoms, hg, List.nil_append, List.cons_append, List.cons_append] at h
    rw [(List.cons.inj h).1, hc] at ha
    cases ha
  | f :: fs, [], a, b, r, r', _, hb, h => by
    obtain ⟨c, cs, hf, hc⟩ := f.atoms_head
    rw [allAtoms, allAtoms, hf, List.nil_append, List.cons_append, List.cons_append] at h
    rw [← (List.cons.inj h).1, hc] at hb
    cases hb
  | f :: fs, g :: gs, a, b, r, r', ha, hb, h => by
    rw [allAtoms, allAtoms, List.append_assoc, List.append_assoc] at h
    obtain ⟨hhead, htail⟩ := atoms_injective f g h
    obtain ⟨hrest, hlast⟩ := allAtoms_injective fs gs ha hb htail
    rw [hhead, hrest]
    exact ⟨rfl, hlast⟩

end

end Form

namespace Atom

/-- Where a text is read: between strings, in one, or behind a backslash in one. -/
inductive Stage where
  | outside | inside | escaped

/-- A word, if there is one. -/
def closed (taken : List Char) : List (List Char) :=
  if taken.isEmpty then [] else [taken]

/-- The pieces of a text, the first of which goes on with `taken`. -/
def cut : Stage → List Char → List Char → List (List Char)
  | _, taken, [] => closed taken
  | .outside, taken, c :: cs =>
    if c == ' ' || c == '\n' then closed taken ++ cut .outside [] cs
    else if c == ')' || c == '[' || c == ']' then closed taken ++ [c] :: cut .outside [] cs
    else if c == '=' then (taken ++ [c]) :: cut .outside [] cs
    else if c == '"' then closed taken ++ cut .inside [c] cs
    else cut .outside (taken ++ [c]) cs
  | .inside, taken, c :: cs =>
    if c == '"' then (taken ++ [c]) :: cut .outside [] cs
    else cut (if c == '\\' then .escaped else .inside) (taken ++ [c]) cs
  | .escaped, taken, c :: cs => cut .inside (taken ++ [c]) cs

/-- A text in front of which a word ends. -/
def Parted (cs : List Char) : Prop :=
  ∀ taken, cut .outside taken cs = closed taken ++ cut .outside [] cs

/-- A blank and a line end only separate. -/
theorem cut_blank {c : Char} (hc : c = ' ' ∨ c = '\n') (taken cs : List Char) :
    cut .outside taken (c :: cs) = closed taken ++ cut .outside [] cs := by
  rcases hc with rfl | rfl <;> rfl

theorem parted_blank {c : Char} (hc : c = ' ' ∨ c = '\n') (cs : List Char) : Parted (c :: cs) := by
  intro taken
  rw [cut_blank hc, cut_blank hc]
  rfl

theorem cut_bracket {c : Char} (hc : c = ')' ∨ c = '[' ∨ c = ']') (taken cs : List Char) :
    cut .outside taken (c :: cs) = closed taken ++ [c] :: cut .outside [] cs := by
  rcases hc with rfl | rfl | rfl <;> rfl

theorem parted_bracket {c : Char} (hc : c = ')' ∨ c = '[' ∨ c = ']') (cs : List Char) :
    Parted (c :: cs) := by
  intro taken
  rw [cut_bracket hc, cut_bracket hc]
  rfl

theorem cut_plain {w : List Char} (hw : ∀ c ∈ w, isPlain c = true) (taken cs : List Char) :
    cut .outside taken (w ++ cs) = cut .outside (taken ++ w) cs := by
  induction w generalizing taken with
  | nil => rw [List.append_nil, List.nil_append]
  | cons c w ih =>
    have hc := hw c List.mem_cons_self
    simp only [isPlain, Bool.not_eq_true', List.contains_eq_mem, List.mem_cons,
      decide_eq_false_iff_not, not_or, List.not_mem_nil] at hc
    have hstep : cut .outside taken (c :: (w ++ cs)) = cut .outside (taken ++ [c]) (w ++ cs) := by
      simp [cut, hc]
    rw [List.cons_append, hstep, ih fun d hd => hw d (List.mem_cons_of_mem c hd), List.append_assoc]
    rfl

theorem cut_stringChar (c : Char) (taken cs : List Char) :
    cut .inside taken (Spell.stringChar c ++ cs) =
      cut .inside (taken ++ Spell.stringChar c) cs := by
  rcases Format.stringChar_cases c with ⟨h, h₁, h₂⟩ | ⟨d, h, -⟩ | ⟨h, hc⟩
  · rw [h]
    simp [cut, h₁, h₂]
  · rw [h]
    simp [cut]
  · obtain ⟨a, b, d, e, hd, hx, -⟩ := Format.upperHexDigits_control hc
    simp only [List.mem_cons, List.not_mem_nil, or_false, forall_eq_or_imp, forall_eq] at hx
    rw [h, hd]
    simp [cut, hx]

/-- A spelled string is a piece of its own. -/
theorem cut_string (s : String) (cs : List Char) :
    cut .outside [] ((Spell.string s).toList ++ cs) =
      (Spell.string s).toList :: cut .outside [] cs := by
  have hbody : ∀ vs taken : List Char,
      cut .inside taken (vs.flatMap Spell.stringChar ++ '"' :: cs) =
      (taken ++ vs.flatMap Spell.stringChar ++ ['"']) :: cut .outside [] cs := by
    intro vs
    induction vs with
    | nil =>
      intro taken
      rw [List.flatMap_nil, List.append_nil]
      rfl
    | cons c vs ih =>
      intro taken
      rw [List.flatMap_cons, List.append_assoc, cut_stringChar, ih, ← List.append_assoc]
  rw [Format.toList_string, List.append_assoc]
  exact hbody s.toList ['"']

/-- Whether a piece ends where its text ends, whatever follows. -/
def endsItself : Atom → Bool
  | .opening _ | .key _ | .word _ => false
  | _ => true

theorem closed_of_ne_nil {taken : List Char} (h : taken ≠ []) : closed taken = [taken] := by
  rw [closed, if_neg (by simpa using h)]

/-- Each piece is cut off, if need be in front of a place where words end. -/
theorem cut_text {a : Atom} (ha : a.Sound) {cs : List Char} (h : a.endsItself = true ∨ Parted cs) :
    cut .outside [] (a.text ++ cs) = a.text :: cut .outside [] cs := by
  cases a with
  | closing => exact cut_bracket (.inl rfl) [] cs
  | openList => exact cut_bracket (.inr (.inl rfl)) [] cs
  | closeList => exact cut_bracket (.inr (.inr rfl)) [] cs
  | string s => exact cut_string s cs
  | field name =>
    rw [text, List.append_assoc, cut_plain ha]
    rfl
  | opening label =>
    have hparted : Parted cs := h.resolve_left Bool.false_ne_true
    have hopen : cut .outside [] ('(' :: (label.toList ++ cs)) =
        cut .outside ['('] (label.toList ++ cs) :=
      rfl
    rw [text, List.cons_append, hopen, cut_plain ha, hparted, closed_of_ne_nil (by simp)]
    rfl
  | key s =>
    have hparted : Parted cs := h.resolve_left Bool.false_ne_true
    have hcolon : ∀ taken, cut .outside taken (':' :: cs) = cut .outside (taken ++ [':']) cs :=
      fun _ => rfl
    rw [text, List.append_assoc, cut_plain ha, List.singleton_append, hcolon, hparted,
      closed_of_ne_nil (by simp)]
    rfl
  | word s =>
    have hparted : Parted cs := h.resolve_left Bool.false_ne_true
    rw [text, cut_plain ha.2.1, hparted, List.nil_append, closed_of_ne_nil ha.1]
    rfl

/-- No piece ends in a blank. -/
theorem solid_text {a : Atom} (ha : a.Sound) : ∀ c ∈ a.text.getLast?, Doc.isTrailing c = false := by
  have hplain : ∀ c, isPlain c = true → Doc.isTrailing c = false := by
    intro c hc
    simp only [isPlain, Bool.not_eq_true', List.contains_eq_mem, List.mem_cons,
      decide_eq_false_iff_not, not_or] at hc
    simp [Doc.isTrailing, hc]
  intro c hc
  cases a with
  | opening label =>
    rcases List.mem_cons.mp (List.mem_of_getLast? hc) with rfl | hmem
    · rfl
    · exact hplain c (ha c hmem)
  | word s => exact hplain c (ha.2.1 c (List.mem_of_getLast? hc))
  | string s =>
    rw [text, Format.toList_string, List.getLast?_concat] at hc
    cases hc
    rfl
  | field name =>
    rw [text, List.getLast?_concat] at hc
    cases hc
    rfl
  | key s =>
    rw [text, List.getLast?_concat] at hc
    cases hc
    rfl
  | _ =>
    cases hc
    rfl

end Atom
end RubySig
