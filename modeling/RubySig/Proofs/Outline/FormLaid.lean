import RubySig.Outline.Form
import RubySig.Proofs.Format.Piece
import RubySig.Proofs.Outline.Forms

/-!
Forms as they are laid out: wherever the lines end, the text of a document is cut into the pieces of
the form that the document lays out.
-/
namespace RubySig

open Doc (Stroke Lays settle plain endsLine)
open Atom (cut closed Parted)

namespace Outline

/-- Wherever its lines end, a document gives these pieces, in front of a place where words end. -/
structure Reads (docs : List Doc) (atoms : List Atom) : Prop where
  cut : ∀ {i : Int} {ss : List Stroke}, Lays i docs ss → ∀ tt, Parted (settle tt) →
    cut .outside [] (settle (ss ++ tt)) = atoms.map Atom.text ++ cut .outside [] (settle tt)

/-- Words end in front of a document. -/
structure Parting (docs : List Doc) : Prop where
  parted : ∀ {i : Int} {ss : List Stroke}, Lays i docs ss → ∀ tt, Parted (settle tt) →
    Parted (settle (ss ++ tt))

theorem cut_newline (n : Nat) (ss : List Stroke) :
    cut .outside [] (settle (.newline n :: ss)) = cut .outside [] (settle ss) := by
  obtain ⟨m, hm⟩ := Format.settle_newline n ss
  have hmargin : ∀ m, cut .outside [] (List.replicate m ' ' ++ settle ss) =
      cut .outside [] (settle ss) := by
    intro m
    induction m with
    | zero => rfl
    | succ m ih =>
      rw [List.replicate_succ, List.cons_append, Atom.cut_blank (.inl rfl), ih]
      rfl
  rw [hm, List.cons_append, Atom.cut_blank (.inr rfl), hmargin]
  rfl

theorem parted_newline (n : Nat) (ss : List Stroke) : Parted (settle (.newline n :: ss)) := by
  obtain ⟨m, hm⟩ := Format.settle_newline n ss
  rw [hm]
  exact Atom.parted_blank (.inr rfl) _

/-- Words end at a blank, also at one that the line end behind it takes away. -/
theorem cut_space (taken : List Char) (ss : List Stroke) :
    cut .outside taken (settle (.char ' ' :: ss)) =
      closed taken ++ cut .outside [] (settle ss) := by
  rw [settle]
  split
  case isTrue h =>
    have hend : endsLine ss = true := h
    have hhead := Format.settle_of_endsLine hend
    obtain ⟨cs, hcs⟩ : ∃ cs, settle ss = '\n' :: cs := by
      cases hs : settle ss with
      | nil =>
        rw [hs] at hhead
        cases hhead
      | cons c cs =>
        rw [hs] at hhead
        cases hhead
        exact ⟨cs, rfl⟩
    rw [hcs]
    exact Atom.parted_blank (.inr rfl) cs taken
  case isFalse => exact Atom.cut_blank (.inl rfl) taken _

theorem parted_space (ss : List Stroke) : Parted (settle (.char ' ' :: ss)) := by
  intro taken
  rw [cut_space, cut_space]
  rfl

/-- The text of a piece is cut off, if need be in front of a place where words end. -/
theorem cut_atom {a : Atom} (ha : a.Sound) {tt : List Stroke}
    (h : a.endsItself = true ∨ Parted (settle tt)) :
    cut .outside [] (settle (plain a.text ++ tt)) = a.text :: cut .outside [] (settle tt) := by
  rw [Format.settle_plain (Atom.solid_text ha), Atom.cut_text ha h]

theorem parted_bracket {a : Atom} (h : Form.closes a = true) (tt : List Stroke) :
    Parted (settle (plain a.text ++ tt)) := by
  have hsound : a.Sound := by cases a <;> first | exact trivial | cases h
  rw [Format.settle_plain (Atom.solid_text hsound)]
  cases a with
  | closing => exact Atom.parted_bracket (.inl rfl) _
  | closeList => exact Atom.parted_bracket (.inr (.inr rfl)) _
  | _ => cases h

variable {docs ds es : List Doc} {atoms as bs : List Atom}

theorem Reads.nil : Reads [] [] := by
  constructor
  intro i ss h tt _
  cases h
  rfl

theorem Parting.nil : Parting [] := by
  constructor
  intro i ss h tt htt
  cases h
  exact htt

theorem Reads.append (h : Reads ds as) (k : Reads es bs) (hp : Parting es) :
    Reads (ds ++ es) (as ++ bs) := by
  constructor
  intro i us hus tt htt
  obtain ⟨ss, ts, rfl, hss, hts⟩ := hus.split
  rw [List.append_assoc, h.cut hss _ (hp.parted hts tt htt), k.cut hts tt htt, List.map_append,
    List.append_assoc]

theorem Parting.append (h : Parting ds) (k : Parting es) : Parting (ds ++ es) := by
  constructor
  intro i us hus tt htt
  obtain ⟨ss, ts, rfl, hss, hts⟩ := hus.split
  rw [List.append_assoc]
  exact h.parted hss _ (k.parted hts tt htt)

/-- A text that is a piece, in front of what a word can touch. -/
theorem Reads.cons {a : Atom} {s : String} (ha : a.Sound) (hs : s.toList = a.text)
    (hend : a.endsItself = true) (h : Reads ds as) : Reads (.text s :: ds) (a :: as) := by
  constructor
  intro i us hus tt htt
  cases hus with
  | text hss =>
    rw [hs, List.append_assoc, cut_atom ha (.inl hend), h.cut hss tt htt]
    rfl

theorem Reads.text {a : Atom} {s : String} (ha : a.Sound) (hs : s.toList = a.text) :
    Reads [.text s] [a] := by
  constructor
  intro i us hus tt htt
  cases hus with
  | text hss =>
    cases hss
    rw [hs, List.append_nil, cut_atom ha (.inr htt)]
    rfl

/-- Two texts are read alike when they are one. -/
theorem Reads.joined {s t : String} (h : Reads (.text s :: .text t :: ds) as) :
    Reads (.text (s ++ t) :: ds) as := by
  constructor
  intro i us hus tt htt
  cases hus with
  | @text i s' ds ss hss =>
    have hsplit : plain (s ++ t).toList ++ ss = plain s.toList ++ (plain t.toList ++ ss) := by
      simp [plain]
    rw [hsplit]
    exact h.cut (.text (.text hss)) tt htt

theorem Parting.bracket {a : Atom} {s : String} (ha : Form.closes a = true)
    (hs : s.toList = a.text) :
    Parting (.text s :: ds) := by
  constructor
  intro i us hus tt htt
  cases hus with
  | text hss =>
    rw [hs, List.append_assoc]
    exact parted_bracket ha _

theorem Reads.space (h : Reads ds as) : Reads (Doc.space :: ds) as := by
  constructor
  intro i us hus tt htt
  cases hus with
  | flat hss =>
    rw [List.append_assoc]
    exact (cut_space [] _).trans (h.cut hss tt htt)
  | newline hss =>
    rw [List.cons_append, cut_newline]
    exact h.cut hss tt htt

theorem Parting.space : Parting (Doc.space :: ds) := by
  constructor
  intro i us hus tt htt
  cases hus with
  | flat hss =>
    rw [List.append_assoc]
    exact parted_space _
  | newline hss => exact parted_newline _ _

theorem Reads.softBreak (h : Reads ds as) : Reads (Doc.softBreak :: ds) as := by
  constructor
  intro i us hus tt htt
  cases hus with
  | flat hss => exact h.cut hss tt htt
  | newline hss =>
    rw [List.cons_append, cut_newline]
    exact h.cut hss tt htt

theorem Parting.softBreak (h : Parting ds) : Parting (Doc.softBreak :: ds) := by
  constructor
  intro i us hus tt htt
  cases hus with
  | flat hss => exact h.parted hss tt htt
  | newline hss => exact parted_newline _ _

theorem Reads.group {b : Bool} (h : Reads ds as) : Reads [.group b ds] as := by
  constructor
  intro i us hus tt htt
  cases hus with
  | group hts hss =>
    cases hss
    rw [List.append_nil]
    exact h.cut hts tt htt

theorem Reads.indent {k : Int} (h : Reads ds as) : Reads [.indent k ds] as := by
  constructor
  intro i us hus tt htt
  cases hus with
  | indent hts hss =>
    cases hss
    rw [List.append_nil]
    exact h.cut hts tt htt

theorem Parting.indent {k : Int} (h : Parting ds) : Parting [.indent k ds] := by
  constructor
  intro i us hus tt htt
  cases hus with
  | indent hts hss =>
    cases hss
    rw [List.append_nil]
    exact h.parted hts tt htt

/-- A document lays out a form: it gives its pieces where they are told from each other. -/
def Lays (docs : List Doc) (f : Form) : Prop := f.Sound → Reads docs f.atoms

variable {items : List (List Doc)} {forms : List Form} {indent : Int}

theorem Parting.parts (items : List (List Doc)) : Parting (parts items) := by
  cases items with
  | nil => exact .nil
  | cons item items => exact .space

theorem Reads.parts (h : List.Forall₂ (fun docs f => Reads docs f.atoms) items forms) :
    Reads (Outline.parts items) (Form.allAtoms forms) := by
  induction h with
  | nil => exact .nil
  | cons hitem _ ih => exact .append (.space hitem) ih (.parts _)

theorem separated_cons (item : List Doc) (items : List (List Doc)) :
    Doc.separated [Doc.space] (item :: items) = item ++ Outline.parts items := by
  induction items generalizing item with
  | nil => simp [Doc.separated, Outline.parts]
  | cons next items ih =>
    have hnext : Doc.separated [Doc.space] (item :: next :: items) =
        item ++ Doc.space :: Doc.separated [Doc.space] (next :: items) := by
      simp [Doc.separated]
    rw [hnext, ih]
    rfl

theorem Reads.separated (h : List.Forall₂ (fun docs f => Reads docs f.atoms) items forms) :
    Reads (Doc.separated [Doc.space] items) (Form.allAtoms forms) := by
  cases h with
  | nil => exact .nil
  | cons hitem hitems =>
    rw [separated_cons]
    exact .append hitem (.parts hitems) (.parts _)

theorem sound_of_allAtoms {fs : List Form} (h : ∀ a ∈ Form.allAtoms fs, a.Sound) :
    ∀ f ∈ fs, f.Sound := by
  intro f hf a ha
  apply h
  rw [Form.allAtoms_eq_flatMap]
  exact List.mem_flatMap.mpr ⟨f, hf, ha⟩

/-- What stands between brackets is sound. -/
theorem sound_between {a b : Atom} {fs : List Form}
    (h : ∀ c ∈ a :: Form.allAtoms fs ++ [b], c.Sound) : ∀ f ∈ fs, f.Sound :=
  sound_of_allAtoms fun c hc => h c (List.mem_cons_of_mem a (List.mem_append_left [b] hc))

theorem reads_of_lays (h : List.Forall₂ Lays items forms) (hs : ∀ f ∈ forms, f.Sound) :
    List.Forall₂ (fun docs f => Reads docs f.atoms) items forms := by
  induction h with
  | nil => exact .nil
  | @cons docs f items forms hf _ ih =>
    exact .cons (hf (hs f List.mem_cons_self)) (ih fun g hg => hs g (List.mem_cons_of_mem f hg))

theorem Lays.list (h : List.Forall₂ Lays items forms) :
    Lays [bracketed indent items] (.list forms) := by
  intro hs
  have hitems := reads_of_lays h (sound_between hs)
  apply Reads.group
  apply Reads.cons (a := .openList) trivial rfl rfl
  have hclose : Reads [Doc.softBreak, .text "]"] [.closeList] := .softBreak (.text trivial rfl)
  exact .append (.indent (.softBreak (.separated hitems))) hclose
    (.softBreak (.bracket (a := .closeList) rfl rfl))

theorem Lays.node {label : String} (h : List.Forall₂ Lays items forms) :
    Lays [Doc.grouped [.text ("(" ++ label), .indent indent (Outline.parts items), .text ")"]]
      (.node label forms) := by
  intro hs
  have hparts := reads_of_lays h (sound_between hs)
  have hlabel : Reads [.text ("(" ++ label)] [.opening label] :=
    .text (hs _ List.mem_cons_self) String.toList_append
  have hclose : Reads [.text ")"] [.closing] := .text trivial rfl
  have hclosing : Parting [.text ")"] := .bracket (a := .closing) rfl rfl
  apply Reads.group
  exact .append hlabel (.append (.indent (.parts hparts)) hclose hclosing)
    (.append (.indent (.parts items)) hclosing)

theorem Lays.base (word : String) : Lays [.text ("(" ++ word ++ ")")] (.node word []) := by
  intro hs
  have hlabel : Reads [.text ("(" ++ word)] [.opening word] :=
    .text (hs _ List.mem_cons_self) String.toList_append
  exact .joined
    (hlabel.append (.text (a := .closing) trivial rfl) (.bracket (a := .closing) rfl rfl))

theorem Lays.name (s : String) :
    Lays [.text ("(type-name " ++ Spell.string s ++ ")")] (.node "type-name" [.string s]) := by
  intro _
  constructor
  intro i us hus tt htt
  have hlabel : (Atom.opening "type-name").Sound := by decide
  cases hus with
  | text hss =>
    cases hss
    have hsplit : plain ("(type-name " ++ Spell.string s ++ ")").toList ++ [] ++ tt =
        plain (Atom.opening "type-name").text ++ .char ' ' ::
          (plain (Atom.string s).text ++ (plain Atom.closing.text ++ tt)) := by
      simp [plain, Atom.text]
    rw [hsplit, cut_atom hlabel (.inr (parted_space _)), cut_space,
      cut_atom (a := .string s) trivial (.inl rfl), cut_atom (a := .closing) trivial (.inl rfl)]
    rfl

theorem Lays.string (s : String) : Lays [.text (Spell.string s)] (.string s) :=
  fun _ => .text trivial rfl

theorem Lays.word (s : String) : Lays [.text s] (.word s) :=
  fun hs => .text (hs _ List.mem_cons_self) rfl

theorem Lays.field {name : String} {value : Form} (h : Lays docs value) :
    Lays (.text (name ++ "=") :: docs) (.field name value) := by
  intro hs
  apply Reads.cons (hs _ List.mem_cons_self) String.toList_append rfl
  exact h fun a ha => hs a (List.mem_cons_of_mem _ ha)

/-- The blank behind a key parts it from its value. -/
theorem Lays.entry {key : String} {value : Form} (h : Lays docs value) :
    Lays (.text (key ++ ": ") :: docs) (.entry key value) := by
  intro hs
  constructor
  intro i us hus tt htt
  have hvalue : Reads docs value.atoms := h fun a ha => hs a (List.mem_cons_of_mem _ ha)
  have hkey : (Atom.key key).Sound := hs _ List.mem_cons_self
  cases hus with
  | @text i s ds ss hss =>
    have hsplit : plain (key ++ ": ").toList ++ ss ++ tt =
        plain (Atom.key key).text ++ .char ' ' :: (ss ++ tt) := by
      simp [plain, Atom.text]
    rw [hsplit, cut_atom hkey (.inr (parted_space _)), cut_space, hvalue.cut hss tt htt]
    rfl

end Outline
end RubySig
