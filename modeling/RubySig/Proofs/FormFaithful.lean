import Mathlib
import RubySig.Proofs.Outline.FormSound
import RubySig.Proofs.Outline.FormTold
import RubySig.Proofs.Outline.ItemTold
import RubySig.Proofs.Outline.TreeFits
import RubySig.Proofs.Tree.DeclarationYields

/-!
The forms of trees lose nothing but the places, with one exception: the name of a keyword parameter
stands there as it is. Where these names are plain, two sources whose forms are equal have the same
declarations, with the same texts of comments and annotations, whatever the widths. Only between
backquotes can a name hold blanks, quotes and brackets; sources without backquotes always have plain
names.
-/
namespace RubySig

open Outline

namespace Grammar.Likeness.Stands

variable {c c' : Context} {L : Likeness c c'}

theorem plain_of_isName {s : String} (h : Format.IsName s.toList) :
    s.toList.all Atom.isPlain = true := by
  rw [List.all_eq_true]
  intro d hd
  have hspecial : ∀ e ∈ [' ', '\t', '\n', '"', '(', ')', '[', ']', '='],
      Lexer.isNamePart e = false := by
    decide
  rw [Atom.isPlain, Bool.not_eq_true', List.contains_eq_mem, decide_eq_false_iff_not]
  intro hmem
  have hpart := h.namePart d hd
  rw [hspecial d hmem] at hpart
  cases hpart

theorem plain_keyword (k : Keyword) : k.text.toList.all Atom.isPlain = true := by
  cases k <;> decide +kernel

/-- Names of tokens are plain in a text without backquotes. -/
theorem named_plain (hL : L.Stands) (hq : '`' ∉ c.text) {s : String} (h : L.Named s) :
    s.toList.all Atom.isPlain = true := by
  obtain ⟨l, ⟨t, t', ht, rfl⟩, hname⟩ := h
  have htaken := hL.taken ht
  revert hname htaken
  cases t.lexeme with
  | identifier u =>
    rintro ⟨⟩ htaken
    exact plain_of_isName (Lexer.taken_name htaken (.inr (.inr rfl))).1
  | constant u =>
    rintro ⟨⟩ htaken
    exact plain_of_isName (Lexer.taken_name htaken (.inl rfl)).1
  | interfaceName u =>
    rintro ⟨⟩ htaken
    exact plain_of_isName (Lexer.taken_name htaken (.inr (.inl rfl))).1
  | keyword k =>
    rintro ⟨⟩ -
    exact plain_keyword k
  | quotedIdentifier u =>
    intro _ htaken
    have hmem : '`' ∈ t.span.slice c.text := by
      rw [htaken.1]
      exact List.mem_cons_self
    exact absurd (List.mem_of_mem_take (List.mem_of_mem_drop hmem)) hq
  | _ => rintro ⟨⟩

end Grammar.Likeness.Stands

/-- The keys of all tables are plain where no name is written between backquotes. -/
theorem Root.plainKeys_of_unquoted {source : String} {root : Root}
    (h : (Root.read source).result = .ok root) (hq : '`' ∉ source.toList) :
    root.outline.plainKeys = true := by
  obtain ⟨scan, -, hscan, -⟩ := Root.read_ok h
  exact plainKeys_of_fits (fun _ hkey => (Lexer.scan_stands hscan).named_plain hq hkey) _
    (Root.fits hscan h)

/-- Sources that are read have forms, and where the names of their keyword parameters are plain,
equal forms are those of equal trees. -/
theorem form_faithful {s t : String} {a b : Root} (ha : (Root.read s).result = .ok a)
    (hb : (Root.read t).result = .ok b) (hka : a.outline.plainKeys = true)
    (hkb : b.outline.plainKeys = true) (indent width indent' width' : Int) :
    ∃ x y, a.outline.formText indent width = .ok x ∧ b.outline.formText indent' width' = .ok y ∧
      (x = y → ∀ order : EntryOrder, a.settled order = b.settled order) := by
  obtain ⟨-, -, -, -, hformed, -⟩ := Root.read_yields ha
  obtain ⟨-, -, -, -, hformed', -⟩ := Root.read_yields hb
  obtain ⟨x, hx⟩ := formText_ok indent width (o := a.outline) rfl (Root.admitted hformed)
  obtain ⟨y, hy⟩ := formText_ok indent' width' (o := b.outline) rfl (Root.admitted hformed')
  refine ⟨x, y, hx, hy, ?_⟩
  rintro rfl order
  obtain ⟨scan, -, hscan, -⟩ := Root.read_ok ha
  obtain ⟨scan', -, hscan', -⟩ := Root.read_ok hb
  have hfits := Root.fits hscan ha
  have hfits' := Root.fits hscan' hb
  have hform : a.outline.form = b.outline.form :=
    form_of_formText hx hy (form_sound a.outline .required false rfl rfl hfits hka)
      (form_sound b.outline .required false rfl rfl hfits' hkb)
  apply Root.told a b
  exact form_tells a.outline .required false b.outline rfl rfl rfl rfl hfits hfits' hform

def keyworded (names : List String) : Signature :=
  ⟨none, .base none .void, [], [], none, [],
    names.map (·, ⟨none, .base none .untyped, none⟩), [], none⟩

-- Between backquotes, the name of one keyword can spell the forms of two.
example : ((signatureOutline (keyworded ["a: (param type=(untyped)) b"])).formText 2 200).toOption =
    ((signatureOutline (keyworded ["a", "b"])).formText 2 200).toOption := by
  decide +kernel

/-- Sources without backquotes and with equal forms have equal trees. -/
theorem form_faithful_unquoted {s t : String} {a b : Root} (ha : (Root.read s).result = .ok a)
    (hb : (Root.read t).result = .ok b) (hs : '`' ∉ s.toList) (ht : '`' ∉ t.toList)
    {indent width : Int} (h : a.outline.formText indent width = b.outline.formText indent width)
    (order : EntryOrder) :
    a.settled order = b.settled order := by
  obtain ⟨x, y, hx, hy, hfaithful⟩ := form_faithful ha hb (Root.plainKeys_of_unquoted ha hs)
    (Root.plainKeys_of_unquoted hb ht) indent width indent width
  apply hfaithful
  rw [hx, hy] at h
  exact Except.ok.inj h

end RubySig
