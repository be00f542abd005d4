import RubySig.Proofs.Tree.Check
import RubySig.Proofs.Tree.Formed
import RubySig.Tree.Grammar

/-!
Signatures of methods of the shapes that the grammar builds, with their names and annotations, and
checks of the types in them.
-/
namespace RubySig

/-- A name that a method can be written with: one that needs no backquotes, or that they can hold.
A lone backquote can be read as a name but opens a quotation where it is printed. -/
structure CallableName (s : String) : Prop where
  written : MethodName.isWhole s.toList = true ∨ Nameable s
  notQuote : s.toList ≠ ['`']

/-- An annotation that is printed as it is read: without blanks at its ends and without braces. -/
structure Note.Formed (n : Note) : Prop where
  location : n.location = none
  stripped : Text.strip n.text.toList = n.text.toList
  braceFree : '\x7b' ∉ n.text.toList ∧ '\x7d' ∉ n.text.toList

/-- Type parameters; a bound knows its own name, those before it and those of `scope`. -/
def TypeParam.FormedAll (scope : List String) (source : List Char) : List TypeParam → Prop
  | [] => True
  | p :: ps => Lexer.ReadsAs p.name (.constant p.name) ∧
    (∀ t ∈ p.bound, t.Formed (p.name :: scope) source) ∧
    TypeParam.FormedAll (p.name :: scope) source ps

/-- Type parameters and a signature that knows them. -/
structure MethodType.Formed (scope : List String) (source : List Char) (m : MethodType) : Prop where
  params : TypeParam.FormedAll scope source m.params
  signature : m.signature.Formed (Grammar.within m.params scope) source
  block : Ty.FormedBlock (Grammar.within m.params scope) source m.block

structure Overload.Formed (scope : List String) (source : List Char) (o : Overload) : Prop where
  notes : ∀ n ∈ o.notes, n.Formed
  method : o.method.Formed scope source

def TypeParam.passes (k : Check) (p : TypeParam) : Bool := p.bound.all (·.passes k)

def MethodType.passes (k : Check) (m : MethodType) : Bool :=
  m.params.all (·.passes k) && m.signature.passes k && Ty.blockPasses k m.block

section Imp

variable {k m : Check} (ht : ∀ t : Ty, t.passes k = true → m.type t = true)
  (hs : ∀ s : Signature, s.passes k = true → m.signature s = true)

include ht hs

theorem TypeParam.passes_imp {p : TypeParam} (h : p.passes k = true) : p.passes m = true := by
  obtain ⟨l, name, variance, unchecked, bound⟩ := p
  cases bound with
  | none => rfl
  | some t => exact Ty.passes_imp ht hs t h

theorem MethodType.passes_imp {t : MethodType} (h : t.passes k = true) : t.passes m = true := by
  simp only [MethodType.passes, Bool.and_eq_true, List.all_eq_true] at h ⊢
  obtain ⟨⟨hp, hsig⟩, hb⟩ := h
  exact ⟨⟨fun p hm => TypeParam.passes_imp ht hs (hp p hm), Signature.passes_imp ht hs _ hsig⟩,
    Ty.blockPasses_imp ht hs _ hb⟩

end Imp

/-- Signatures without symbols are clear, and nothing merges in them. -/
theorem MethodType.passes_of_symbolFree {m : MethodType} (h : m.passes .symbolFree = true) :
    m.passes .clear = true ∧ m.passes .unmerged = true :=
  ⟨MethodType.passes_imp (fun _ _ => rfl) (fun _ hs => Check.clear_of_symbolFree hs) h,
    MethodType.passes_imp (fun _ ht => Check.unmerged_of_symbolFree ht) (fun _ _ => rfl) h⟩

end RubySig
