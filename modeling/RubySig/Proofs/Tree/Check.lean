import RubySig.Proofs.Format.TyPieces
import RubySig.Tree.Basic

/-!
Checks of every type and signature inside a type, and the symbols in types: types without any, types
where none stands right behind a mark, and types where no symbol takes in the mark behind it.
-/
namespace RubySig

/-- What is asked of each type and of each signature. -/
structure Check where
  type : Ty → Bool
  signature : Signature → Bool

mutual

/-- Whether a type and all the types and signatures inside it pass a check. -/
def Ty.passes (k : Check) : Ty → Bool
  | .base l kind => k.type (.base l kind)
  | .variable l name => k.type (.variable l name)
  | .classInstance l name args => k.type (.classInstance l name args) && Ty.allPass k args
  | .interface l name args => k.type (.interface l name args) && Ty.allPass k args
  | .alias l name args => k.type (.alias l name args) && Ty.allPass k args
  | .classSingleton l name => k.type (.classSingleton l name)
  | .optional l type => k.type (.optional l type) && type.passes k
  | .union l types => k.type (.union l types) && Ty.allPass k types
  | .intersection l types => k.type (.intersection l types) && Ty.allPass k types
  | .tuple l types => k.type (.tuple l types) && Ty.allPass k types
  | .record l fields => k.type (.record l fields) && Ty.fieldsPass k fields
  | .literal l value => k.type (.literal l value)
  | .proc l signature block =>
    k.type (.proc l signature block) && (signature.passes k && Ty.blockPasses k block)

def Ty.allPass (k : Check) : List Ty → Bool
  | [] => true
  | t :: ts => t.passes k && Ty.allPass k ts

def Ty.fieldsPass (k : Check) : List Field → Bool
  | [] => true
  | ⟨_, _, _, type⟩ :: fields => type.passes k && Ty.fieldsPass k fields

def Param.passes (k : Check) : Param → Bool
  | ⟨_, type, _⟩ => type.passes k

def Param.allPass (k : Check) : List Param → Bool
  | [] => true
  | p :: ps => p.passes k && Param.allPass k ps

def Param.optionPasses (k : Check) : Option Param → Bool
  | none => true
  | some p => p.passes k

def Param.keywordsPass (k : Check) : List (String × Param) → Bool
  | [] => true
  | (_, p) :: ps => p.passes k && Param.keywordsPass k ps

def Signature.passes (k : Check) : Signature → Bool
  | ⟨l, result, required, optional, rest, trailing, requiredKeywords, optionalKeywords,
      restKeywords⟩ =>
    k.signature ⟨l, result, required, optional, rest, trailing, requiredKeywords, optionalKeywords,
        restKeywords⟩ &&
      (result.passes k && Param.allPass k required && Param.allPass k optional &&
        Param.optionPasses k rest && Param.allPass k trailing &&
        Param.keywordsPass k requiredKeywords && Param.keywordsPass k optionalKeywords &&
        Param.optionPasses k restKeywords)

def Ty.blockPasses (k : Check) : Option Block → Bool
  | none => true
  | some ⟨_, signature, _⟩ => signature.passes k

end

section Imp

variable {k m : Check} (ht : ∀ t : Ty, t.passes k = true → m.type t = true)
  (hs : ∀ s : Signature, s.passes k = true → m.signature s = true)

include ht hs

set_option linter.unusedSectionVars false

mutual

/-- A check that follows from another one on each part follows on the whole. -/
theorem Ty.passes_imp : (t : Ty) → t.passes k = true → t.passes m = true
  | .base l kind, h => ht _ h
  | .variable l name, h => ht _ h
  | .classInstance l name args, h =>
    Bool.and_eq_true_iff.mpr ⟨ht _ h, Ty.allPass_imp args (Bool.and_eq_true_iff.mp h).2⟩
  | .interface l name args, h =>
    Bool.and_eq_true_iff.mpr ⟨ht _ h, Ty.allPass_imp args (Bool.and_eq_true_iff.mp h).2⟩
  | .alias l name args, h =>
    Bool.and_eq_true_iff.mpr ⟨ht _ h, Ty.allPass_imp args (Bool.and_eq_true_iff.mp h).2⟩
  | .classSingleton l name, h => ht _ h
  | .optional l type, h =>
    Bool.and_eq_true_iff.mpr ⟨ht _ h, Ty.passes_imp type (Bool.and_eq_true_iff.mp h).2⟩
  | .union l types, h =>
    Bool.and_eq_true_iff.mpr ⟨ht _ h, Ty.allPass_imp types (Bool.and_eq_true_iff.mp h).2⟩
  | .intersection l types, h =>
    Bool.and_eq_true_iff.mpr ⟨ht _ h, Ty.allPass_imp types (Bool.and_eq_true_iff.mp h).2⟩
  | .tuple l types, h =>
    Bool.and_eq_true_iff.mpr ⟨ht _ h, Ty.allPass_imp types (Bool.and_eq_true_iff.mp h).2⟩
  | .record l fields, h =>
    Bool.and_eq_true_iff.mpr ⟨ht _ h, Ty.fieldsPass_imp fields (Bool.and_eq_true_iff.mp h).2⟩
  | .literal l value, h => ht _ h
  | .proc l signature block, h => by
    obtain ⟨hsig, hblock⟩ := Bool.and_eq_true_iff.mp (Bool.and_eq_true_iff.mp h).2
    exact Bool.and_eq_true_iff.mpr ⟨ht _ h, Bool.and_eq_true_iff.mpr
      ⟨Signature.passes_imp signature hsig, Ty.blockPasses_imp block hblock⟩⟩

theorem Ty.allPass_imp : (ts : List Ty) → Ty.allPass k ts = true → Ty.allPass m ts = true
  | [], _ => rfl
  | t :: ts, h => Bool.and_eq_true_iff.mpr ⟨Ty.passes_imp t (Bool.and_eq_true_iff.mp h).1,
      Ty.allPass_imp ts (Bool.and_eq_true_iff.mp h).2⟩

theorem Ty.fieldsPass_imp : (fields : List Field) → Ty.fieldsPass k fields = true →
    Ty.fieldsPass m fields = true
  | [], _ => rfl
  | ⟨_, _, _, type⟩ :: fields, h =>
    Bool.and_eq_true_iff.mpr ⟨Ty.passes_imp type (Bool.and_eq_true_iff.mp h).1,
      Ty.fieldsPass_imp fields (Bool.and_eq_true_iff.mp h).2⟩

theorem Param.passes_imp : (p : Param) → p.passes k = true → p.passes m = true
  | ⟨_, type, _⟩, h => Ty.passes_imp type h

theorem Param.allPass_imp :
    (ps : List Param) → Param.allPass k ps = true → Param.allPass m ps = true
  | [], _ => rfl
  | p :: ps, h => Bool.and_eq_true_iff.mpr ⟨Param.passes_imp p (Bool.and_eq_true_iff.mp h).1,
      Param.allPass_imp ps (Bool.and_eq_true_iff.mp h).2⟩

theorem Param.optionPasses_imp : (p : Option Param) → Param.optionPasses k p = true →
    Param.optionPasses m p = true
  | none, _ => rfl
  | some p, h => Param.passes_imp p h

theorem Param.keywordsPass_imp : (ps : List (String × Param)) → Param.keywordsPass k ps = true →
    Param.keywordsPass m ps = true
  | [], _ => rfl
  | (_, p) :: ps, h => Bool.and_eq_true_iff.mpr ⟨Param.passes_imp p (Bool.and_eq_true_iff.mp h).1,
      Param.keywordsPass_imp ps (Bool.and_eq_true_iff.mp h).2⟩

theorem Signature.passes_imp : (s : Signature) → s.passes k = true → s.passes m = true
  | ⟨_, result, required, optional, rest, trailing, requiredKeywords, optionalKeywords,
      restKeywords⟩, h => by
    have hown := hs _ h
    simp only [Signature.passes, Bool.and_eq_true] at h ⊢
    obtain ⟨-, ⟨⟨⟨⟨⟨⟨hr, h₁⟩, h₂⟩, h₃⟩, h₄⟩, h₅⟩, h₆⟩, h₇⟩ := h
    exact ⟨hown, ⟨⟨⟨⟨⟨⟨Ty.passes_imp result hr, Param.allPass_imp required h₁⟩,
      Param.allPass_imp optional h₂⟩, Param.optionPasses_imp rest h₃⟩,
      Param.allPass_imp trailing h₄⟩, Param.keywordsPass_imp requiredKeywords h₅⟩,
      Param.keywordsPass_imp optionalKeywords h₆⟩, Param.optionPasses_imp restKeywords h₇⟩

theorem Ty.blockPasses_imp : (block : Option Block) → Ty.blockPasses k block = true →
    Ty.blockPasses m block = true
  | none, _ => rfl
  | some ⟨_, signature, _⟩, h => Signature.passes_imp signature h

end

end Imp

mutual

/-- Whether a type is printed with a symbol in front. -/
def Ty.leadsWithSymbol (wrap : Bool) : Ty → Bool
  | .literal _ (.symbol _) => true
  | .optional _ type => !type.isOptional && type.leadsWithSymbol true
  | .union _ types => !wrap && Ty.anyLeads wrap types
  | .intersection _ types => !wrap && Ty.anyLeads true types
  | _ => false

/-- Whether the first of some types is printed with a symbol in front. -/
def Ty.anyLeads (wrap : Bool) : List Ty → Bool
  | [] => false
  | t :: _ => t.leadsWithSymbol wrap

end

def Param.leadsWithSymbol : Param → Bool
  | ⟨_, type, _⟩ => type.leadsWithSymbol false

def Ty.isSymbol : Ty → Bool
  | .literal _ (.symbol _) => true
  | _ => false

/-- Whether a type is an optional symbol whose mark reads as a part of the symbol. -/
def Ty.merges : Ty → Bool
  | .optional _ type => type.openSymbol?.isSome
  | _ => false

namespace Check

/-- No optional parameter is printed with a symbol right behind its mark. -/
def clear : Check := ⟨fun _ => true, fun s => s.optional.all (!·.leadsWithSymbol)⟩

/-- No symbol takes in the mark behind it. -/
def unmerged : Check := ⟨fun t => !t.merges, fun _ => true⟩

/-- There are no symbols but as keys. -/
def symbolFree : Check := ⟨fun t => !t.isSymbol, fun _ => true⟩

end Check

theorem Ty.not_leads_of_symbolFree : (wrap : Bool) → (t : Ty) → t.passes .symbolFree = true →
    t.leadsWithSymbol wrap = false
  | _, .literal _ (.symbol _), h => by cases h
  | _, .optional _ type, h => by
    rw [Ty.leadsWithSymbol, Ty.not_leads_of_symbolFree true type h, Bool.and_false]
  | _, .union _ [], _ => by rw [Ty.leadsWithSymbol, Ty.anyLeads, Bool.and_false]
  | wrap, .union _ (t :: _), h => by
    have ht : t.passes .symbolFree = true :=
      (Bool.and_eq_true_iff.mp (Bool.and_eq_true_iff.mp h).2).1
    rw [Ty.leadsWithSymbol, Ty.anyLeads, Ty.not_leads_of_symbolFree wrap t ht, Bool.and_false]
  | _, .intersection _ [], _ => by rw [Ty.leadsWithSymbol, Ty.anyLeads, Bool.and_false]
  | _, .intersection _ (t :: _), h => by
    have ht : t.passes .symbolFree = true :=
      (Bool.and_eq_true_iff.mp (Bool.and_eq_true_iff.mp h).2).1
    rw [Ty.leadsWithSymbol, Ty.anyLeads, Ty.not_leads_of_symbolFree true t ht, Bool.and_false]
  | _, .literal _ (.integer _), _ => rfl
  | _, .literal _ (.string _), _ => rfl
  | _, .literal _ (.truth _), _ => rfl
  | _, .base _ _, _ => rfl
  | _, .variable _ _, _ => rfl
  | _, .classInstance _ _ _, _ => rfl
  | _, .interface _ _ _, _ => rfl
  | _, .alias _ _ _, _ => rfl
  | _, .classSingleton _ _, _ => rfl
  | _, .tuple _ _, _ => rfl
  | _, .record _ _, _ => rfl
  | _, .proc _ _ _, _ => rfl

theorem Param.not_leads_of_symbolFree {ps : List Param}
    (h : Param.allPass .symbolFree ps = true) : ∀ p ∈ ps, p.leadsWithSymbol = false := by
  induction ps with
  | nil => simp
  | cons p ps ih =>
    rw [Param.allPass, Bool.and_eq_true] at h
    refine List.forall_mem_cons.mpr ⟨?_, ih h.2⟩
    cases p
    exact Ty.not_leads_of_symbolFree false _ h.1

theorem Check.clear_of_symbolFree {s : Signature} (h : s.passes .symbolFree = true) :
    Check.clear.signature s = true := by
  cases s
  simp only [Signature.passes, Bool.and_eq_true] at h
  simpa [Check.clear] using Param.not_leads_of_symbolFree h.2.1.1.1.1.1.2

theorem Check.unmerged_of_symbolFree {t : Ty} (h : t.passes .symbolFree = true) :
    Check.unmerged.type t = true := by
  cases t with
  | optional l type =>
    cases ho : type.openSymbol? with
    | none => simp [Check.unmerged, Ty.merges, ho]
    | some s =>
      obtain ⟨-, l', rfl⟩ := Ty.openSymbol?_eq_some ho
      cases h
  | _ => rfl

/-- Types without symbols are clear, and nothing merges in them. -/
theorem Ty.passes_of_symbolFree {t : Ty} (h : t.passes .symbolFree = true) :
    t.passes .clear = true ∧ t.passes .unmerged = true :=
  ⟨Ty.passes_imp (fun _ _ => rfl) (fun _ hs => Check.clear_of_symbolFree hs) t h,
    Ty.passes_imp (fun _ hu => Check.unmerged_of_symbolFree hu) (fun _ _ => rfl) t h⟩

end RubySig
