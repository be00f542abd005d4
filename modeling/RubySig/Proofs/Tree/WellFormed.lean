import RubySig.Proofs.Tree.MethodFormed

/-!
Well-formed trees: unions and intersections of two or more members, parameters behind a rest
parameter only where there is one, keywords with different names, and methods with a signature or
with `...`.
-/
namespace RubySig

def Ty.hasMembers : Ty → Bool
  | .union _ types | .intersection _ types => 2 ≤ types.length
  | _ => true

def Signature.isOrdered (s : Signature) : Bool :=
  (s.rest.isSome || s.trailing.isEmpty) &&
    decide ((s.requiredKeywords ++ s.optionalKeywords).map (·.1)).Nodup

def Check.wellFormed : Check := ⟨Ty.hasMembers, Signature.isOrdered⟩

def ClassRef.passes (k : Check) (r : ClassRef) : Bool := Ty.allPass k r.args

/-- A member whose types pass a check; a method has an entry, and a variable that is named a
name. -/
def Member.passes (k : Check) : Member → Bool
  | .alias _ _ _ | .visibility _ => true
  | .attribute _ _ type backing _ _ => type.passes k && backing != .named ""
  | .variable _ _ type => type.passes k
  | .mixin _ _ args => Ty.allPass k args
  | .method _ overloads _ overloading _ =>
    (!overloads.isEmpty || overloading) && overloads.all (·.method.passes k)

mutual

def Declaration.passes (k : Check) : Declaration → Bool
  | .class_ _ params superclass members =>
    params.all (·.passes k) && superclass.all (·.passes k) && Item.allPass k members
  | .module_ _ params selfTypes members =>
    params.all (·.passes k) && selfTypes.all (·.passes k) && Item.allPass k members
  | .interface _ params members => params.all (·.passes k) && Item.allPass k members
  | .constant _ type | .global _ type => type.passes k
  | .typeAlias _ type params => type.passes k && params.all (·.passes k)

def Item.passes (k : Check) : Item → Bool
  | .member _ _ member => member.passes k
  | .declaration _ _ declaration => declaration.passes k

def Item.allPass (k : Check) : List Item → Bool
  | [] => true
  | item :: items => item.passes k && Item.allPass k items

end

/-- Every type, signature and method of a tree is as the grammar builds it. -/
def Root.isWellFormed (root : Root) : Bool := Item.allPass .wellFormed root.declarations

section Lists

variable {k : Check}

theorem Ty.allPass_iff {ts : List Ty} : Ty.allPass k ts = true ↔ ∀ t ∈ ts, t.passes k = true := by
  induction ts with
  | nil => simp [Ty.allPass]
  | cons t ts ih => simp [Ty.allPass, ih]

theorem Item.allPass_iff {items : List Item} :
    Item.allPass k items = true ↔ ∀ item ∈ items, item.passes k = true := by
  induction items with
  | nil => simp [Item.allPass]
  | cons item items ih => simp [Item.allPass, ih]

end Lists

section Formed

variable {scope : List String} {source : List Char}

theorem Signature.isOrdered_of_ordered {s : Signature} (h : s.Ordered) : s.isOrdered = true := by
  refine Bool.and_eq_true_iff.mpr ⟨?_, decide_eq_true h.keywords⟩
  cases hrest : s.rest with
  | none => simp [h.trailing hrest]
  | some p => rfl

mutual

/-- Types of the shapes that the grammar builds are well-formed. -/
theorem Ty.wellFormed_of_formed {scope : List String} : (t : Ty) → t.Formed scope source →
    t.passes .wellFormed = true
  | .base _ _, _ => rfl
  | .variable _ _, _ => rfl
  | .classInstance _ _ args, h => Ty.allWellFormed args h.2.2
  | .interface _ _ args, h => Ty.allWellFormed args h.2
  | .alias _ _ args, h => Ty.allWellFormed args h.2
  | .classSingleton _ _, _ => rfl
  | .optional _ type, h => Ty.wellFormed_of_formed type h
  | .union _ types, h => Bool.and_eq_true_iff.mpr ⟨decide_eq_true h.1, Ty.allWellFormed types h.2⟩
  | .intersection _ types, h =>
    Bool.and_eq_true_iff.mpr ⟨decide_eq_true h.1, Ty.allWellFormed types h.2⟩
  | .tuple _ types, h => Ty.allWellFormed types h
  | .record _ fields, h => Ty.fieldsWellFormed fields h
  | .literal _ _, _ => rfl
  | .proc _ signature block, h => Bool.and_eq_true_iff.mpr ⟨rfl, Bool.and_eq_true_iff.mpr
      ⟨Signature.wellFormed_of_formed signature h.1, Ty.blockWellFormed block h.2⟩⟩
termination_by structural t => t

theorem Ty.allWellFormed {scope : List String} : (ts : List Ty) → Ty.FormedAll scope source ts →
    Ty.allPass .wellFormed ts = true
  | [], _ => rfl
  | t :: ts, h => Bool.and_eq_true_iff.mpr ⟨Ty.wellFormed_of_formed t h.1, Ty.allWellFormed ts h.2⟩
termination_by structural ts => ts

theorem Ty.fieldsWellFormed {scope : List String} : (fields : List Field) →
    Ty.FormedFields scope source fields → Ty.fieldsPass .wellFormed fields = true
  | [], _ => rfl
  | ⟨_, _, _, type⟩ :: fields, h =>
    Bool.and_eq_true_iff.mpr ⟨Ty.wellFormed_of_formed type h.2.1, Ty.fieldsWellFormed fields h.2.2⟩
termination_by structural fields => fields

theorem Param.wellFormed_of_formed {scope : List String} : (p : Param) → p.Formed scope source →
    p.passes .wellFormed = true
  | ⟨_, type, _⟩, h => Ty.wellFormed_of_formed type h.1
termination_by structural p => p

theorem Param.allWellFormed {scope : List String} :
    (ps : List Param) → Param.FormedAll scope source ps → Param.allPass .wellFormed ps = true
  | [], _ => rfl
  | p :: ps, h =>
    Bool.and_eq_true_iff.mpr ⟨Param.wellFormed_of_formed p h.1, Param.allWellFormed ps h.2⟩
termination_by structural ps => ps

theorem Param.optionWellFormed {scope : List String} : (p : Option Param) →
    Param.FormedOption scope source p → Param.optionPasses .wellFormed p = true
  | none, _ => rfl
  | some p, h => Param.wellFormed_of_formed p h
termination_by structural p => p

theorem Param.keywordsWellFormed {scope : List String} : (ps : List (String × Param)) →
    Param.FormedKeywords scope source ps → Param.keywordsPass .wellFormed ps = true
  | [], _ => rfl
  | (_, p) :: ps, h =>
    Bool.and_eq_true_iff.mpr ⟨Param.wellFormed_of_formed p h.2.1, Param.keywordsWellFormed ps h.2.2⟩
termination_by structural ps => ps

theorem Signature.wellFormed_of_formed {scope : List String} : (s : Signature) →
    s.Formed scope source → s.passes .wellFormed = true
  | ⟨_, result, required, optional, rest, trailing, requiredKeywords, optionalKeywords,
      restKeywords⟩, h =>
    by
    obtain ⟨hordered, hresult, hrequired, hoptional, hrest, htrailing, hkeys,
        hoptionalKeys, hrestKeys⟩ := h
    simp only [Signature.passes, Bool.and_eq_true]
    exact ⟨Signature.isOrdered_of_ordered hordered, ⟨⟨⟨⟨⟨⟨⟨Ty.wellFormed_of_formed result hresult,
      Param.allWellFormed required hrequired⟩, Param.allWellFormed optional hoptional⟩,
      Param.optionWellFormed rest hrest⟩, Param.allWellFormed trailing htrailing⟩,
      Param.keywordsWellFormed requiredKeywords hkeys⟩,
      Param.keywordsWellFormed optionalKeywords hoptionalKeys⟩,
      Param.optionWellFormed restKeywords hrestKeys⟩⟩
termination_by structural s => s

theorem Ty.blockWellFormed {scope : List String} : (block : Option Block) →
    Ty.FormedBlock scope source block → Ty.blockPasses .wellFormed block = true
  | none, _ => rfl
  | some ⟨_, signature, _⟩, h => Signature.wellFormed_of_formed signature h
termination_by structural block => block

end

theorem TypeParam.wellFormed_of_formed {ps : List TypeParam}
    (h : TypeParam.FormedAll scope source ps) :
    ps.all (·.passes .wellFormed) = true := by
  induction ps generalizing scope with
  | nil => rfl
  | cons p ps ih =>
    have hbound : p.bound.all (·.passes .wellFormed) = true :=
      (Option.all_eq_true _ _).mpr fun t ht => Ty.wellFormed_of_formed t (h.2.1 t ht)
    exact Bool.and_eq_true_iff.mpr ⟨hbound, ih h.2.2⟩

theorem MethodType.wellFormed_of_formed {m : MethodType} (h : m.Formed scope source) :
    m.passes .wellFormed = true := by
  simp only [MethodType.passes, Bool.and_eq_true]
  exact ⟨⟨TypeParam.wellFormed_of_formed h.params, Signature.wellFormed_of_formed _ h.signature⟩,
    Ty.blockWellFormed _ h.block⟩

end Formed
end RubySig
