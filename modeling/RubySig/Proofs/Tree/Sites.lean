import Mathlib.Algebra.Order.Group.Multiset
import RubySig.Proofs.Outline.Placed
import RubySig.Proofs.Tree.ParamReads

/-!
Where types stand in a file: each with the lists of type parameters that are declared around it. The
sites are collected from a tree alone, in the order in which the types are printed.
-/
namespace RubySig

/-- A place in a file where a type or a literal is written. -/
inductive Site where
  /-- A type, and the names that the lists of type parameters around it declare, the innermost list
  first. -/
  | type (scopes : List (List String)) (type : Ty)
  /-- The key of a record entry, which is a literal. -/
  | key (location : Option Span) (key : Literal)

section Types

variable (scopes : List (List String))

mutual

def Ty.inner : Ty → List Site
  | .base _ _ | .variable _ _ | .classSingleton _ _ | .literal _ _ => []
  | .classInstance _ _ args | .interface _ _ args | .alias _ _ args => Ty.sitesAll args
  | .optional _ type => Site.type scopes type :: type.inner
  | .union _ types | .intersection _ types | .tuple _ types => Ty.sitesAll types
  | .record _ fields => Field.sitesAll fields
  | .proc _ signature block => signature.sites (Block.sites block)

def Ty.sitesAll : List Ty → List Site
  | [] => []
  | t :: ts => Site.type scopes t :: t.inner ++ Ty.sitesAll ts

def Field.sitesAll : List Field → List Site
  | [] => []
  | ⟨_, keyLocation, key, type⟩ :: fields =>
    Site.key keyLocation key :: Site.type scopes type :: type.inner ++ Field.sitesAll fields

def Param.sites : Param → List Site
  | ⟨_, type, _⟩ => Site.type scopes type :: type.inner

def Param.sitesAll : List Param → List Site
  | [] => []
  | p :: ps => p.sites ++ Param.sitesAll ps

def Param.sitesOption : Option Param → List Site
  | none => []
  | some p => p.sites

def Param.sitesKeywords : List (String × Param) → List Site
  | [] => []
  | (_, p) :: ps => p.sites ++ Param.sitesKeywords ps

/-- The sites of a signature, with those of its block in front of the return type. -/
def Signature.sites (block : List Site) : Signature → List Site
  | ⟨_, result, required, optional, rest, trailing, requiredKeywords, optionalKeywords,
      restKeywords⟩ =>
    Param.sitesAll required ++ Param.sitesAll optional ++ Param.sitesOption rest ++
      Param.sitesAll trailing ++ Param.sitesKeywords requiredKeywords ++
      Param.sitesKeywords optionalKeywords ++ Param.sitesOption restKeywords ++ block ++
      Site.type scopes result :: result.inner

def Block.sites : Option Block → List Site
  | none => []
  | some ⟨_, signature, _⟩ => signature.sites []

end

def Ty.sites (t : Ty) : List Site := Site.type scopes t :: t.inner scopes

theorem Ty.sitesAll_eq_flatMap (ts : List Ty) :
    Ty.sitesAll scopes ts = ts.flatMap (Ty.sites scopes) := by
  induction ts with
  | nil => rfl
  | cons t ts ih => rw [sitesAll, ih, List.flatMap_cons, sites]

def Field.sites (field : Field) : List Site :=
  Site.key field.keyLocation field.key :: field.type.sites scopes

theorem Field.sitesAll_eq_flatMap (fields : List Field) :
    Field.sitesAll scopes fields = fields.flatMap (Field.sites scopes) := by
  induction fields with
  | nil => rfl
  | cons field fields ih => cases field; rw [sitesAll, ih, List.flatMap_cons]; rfl

end Types

def TypeParam.names (params : List TypeParam) : List String := params.map (·.name)

/-- The sites in bounds. A bound sees its own parameter and those before it, which are
`declared`. -/
def TypeParam.sites (scopes : List (List String)) (declared : List String) :
    List TypeParam → List Site
  | [] => []
  | p :: ps =>
    p.bound.toList.flatMap (Ty.sites ((p.name :: declared) :: scopes)) ++
      TypeParam.sites scopes (p.name :: declared) ps

def ClassRef.sites (scopes : List (List String)) (r : ClassRef) :
    List Site := Ty.sitesAll scopes r.args

/-- The sites of one signature of a method: those in bounds, and those that see all type
parameters. -/
def MethodType.sites (scopes : List (List String)) (m : MethodType) : List Site :=
  let inside := TypeParam.names m.params :: scopes
  TypeParam.sites scopes [] m.params ++ m.signature.sites inside (Block.sites inside m.block)

def Overload.sites (scopes : List (List String)) (o : Overload) : List Site := o.method.sites scopes

def Member.sites (scopes : List (List String)) : Member → List Site
  | .alias _ _ _ | .visibility _ => []
  | .attribute _ _ type _ _ _ | .variable _ _ type => type.sites scopes
  | .mixin _ _ args => Ty.sitesAll scopes args
  | .method _ overloads _ _ _ => overloads.flatMap (Overload.sites scopes)

mutual

/-- The sites of a declaration. Its type parameters are known in all of it but the bounds, where not
all of them are. -/
def Declaration.sites (scopes : List (List String)) : Declaration → List Site
  | .class_ _ params superclass members =>
    let inside := TypeParam.names params :: scopes
    TypeParam.sites scopes [] params ++ superclass.toList.flatMap (ClassRef.sites inside) ++
      Item.sitesAll inside members
  | .module_ _ params selfTypes members =>
    let inside := TypeParam.names params :: scopes
    TypeParam.sites scopes [] params ++ selfTypes.flatMap (ClassRef.sites inside) ++
      Item.sitesAll inside members
  | .interface _ params members =>
    TypeParam.sites scopes [] params ++ Item.sitesAll (TypeParam.names params :: scopes) members
  | .constant _ type | .global _ type => type.sites scopes
  | .typeAlias _ type params =>
    TypeParam.sites scopes [] params ++ type.sites (TypeParam.names params :: scopes)

def Item.sites (scopes : List (List String)) : Item → List Site
  | .member _ _ member => member.sites scopes
  | .declaration _ _ declaration => declaration.sites scopes

def Item.sitesAll (scopes : List (List String)) : List Item → List Site
  | [] => []
  | item :: items => item.sites scopes ++ Item.sitesAll scopes items

end

def Root.sites (root : Root) : List Site := Item.sitesAll [] root.declarations

namespace Ty

/-- The type variable that a type is. -/
def variableName? : Ty → Option String
  | .variable _ name => some name
  | _ => none

/-- The class that a type is an instance of, where it has no namespace. -/
def bareName? : Ty → Option String
  | .classInstance _ ⟨_, name, [], false⟩ _ => some name
  | _ => none

/-- The place of the name of a type, and of all of the type where it is no name. -/
def namePlace : Ty → Option Span
  | .classInstance _ name _ | .interface _ name _ | .alias _ name _ => name.location
  | .base l _ | .variable l _ | .classSingleton l _ | .optional l _ | .union l _ | .intersection l _
  | .tuple l _ | .record l _ | .literal l _ | .proc l _ _ => l

/-- The place and the value of a type that is a string. -/
def string? : Ty → Option (Option Span × String)
  | .literal l (.string v) => some (l, v)
  | _ => none

end Ty

def Token.string? : Token → Option (Option Span × String)
  | ⟨.string v, start, stop⟩ => some (some (.between start stop), v)
  | _ => none

def Site.string? : Site → Option (Option Span × String)
  | .type _ t => t.string?
  | .key l (.string v) => some (l, v)
  | .key _ _ => none

namespace Grammar

variable {scopes : List (List String)}

def Params.sites (scopes : List (List String)) (ps : Params) : List Site :=
  Param.sitesAll scopes ps.required ++ Param.sitesAll scopes ps.optional ++
    Param.sitesOption scopes ps.rest ++ Param.sitesAll scopes ps.trailing ++
    Param.sitesKeywords scopes ps.requiredKeywords ++
      Param.sitesKeywords scopes ps.optionalKeywords ++
    Param.sitesOption scopes ps.restKeywords

theorem Params.signature_sites (ps : Params) (location : Option Span) (result : Ty)
    (block : List Site) : (ps.signature location result).sites scopes block =
      ps.sites scopes ++ block ++ result.sites scopes := rfl

theorem sitesAll_snoc (ps : List Param) (p : Param) :
    Param.sitesAll scopes (ps ++ [p]) = Param.sitesAll scopes ps ++ p.sites scopes := by
  induction ps with
  | nil => exact List.append_nil _
  | cons q ps ih => rw [List.cons_append, Param.sitesAll, ih, Param.sitesAll, List.append_assoc]

theorem sitesKeywords_snoc (ps : List (String × Param)) (name : String) (p : Param) :
    Param.sitesKeywords scopes (ps ++ [(name, p)]) =
      Param.sitesKeywords scopes ps ++ p.sites scopes := by
  induction ps with
  | nil => exact List.append_nil _
  | cons q ps ih =>
    obtain ⟨other, q⟩ := q
    rw [List.cons_append, Param.sitesKeywords, ih, Param.sitesKeywords, List.append_assoc]

/-- Whether an entry takes no place that is taken. -/
def Params.HasRoom (ps : Params) : ParamSlot → Prop
  | .rest _ => ps.rest = none
  | .restKeywords _ => ps.restKeywords = none
  | .required _ | .optional _ | .trailing _ | .keyword _ _ _ => True

/-- One more parameter has its sites, and those before it keep theirs. -/
theorem Params.add_sites {ps : Params} {slot : ParamSlot} (h : ps.HasRoom slot) :
    ((ps.add slot).sites scopes).Perm (ps.sites scopes ++ slot.param.sites scopes) := by
  apply Multiset.coe_eq_coe.mp
  cases slot with
  | required p | optional p | trailing p =>
    simp only [sites, add, ParamSlot.param, sitesAll_snoc, ← Multiset.coe_add]
    ac_rfl
  | keyword name optional p =>
    cases optional <;>
    · simp only [sites, add, ParamSlot.param, sitesKeywords_snoc, ← Multiset.coe_add]
      ac_rfl
  | rest p =>
    have hrest : ps.rest = none := h
    simp only [sites, add, ParamSlot.param, hrest, Param.sitesOption, List.append_nil,
      ← Multiset.coe_add]
    ac_rfl
  | restKeywords p =>
    have hrest : ps.restKeywords = none := h
    simp only [sites, add, ParamSlot.param, hrest, Param.sitesOption, List.append_nil,
      ← Multiset.coe_add]

end Grammar
end RubySig
