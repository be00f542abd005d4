import RubySig.Format.Member
import RubySig.Outline.Basic

/-! The outlines of trees. -/
namespace RubySig

namespace Outline

def ofText? : Option String → Outline
  | none => null
  | some s => str s

def ofList {α : Type} (f : α → Outline) (items : List α) : Outline :=
  .list (items.map f)

end Outline

def TypeName.outline (n : TypeName) : Outline :=
  .node .typeName n.location .none
    [("name", .str n.name), ("namespace", Outline.ofList .str n.path),
      ("absolute", .bool n.absolute)]

def Literal.outline (location : Option Span) (value : Literal) : Outline :=
  let (word, value) : String × Outline := match value with
    | .integer n => ("integer", .scalar (.int n))
    | .string s => ("string", .str s)
    | .symbol s => ("symbol", .str s)
    | .truth true => ("true", .bool true)
    | .truth false => ("false", .bool false)
  .node .literalType location .none [("kind", .choice word), ("value", value)]

mutual

def Ty.outline : Ty → Outline
  | .base location kind => .node .baseType location .none [("kind", .choice kind.text)]
  | .variable location name => .node .variableType location .none [("name", .str name)]
  | .classInstance location name args =>
    .node .classInstanceType location .none
      [("name", name.outline), ("args", .list (tyOutlines args))]
  | .interface location name args =>
    .node .interfaceType location .none
      [("name", name.outline), ("args", .list (tyOutlines args))]
  | .alias location name args =>
    .node .aliasType location .none [("name", name.outline), ("args", .list (tyOutlines args))]
  | .classSingleton location name =>
    .node .singletonType location .none [("name", name.outline)]
  | .optional location type => .node .optionalType location .none [("type", type.outline)]
  | .union location types =>
    .node .unionType location .none [("types", .list (tyOutlines types))]
  | .intersection location types =>
    .node .intersectionType location .none [("types", .list (tyOutlines types))]
  | .tuple location types =>
    .node .tupleType location .none [("types", .list (tyOutlines types))]
  | .record location fields =>
    .node .recordType location .none [("fields", .list (fieldOutlines fields))]
  | .literal location value => value.outline location
  | .proc location signature block =>
    .node .procType location .none
      [("type", signatureOutline signature), ("block", blockOutline? block)]

def tyOutlines : List Ty → List Outline
  | [] => []
  | t :: ts => t.outline :: tyOutlines ts

def fieldOutlines : List Field → List Outline
  | [] => []
  | ⟨location, keyLocation, key, type⟩ :: fields =>
    .node .recordField location .none
      [("key", key.outline keyLocation), ("type", type.outline)] :: fieldOutlines fields

def paramOutline : Param → Outline
  | ⟨location, type, name⟩ =>
    .node .param location .none [("type", type.outline), ("name", .ofText? name)]

def paramOutlines : List Param → List Outline
  | [] => []
  | p :: ps => paramOutline p :: paramOutlines ps

def paramOutline? : Option Param → Outline
  | none => .null
  | some p => paramOutline p

def keywordOutlines : List (String × Param) → List (String × Outline)
  | [] => []
  | (name, p) :: ps => (name, paramOutline p) :: keywordOutlines ps

def signatureOutline : Signature → Outline
  | ⟨location, result, required, optional, rest, trailing, requiredKeywords, optionalKeywords,
      restKeywords⟩ =>
    .node .signature location .none
      [("return_type", result.outline),
        ("required_positionals", .list (paramOutlines required)),
        ("optional_positionals", .list (paramOutlines optional)),
        ("rest_positionals", paramOutline? rest),
        ("trailing_positionals", .list (paramOutlines trailing)),
        ("required_keywords", .table (keywordOutlines requiredKeywords)),
        ("optional_keywords", .table (keywordOutlines optionalKeywords)),
        ("rest_keywords", paramOutline? restKeywords)]

def blockOutline : Block → Outline
  | ⟨location, signature, required⟩ =>
    .node .block location .none
      [("type", signatureOutline signature), ("required", .bool required)]

def blockOutline? : Option Block → Outline
  | none => .null
  | some block => blockOutline block

end

theorem Ty.isNode_outline (t : Ty) : t.outline.isNode = true := by
  cases t with
  | literal l value =>
    cases value with
    | truth b => cases b <;> rfl
    | _ => rfl
  | _ => rfl

def Variance.word : Variance → String
  | .invariant => "invariant"
  | .covariant => "covariant"
  | .contravariant => "contravariant"

def TypeParam.outline (p : TypeParam) : Outline :=
  .node .typeParam p.location .none
    [("name", .str p.name), ("variance", .choice p.variance.word),
      ("unchecked", .bool p.unchecked),
      ("upper_bound", (p.bound.map Ty.outline).getD .null)]

def ClassRef.outline (r : ClassRef) : Outline :=
  .node .classRef r.location .none
    [("name", r.name.outline), ("args", .list (tyOutlines r.args))]

def MethodType.outline (m : MethodType) : Outline :=
  .node .methodType m.location .none
    [("type", signatureOutline m.signature), ("type_params", .ofList TypeParam.outline m.params),
      ("block", blockOutline? m.block)]

def Overload.outline (o : Overload) : Outline :=
  .node .overload o.location .none
    [("method_type", o.method.outline), ("annotations", .notes o.notes)]

def MemberLevel.word : MemberLevel → String
  | .instance_ => "instance"
  | .singleton => "singleton"

def MethodLevel.word : MethodLevel → String
  | .instance_ => "instance"
  | .singleton => "singleton"
  | .both => "singleton_instance"

def Backing.outline : Backing → Outline
  | .implied => .null
  | .absent => .bool false
  | .named name => .str name

def Visibility.outline? : Option Visibility → Outline
  | none => .null
  | some v => .choice v.text

def Access.kind : Access → NodeKind
  | .reader => .attrReader
  | .writer => .attrWriter
  | .accessor => .attrAccessor

def VariableKind.kind : VariableKind → NodeKind
  | .instance_ => .instanceVariable
  | .classInstance => .classInstanceVariable
  | .class_ => .classVariable

def MixinKind.kind : MixinKind → NodeKind
  | .include_ => .includeMember
  | .extend => .extendMember
  | .prepend => .prependMember

def Visibility.kind : Visibility → NodeKind
  | .public_ => .publicMember
  | .private_ => .privateMember

def Member.kind : Member → NodeKind
  | .alias .. => .aliasMember
  | .attribute access .. => access.kind
  | .variable kind .. => kind.kind
  | .mixin kind .. => kind.kind
  | .visibility v => v.kind
  | .method .. => .method

def Member.fields : Member → List (String × Outline)
  | .alias newName oldName level =>
    [("new_name", .str newName), ("old_name", .str oldName), ("kind", .choice level.word)]
  | .attribute _ name type backing level shown =>
    [("name", .str name), ("type", type.outline), ("ivar_name", backing.outline),
      ("kind", .choice level.word), ("visibility", Visibility.outline? shown)]
  | .variable _ name type => [("name", .str name), ("type", type.outline)]
  | .mixin _ name args => [("name", name.outline), ("args", .list (tyOutlines args))]
  | .visibility _ => []
  | .method name overloads level overloading shown =>
    [("name", .str name), ("overloads", .ofList Overload.outline overloads),
      ("kind", .choice level.word), ("overloading", .bool overloading),
      ("visibility", Visibility.outline? shown)]

def Declaration.kind : Declaration → NodeKind
  | .class_ .. => .classDecl
  | .module_ .. => .moduleDecl
  | .interface .. => .interfaceDecl
  | .constant .. => .constantDecl
  | .global .. => .globalDecl
  | .typeAlias .. => .typeAliasDecl

mutual

def Declaration.fields : Declaration → List (String × Outline)
  | .class_ name params superclass members =>
    [("name", name.outline), ("type_params", .ofList TypeParam.outline params),
      ("super_class", (superclass.map ClassRef.outline).getD .null),
      ("members", .list (itemOutlines members))]
  | .module_ name params selfTypes members =>
    [("name", name.outline), ("type_params", .ofList TypeParam.outline params),
      ("self_types", .ofList ClassRef.outline selfTypes),
      ("members", .list (itemOutlines members))]
  | .interface name params members =>
    [("name", name.outline), ("type_params", .ofList TypeParam.outline params),
      ("members", .list (itemOutlines members))]
  | .constant name type => [("name", name.outline), ("type", type.outline)]
  | .global name type => [("name", .str name), ("type", type.outline)]
  | .typeAlias name type params =>
    [("name", name.outline), ("type", type.outline),
      ("type_params", .ofList TypeParam.outline params)]

def Item.outline : Item → Outline
  | .member location lead member => .node member.kind location lead member.fields
  | .declaration location lead declaration =>
    .node declaration.kind location lead declaration.fields

def itemOutlines : List Item → List Outline
  | [] => []
  | item :: items => item.outline :: itemOutlines items

end

theorem itemOutlines_eq_map (items : List Item) : itemOutlines items = items.map Item.outline := by
  induction items with
  | nil => rfl
  | cons item items ih => rw [itemOutlines, ih, List.map_cons]

def Root.outline (root : Root) : Outline :=
  .node .root root.location .none [("declarations", .list (itemOutlines root.declarations))]

end RubySig
