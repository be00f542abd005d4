import RubySig.Data.Datum

/-!
The kinds of nodes in a tree, their names, and the fields of each kind in their order. Five kinds
are abstract: they only group other kinds, and nothing can be done with a node of such a kind.
-/
namespace RubySig

/-- The kinds of nodes, those included that only stand for several others. -/
inductive NodeKind where
  | root | typeName | classRef | typeParam
  | classDecl | moduleDecl | interfaceDecl | constantDecl | globalDecl | typeAliasDecl
  | aliasMember | attrReader | attrWriter | attrAccessor
  | instanceVariable | classInstanceVariable | classVariable
  | includeMember | extendMember | prependMember | publicMember | privateMember
  | method | overload | methodType
  | baseType | variableType | classInstanceType | interfaceType | aliasType | singletonType
  | optionalType | unionType | intersectionType | tupleType | recordType | literalType | procType
  | recordField | signature | param | block
  | declaration | member | type | attributeMember | mixinMember
  deriving DecidableEq, Repr

/-- The words that some fields are restricted to. -/
inductive Vocabulary where
  | base | literal | variance | level | visibility
  deriving DecidableEq, Repr

namespace Vocabulary

def name : Vocabulary → String
  | .base => "BaseTypeKind"
  | .literal => "LiteralKind"
  | .variance => "Variance"
  | .level => "MemberKind"
  | .visibility => "Visibility"

def words : Vocabulary → List String
  | .base => ["untyped", "bool", "bot", "class", "instance", "nil", "self", "top", "void"]
  | .literal => ["integer", "string", "symbol", "true", "false"]
  | .variance => ["invariant", "covariant", "contravariant"]
  | .level => ["instance", "singleton", "singleton_instance"]
  | .visibility => ["public", "private"]

/-- A word with its vocabulary, as messages show it. Two words have other names than themselves. -/
def quoted (v : Vocabulary) (word : String) : String :=
  let constant := if word == "untyped" then "ANY" else if word == "bot" then "BOTTOM"
    else word.map Char.toUpper
  "<" ++ v.name ++ "." ++ constant ++ ": '" ++ word ++ "'>"

end Vocabulary

/-- What a field holds when nothing is given for it. -/
inductive Slot where
  /-- Something must be given. -/
  | required
  | absent
  | flag (default : Bool)
  /-- A word of a vocabulary, or nothing. -/
  | choice (vocabulary : Vocabulary) (default : Option String)
  | list
  | table
  | notes
  deriving DecidableEq, Repr

namespace NodeKind

def name : NodeKind → String
  | .root => "Root"
  | .typeName => "TypeName"
  | .classRef => "NameAndArgs"
  | .typeParam => "TypeParam"
  | .classDecl => "ClassDeclaration"
  | .moduleDecl => "ModuleDeclaration"
  | .interfaceDecl => "InterfaceDeclaration"
  | .constantDecl => "ConstantDeclaration"
  | .globalDecl => "GlobalDeclaration"
  | .typeAliasDecl => "TypeAliasDeclaration"
  | .aliasMember => "AliasMember"
  | .attrReader => "AttrReaderMember"
  | .attrWriter => "AttrWriterMember"
  | .attrAccessor => "AttrAccessorMember"
  | .instanceVariable => "InstanceVariableMember"
  | .classInstanceVariable => "ClassInstanceVariableMember"
  | .classVariable => "ClassVariableMember"
  | .includeMember => "IncludeMember"
  | .extendMember => "ExtendMember"
  | .prependMember => "PrependMember"
  | .publicMember => "PublicMember"
  | .privateMember => "PrivateMember"
  | .method => "MethodDefinitionMember"
  | .overload => "MethodOverload"
  | .methodType => "MethodType"
  | .baseType => "BaseType"
  | .variableType => "VariableType"
  | .classInstanceType => "ClassInstanceType"
  | .interfaceType => "InterfaceType"
  | .aliasType => "AliasType"
  | .singletonType => "ClassSingletonType"
  | .optionalType => "OptionalType"
  | .unionType => "UnionType"
  | .intersectionType => "IntersectionType"
  | .tupleType => "TupleType"
  | .recordType => "RecordType"
  | .literalType => "LiteralType"
  | .procType => "ProcType"
  | .recordField => "RecordField"
  | .signature => "Function"
  | .param => "FunctionParam"
  | .block => "Block"
  | .declaration => "Declaration"
  | .member => "Member"
  | .type => "Type"
  | .attributeMember => "AttributeMember"
  | .mixinMember => "MixinMember"

def all : List NodeKind :=
  [.root, .typeName, .classRef, .typeParam, .classDecl, .moduleDecl, .interfaceDecl,
    .constantDecl, .globalDecl, .typeAliasDecl, .aliasMember, .attrReader, .attrWriter,
    .attrAccessor, .instanceVariable, .classInstanceVariable, .classVariable, .includeMember,
    .extendMember, .prependMember, .publicMember, .privateMember, .method, .overload, .methodType,
    .baseType, .variableType, .classInstanceType, .interfaceType, .aliasType, .singletonType,
    .optionalType, .unionType, .intersectionType, .tupleType, .recordType, .literalType, .procType,
    .recordField, .signature, .param, .block, .declaration, .member, .type, .attributeMember,
    .mixinMember]

def ofName? (name : String) : Option NodeKind :=
  all.find? (·.name == name)

/-- Whether a kind only stands for several others. -/
def isAbstract : NodeKind → Bool
  | .declaration | .member | .type | .attributeMember | .mixinMember => true
  | _ => false

/-- Whether a comment and annotations can stand above a node of the kind. -/
def isDecorated : NodeKind → Bool
  | .classDecl | .moduleDecl | .interfaceDecl | .constantDecl | .globalDecl | .typeAliasDecl
  | .aliasMember | .attrReader | .attrWriter | .attrAccessor
  | .instanceVariable | .classInstanceVariable | .classVariable
  | .includeMember | .extendMember | .prependMember | .publicMember | .privateMember | .method
  | .declaration | .member | .attributeMember | .mixinMember => true
  | _ => false

/-- Whether a walk stops at nodes of the kind. -/
def isLeaf : NodeKind → Bool
  | .typeName | .aliasMember | .publicMember | .privateMember | .baseType | .variableType
  | .literalType => true
  | _ => false

def fields : NodeKind → List (String × Slot)
  | .root => [("declarations", .list)]
  | .typeName => [("name", .required), ("namespace", .list), ("absolute", .flag false)]
  | .classRef => [("name", .required), ("args", .list)]
  | .typeParam => [("name", .required), ("variance", .choice .variance (some "invariant")),
      ("unchecked", .flag false), ("upper_bound", .absent)]
  | .classDecl => [("name", .required), ("type_params", .list), ("super_class", .absent),
      ("members", .list)]
  | .moduleDecl => [("name", .required), ("type_params", .list), ("self_types", .list),
      ("members", .list)]
  | .interfaceDecl => [("name", .required), ("type_params", .list), ("members", .list)]
  | .constantDecl | .globalDecl => [("name", .required), ("type", .required)]
  | .typeAliasDecl => [("name", .required), ("type", .required), ("type_params", .list)]
  | .aliasMember => [("new_name", .required), ("old_name", .required),
      ("kind", .choice .level (some "instance"))]
  | .attrReader | .attrWriter | .attrAccessor | .attributeMember =>
    [("name", .required), ("type", .required), ("ivar_name", .absent),
      ("kind", .choice .level (some "instance")), ("visibility", .choice .visibility none)]
  | .instanceVariable | .classInstanceVariable | .classVariable =>
    [("name", .required), ("type", .required)]
  | .includeMember | .extendMember | .prependMember | .mixinMember =>
    [("name", .required), ("args", .list)]
  | .publicMember | .privateMember | .declaration | .member | .type => []
  | .method => [("name", .required), ("overloads", .list),
      ("kind", .choice .level (some "instance")), ("overloading", .flag false),
      ("visibility", .choice .visibility none)]
  | .overload => [("method_type", .required), ("annotations", .notes)]
  | .methodType => [("type", .required), ("type_params", .list), ("block", .absent)]
  | .baseType => [("kind", .choice .base none)]
  | .variableType => [("name", .required)]
  | .classInstanceType | .interfaceType | .aliasType => [("name", .required), ("args", .list)]
  | .singletonType => [("name", .required)]
  | .optionalType => [("type", .required)]
  | .unionType | .intersectionType | .tupleType => [("types", .list)]
  | .recordType => [("fields", .list)]
  | .literalType => [("kind", .choice .literal none), ("value", .required)]
  | .procType => [("type", .required), ("block", .absent)]
  | .recordField => [("key", .required), ("type", .required)]
  | .signature => [("return_type", .required), ("required_positionals", .list),
      ("optional_positionals", .list), ("rest_positionals", .absent),
      ("trailing_positionals", .list), ("required_keywords", .table),
      ("optional_keywords", .table), ("rest_keywords", .absent)]
  | .param => [("type", .required), ("name", .absent)]
  | .block => [("type", .required), ("required", .flag true)]

def vocabulary? (kind : NodeKind) (field : String) : Option Vocabulary :=
  match kind.fields.lookup field with
  | some (.choice v _) => some v
  | _ => none

end NodeKind
end RubySig
