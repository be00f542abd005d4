import RubySig.Source.Position
import RubySig.Text.Letter

/-!
Signature files as trees: names, types, members and declarations. A part that was read from a
source knows its place there; a part made by hand need not.
-/
namespace RubySig

/-- A block of comment lines, without their markers. -/
structure Comment where
  text : String
  location : Option Span
  deriving DecidableEq, Repr

/-- An annotation; `text` stands between its delimiters. -/
structure Note where
  text : String
  location : Option Span
  deriving DecidableEq, Repr

/-- What is written above a member or declaration. -/
structure Lead where
  comment : Option Comment
  notes : List Note
  deriving DecidableEq, Repr

/-- Nothing is written above. -/
def Lead.none : Lead := ⟨.none, []⟩

/-- The first line of a member or declaration, its comment and annotations included. -/
def Lead.firstLine (lead : Lead) (location : Option Span) : Int :=
  match lead.comment.bind (·.location), (lead.notes.head?).bind (·.location), location with
  | some s, _, _ => s.startLine
  | .none, some s, _ => s.startLine
  | .none, .none, some s => s.startLine
  | .none, .none, .none => 0

/-- A name with its namespace, such as `::Foo::Bar` or `Foo::_Each`. -/
structure TypeName where
  location : Option Span
  name : String
  path : List String
  absolute : Bool
  deriving DecidableEq, Repr

namespace TypeName

def text (n : TypeName) : String :=
  (if n.absolute then "::" else "") ++ String.join (n.path.map (· ++ "::")) ++ n.name

def isClass (n : TypeName) : Bool :=
  match n.name.toList with
  | c :: _ => Text.isCapital c
  | [] => false

/-- A name that begins with an underscore and a capital names an interface. -/
def isInterface (n : TypeName) : Bool :=
  match n.name.toList with
  | '_' :: c :: _ => Text.isCapital c
  | _ => false

end TypeName

/-- Types that are keywords. -/
inductive BaseKind where
  | untyped | bool | bottom | class_ | instance_ | nil | self | top | void
  deriving DecidableEq, Repr

def BaseKind.text : BaseKind → String
  | .untyped => "untyped"
  | .bool => "bool"
  | .bottom => "bot"
  | .class_ => "class"
  | .instance_ => "instance"
  | .nil => "nil"
  | .self => "self"
  | .top => "top"
  | .void => "void"

/-- Values that are types. Strings and symbols hold their decoded text. -/
inductive Literal where
  | integer (n : Int)
  | string (s : String)
  | symbol (s : String)
  | truth (b : Bool)
  deriving DecidableEq, Repr

mutual

inductive Ty where
  | base (location : Option Span) (kind : BaseKind)
  | variable (location : Option Span) (name : String)
  | classInstance (location : Option Span) (name : TypeName) (args : List Ty)
  | interface (location : Option Span) (name : TypeName) (args : List Ty)
  | alias (location : Option Span) (name : TypeName) (args : List Ty)
  | classSingleton (location : Option Span) (name : TypeName)
  | optional (location : Option Span) (type : Ty)
  | union (location : Option Span) (types : List Ty)
  | intersection (location : Option Span) (types : List Ty)
  | tuple (location : Option Span) (types : List Ty)
  | record (location : Option Span) (fields : List Field)
  | literal (location : Option Span) (value : Literal)
  | proc (location : Option Span) (signature : Signature) (block : Option Block)

structure Field where
  location : Option Span
  keyLocation : Option Span
  key : Literal
  type : Ty

structure Param where
  location : Option Span
  type : Ty
  name : Option String

/-- The parameters and the return type of something that can be called. Keyword parameters stand
in the order in which they were written. -/
structure Signature where
  location : Option Span
  result : Ty
  required : List Param
  optional : List Param
  rest : Option Param
  trailing : List Param
  requiredKeywords : List (String × Param)
  optionalKeywords : List (String × Param)
  restKeywords : Option Param

structure Block where
  location : Option Span
  signature : Signature
  required : Bool

end

def Ty.isOptional : Ty → Bool
  | .optional _ _ => true
  | _ => false

/-- How a type parameter varies with the type that has it. -/
inductive Variance where
  | invariant | covariant | contravariant
  deriving DecidableEq, Repr

/-- A generic parameter, such as `unchecked out T < Comparable`. -/
structure TypeParam where
  location : Option Span
  name : String
  variance : Variance
  unchecked : Bool
  bound : Option Ty

/-- A class or interface with arguments, as a superclass or self type. -/
structure ClassRef where
  location : Option Span
  name : TypeName
  args : List Ty

structure MethodType where
  location : Option Span
  signature : Signature
  params : List TypeParam
  block : Option Block

/-- A signature of a method with the annotations written before it. -/
structure Overload where
  location : Option Span
  method : MethodType
  notes : List Note

/-- Who may call a method. -/
inductive Visibility where
  | public_ | private_
  deriving DecidableEq, Repr

/-- Whether an alias or attribute belongs to the instances or to the class itself. -/
inductive MemberLevel where
  | instance_ | singleton
  deriving DecidableEq, Repr

/-- A method can belong to both. -/
inductive MethodLevel where
  | instance_ | singleton | both
  deriving DecidableEq, Repr

/-- The three kinds of attributes. -/
inductive Access where
  | reader | writer | accessor
  deriving DecidableEq, Repr

/-- The instance variable behind an attribute: the one of the same name, none, or a named one. -/
inductive Backing where
  | implied
  | absent
  | named (name : String)
  deriving DecidableEq, Repr

/-- Variables of the instances, of the class itself, and of the class with its subclasses. -/
inductive VariableKind where
  | instance_ | classInstance | class_
  deriving DecidableEq, Repr

inductive MixinKind where
  | include_ | extend | prepend
  deriving DecidableEq, Repr

/-- A line of a body that is no declaration. -/
inductive Member where
  | alias (newName oldName : String) (level : MemberLevel)
  | attribute (access : Access) (name : String) (type : Ty) (backing : Backing)
      (level : MemberLevel) (visibility : Option Visibility)
  | variable (kind : VariableKind) (name : String) (type : Ty)
  | mixin (kind : MixinKind) (name : TypeName) (args : List Ty)
  | visibility (visibility : Visibility)
  /-- With `overloading` the list of signatures ends with `...`. -/
  | method (name : String) (overloads : List Overload) (level : MethodLevel) (overloading : Bool)
      (visibility : Option Visibility)

mutual

/-- What a file declares. -/
inductive Declaration where
  | class_ (name : TypeName) (params : List TypeParam) (superclass : Option ClassRef)
      (members : List Item)
  | module_ (name : TypeName) (params : List TypeParam) (selfTypes : List ClassRef)
      (members : List Item)
  | interface (name : TypeName) (params : List TypeParam) (members : List Item)
  | constant (name : TypeName) (type : Ty)
  | global (name : String) (type : Ty)
  | typeAlias (name : TypeName) (type : Ty) (params : List TypeParam)

/-- What a body holds, with what is written above it. -/
inductive Item where
  | member (location : Option Span) (lead : Lead) (member : Member)
  | declaration (location : Option Span) (lead : Lead) (declaration : Declaration)

end

structure Root where
  location : Option Span
  declarations : List Item

def Item.location : Item → Option Span
  | .member location _ _ | .declaration location _ _ => location

def Item.lead : Item → Lead
  | .member _ lead _ | .declaration _ lead _ => lead

end RubySig
