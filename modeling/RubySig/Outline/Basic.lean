import RubySig.Outline.Kind
import RubySig.Tree.Basic

/-!
Outlines: trees seen as nodes with named fields. What treats all kinds of nodes alike works on
outlines: walks, counts, data files, dumps and comparison. An outline written by hand may hold
plain values where a tree holds nodes.
-/
namespace RubySig

/-- A tree as it is shown to the outside: nodes of some kind with named fields. -/
inductive Outline where
  | scalar (s : Scalar)
  /-- One of the words that a field can hold. -/
  | choice (word : String)
  | notes (notes : List Note)
  | list (items : List Outline)
  | table (entries : List (String × Outline))
  | node (kind : NodeKind) (location : Option Span) (lead : Lead)
      (fields : List (String × Outline))
  deriving Inhabited

inductive TreeFault where
  /-- Nothing can be done with a value of this type. -/
  | unsupported (type : String)
  | malformed (kind : NodeKind) (detail : String)
  /-- A text that is no integer. -/
  | noInteger
  /-- A number without an end. -/
  | infinite
  /-- A plain value of the wrong type. -/
  | wrongType
  /-- A plain value, or a node without the field, where a field is needed. -/
  | noFields
  /-- A plain value where a word of a vocabulary is looked up. -/
  | unknownWord
  deriving DecidableEq, Repr

def TreeFault.message? : TreeFault → Option String
  | .unsupported type => some ("Cannot format node of type " ++ type)
  | .malformed kind detail => some ("Malformed " ++ kind.name ++ ": " ++ detail)
  | .noInteger | .infinite | .wrongType | .noFields | .unknownWord => none

def Scalar.typeName : Scalar → String
  | .null => "NoneType"
  | .bool _ => "bool"
  | .int _ => "int"
  | .float _ => "float"
  | .str _ => "str"

namespace Outline

def str (s : String) : Outline := .scalar (.str s)
def bool (b : Bool) : Outline := .scalar (.bool b)
def null : Outline := .scalar .null

def typeName : Outline → String
  | .scalar s => s.typeName
  | .choice _ => "str"
  | .notes _ | .list _ => "list"
  | .table _ => "dict"
  | .node kind _ _ _ => kind.name

/-- Whether a value counts as nothing. -/
def isEmpty : Outline → Bool
  | .scalar s => s.isEmpty
  | .choice _ => false
  | .notes ns => ns.isEmpty
  | .list items => items.isEmpty
  | .table entries => entries.isEmpty
  | .node _ _ _ _ => false

/-- Whether this is a node and not a bare value. -/
def isNode : Outline → Bool
  | .node _ _ _ _ => true
  | _ => false

def field? (fields : List (String × Outline)) (name : String) : Option Outline :=
  fields.lookup name

/-- The nodes that a value in a field holds. Those in a list inside a list do not count. -/
def held : Outline → List Outline
  | .list items => items.filter isNode
  | .table entries => (entries.map (·.2)).filter isNode
  | .node kind location lead fields => [.node kind location lead fields]
  | _ => []

def children : Outline → Except TreeFault (List Outline)
  | .node _ _ _ fields => .ok (fields.flatMap fun (_, value) => held value)
  | _ => .error .noFields

/-- Whether a signature has parameters. -/
def hasParams : Outline → Except TreeFault Bool
  | .node .signature _ _ (_ :: params) => .ok (params.any (!·.2.isEmpty))
  | _ => .error .noFields

mutual

/-- Whether two values are equal. Places do not count, nor does what stands above a node; the
order of a table does not count either. -/
def same : Outline → Outline → Bool
  | .scalar a, .scalar b => a.sameKey b
  | .choice a, .choice b => a == b
  | .notes a, .notes b => a == b
  | .list a, .list b => sameItems a b
  | .table a, .table b => a.length == b.length && sameEntries a b
  | .node k _ _ a, .node l _ _ b => k == l && sameFields a b
  | _, _ => false

def sameItems : List Outline → List Outline → Bool
  | [], [] => true
  | a :: as, b :: bs => same a b && sameItems as bs
  | _, _ => false

/-- Whether each entry is found in the other table. -/
def sameEntries : List (String × Outline) → List (String × Outline) → Bool
  | [], _ => true
  | (key, a) :: as, bs =>
    (match bs.lookup key with
      | some b => same a b
      | none => false) && sameEntries as bs

def sameFields : List (String × Outline) → List (String × Outline) → Bool
  | [], [] => true
  | (_, a) :: as, (_, b) :: bs => same a b && sameFields as bs
  | _, _ => false

end

end Outline
end RubySig
