import RubySig.Outline.Basic

/-!
Walks through outlines, a node before what is below it, and the counts of what a walk meets.
-/
namespace RubySig.Outline

/-- A node that a walk meets, without its fields. -/
structure Visit where
  kind : NodeKind
  location : Option Span
  lead : Lead
  deriving DecidableEq, Repr

mutual

/-- The nodes at and below a value, down to those that `stop` names. Only where `opened` are the
items of a list visited: those of a field are, those of a list inside a list are not. -/
def visitsBelow (stop : NodeKind → Bool) (opened : Bool) : Outline → Except TreeFault (List Visit)
  | .node kind location lead fields =>
    if kind.isAbstract then .error (.unsupported kind.name)
    else if stop kind then .ok [⟨kind, location, lead⟩]
    else do return ⟨kind, location, lead⟩ :: (← visitsInFields stop true fields)
  | .list items => if opened then visitsInItems stop items else .ok []
  | .table entries => if opened then visitsInFields stop false entries else .ok []
  | _ => .ok []

def visitsInItems (stop : NodeKind → Bool) : List Outline → Except TreeFault (List Visit)
  | [] => .ok []
  | v :: vs => do
    let first ← visitsBelow stop false v
    return first ++ (← visitsInItems stop vs)

def visitsInFields (stop : NodeKind → Bool) (opened : Bool) :
    List (String × Outline) → Except TreeFault (List Visit)
  | [] => .ok []
  | (_, v) :: vs => do
    let first ← visitsBelow stop opened v
    return first ++ (← visitsInFields stop opened vs)

end

def visits (stop : NodeKind → Bool) (o : Outline) : Except TreeFault (List Visit) :=
  if o.isNode then visitsBelow stop false o else .error (.unsupported o.typeName)

def walk (o : Outline) : Except TreeFault (List Visit) :=
  o.visits NodeKind.isLeaf

end RubySig.Outline

namespace RubySig

/-- The name under which nodes of a kind are counted. -/
def NodeKind.tally? : NodeKind → Option String
  | .classDecl => some "classes"
  | .moduleDecl => some "modules"
  | .interfaceDecl => some "interfaces"
  | .constantDecl => some "constants"
  | .globalDecl => some "globals"
  | .typeAliasDecl => some "type_aliases"
  | .method => some "methods"
  | .overload => some "overloads"
  | _ => none

/-- Whether a count stops at nodes of the kind, below which nothing is counted. -/
def NodeKind.endsCount : NodeKind → Bool
  | .constantDecl | .globalDecl | .typeAliasDecl | .overload => true
  | kind => kind.isLeaf

end RubySig

namespace RubySig.Outline

/-- One more of a name; a new name comes last. -/
def increment (name : String) : List (String × Nat) → List (String × Nat)
  | [] => [(name, 1)]
  | (other, n) :: counts =>
    if other == name then (other, n + 1) :: counts else (other, n) :: increment name counts

/-- How often each name occurs, in the order of the first occurrences. -/
def tally (names : List String) : List (String × Nat) :=
  names.foldl (fun counts name => increment name counts) []

/-- How many declarations, methods and signatures of methods there are. -/
def counts (o : Outline) : Except TreeFault (List (String × Nat)) := do
  let visits ← o.visits NodeKind.endsCount
  return tally (visits.filterMap (·.kind.tally?))

end RubySig.Outline
