import RubySig.Proofs.Tree.Plain

/-!
Whole trees up to places, comments and nested unions: a rewriting of the types in a tree, and trees
without locations and comments.
-/
namespace RubySig

/-- What becomes of the types in a tree: of types on their own, of signatures and of blocks. -/
structure Rewriting where
  type : Ty → Ty
  signature : Signature → Signature
  block : Option Block → Option Block

namespace Rewriting

/-- Types without locations, string literals as `f` shows them. -/
def erasing (f : Showing) : Rewriting := ⟨Ty.erase f, Signature.erase f, Ty.eraseBlock f⟩

/-- Types whose unions have no unions as members. -/
def splicing : Rewriting := ⟨Ty.spliced, Signature.spliced, Ty.splicedBlock⟩

/-- Types as they are read when they were printed. -/
def rereading : Rewriting := ⟨Ty.reread false, Signature.reread, Ty.rereadBlock⟩

end Rewriting

variable (w : Rewriting)

def TypeParam.rewrite (p : TypeParam) : TypeParam := { p with bound := p.bound.map w.type }

def ClassRef.rewrite (r : ClassRef) : ClassRef := { r with args := r.args.map w.type }

def MethodType.rewrite (m : MethodType) : MethodType :=
  ⟨m.location, w.signature m.signature, m.params.map (TypeParam.rewrite w), w.block m.block⟩

def Overload.rewrite (o : Overload) : Overload := { o with method := o.method.rewrite w }

def Member.rewrite : Member → Member
  | .alias newName oldName level => .alias newName oldName level
  | .attribute access name type backing level v =>
    .attribute access name (w.type type) backing level v
  | .variable kind name type => .variable kind name (w.type type)
  | .mixin kind name args => .mixin kind name (args.map w.type)
  | .visibility v => .visibility v
  | .method name overloads level overloading v =>
    .method name (overloads.map (Overload.rewrite w)) level overloading v

mutual

def Declaration.rewrite : Declaration → Declaration
  | .class_ name params superclass members =>
    .class_ name (params.map (TypeParam.rewrite w)) (superclass.map (ClassRef.rewrite w))
      (Item.rewriteAll members)
  | .module_ name params selfTypes members =>
    .module_ name (params.map (TypeParam.rewrite w)) (selfTypes.map (ClassRef.rewrite w))
      (Item.rewriteAll members)
  | .interface name params members =>
    .interface name (params.map (TypeParam.rewrite w)) (Item.rewriteAll members)
  | .constant name type => .constant name (w.type type)
  | .global name type => .global name (w.type type)
  | .typeAlias name type params => .typeAlias name (w.type type) (params.map (TypeParam.rewrite w))

def Item.rewrite : Item → Item
  | .member location lead member => .member location lead (member.rewrite w)
  | .declaration location lead declaration => .declaration location lead (declaration.rewrite)

def Item.rewriteAll : List Item → List Item
  | [] => []
  | item :: items => item.rewrite :: Item.rewriteAll items

end

/-- A tree with its types rewritten. -/
def Root.rewrite (r : Root) : Root := { r with declarations := Item.rewriteAll w r.declarations }

def Note.bare (n : Note) : Note := { n with location := none }

def Lead.bare (l : Lead) : Lead := ⟨.none, l.notes.map Note.bare⟩

def TypeParam.bare (p : TypeParam) : TypeParam := { p with location := none }

def ClassRef.bare (r : ClassRef) : ClassRef := { r with location := none, name := r.name.erase }

def MethodType.bare (m : MethodType) : MethodType :=
  { m with location := none, params := m.params.map TypeParam.bare }

def Overload.bare (o : Overload) : Overload := ⟨none, o.method.bare, o.notes.map Note.bare⟩

def Member.bare : Member → Member
  | .mixin kind name args => .mixin kind name.erase args
  | .method name overloads level overloading v =>
    .method name (overloads.map Overload.bare) level overloading v
  | member => member

mutual

def Declaration.bare : Declaration → Declaration
  | .class_ name params superclass members =>
    .class_ name.erase (params.map TypeParam.bare) (superclass.map ClassRef.bare)
      (Item.bareAll members)
  | .module_ name params selfTypes members =>
    .module_ name.erase (params.map TypeParam.bare) (selfTypes.map ClassRef.bare)
      (Item.bareAll members)
  | .interface name params members =>
    .interface name.erase (params.map TypeParam.bare) (Item.bareAll members)
  | .constant name type => .constant name.erase type
  | .global name type => .global name type
  | .typeAlias name type params => .typeAlias name.erase type (params.map TypeParam.bare)

def Item.bare : Item → Item
  | .member _ lead member => .member none lead.bare member.bare
  | .declaration _ lead declaration => .declaration none lead.bare declaration.bare

def Item.bareAll : List Item → List Item
  | [] => []
  | item :: items => item.bare :: Item.bareAll items

end

/-- A tree without its places and comments; string literals as `f` shows them. -/
def Root.erase (f : Showing) (r : Root) : Root :=
  ⟨none, Item.bareAll (r.rewrite (.erasing f)).declarations⟩

/-- A tree up to places, comments and the nesting of unions. -/
def Root.plain (r : Root) : Root := (r.erase fun _ value => value).rewrite .splicing

end RubySig
