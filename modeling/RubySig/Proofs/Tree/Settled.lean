import Mathlib.Data.List.Sort
import RubySig.Proofs.Tree.RootPlain

/-!
Trees up to places: comments and annotations count by their texts, and keyword parameters in the
order in which they stand or whatever their order.
-/
namespace RubySig

/-- Whether the order of entries counts: they are kept as they stand, or sorted by their keys. -/
inductive EntryOrder where
  | kept | sorted
  deriving DecidableEq

namespace EntryOrder

variable {κ α : Type}

def arrange (order : EntryOrder) (key : κ → String) (entries : List (κ × α)) : List (κ × α) :=
  match order with
  | .kept => entries
  | .sorted => entries.insertionSort fun x y => key x.1 ≤ key y.1

theorem arrange_perm (order : EntryOrder) (key : κ → String) (entries : List (κ × α)) :
    (order.arrange key entries).Perm entries := by
  cases order with
  | kept => exact .refl _
  | sorted => exact List.perm_insertionSort _ _

/-- What keeps the keys of entries can be done before they are arranged. -/
theorem map_arrange {κ' α' : Type} {key : κ → String} {key' : κ' → String} (f : κ × α → κ' × α')
    (hf : ∀ e, key' (f e).1 = key e.1) (order : EntryOrder) (entries : List (κ × α)) :
    (order.arrange key entries).map f = order.arrange key' (entries.map f) := by
  cases order with
  | kept => rfl
  | sorted => exact List.map_insertionSort _ _ f entries fun a _ b _ => by rw [hf, hf]

end EntryOrder

section Types

variable (order : EntryOrder)

mutual

/-- A type without places, its keyword parameters arranged. -/
def Ty.settled : Ty → Ty
  | .base _ kind => .base none kind
  | .variable _ name => .variable none name
  | .classInstance _ name args => .classInstance none name.erase (Ty.settledAll args)
  | .interface _ name args => .interface none name.erase (Ty.settledAll args)
  | .alias _ name args => .alias none name.erase (Ty.settledAll args)
  | .classSingleton _ name => .classSingleton none name.erase
  | .optional _ type => .optional none type.settled
  | .union _ types => .union none (Ty.settledAll types)
  | .intersection _ types => .intersection none (Ty.settledAll types)
  | .tuple _ types => .tuple none (Ty.settledAll types)
  | .record _ fields => .record none (Field.settledAll fields)
  | .literal _ value => .literal none value
  | .proc _ signature block => .proc none signature.settled (Block.settled block)

def Ty.settledAll : List Ty → List Ty
  | [] => []
  | t :: ts => t.settled :: Ty.settledAll ts

def Field.settledAll : List Field → List Field
  | [] => []
  | ⟨_, _, key, type⟩ :: fields => ⟨none, none, key, type.settled⟩ :: Field.settledAll fields

def Param.settled : Param → Param
  | ⟨_, type, name⟩ => ⟨none, type.settled, name⟩

def Param.settledAll : List Param → List Param
  | [] => []
  | p :: ps => p.settled :: Param.settledAll ps

def Param.settledOption : Option Param → Option Param
  | none => none
  | some p => some p.settled

def Param.settledKeywords : List (String × Param) → List (String × Param)
  | [] => []
  | (name, p) :: ps => (name, p.settled) :: Param.settledKeywords ps

def Signature.settled : Signature → Signature
  | ⟨_, result, required, optional, rest, trailing, requiredKeywords, optionalKeywords,
      restKeywords⟩ =>
    ⟨none, result.settled, Param.settledAll required, Param.settledAll optional,
      Param.settledOption rest, Param.settledAll trailing,
      order.arrange id (Param.settledKeywords requiredKeywords),
      order.arrange id (Param.settledKeywords optionalKeywords), Param.settledOption restKeywords⟩

def Block.settled : Option Block → Option Block
  | none => none
  | some ⟨_, signature, required⟩ => some ⟨none, signature.settled, required⟩

end

/-- Types without places, keyword parameters arranged. -/
def Rewriting.settling :
    Rewriting := ⟨Ty.settled order, Signature.settled order, Block.settled order⟩

@[simp] theorem Rewriting.settling_type : (settling order).type = Ty.settled order := rfl

@[simp] theorem Rewriting.settling_signature :
    (settling order).signature = Signature.settled order := rfl

@[simp] theorem Rewriting.settling_block : (settling order).block = Block.settled order := rfl

end Types

/-- What is written above an item, without its places. -/
def Lead.unplaced (l : Lead) : Lead :=
  ⟨l.comment.map fun c => { c with location := .none }, l.notes.map Note.bare⟩

mutual

def Declaration.unplaced : Declaration → Declaration
  | .class_ name params superclass members =>
    .class_ name.erase (params.map TypeParam.bare) (superclass.map ClassRef.bare)
      (Item.unplacedAll members)
  | .module_ name params selfTypes members =>
    .module_ name.erase (params.map TypeParam.bare) (selfTypes.map ClassRef.bare)
      (Item.unplacedAll members)
  | .interface name params members =>
    .interface name.erase (params.map TypeParam.bare) (Item.unplacedAll members)
  | .constant name type => .constant name.erase type
  | .global name type => .global name type
  | .typeAlias name type params => .typeAlias name.erase type (params.map TypeParam.bare)

/-- An item without the places of its parts other than types. -/
def Item.unplaced : Item → Item
  | .member _ lead member => .member none lead.unplaced member.bare
  | .declaration _ lead declaration => .declaration none lead.unplaced declaration.unplaced

def Item.unplacedAll : List Item → List Item
  | [] => []
  | item :: items => item.unplaced :: Item.unplacedAll items

end

/-- A tree without its places, with the texts of its comments and annotations. -/
def Root.settled (order : EntryOrder) (r : Root) : Root :=
  ⟨none, Item.unplacedAll (r.rewrite (.settling order)).declarations⟩

end RubySig
