import RubySig.Proofs.Format.ItemPieces
import RubySig.Proofs.Token.Sound
import RubySig.Proofs.Tree.MethodFormed
import RubySig.Proofs.Tree.WellFormed

/-!
Members, declarations and files of the shapes that the grammar builds, and files whose printed words
do not run together.
-/
namespace RubySig

open Format (Piece)
open Format.Piece (mark keyword)

def IsMethodName (s : String) : Prop := MethodName.isWhole s.toList = true ∨ Nameable s

/-- A lone backquote is the name of a method, but opens a quotation where another one stands behind
it. -/
def isLoneQuote (s : String) : Bool := s.toList == ['`']

/-- An annotation that needs nothing from the source, or stands in it. -/
def Note.Written (source : List Char) (n : Note) : Prop :=
  n.Formed ∨ ∃ span, n.location = some span ∧ (Lexeme.note n.text).Taken (span.slice source)

structure Overload.Written (scope : List String) (source : List Char) (o : Overload) : Prop where
  notes : ∀ n ∈ o.notes, n.Written source
  method : o.method.Formed scope source

/-- A name that classes and interfaces have. -/
def TypeName.FormedClassLike (n : TypeName) : Prop := n.Formed .constant ∨ n.Formed .interfaceName

structure ClassRef.Formed (scope : List String) (source : List Char) (r : ClassRef) : Prop where
  name : r.name.FormedClassLike
  args : Ty.FormedAll scope source r.args

def VariableKind.sigils : VariableKind → List Char
  | .instance_ | .classInstance => ['@']
  | .class_ => ['@', '@']

/-- A member of a body; in a `nested` one, as classes and modules have it, each kind of member may
stand. -/
def Member.Formed (nested : Bool) (scope : List String) (source : List Char) : Member → Prop
  | .alias newName oldName _ => IsMethodName newName ∧ IsMethodName oldName
  | .attribute _ name type backing _ _ =>
    nested = true ∧ Nameable name ∧ type.Formed scope source ∧
      ∀ ivar, backing = .named ivar → IsVariable ['@'] ivar
  | .variable kind name type =>
    nested = true ∧ IsVariable kind.sigils name ∧ type.Formed scope source
  | .mixin kind name args =>
    (nested = true ∨ kind = .include_) ∧ name.FormedClassLike ∧ Ty.FormedAll scope source args
  | .visibility _ => nested = true
  | .method name overloads _ overloading _ =>
    IsMethodName name ∧ (∀ o ∈ overloads, o.Written scope source) ∧
      (overloads ≠ [] ∨ overloading = true)

def Declaration.isGlobal : Declaration → Bool
  | .global _ _ => true
  | _ => false

def Lead.Formed (source : List Char) (lead : Lead) : Prop := ∀ n ∈ lead.notes, n.Written source

mutual

def Declaration.Formed (scope : List String) (source : List Char) : Declaration → Prop
  | .class_ name params superclass members =>
    name.Formed .constant ∧ TypeParam.FormedAll scope source params ∧
      (∀ r ∈ superclass, r.name.Formed .constant ∧
        Ty.FormedAll (Grammar.within params scope) source r.args) ∧
      Item.FormedAll true (Grammar.within params scope) source members
  | .module_ name params selfTypes members =>
    name.Formed .constant ∧ TypeParam.FormedAll scope source params ∧
      (∀ r ∈ selfTypes, r.Formed (Grammar.within params scope) source) ∧
      Item.FormedAll true (Grammar.within params scope) source members
  | .interface name params members =>
    name.Formed .interfaceName ∧ TypeParam.FormedAll scope source params ∧
      Item.FormedAll false (Grammar.within params scope) source members
  | .constant name type => name.Formed .constant ∧ type.Formed scope source
  | .global name type => IsVariable ['$'] name ∧ type.Formed scope source
  | .typeAlias name type params =>
    name.Formed .identifier ∧ TypeParam.FormedAll scope source params ∧
      type.Formed (Grammar.within params scope) source

/-- What stands in a body; global variables and declarations in interfaces do not. -/
def Item.Formed (nested : Bool) (scope : List String) (source : List Char) : Item → Prop
  | .member _ lead member => lead.Formed source ∧ member.Formed nested scope source
  | .declaration _ lead declaration =>
    nested = true ∧ declaration.isGlobal = false ∧ lead.Formed source ∧
      declaration.Formed scope source

def Item.FormedAll (nested : Bool) (scope : List String) (source : List Char) : List Item → Prop
  | [] => True
  | item :: items => item.Formed nested scope source ∧ Item.FormedAll nested scope source items

end

def Item.FormedTop (source : List Char) : Item → Prop
  | .member _ _ _ => False
  | .declaration _ lead a => lead.Formed source ∧ a.Formed [] source

def Root.Formed (source : List Char) (root : Root) : Prop :=
  ∀ item ∈ root.declarations, item.FormedTop source

section WellFormed

variable {nested : Bool} {scope : List String} {source : List Char}

theorem Member.wellFormed_of_formed {m : Member} (h : m.Formed nested scope source) :
    m.passes .wellFormed = true := by
  cases m with
  | «alias» newName oldName level => rfl
  | «attribute» access name t backing level v =>
    refine Bool.and_eq_true_iff.mpr
      ⟨Ty.wellFormed_of_formed t h.2.2.1, bne_iff_ne.mpr fun hnone => ?_⟩
    obtain ⟨d, ds, hname, -⟩ := h.2.2.2 _ hnone
    cases hname
  | «variable» kind name t => exact Ty.wellFormed_of_formed t h.2.2
  | mixin kind name args => exact Ty.allWellFormed args h.2.2
  | visibility v => rfl
  | method name os level overloading v =>
    simp only [Member.passes, Bool.and_eq_true, Bool.or_eq_true, List.all_eq_true]
    exact ⟨by simpa using h.2.2, fun o ho => MethodType.wellFormed_of_formed (h.2.1 o ho).method⟩

mutual

theorem Declaration.wellFormed_of_formed {scope : List String} : (a : Declaration) →
    a.Formed scope source → a.passes .wellFormed = true
  | .class_ _ params superclass members, h => by
    simp only [Declaration.passes, Bool.and_eq_true, Option.all_eq_true]
    exact ⟨⟨TypeParam.wellFormed_of_formed h.2.1, fun r hr =>
      Ty.allWellFormed r.args (h.2.2.1 r hr).2⟩,
      Item.allWellFormed members h.2.2.2⟩
  | .module_ _ params selfTypes members, h => by
    simp only [Declaration.passes, Bool.and_eq_true, List.all_eq_true]
    exact ⟨⟨List.all_eq_true.mp (TypeParam.wellFormed_of_formed h.2.1),
      fun r hr => Ty.allWellFormed r.args (h.2.2.1 r hr).args⟩, Item.allWellFormed members h.2.2.2⟩
  | .interface _ params members, h =>
    Bool.and_eq_true_iff.mpr ⟨TypeParam.wellFormed_of_formed h.2.1,
      Item.allWellFormed members h.2.2⟩
  | .constant _ t, h => Ty.wellFormed_of_formed t h.2
  | .global _ t, h => Ty.wellFormed_of_formed t h.2
  | .typeAlias _ t params, h =>
    Bool.and_eq_true_iff.mpr ⟨Ty.wellFormed_of_formed t h.2.2, TypeParam.wellFormed_of_formed h.2.1⟩
termination_by structural a => a

theorem Item.wellFormed_of_formed {nested : Bool} {scope : List String} : (item : Item) →
    item.Formed nested scope source → item.passes .wellFormed = true
  | .member _ _ _, h => Member.wellFormed_of_formed h.2
  | .declaration _ _ a, h => Declaration.wellFormed_of_formed a h.2.2.2
termination_by structural item => item

theorem Item.allWellFormed {nested : Bool} {scope : List String} : (items : List Item) →
    Item.FormedAll nested scope source items → Item.allPass .wellFormed items = true
  | [], _ => rfl
  | item :: items, h =>
    Bool.and_eq_true_iff.mpr ⟨Item.wellFormed_of_formed item h.1, Item.allWellFormed items h.2⟩
termination_by structural items => items

end

theorem Root.Formed.isWellFormed {root : Root} (h : root.Formed source) :
    root.isWellFormed = true := by
  refine Item.allPass_iff.mpr fun item hm => ?_
  have hitem := h item hm
  cases item with
  | member location lead m => cases hitem
  | declaration location lead a => exact Declaration.wellFormed_of_formed a hitem.2

end WellFormed

/-- Whether the last word of some pieces is a constant, which a `::` behind it goes on with. -/
def Format.endsInConstant (ps : List Piece) : Bool :=
  match (Format.wordsOf ps).getLast? with
  | some (.constant _, _) => true
  | _ => false

/-- The pieces that end a member; an alias ends in a name that no `::` goes on with. -/
def Format.memberTail (c : Format.Context) : Member → List Piece
  | .alias _ _ _ => []
  | member => Format.memberPieces c member

def Format.itemTail (c : Format.Context) : Item → List Piece
  | .member _ _ member => Format.memberTail c member
  | .declaration _ _ declaration => Format.declarationPieces c declaration

/-- Whether an item is printed with a `::` in front. -/
def Item.startsAbsolute : Item → Bool
  | .declaration _ lead (.constant name _) => lead.notes.isEmpty && name.absolute
  | _ => false

/-- What is printed in front of the body of a declaration. -/
def Format.openingPieces (c : Format.Context) : Declaration → List Piece
  | .class_ name params superclass _ =>
    keyword .class_ :: .gap .blank :: Format.namePieces name ++ Format.typeParamsPieces c params ++
      Format.superclassPieces c superclass
  | .module_ name params selfTypes _ =>
    keyword .module_ :: .gap .blank :: Format.namePieces name ++ Format.typeParamsPieces c params ++
      Format.selfTypesPieces c selfTypes
  | .interface name params _ =>
    keyword .interface :: .gap .blank :: Format.namePieces name ++ Format.typeParamsPieces c params
  | _ => []

def Member.isApart : Member → Bool
  | .alias newName oldName _ => !isLoneQuote newName && !isLoneQuote oldName
  | .method name _ _ _ _ => !isLoneQuote name
  | _ => true

mutual

def Declaration.isApart (c : Format.Context) : Declaration → Bool
  | .class_ name params superclass members =>
    Item.allApart c (Format.openingPieces c (.class_ name params superclass members)) members
  | .module_ name params selfTypes members =>
    Item.allApart c (Format.openingPieces c (.module_ name params selfTypes members)) members
  | .interface name params members =>
    Item.allApart c (Format.openingPieces c (.interface name params members)) members
  | _ => true

def Item.isApart (c : Format.Context) : Item → Bool
  | .member _ _ member => member.isApart
  | .declaration _ _ declaration => declaration.isApart c

/-- Whether no item with a `::` in front stands behind a constant, the first of them behind
`front`. -/
def Item.allApart (c : Format.Context) (front : List Piece) : List Item → Bool
  | [] => true
  | item :: items =>
    !(item.startsAbsolute && Format.endsInConstant front) && item.isApart c &&
      Item.allApart c (Format.itemTail c item) items

end

/-- A file whose printed words are the words that it is printed from: no optional parameter puts its
mark in front of a symbol, no symbol takes in the mark behind it, no `::` stands behind a name that
it does not belong to, and no method is called by a lone backquote. -/
structure Root.Unambiguous (c : Format.Context) (root : Root) : Prop where
  clear : Item.allPass .clear root.declarations = true
  unmerged : Item.allPass .unmerged root.declarations = true
  apart : Item.allApart c [] root.declarations = true

end RubySig
