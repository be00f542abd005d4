import RubySig.Tree.Basic

/-!
The declarations and members of a tree, each before those inside it or each behind them, and their
comments.
-/
namespace RubySig

mutual

def Declaration.items : Declaration → List Item
  | .class_ _ _ _ members | .module_ _ _ _ members | .interface _ _ members => Item.allItems members
  | .constant _ _ | .global _ _ | .typeAlias _ _ _ => []

def Item.items : Item → List Item
  | .member location lead member => [.member location lead member]
  | .declaration location lead declaration =>
    .declaration location lead declaration :: declaration.items

def Item.allItems : List Item → List Item
  | [] => []
  | item :: items => item.items ++ Item.allItems items

end

mutual

def Declaration.finished : Declaration → List Item
  | .class_ _ _ _ members | .module_ _ _ _ members | .interface _ _ members =>
    Item.allFinished members
  | .constant _ _ | .global _ _ | .typeAlias _ _ _ => []

/-- An item and those inside it, in the order in which they end. -/
def Item.finished : Item → List Item
  | .member location lead member => [.member location lead member]
  | .declaration location lead declaration =>
    declaration.finished ++ [.declaration location lead declaration]

def Item.allFinished : List Item → List Item
  | [] => []
  | item :: items => item.finished ++ Item.allFinished items

end

mutual

theorem Declaration.finished_perm : (declaration : Declaration) →
    declaration.finished.Perm declaration.items
  | .class_ _ _ _ members | .module_ _ _ _ members | .interface _ _ members =>
    Item.allFinished_perm members
  | .constant _ _ | .global _ _ | .typeAlias _ _ _ => .refl _

theorem Item.finished_perm : (item : Item) → item.finished.Perm item.items
  | .member _ _ _ => .refl _
  | .declaration _ _ declaration =>
    (List.perm_append_singleton _ _).trans ((Declaration.finished_perm declaration).cons _)

theorem Item.allFinished_perm :
    (items : List Item) → (Item.allFinished items).Perm (Item.allItems items)
  | [] => .refl _
  | item :: items => (Item.finished_perm item).append (Item.allFinished_perm items)

end

def Declaration.comments (declaration : Declaration) : List Comment :=
  declaration.items.filterMap (·.lead.comment)

/-- The comments above an item and above those inside it. -/
def Item.comments (item : Item) : List Comment := item.items.filterMap (·.lead.comment)

def Item.allComments (items : List Item) : List Comment :=
  (Item.allItems items).filterMap (·.lead.comment)

theorem Item.comments_member (l : Option Span) (lead : Lead) (m : Member) :
    (Item.member l lead m).comments = lead.comment.toList := by
  cases h : lead.comment <;> simp [Item.comments, Item.items, Item.lead, h]

theorem Item.comments_declaration (l : Option Span) (lead : Lead) (d : Declaration) :
    (Item.declaration l lead d).comments = lead.comment.toList ++ d.comments := by
  cases h : lead.comment <;> simp [Item.comments, Item.items, Item.lead, Declaration.comments, h]

theorem Item.allComments_cons (item : Item) (items : List Item) :
    Item.allComments (item :: items) = item.comments ++ Item.allComments items :=
  List.filterMap_append ..

namespace Root

def items (root : Root) : List Item := Item.allItems root.declarations

/-- The items in the order in which they end. -/
def finished (root : Root) : List Item := Item.allFinished root.declarations

def comments (root : Root) : List Comment := root.items.filterMap (·.lead.comment)

end Root
end RubySig
