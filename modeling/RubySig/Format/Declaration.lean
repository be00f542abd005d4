import RubySig.Format.Member

/-! Declarations and whole files in canonical form. -/
namespace RubySig.Format

/-- Whether a blank line is kept in front of an item that begins on line `first`: when one stood
below the item before it, which ended on line `last`. -/
def blankLine (last : Option Int) (first : Int) : Bool :=
  match last with
  | none => false
  | some line => first - line ≥ 2

def bodyItem (last : Option Int) (first : Int) (item : List Doc) : List Doc :=
  Doc.hardBreak :: (if blankLine last first then [Doc.hardBreak] else []) ++ item

def typeAliasDoc (c : Context) (name params type : List Doc) : Doc :=
  Doc.grouped (.text "type " :: name ++ params ++
    [.text " =", Doc.grouped [.indent c.indent (Doc.space :: type)]])

/-- Declarations with a blank line between them, and a line end behind the last. -/
def fileDocs (declarations : List (List Doc)) : List Doc :=
  Doc.separated [Doc.hardBreak, Doc.hardBreak] declarations ++ [Doc.hardBreak]

def bodied (c : Context) (heading : List Doc) (body : List Doc) : List Doc :=
  [Doc.grouped (heading ++ [.indent c.indent body, Doc.hardBreak, .text "end"])]

mutual

def declarationDocs (c : Context) : Declaration → List Doc
  | .class_ name params superclass members =>
    let parent := match superclass with
      | none => []
      | some ref => .text " < " :: classRefDocs c ref
    bodied c ([.text "class ", .text name.text] ++ typeParamsDocs c params ++ parent)
      (bodyDocs c none members)
  | .module_ name params selfTypes members =>
    let selves := if selfTypes.isEmpty then []
      else .text " : " :: inline (selfTypes.map (classRefDocs c))
    bodied c ([.text "module ", .text name.text] ++ typeParamsDocs c params ++ selves)
      (bodyDocs c none members)
  | .interface name params members =>
    bodied c ([.text "interface ", .text name.text] ++ typeParamsDocs c params)
      (bodyDocs c none members)
  | .constant name type =>
    [Doc.grouped (.text name.text :: .text ": " :: tyDocs c false type)]
  | .global name type => [Doc.grouped (.text (name ++ ": ") :: tyDocs c false type)]
  | .typeAlias name type params =>
    [typeAliasDoc c [.text name.text] (typeParamsDocs c params) (tyDocs c false type)]

def itemDocs (c : Context) : Item → List Doc
  | .member _ lead member => leadDocs c lead ++ memberDocs c member
  | .declaration _ lead declaration => leadDocs c lead ++ declarationDocs c declaration

/-- The items of a body, each on a line of its own; `last` is the line where the item before
ended. -/
def bodyDocs (c : Context) (last : Option Int) : List Item → List Doc
  | [] => []
  | item :: items =>
    bodyItem last (item.lead.firstLine item.location) (itemDocs c item) ++
      bodyDocs c (item.location.map (·.endLine)) items

end

def rootDocs (c : Context) (root : Root) : List Doc :=
  fileDocs (root.declarations.map (itemDocs c))

end RubySig.Format
