import RubySig.Layout.Doc
import RubySig.Spell.Literal
import RubySig.Spell.Name
import RubySig.Tree.Basic

/-!
Types in canonical form. String literals with a place are copied from the source, so their escape
sequences stay as they are; everything else is spelled anew.
-/
namespace RubySig.Format

/-- The text that the tree was read from, and the width of one level. -/
structure Context where
  source : List Char
  indent : Int

/-- Items between brackets, with a comma and a blank between them. -/
def inline (items : List (List Doc)) : List Doc :=
  Doc.separated [.text ", "] items

def bracketed (items : List (List Doc)) : List Doc :=
  if items.isEmpty then [] else .text "[" :: inline items ++ [.text "]"]

def applied (name : List Doc) (args : List (List Doc)) : Doc :=
  Doc.grouped (name ++ bracketed args)

/-- A literal between quotes; its line feeds stay in it as they are. -/
def quoted (quote : Char) (content : List Char) : List Doc :=
  let mark := Doc.text (String.singleton quote)
  let lines := (Spell.literalLines content).map fun line => [Doc.text (String.ofList line)]
  mark :: Doc.separated [Doc.rawBreak] lines ++ [mark]

/-- A string literal: its source with other quotes, or the spelling of its value. -/
def stringDocs (c : Context) (location : Option Span) (value : String) : List Doc :=
  match location with
  | none => [.text (Spell.string value)]
  | some span =>
    let source := span.slice c.source
    let quote := Spell.preferredQuote source
    quoted quote (Spell.requote quote (source.drop 1).dropLast)

/-- A literal; a string with a place in the source is copied from there. -/
def literalDocs (c : Context) (location : Option Span) : Literal → List Doc
  | .integer n => [.text (toString n)]
  | .string s => stringDocs c location s
  | .symbol s => [.text (Spell.symbol s)]
  | .truth b => [.text (if b then "true" else "false")]

/-- The key of a record entry, with what stands between it and the type. -/
def keyDocs (c : Context) (location : Option Span) (key : Literal) : List Doc :=
  match key with
  | .symbol s =>
    if MethodName.isIdentifier s.toList then [.text (s ++ ": ")]
    else literalDocs c location key ++ [.text " => "]
  | key => literalDocs c location key ++ [.text " => "]

def parenthesized (wrap : Bool) (docs : List Doc) : List Doc :=
  if wrap then .text "(" :: docs ++ [.text ")"] else docs

/-- Alternatives with an operator in front of all but the first. -/
def alternatives (operator : String) (types : List (List Doc)) : Doc :=
  Doc.grouped (Doc.separated [Doc.space, .text operator] types)

/-- What is there, with a blank behind it. -/
def spaced (docs : List Doc) : List Doc :=
  if docs.isEmpty then [] else docs ++ [.text " "]

/-- A tuple. Without items it keeps a blank, or it would read as an empty argument list. -/
def tupleDocs (items : List (List Doc)) : List Doc :=
  if items.isEmpty then [.text "[ ]"] else [Doc.grouped (bracketed items)]

def recordDocs (c : Context) (entries : List (List Doc)) : List Doc :=
  if entries.isEmpty then [.text "\x7b \x7d"]
  else [Doc.grouped [.text "\x7b", .indent c.indent (Doc.space :: Doc.commaSeparated entries),
    Doc.space, .text "\x7d"]]

/-- A block clause around what it holds. -/
def clauseDocs (c : Context) (required : Bool) (inside : List Doc) : List Doc :=
  (if required then [] else [.text "?"]) ++
    [.text "\x7b", .indent c.indent (Doc.space :: inside), Doc.space, .text "\x7d"]

def namedDocs (type : List Doc) : Option String → List Doc
  | none => type
  | some name => type ++ [.text " ", .text (Spell.name name false)]

/-- What stands between the parameters and the return type: a block, or nothing. The parameter
list is left out when it is empty. -/
def signatureDoc (c : Context) (typeParams : List Doc) (params : List (List Doc))
    (block : List Doc) (result : List Doc) : Doc :=
  let paramDocs := if params.isEmpty then [] else
    [.text "(", .indent c.indent (Doc.softBreak :: Doc.commaSeparated params), Doc.softBreak,
      .text ") "]
  Doc.grouped (typeParams ++ paramDocs ++ block ++ .text "-> " :: result)

mutual

/-- A type; with `wrap` a type that would be misread where it stands gets parentheses. -/
def tyDocs (c : Context) (wrap : Bool) : Ty → List Doc
  | .base _ kind => [.text kind.text]
  | .variable _ name => [.text name]
  | .classInstance _ name args => [applied [.text name.text] (tyItems c false args)]
  | .interface _ name args => [applied [.text name.text] (tyItems c false args)]
  | .alias _ name args => [applied [.text name.text] (tyItems c false args)]
  | .classSingleton _ name => [.text "singleton(", .text name.text, .text ")"]
  | .optional _ type => parenthesized type.isOptional (tyDocs c true type) ++ [.text "?"]
  | .union _ types => parenthesized wrap [alternatives "| " (tyItems c wrap types)]
  | .intersection _ types => parenthesized wrap [alternatives "& " (tyItems c true types)]
  | .tuple _ types => tupleDocs (tyItems c false types)
  | .record _ fields => recordDocs c (fieldItems c fields)
  | .literal location value => literalDocs c location value
  | .proc _ signature block =>
    [Doc.grouped (parenthesized wrap
      [.text "^", signatureDocOf c [] (blockBefore c block) signature])]

def tyItems (c : Context) (wrap : Bool) : List Ty → List (List Doc)
  | [] => []
  | t :: ts => tyDocs c wrap t :: tyItems c wrap ts

def fieldItems (c : Context) : List Field → List (List Doc)
  | [] => []
  | ⟨_, keyLocation, key, type⟩ :: fields =>
    (keyDocs c keyLocation key ++ tyDocs c false type) :: fieldItems c fields

def paramDocs (c : Context) : Param → List Doc
  | ⟨_, type, name⟩ => namedDocs (tyDocs c false type) name

/-- Parameters with a mark in front of each. -/
def paramItems (c : Context) (mark : String) : List Param → List (List Doc)
  | [] => []
  | p :: ps => (.text mark :: paramDocs c p) :: paramItems c mark ps

/-- A parameter that may be absent. -/
def paramItem (c : Context) (mark : String) : Option Param → List (List Doc)
  | none => []
  | some p => [.text mark :: paramDocs c p]

def keywordItems (c : Context) (mark : String) : List (String × Param) → List (List Doc)
  | [] => []
  | (name, p) :: ps =>
    (.text (mark ++ Spell.name name true ++ ": ") :: paramDocs c p) :: keywordItems c mark ps

/-- A signature behind its type parameters. The parameters stand in the one order that is read
back, whatever their order was. -/
def signatureDocOf (c : Context) (typeParams : List Doc) (block : List Doc) : Signature → Doc
  | ⟨_, result, required, optional, rest, trailing, requiredKeywords, optionalKeywords,
      restKeywords⟩ =>
    signatureDoc c typeParams
      (paramItems c "" required ++ paramItems c "?" optional ++ paramItem c "*" rest ++
        paramItems c "" trailing ++ keywordItems c "" requiredKeywords ++
        keywordItems c "?" optionalKeywords ++ paramItem c "**" restKeywords)
      block (tyDocs c true result)

def blockDocs (c : Context) : Block → List Doc
  | ⟨_, signature, required⟩ => clauseDocs c required [signatureDocOf c [] [] signature]

/-- A block clause in front of an arrow. -/
def blockBefore (c : Context) : Option Block → List Doc
  | none => []
  | some block => blockDocs c block ++ [.text " "]

end

def Variance.keyword : Variance → String
  | .invariant => ""
  | .covariant => "out "
  | .contravariant => "in "

/-- What stands in front of the bound of a type parameter. -/
def typeParamHeading (unchecked : Bool) (variance name : String) : Doc :=
  .text ((if unchecked then "unchecked " else "") ++ variance ++ name)

def typeParamDocs (c : Context) (p : TypeParam) : List Doc :=
  typeParamHeading p.unchecked (Variance.keyword p.variance) p.name ::
    match p.bound with
    | none => []
    | some bound => .text " < " :: tyDocs c false bound

/-- Type parameters between brackets, or nothing. -/
def typeParamsDocs (c : Context) (params : List TypeParam) : List Doc :=
  bracketed (params.map (typeParamDocs c))

def methodTypeDocs (c : Context) (m : MethodType) : List Doc :=
  let params := spaced (typeParamsDocs c m.params)
  [signatureDocOf c params (blockBefore c m.block) m.signature]

def classRefDocs (c : Context) (r : ClassRef) : List Doc :=
  [applied [.text r.name.text] (tyItems c false r.args)]

end RubySig.Format
