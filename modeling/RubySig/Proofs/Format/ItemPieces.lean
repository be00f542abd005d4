import RubySig.Format.Declaration
import RubySig.Proofs.Format.TyPieces

/-! The words of printed members, declarations and files, with the comments above them. -/
namespace RubySig

def Visibility.keyword : Visibility → Keyword
  | .public_ => .public_
  | .private_ => .private_

def Access.keyword : Access → Keyword
  | .reader => .attrReader
  | .writer => .attrWriter
  | .accessor => .attrAccessor

def MixinKind.keyword : MixinKind → Keyword
  | .include_ => .include_
  | .extend => .extend
  | .prepend => .prepend

namespace Format

open Piece (mark keyword named)

/-- A character of an operator: a mark where it is one. -/
def signPiece (c : Char) : Piece :=
  match Mark.at? [c] with
  | some m => mark m
  | none => .word (.operator c) [c]

/-- The tokens of an operator. -/
def signPieces : List Char → List Piece
  | [] => []
  | '*' :: '*' :: cs => mark .doubleStar :: signPieces cs
  | '=' :: '>' :: cs => mark .fatArrow :: signPieces cs
  | c :: cs => signPiece c :: signPieces cs

/-- The tokens of a method name that stands without backquotes. -/
def wholeNamePieces (cs : List Char) : List Piece :=
  let base := cs.takeWhile MethodName.isPart
  (if base.isEmpty then [] else [.word (Lexer.nameLexeme base) base]) ++
    signPieces (cs.dropWhile MethodName.isPart)

def isQuotedMethod (name : String) (quoteReserved : Bool) : Bool :=
  quoteReserved && Spell.isReserved name || !MethodName.isWhole name.toList

def methodNamePieces (name : String) (quoteReserved : Bool) : List Piece :=
  if isQuotedMethod name quoteReserved then
    [.word (.quotedIdentifier name) (Spell.backquoted name).toList]
  else wholeNamePieces name.toList

def varianceWords : Variance → List Piece
  | .invariant => []
  | .covariant => [keyword .out, .gap .blank]
  | .contravariant => [keyword .in_, .gap .blank]

def boundPieces (c : Context) : Option Ty → List Piece
  | none => []
  | some bound => [.gap .blank, mark .lt, .gap .blank] ++ tyPieces c false bound

def typeParamPieces (c : Context) (p : TypeParam) : List Piece :=
  (if p.unchecked then [keyword .unchecked, .gap .blank] else []) ++ varianceWords p.variance ++
    [named p.name] ++ boundPieces c p.bound

def typeParamsPieces (c : Context) (params : List TypeParam) : List Piece :=
  bracketedPieces (params.map (typeParamPieces c))

/-- Pieces with a blank behind them, or none. -/
def spacedPieces (ps : List Piece) : List Piece :=
  if ps.isEmpty then [] else ps ++ [.gap .blank]

def methodTypePieces (c : Context) (m : MethodType) : List Piece :=
  signaturePiecesOf c (spacedPieces (typeParamsPieces c m.params)) (blockPieces c m.block)
    m.signature

/-- The characters of an annotation. -/
def noteChars (c : Context) (n : Note) : List Char :=
  match n.location with
  | some span =>
    if n.text.toList.any (fun x => x == '\x7b' || x == '\x7d') then span.slice c.source
    else '%' :: 'a' :: '\x7b' :: n.text.toList ++ ['\x7d']
  | none => '%' :: 'a' :: '\x7b' :: n.text.toList ++ ['\x7d']

def notePiece (c : Context) (n : Note) : Piece := .word (.note n.text) (noteChars c n)

def overloadPieces (c : Context) (o : Overload) : List Piece :=
  o.notes.flatMap (fun n => [notePiece c n, .gap .blank]) ++ methodTypePieces c o.method

def visibilityPieces : Option Visibility → List Piece
  | none => []
  | some v => [keyword v.keyword, .gap .blank]

def receiverPieces : MemberLevel → List Piece
  | .instance_ => []
  | .singleton => [keyword .self, mark .dot]

def methodReceiverPieces : MethodLevel → List Piece
  | .instance_ => []
  | .singleton => [keyword .self, mark .dot]
  | .both => [keyword .self, mark .question, mark .dot]

def backingPieces : Backing → List Piece
  | .implied => []
  | .absent => [mark .lparen, mark .rparen]
  | .named name => [mark .lparen, .word (.instanceVariable name) name.toList, mark .rparen]

def variablePieces : VariableKind → String → List Piece
  | .instance_, name => [.word (.instanceVariable name) name.toList]
  | .classInstance, name => [keyword .self, mark .dot, .word (.instanceVariable name) name.toList]
  | .class_, name => [.word (.classVariable name) name.toList]

/-- What stands in front of the signatures of a method. -/
def headingPieces (visibility : Option Visibility) (level : MethodLevel) (name : String) :
    List Piece :=
  visibilityPieces visibility ++ [keyword .def_, .gap .blank] ++ methodReceiverPieces level ++
    methodNamePieces name true

/-- Signatures with bars between them, each on a line of its own. -/
def entriesPieces (entries : List (List Piece)) : List Piece :=
  [.gap .line, mark .pipe, .gap .blank].intercalate entries

def methodEntryPieces (c : Context) (overloads : List Overload) (overloading : Bool) :
    List (List Piece) :=
  overloads.map (overloadPieces c) ++ if overloading then [[mark .ellipsis]] else []

def memberPieces (c : Context) : Member → List Piece
  | .alias newName oldName level =>
    [keyword .alias, .gap .blank] ++ receiverPieces level ++ methodNamePieces newName false ++
      [.gap .blank] ++ receiverPieces level ++ methodNamePieces oldName false
  | .attribute access name type backing level visibility =>
    visibilityPieces visibility ++ [keyword access.keyword, .gap .blank] ++ receiverPieces level ++
      [namePiece name true] ++ backingPieces backing ++ [mark .colon, .gap .blank] ++
      tyPieces c false type
  | .variable kind name type =>
    variablePieces kind name ++ [mark .colon, .gap .blank] ++ tyPieces c false type
  | .mixin kind name args =>
    [keyword kind.keyword, .gap .blank] ++
      (namePieces name ++ bracketedPieces (tysPieces c false args))
  | .visibility v => [keyword v.keyword]
  | .method name overloads level overloading visibility =>
    headingPieces visibility level name ++ [mark .colon, .gap .blank] ++
      entriesPieces (methodEntryPieces c overloads overloading)

def remarkPieces : Option Comment → List Piece
  | none => []
  | some comment => (Spell.commentLines comment.text.toList).map .remark

def notesPieces (c : Context) (notes : List Note) : List Piece :=
  notes.flatMap fun n => [notePiece c n, .gap .line]

def leadPieces (c : Context) (lead : Lead) : List Piece :=
  remarkPieces lead.comment ++ notesPieces c lead.notes

def classRefPieces (c : Context) (r : ClassRef) : List Piece :=
  namePieces r.name ++ bracketedPieces (tysPieces c false r.args)

def superclassPieces (c : Context) : Option ClassRef → List Piece
  | none => []
  | some r => [.gap .blank, mark .lt, .gap .blank] ++ classRefPieces c r

def selfTypesPieces (c : Context) (selves : List ClassRef) : List Piece :=
  if selves.isEmpty then []
  else [.gap .blank, mark .colon, .gap .blank] ++ inlinePieces (selves.map (classRefPieces c))

/-- The line end in front of an item of a body, two where a blank line is kept. -/
def itemBreak (blank : Bool) : List Piece :=
  .gap .line :: if blank then [.gap .line] else []

def bodiedPieces (heading body : List Piece) : List Piece :=
  heading ++ body ++ [.gap .line, keyword .end_]

mutual

def declarationPieces (c : Context) : Declaration → List Piece
  | .class_ name params superclass members =>
    bodiedPieces (keyword .class_ :: .gap .blank :: namePieces name ++ typeParamsPieces c params ++
      superclassPieces c superclass) (bodyPieces c none members)
  | .module_ name params selfTypes members =>
    bodiedPieces (keyword .module_ :: .gap .blank :: namePieces name ++ typeParamsPieces c params ++
      selfTypesPieces c selfTypes) (bodyPieces c none members)
  | .interface name params members =>
    bodiedPieces (keyword .interface :: .gap .blank :: namePieces name ++ typeParamsPieces c params)
      (bodyPieces c none members)
  | .constant name type => namePieces name ++ [mark .colon, .gap .blank] ++ tyPieces c false type
  | .global name type =>
    [.word (.globalVariable name) name.toList, mark .colon, .gap .blank] ++ tyPieces c false type
  | .typeAlias name type params =>
    keyword .type :: .gap .blank :: namePieces name ++ typeParamsPieces c params ++
      [.gap .blank, mark .eq, .gap .space] ++ tyPieces c false type

def itemPieces (c : Context) : Item → List Piece
  | .member _ lead member => leadPieces c lead ++ memberPieces c member
  | .declaration _ lead declaration => leadPieces c lead ++ declarationPieces c declaration

def bodyPieces (c : Context) (last : Option Int) : List Item → List Piece
  | [] => []
  | item :: items =>
    itemBreak (blankLine last (item.lead.firstLine item.location)) ++ itemPieces c item ++
      bodyPieces c (item.location.map (·.endLine)) items

end

/-- A whole file: a blank line between declarations, and a line end behind the last. -/
def rootPieces (c : Context) (root : Root) : List Piece :=
  [.gap .line, .gap .line].intercalate (root.declarations.map (itemPieces c)) ++ [.gap .line]

end Format
end RubySig
