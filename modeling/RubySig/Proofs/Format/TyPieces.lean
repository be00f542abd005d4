import RubySig.Format.Ty
import RubySig.Proofs.Format.Show

/-!
The words of a printed type. A symbol that is a plain identifier and the mark of an optional type
right behind it are one word, since they are read as one symbol.
-/
namespace RubySig

/-- The name of a symbol that takes in a mark behind it. -/
def Ty.openSymbol? : Ty → Option String
  | .literal _ (.symbol s) => if MethodName.isIdentifier s.toList then some s else none
  | _ => none

theorem Ty.openSymbol?_eq_some {t : Ty} {s : String} (h : t.openSymbol? = some s) :
    MethodName.isIdentifier s.toList = true ∧ ∃ l, t = .literal l (.symbol s) := by
  unfold Ty.openSymbol? at h
  split at h
  case _ l s' =>
    split at h
    case isTrue hs =>
      cases h
      exact ⟨hs, l, rfl⟩
    case isFalse => cases h
  case _ => cases h

namespace Format

open Piece (mark keyword named)

def namePieces (n : TypeName) : List Piece :=
  (if n.absolute then [mark .doubleColon] else []) ++
    n.path.flatMap (fun s => [named s, mark .doubleColon]) ++ [named n.name]

def inlinePieces (items : List (List Piece)) : List Piece :=
  [mark .comma, .gap .blank].intercalate items

def bracketedPieces (items : List (List Piece)) : List Piece :=
  if items.isEmpty then [] else mark .lbracket :: inlinePieces items ++ [mark .rbracket]

/-- The characters of a string literal. -/
def stringChars (c : Context) (location : Option Span) (value : String) : List Char :=
  match location with
  | none => (Spell.string value).toList
  | some span =>
    let source := span.slice c.source
    let quote := Spell.preferredQuote source
    quote :: Spell.requote quote (source.drop 1).dropLast ++ [quote]

def literalPiece (c : Context) (location : Option Span) : Literal → Piece
  | .integer n => .word (.integer n) (toString n).toList
  | .string s => .word (.string s) (stringChars c location s)
  | .symbol s => .word (.symbol s) (Spell.symbol s).toList
  | .truth b => keyword (if b then .true else .false)

def keyPieces (c : Context) (location : Option Span) (key : Literal) : List Piece :=
  match key with
  | .symbol s =>
    if MethodName.isIdentifier s.toList then [named s, mark .colon, .gap .blank]
    else [literalPiece c location key, .gap .blank, mark .fatArrow, .gap .blank]
  | key => [literalPiece c location key, .gap .blank, mark .fatArrow, .gap .blank]

def parenthesizedPieces (wrap : Bool) (ps : List Piece) : List Piece :=
  if wrap then mark .lparen :: ps ++ [mark .rparen] else ps

def alternativesPieces (m : Mark) (types : List (List Piece)) : List Piece :=
  [.gap .space, mark m, .gap .blank].intercalate types

def tuplePieces (items : List (List Piece)) : List Piece :=
  if items.isEmpty then [mark .lbracket, .gap .blank, mark .rbracket] else bracketedPieces items

def commaPieces (items : List (List Piece)) : List Piece :=
  [mark .comma, .gap .space].intercalate items

def recordPieces (entries : List (List Piece)) : List Piece :=
  if entries.isEmpty then [mark .lbrace, .gap .blank, mark .rbrace]
  else mark .lbrace :: .gap .space :: commaPieces entries ++ [.gap .space, mark .rbrace]

def clausePieces (required : Bool) (inside : List Piece) : List Piece :=
  (if required then [] else [mark .question]) ++ mark .lbrace :: .gap .space :: inside ++
    [.gap .space, mark .rbrace]

/-- Whether a name is spelled between backquotes. -/
def isQuoted (name : String) (allowReserved : Bool) : Bool :=
  Spell.isReserved name && !allowReserved || !MethodName.isIdentifier name.toList

def namePiece (name : String) (allowReserved : Bool) : Piece :=
  .word (if isQuoted name allowReserved then .quotedIdentifier name
    else Lexer.nameLexeme name.toList) (Spell.name name allowReserved).toList

def namedPieces (type : List Piece) : Option String → List Piece
  | none => type
  | some name => type ++ [.gap .blank, namePiece name false]

def listPieces (params : List (List Piece)) : List Piece :=
  if params.isEmpty then []
  else mark .lparen :: .gap .soft :: commaPieces params ++ [.gap .soft, mark .rparen, .gap .blank]

def signaturePieces (typeParams : List Piece) (params : List (List Piece)) (block : List Piece)
    (result : List Piece) : List Piece :=
  typeParams ++ listPieces params ++ block ++ mark .arrow :: .gap .blank :: result

mutual

def tyPieces (c : Context) (wrap : Bool) : Ty → List Piece
  | .base _ kind => [named kind.text]
  | .variable _ name => [named name]
  | .classInstance _ name args => namePieces name ++ bracketedPieces (tysPieces c false args)
  | .interface _ name args => namePieces name ++ bracketedPieces (tysPieces c false args)
  | .alias _ name args => namePieces name ++ bracketedPieces (tysPieces c false args)
  | .classSingleton _ name =>
    keyword .singleton :: mark .lparen :: namePieces name ++ [mark .rparen]
  | .optional _ type =>
    match type.openSymbol? with
    | some s => [.word (.symbol (s ++ "?")) (Spell.symbol (s ++ "?")).toList]
    | none => parenthesizedPieces type.isOptional (tyPieces c true type) ++ [mark .question]
  | .union _ types => parenthesizedPieces wrap (alternativesPieces .pipe (tysPieces c wrap types))
  | .intersection _ types =>
    parenthesizedPieces wrap (alternativesPieces .ampersand (tysPieces c true types))
  | .tuple _ types => tuplePieces (tysPieces c false types)
  | .record _ fields => recordPieces (fieldsPieces c fields)
  | .literal location value => [literalPiece c location value]
  | .proc _ signature block =>
    parenthesizedPieces wrap (mark .caret :: signaturePiecesOf c [] (blockPieces c block) signature)

def tysPieces (c : Context) (wrap : Bool) : List Ty → List (List Piece)
  | [] => []
  | t :: ts => tyPieces c wrap t :: tysPieces c wrap ts

def fieldsPieces (c : Context) : List Field → List (List Piece)
  | [] => []
  | ⟨_, keyLocation, key, type⟩ :: fields =>
    (keyPieces c keyLocation key ++ tyPieces c false type) :: fieldsPieces c fields

def paramPieces (c : Context) : Param → List Piece
  | ⟨_, type, name⟩ => namedPieces (tyPieces c false type) name

def paramsPieces (c : Context) (lead : List Piece) : List Param → List (List Piece)
  | [] => []
  | p :: ps => (lead ++ paramPieces c p) :: paramsPieces c lead ps

def restPieces (c : Context) (lead : List Piece) : Option Param → List (List Piece)
  | none => []
  | some p => [lead ++ paramPieces c p]

def keywordsPieces (c : Context) (lead : List Piece) : List (String × Param) → List (List Piece)
  | [] => []
  | (name, p) :: ps =>
    (lead ++ namePiece name true :: mark .colon :: .gap .blank :: paramPieces c p) ::
      keywordsPieces c lead ps

def signaturePiecesOf (c : Context) (typeParams block : List Piece) : Signature → List Piece
  | ⟨_, result, required, optional, rest, trailing, requiredKeywords, optionalKeywords,
      restKeywords⟩ =>
    signaturePieces typeParams
      (paramsPieces c [] required ++ paramsPieces c [mark .question] optional ++
        restPieces c [mark .star] rest ++ paramsPieces c [] trailing ++
        keywordsPieces c [] requiredKeywords ++
        keywordsPieces c [mark .question] optionalKeywords ++
        restPieces c [mark .doubleStar] restKeywords)
      block (tyPieces c true result)

def blockPieces (c : Context) : Option Block → List Piece
  | none => []
  | some ⟨_, signature, required⟩ =>
    clausePieces required (signaturePiecesOf c [] [] signature) ++ [.gap .blank]

end

end Format
end RubySig
