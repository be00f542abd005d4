import RubySig.Tree.CommentBlock
import RubySig.Tree.MethodName

/-!
The grammar of signature files: from tokens to trees by recursive descent. The names of the type
parameters in scope are an argument; the fuel bounds the depth and is never used up.
-/
namespace RubySig.Grammar

/-- What stays fixed while a text is read: its characters and the place of its end. -/
structure Context where
  text : List Char
  finish : Position

/-- What is left to read, the token read last, and the comments that nothing has taken yet. -/
structure State where
  tokens : List Token
  last : Option Token
  blocks : List CommentBlock

/-- A reader of tokens, which fails with a cause and its place. -/
abbrev Parser := ReaderT Context (StateT State (Except (Cause × Position)))

/-- The next token; there is none at the end. -/
def peek : Parser (Option Lexeme) :=
  return (← get).tokens.head?.map (·.lexeme)

/-- The token `k` places ahead. -/
def peekAt (k : Nat) : Parser (Option Lexeme) :=
  return ((← get).tokens[k]?).map (·.lexeme)

/-- The place of the next token or of the end. -/
def here : Parser Position :=
  return (((← get).tokens.head?).map (·.start)).getD (← read).finish

def failAt {α : Type} (p : Position) (cause : Cause) : Parser α :=
  throw (cause, p)

def failHere {α : Type} (cause : Cause) : Parser α := do
  failAt (← here) cause

/-- Fails because the grammar asks for something else than the next token. -/
def failMissing {α : Type} (what : Missing) : Parser α := do
  failHere (.missing what (← peek))

def lastPlace : Parser Position := do
  match (← get).last with
  | some t => return t.start
  | none => here

def advance (k : Nat) : Parser Unit :=
  modify fun s =>
    { s with tokens := s.tokens.drop k, last := ((s.tokens.take k).getLast?).or s.last }

def isNext (l : Lexeme) : Parser Bool :=
  return (← peek) == some l

/-- Reads the token `l` if it is the next one. -/
def eat (l : Lexeme) : Parser Bool := do
  if ← isNext l then
    advance 1
    return true
  else return false

/-- Reads the token `l`, which must be the next one. -/
def expect (l : Lexeme) (what : Missing) : Parser Unit := do
  unless ← eat l do failMissing what

/-- The range from a place to the end of the token read last. -/
def spanFrom (start : Position) : Parser (Option Span) := do
  match (← get).last with
  | some t => return some (.between start t.stop)
  | none => return some (.between start start)

/-- One or more items with a separator between them. -/
def separated {α : Type} (separator : Lexeme) (item : Parser α) : (fuel : Nat) → Parser (List α)
  | 0 => return []
  | fuel + 1 => do
    let x ← item
    if ← eat separator then return x :: (← separated separator item fuel) else return [x]

/-- Items with commas up to a closing token, which is left; a comma may end the list. -/
def listed {α : Type} (close : Lexeme) (item : Parser α) : (fuel : Nat) → Parser (List α)
  | 0 => return []
  | fuel + 1 => do
    if ← isNext close then return []
    let x ← item
    if ← eat (.mark .comma) then return x :: (← listed close item fuel) else return [x]

/-- The segments in front of the last one of a name, each with the `::` behind it. -/
def pathOf : List Token → List String
  | ⟨.constant name, _, _⟩ :: ⟨.mark .doubleColon, _, _⟩ :: rest => name :: pathOf rest
  | _ => []

/-- What the last segment of a name may be. -/
inductive Segment where
  | constant | interface | identifier | any
  deriving DecidableEq, Repr

/-- The name that a token gives to the last segment. -/
def Segment.name? : Segment → Lexeme → Option String
  | .constant, .constant name | .any, .constant name => some name
  | .interface, .interfaceName name | .any, .interfaceName name => some name
  | .identifier, .identifier name | .any, .identifier name => some name
  | _, _ => none

/-- A name with the segments in front of it, `::A::B::name`. -/
def typeName (segment : Segment) (role : Role) : Parser TypeName := do
  let start ← here
  let absolute ← eat (.mark .doubleColon)
  let path := pathOf (← get).tokens
  advance (2 * path.length)
  match (← peek).bind segment.name? with
  | none => failMissing (.name role)
  | some name =>
    advance 1
    return ⟨← spanFrom start, name, path, absolute⟩

def baseKind? : Keyword → Option BaseKind
  | .untyped => some .untyped
  | .bool => some .bool
  | .bot => some .bottom
  | .class_ => some .class_
  | .instance_ => some .instance_
  | .nil => some .nil
  | .self => some .self
  | .top => some .top
  | .void => some .void
  | _ => none

def literal? : Lexeme → Option Literal
  | .integer n => some (.integer n)
  | .string s => some (.string s)
  | .symbol s => some (.symbol s)
  | .keyword .true => some (.truth true)
  | .keyword .false => some (.truth false)
  | _ => none

/-- How far a parameter list has come. -/
inductive Stage where
  | required | optional | trailing | keywords | done
  deriving DecidableEq, Repr

/-- The parameters read so far. -/
structure Params where
  required : List Param
  optional : List Param
  rest : Option Param
  trailing : List Param
  requiredKeywords : List (String × Param)
  optionalKeywords : List (String × Param)
  restKeywords : Option Param

namespace Params

def empty : Params := ⟨[], [], none, [], [], [], none⟩

def hasKeyword (ps : Params) (name : String) : Bool :=
  ps.requiredKeywords.any (·.1 == name) || ps.optionalKeywords.any (·.1 == name)

def signature (ps : Params) (location : Option Span) (result : Ty) : Signature where
  location := location
  result := result
  required := ps.required
  optional := ps.optional
  rest := ps.rest
  trailing := ps.trailing
  requiredKeywords := ps.requiredKeywords
  optionalKeywords := ps.optionalKeywords
  restKeywords := ps.restKeywords

end Params

/-- The name of the keyword parameter that comes next, and whether it is optional. -/
def keywordParam? : Parser (Option (String × Bool)) := do
  let optional ← isNext (.mark .question)
  let offset := if optional then 1 else 0
  match (← peekAt offset).bind Lexeme.name?, ← peekAt (offset + 1) with
  | some name, some (.mark .colon) => return some (name, optional)
  | _, _ => return none

/-- A parameter, given how a type is read. -/
def param (type : Parser Ty) : Parser Param := do
  let start ← here
  let t ← type
  match (← peek).bind Lexeme.name? with
  | some name =>
    advance 1
    return ⟨← spanFrom start, t, some name⟩
  | none => return ⟨← spanFrom start, t, none⟩

/-- A parameter list behind its opening parenthesis, up to the closing one. -/
def params (type : Parser Ty) : (fuel : Nat) → Stage → Params → Parser Params
  | 0, _, ps => return ps
  | fuel + 1, stage, ps => do
    if ← isNext (.mark .rparen) then return ps
    let (stage, ps) ← show Parser (Stage × Params) from do
      if let some (name, optional) ← keywordParam? then
        advance (if optional then 3 else 2)
        let p ← param type
        if ps.hasKeyword name then failAt (← lastPlace) (.duplicateKeyword name)
        else if optional then
          return (.keywords, { ps with optionalKeywords := ps.optionalKeywords ++ [(name, p)] })
        else return (.keywords, { ps with requiredKeywords := ps.requiredKeywords ++ [(name, p)] })
      else if ← eat (.mark .doubleStar) then
        if ps.restKeywords.isSome then failAt (← lastPlace) .secondRestKeyword
        else return (.done, { ps with restKeywords := some (← param type) })
      else if stage == .done then failHere .afterRestKeyword
      else if ← eat (.mark .question) then
        if stage == .required || stage == .optional then
          return (.optional, { ps with optional := ps.optional ++ [← param type] })
        else failAt (← lastPlace) .optionalOutOfOrder
      else if ← eat (.mark .star) then
        if stage == .required || stage == .optional then
          return (.trailing, { ps with rest := some (← param type) })
        else failAt (← lastPlace) .restOutOfOrder
      else match stage with
        | .required => return (.required, { ps with required := ps.required ++ [← param type] })
        | .trailing => return (.trailing, { ps with trailing := ps.trailing ++ [← param type] })
        | _ => failHere .requiredOutOfOrder
    if ← eat (.mark .comma) then params type fuel stage ps else return ps

/-- A parameter list in parentheses, if one comes next. -/
def paramList (type : Parser Ty) (fuel : Nat) : Parser Params := do
  if ← eat (.mark .lparen) then
    let ps ← params type fuel .required .empty
    expect (.mark .rparen) .closeOfParams
    return ps
  else return .empty

/-- A block clause, if one comes next, given how types and return types are read. -/
def blockClause (type result : Parser Ty) (fuel : Nat) : Parser (Option Block) := do
  let start ← here
  let required := !(← isNext (.mark .question))
  let brace ← if required then peek else peekAt 1
  if brace == some (.mark .lbrace) then
    advance (if required then 1 else 2)
    let ps ← paramList type fuel
    expect (.mark .arrow) .arrowOfBlock
    let r ← result
    let inner := ps.signature (← spanFrom start) r
    expect (.mark .rbrace) .closeOfBlock
    return some ⟨← spanFrom start, inner, required⟩
  else return none

/-- Parameters, a block and a return type, given how types and return types are read. -/
def signature (type result : Parser Ty) (fuel : Nat) : Parser (Signature × Option Block) := do
  let start ← here
  let ps ← paramList type fuel
  let block ← blockClause type result fuel
  expect (.mark .arrow) .arrowOfResult
  let r ← result
  return (ps.signature (← spanFrom start) r, block)

/-- Type arguments in brackets, if they come next: at least one. -/
def typeArgs (type : Parser Ty) (fuel : Nat) : Parser (List Ty) := do
  if ← eat (.mark .lbracket) then
    let first ← type
    let more ← if ← eat (.mark .comma) then listed (.mark .rbracket) type fuel else pure []
    expect (.mark .rbracket) .closeOfArgs
    return first :: more
  else return []

/-- A type that is a name: a type parameter in scope, an interface, a class or an alias. -/
def namedType (scope : List String) (type : Parser Ty) (fuel : Nat) : Parser Ty := do
  let start ← here
  let name ← typeName .any .typeName
  if name.isClass && !name.absolute && name.path.isEmpty && scope.contains name.name then
    return .variable (← spanFrom start) name.name
  else
    let args ← typeArgs type fuel
    let location ← spanFrom start
    if name.isInterface then return .interface location name args
    else if name.isClass then return .classInstance location name args
    else return .alias location name args

def recordField (key type : Parser Ty) : Parser Field := do
  let start ← here
  match (← peek).bind Lexeme.name?, ← peekAt 1 with
  | some name, some (.mark .colon) =>
    advance 1
    let keyLocation ← spanFrom start
    advance 1
    let t ← type
    return ⟨← spanFrom start, keyLocation, .symbol name, t⟩
  | _, _ =>
    match ← key with
    | .literal keyLocation value =>
      expect (.mark .fatArrow) .arrowOfKey
      let t ← type
      return ⟨← spanFrom start, keyLocation, value, t⟩
    | _ => failAt start .recordKey

mutual

/-- A type; unions bind most loosely. -/
def type : (fuel : Nat) → (scope : List String) → Parser Ty
  | 0, _ => failMissing .type
  | fuel + 1, scope => do
    let start ← here
    match ← separated (.mark .pipe) (intersection fuel scope) fuel with
    | [t] => return t
    | types => return .union (← spanFrom start) types

/-- A type without a bare union. -/
def intersection : (fuel : Nat) → (scope : List String) → Parser Ty
  | 0, _ => failMissing .type
  | fuel + 1, scope => do
    let start ← here
    match ← separated (.mark .ampersand) (optionalType fuel scope) fuel with
    | [t] => return t
    | types => return .intersection (← spanFrom start) types

/-- A type without a bare union or intersection. -/
def optionalType : (fuel : Nat) → (scope : List String) → Parser Ty
  | 0, _ => failMissing .type
  | fuel + 1, scope => do
    let start ← here
    let inner ← simpleType fuel scope
    if ← eat (.mark .question) then return .optional (← spanFrom start) inner else return inner

/-- A type that needs no parentheses. -/
def simpleType : (fuel : Nat) → (scope : List String) → Parser Ty
  | 0, _ => failMissing .type
  | fuel + 1, scope => do
    let start ← here
    match ← peek with
    | some (.mark .lparen) =>
      advance 1
      let inner ← type fuel scope
      expect (.mark .rparen) .closeOfType
      return inner
    | some (.keyword .singleton) =>
      advance 1
      expect (.mark .lparen) .openOfSingleton
      let name ← typeName .constant .className
      expect (.mark .rparen) .closeOfSingleton
      return .classSingleton (← spanFrom start) name
    | some (.mark .caret) =>
      advance 1
      let (inner, block) ← signature (type fuel scope) (optionalType fuel scope) fuel
      return .proc (← spanFrom start) inner block
    | some (.mark .lbracket) =>
      advance 1
      let types ← listed (.mark .rbracket) (type fuel scope) fuel
      expect (.mark .rbracket) .closeOfTuple
      return .tuple (← spanFrom start) types
    | some (.mark .lbrace) =>
      advance 1
      let fields ← listed (.mark .rbrace)
        (recordField (simpleType fuel scope) (type fuel scope)) fuel
      expect (.mark .rbrace) .closeOfRecord
      return .record (← spanFrom start) fields
    | some (.constant _) | some (.interfaceName _) | some (.identifier _)
    | some (.mark .doubleColon) => namedType scope (type fuel scope) fuel
    | some (.keyword k) =>
      match baseKind? k, literal? (.keyword k) with
      | some kind, _ =>
        advance 1
        return .base (← spanFrom start) kind
      | none, some value =>
        advance 1
        return .literal (← spanFrom start) value
      | none, none => failMissing .type
    | some l =>
      match literal? l with
      | some value =>
        advance 1
        return .literal (← spanFrom start) value
      | none => failMissing .type
    | none => failMissing .type

end

/-- Type parameters up to the closing bracket; a bound sees its own name and the ones before. -/
def typeParamsFrom (depth : Nat) : (fuel : Nat) → (scope : List String) → Parser (List TypeParam)
  | 0, _ => return []
  | fuel + 1, scope => do
    if ← isNext (.mark .rbracket) then return []
    let start ← here
    let unchecked ← eat (.keyword .unchecked)
    let variance ← show Parser Variance from do
      if ← eat (.keyword .out) then return .covariant
      else if ← eat (.keyword .in_) then return .contravariant
      else return .invariant
    match ← peek with
    | some (.constant name) =>
      advance 1
      let scope := name :: scope
      let bound ← show Parser (Option Ty) from do
        if ← eat (.mark .lt) then return some (← type depth scope) else return none
      let p := ⟨← spanFrom start, name, variance, unchecked, bound⟩
      if ← eat (.mark .comma) then return p :: (← typeParamsFrom depth fuel scope) else return [p]
    | _ => failMissing .typeParam

/-- Type parameters in brackets, if they come next. -/
def typeParams (fuel : Nat) (scope : List String) : Parser (List TypeParam) := do
  if ← eat (.mark .lbracket) then
    let ps ← typeParamsFrom fuel fuel scope
    expect (.mark .rbracket) .closeOfTypeParams
    return ps
  else return []

/-- The scope inside something with type parameters. -/
def within (params : List TypeParam) (scope : List String) : List String :=
  params.map (·.name) ++ scope

def classRef (segment : Segment) (role : Role) (fuel : Nat) (scope : List String) :
    Parser ClassRef := do
  let start ← here
  let name ← typeName segment role
  if segment == .any && !(name.isClass || name.isInterface) then failAt start (.notClassLike role)
  else
    let args ← typeArgs (type fuel scope) fuel
    return ⟨← spanFrom start, name, args⟩

def noteOf? : Token → Option Note
  | ⟨.note text, start, stop⟩ => some ⟨text, some (.between start stop)⟩
  | _ => none

/-- The annotations that come next. -/
def notes : Parser (List Note) := do
  let found := ((← get).tokens.map noteOf?).takeWhile (·.isSome)
  advance found.length
  return found.filterMap id

/-- Takes the comment right above something that starts at `start` under some annotations. -/
def leadOf (notes : List Note) (start : Position) : Parser Lead := do
  let line := match notes with
    | ⟨_, some s⟩ :: _ => s.startLine.toNat
    | _ => start.line
  let (block, left) := CommentBlock.takeAbove line (← get).blocks
  modify fun s => { s with blocks := left }
  return ⟨block.map (·.comment), notes⟩

/-- A method name: backquoted, or read straight from the text and as long as it can be. -/
def methodName : Parser String := do
  match (← get).tokens with
  | ⟨.quotedIdentifier name, _, _⟩ :: _ =>
    advance 1
    return name
  | [] => failMissing .methodName
  | t :: _ =>
    match MethodName.at? ((← read).text.drop t.start.offset) with
    | none => failMissing .methodName
    | some name =>
      let stop := t.start.offset + name.length
      advance ((← get).tokens.takeWhile (·.start.offset < stop)).length
      return String.ofList name

/-- Reads `self.` if it comes next. -/
def selfDot : Parser Bool := do
  if (← isNext (.keyword .self)) && (← peekAt 1) == some (.mark .dot) then
    advance 2
    return true
  else return false

/-- Type parameters and a signature that sees them. -/
def methodType (fuel : Nat) (scope : List String) : Parser MethodType := do
  let start ← here
  let ps ← typeParams fuel scope
  let scope := within ps scope
  let (inner, block) ← signature (type fuel scope) (optionalType fuel scope) fuel
  return ⟨← spanFrom start, inner, ps, block⟩

/-- The signatures of a method, and whether `...` ends them. -/
def overloads (depth : Nat) (scope : List String) : (fuel : Nat) → Parser (List Overload × Bool)
  | 0 => return ([], false)
  | fuel + 1 => do
    if ← eat (.mark .ellipsis) then return ([], true)
    let start ← here
    let ns ← notes
    let method ← methodType depth scope
    let o := ⟨← spanFrom start, method, ns⟩
    if ← eat (.mark .pipe) then
      let (more, overloading) ← overloads depth scope fuel
      return (o :: more, overloading)
    else return ([o], false)

def methodDefinition (fuel : Nat) (scope : List String) (visibility : Option Visibility) :
    Parser Member := do
  let level ← show Parser MethodLevel from do
    if ← selfDot then return .singleton
    else if (← isNext (.keyword .self)) && (← peekAt 1) == some (.mark .question)
        && (← peekAt 2) == some (.mark .dot) then
      advance 3
      return .both
    else return .instance_
  let name ← methodName
  expect (.mark .colon) (.colonOfMethod name)
  let (os, overloading) ← overloads fuel scope fuel
  return .method name os level overloading visibility

def attributeMember (access : Access) (fuel : Nat) (scope : List String)
    (visibility : Option Visibility) : Parser Member := do
  let level := if ← selfDot then MemberLevel.singleton else .instance_
  match (← peek).bind Lexeme.name? with
  | none => failHere (.attributeName access)
  | some name =>
    advance 1
    let backing ← show Parser Backing from do
      if ← eat (.mark .lparen) then
        let backing ← show Parser Backing from do
          match ← peek with
          | some (.instanceVariable ivar) =>
            advance 1
            return .named ivar
          | _ => return .absent
        expect (.mark .rparen) .closeOfBacking
        return backing
      else return .implied
    expect (.mark .colon) (.colonOfAttribute name)
    return .attribute access name (← type fuel scope) backing level visibility

def aliasMember : Parser Member := do
  if ← selfDot then
    let newName ← methodName
    expect (.keyword .self) .selfOfAlias
    expect (.mark .dot) .dotOfAlias
    return .alias newName (← methodName) .singleton
  else
    let newName ← methodName
    return .alias newName (← methodName) .instance_

def variableMember (kind : VariableKind) (name : String) (fuel : Nat) (scope : List String) :
    Parser Member := do
  expect (.mark .colon) (.colonOfVariable name)
  return .variable kind name (← type fuel scope)

def access? : Lexeme → Option Access
  | .keyword .attrReader => some .reader
  | .keyword .attrWriter => some .writer
  | .keyword .attrAccessor => some .accessor
  | _ => none

def mixin? : Lexeme → Option MixinKind
  | .keyword .include_ => some .include_
  | .keyword .extend => some .extend
  | .keyword .prepend => some .prepend
  | _ => none

/-- `public` or `private` in front of a method or attribute on the same line, if it comes next. -/
def visibilityMark : Parser (Option Visibility) := do
  match (← get).tokens with
  | ⟨.keyword k, start, _⟩ :: ⟨following, next, _⟩ :: _ =>
    let marks := next.line == start.line
      && (following == .keyword .def_ || (access? following).isSome)
    match k, marks with
    | .public_, true =>
      advance 1
      return some .public_
    | .private_, true =>
      advance 1
      return some .private_
    | _, _ => return none
  | _ => return none

/-- A member; interfaces, which are not `nested`, allow methods, aliases and `include` only. -/
def member (nested : Bool) (fuel : Nat) (scope : List String) : Parser Member := do
  let visibility ← visibilityMark
  let refuse : Parser Member := do failHere (.unexpectedInBody (← peek))
  match ← peek with
  | none => refuse
  | some l =>
    if l == .keyword .def_ then
      advance 1
      methodDefinition fuel scope visibility
    else if let (some access, true) := (access? l, nested) then
      advance 1
      attributeMember access fuel scope visibility
    else if let some kind := (mixin? l).filter (fun kind => nested || kind == .include_) then
      advance 1
      let target ← classRef .any (.mixinTarget kind) fuel scope
      return .mixin kind target.name target.args
    else if l == .keyword .alias then
      advance 1
      aliasMember
    else if !nested then refuse
    else match l with
      | .keyword .public_ =>
        advance 1
        return .visibility .public_
      | .keyword .private_ =>
        advance 1
        return .visibility .private_
      | .instanceVariable name =>
        advance 1
        variableMember .instance_ name fuel scope
      | .classVariable name =>
        advance 1
        variableMember .class_ name fuel scope
      | .keyword .self =>
        if ← selfDot then
          match ← peek with
          | some (.instanceVariable name) =>
            advance 1
            variableMember .classInstance name fuel scope
          | _ => failMissing .variableOfSelf
        else refuse
      | _ => refuse

/-- Whether a token begins a declaration inside a body. -/
def startsDeclaration : Lexeme → Bool
  | .keyword .class_ | .keyword .module_ | .keyword .interface | .keyword .type => true
  | .constant _ | .mark .doubleColon => true
  | _ => false

/-- The self types of a module behind their colon, if one comes next. -/
def selfTypes (fuel : Nat) (scope : List String) : Parser (List ClassRef) := do
  if ← eat (.mark .colon) then separated (.mark .comma) (classRef .any .selfType fuel scope) fuel
  else return []

def typeAlias (fuel : Nat) (scope : List String) : Parser Declaration := do
  let name ← typeName .identifier .aliasName
  let ps ← typeParams fuel scope
  expect (.mark .eq) .equalsOfAlias
  return .typeAlias name (← type fuel (within ps scope)) ps

def constant (fuel : Nat) (scope : List String) : Parser Declaration := do
  let name ← typeName .constant .constantName
  expect (.mark .colon) .colonOfConstant
  return .constant name (← type fuel scope)

mutual

def declaration : (fuel : Nat) → (scope : List String) → Parser Item
  | 0, _ => do failHere (.unexpected (← peek))
  | fuel + 1, scope => do
    let ns ← notes
    let start ← here
    let d ← show Parser Declaration from do
      match ← peek with
      | some (.keyword .class_) =>
        advance 1
        let name ← typeName .constant .className
        let ps ← typeParams fuel scope
        let inner := within ps scope
        let superclass ← show Parser (Option ClassRef) from do
          if ← eat (.mark .lt) then return some (← classRef .constant .superclassName fuel inner)
          else return none
        let members ← body fuel true inner
        expect (.keyword .end_) .endOfClass
        return .class_ name ps superclass members
      | some (.keyword .module_) =>
        advance 1
        let name ← typeName .constant .moduleName
        let ps ← typeParams fuel scope
        let inner := within ps scope
        let selves ← selfTypes fuel inner
        let members ← body fuel true inner
        expect (.keyword .end_) .endOfModule
        return .module_ name ps selves members
      | some (.keyword .interface) =>
        advance 1
        let name ← typeName .interface .interfaceName
        let ps ← typeParams fuel scope
        let members ← body fuel false (within ps scope)
        expect (.keyword .end_) .endOfInterface
        return .interface name ps members
      | some (.keyword .type) =>
        advance 1
        typeAlias fuel scope
      | some (.constant _) | some (.mark .doubleColon) => constant fuel scope
      | some (.globalVariable name) =>
        advance 1
        expect (.mark .colon) .colonOfGlobal
        return .global name (← type fuel scope)
      | found => failHere (.unexpected found)
    let location ← spanFrom start
    return .declaration location (← leadOf ns start) d

/-- A body up to its `end`, which is left. -/
def body : (fuel : Nat) → (nested : Bool) → (scope : List String) → Parser (List Item)
  | 0, _, _ => return []
  | fuel + 1, nested, scope => do
    if ← isNext (.keyword .end_) then return []
    if (← peek).isNone then failHere .unclosedBody
    let before ← get
    let ns ← notes
    let start ← here
    let first ← show Parser Item from do
      if nested && ((← peek).map startsDeclaration).getD false then
        set before
        declaration fuel scope
      else
        let m ← member nested fuel scope
        let location ← spanFrom start
        return .member location (← leadOf ns start) m
    return first :: (← body fuel nested scope)

end

/-- Declarations up to the end of the text. -/
def declarations (depth : Nat) : (fuel : Nat) → Parser (List Item)
  | 0 => return []
  | fuel + 1 => do
    if (← peek).isNone then return []
    let first ← declaration depth []
    return first :: (← declarations depth fuel)

/-- The depth that the grammar can reach on a number of tokens. -/
def fuelFor (tokens : Nat) : Nat := 8 * (tokens + 1)

/-- A whole file, given its tokens and comment blocks: the tree and the blocks left over. -/
def file (text : List Char) (scan : Lexer.Scan) (blocks : List CommentBlock) :
    Except (Cause × Position) (List Item × List CommentBlock) :=
  let fuel := fuelFor scan.tokens.length
  match (declarations fuel fuel).run ⟨text, scan.finish⟩ |>.run ⟨scan.tokens, none, blocks⟩ with
  | .error e => .error e
  | .ok (items, rest) => .ok (items, rest.blocks)

end RubySig.Grammar

namespace RubySig

/-- What reading a text yields: warnings about comments, and a tree or an error. -/
structure Reading where
  warnings : List Warning
  result : Except SourceError Root

/-- The range of a whole file: from its first token to its end, with the offsets of all its text. -/
def Root.wholeSpan (text : List Char) (scan : Lexer.Scan) : Span :=
  let start := ((scan.tokens.head?).map (·.start)).getD scan.finish
  { Span.between start scan.finish with startOffset := 0, endOffset := text.length }

def Root.read (source : String) : Reading :=
  let text := source.toList
  match Lexer.scan text with
  | .error (.cause c p) => ⟨[], .error (.lexer c p)⟩
  | .error (.value f) => ⟨[], .error (.value f)⟩
  | .ok scan =>
    let trailing := CommentBlock.trailing scan.comments
    let blocks := CommentBlock.ofLines (scan.comments.filter (·.alone))
    match Grammar.file text scan blocks with
    | .error (c, p) => ⟨trailing, .error (.grammar c p)⟩
    | .ok (items, left) =>
      ⟨trailing ++ CommentBlock.detached left, .ok ⟨some (Root.wholeSpan text scan), items⟩⟩

end RubySig
