import RubySig.Text.Quoted
import RubySig.Token.Lexer
import RubySig.Tree.Basic

/-! What can be wrong with a signature file, and how it is said. -/
namespace RubySig

def Access.text : Access → String
  | .reader => "attr_reader"
  | .writer => "attr_writer"
  | .accessor => "attr_accessor"

def MixinKind.text : MixinKind → String
  | .include_ => "include"
  | .extend => "extend"
  | .prepend => "prepend"

namespace Grammar

/-- What a name stands for where it is expected. -/
inductive Role where
  | className | moduleName | interfaceName | aliasName | constantName | superclassName
  | selfType | mixinTarget (kind : MixinKind) | typeName
  deriving DecidableEq, Repr

def Role.text : Role → String
  | .className => "class name"
  | .moduleName => "module name"
  | .interfaceName => "interface name"
  | .aliasName => "type alias name"
  | .constantName => "constant name"
  | .superclassName => "superclass name"
  | .selfType => "module self type"
  | .mixinTarget kind => kind.text ++ " target"
  | .typeName => "type name"

/-- What the grammar asks for at one place. -/
inductive Missing where
  | endOfClass | endOfModule | endOfInterface
  | equalsOfAlias
  | colonOfConstant | colonOfGlobal
  | colonOfVariable (name : String) | colonOfAttribute
      (name : String) | colonOfMethod (name : String)
  | variableOfSelf
  | selfOfAlias | dotOfAlias
  | closeOfBacking
  | arrowOfBlock | closeOfBlock | arrowOfResult
  | closeOfParams | closeOfType | openOfSingleton | closeOfSingleton | closeOfTuple
  | arrowOfKey | closeOfRecord | closeOfArgs | typeParam | closeOfTypeParams
  | name (role : Role)
  | type
  | methodName
  deriving DecidableEq, Repr

def Missing.text : Missing → String
  | .endOfClass => "'end' to close class"
  | .endOfModule => "'end' to close module"
  | .endOfInterface => "'end' to close interface"
  | .equalsOfAlias => "'=' after type alias name"
  | .colonOfConstant => "':' after constant name"
  | .colonOfGlobal => "':' after global name"
  | .colonOfVariable n => "':' after " ++ n
  | .colonOfAttribute n => "':' after attribute " ++ n
  | .colonOfMethod n => "':' after method name " ++ n
  | .variableOfSelf => "instance variable after 'self.'"
  | .selfOfAlias => "'self.' before aliased singleton method"
  | .dotOfAlias => "'.' after 'self'"
  | .closeOfBacking => "')' after instance variable name"
  | .arrowOfBlock => "'->' in block type"
  | .closeOfBlock => "'\x7d' to close block type"
  | .arrowOfResult => "'->' before return type"
  | .closeOfParams => "')' after parameters"
  | .closeOfType => "')' after type"
  | .openOfSingleton => "'(' after 'singleton'"
  | .closeOfSingleton => "')' after singleton class name"
  | .closeOfTuple => "']' after tuple elements"
  | .arrowOfKey => "'=>' after record key"
  | .closeOfRecord => "'\x7d' after record fields"
  | .closeOfArgs => "']' after type arguments"
  | .typeParam => "type parameter name"
  | .closeOfTypeParams => "']' after type parameters"
  | .name r => r.text
  | .type => "type"
  | .methodName => "method name"

/-- A token as messages show it; there is none at the end of the input. -/
def found : Option Lexeme → String
  | none => "end of input"
  | some l => Text.quoted l.text

/-- What the grammar refuses. -/
inductive Cause where
  | missing (what : Missing) (found : Option Lexeme)
  | unexpected (found : Option Lexeme)
  | unexpectedInBody (found : Option Lexeme)
  | unclosedBody
  | attributeName (access : Access)
  | duplicateKeyword (name : String)
  | secondRestKeyword
  | afterRestKeyword
  | optionalOutOfOrder
  | restOutOfOrder
  | requiredOutOfOrder
  | recordKey
  | notClassLike (role : Role)
  deriving DecidableEq, Repr

def Cause.message : Cause → String
  | .missing what token => "Expected " ++ what.text ++ ", got " ++ found token
  | .unexpected token => "Unexpected token: " ++ found token
  | .unexpectedInBody token => "Unexpected token in body: " ++ found token
  | .unclosedBody => "Unexpected end of input, expected 'end'"
  | .attributeName access => "Expected attribute name after '" ++ access.text ++ "'"
  | .duplicateKeyword name => "Duplicate keyword parameter: " ++ name
  | .secondRestKeyword => "Only one rest keyword parameter is allowed"
  | .afterRestKeyword => "Parameters must not follow the rest keyword parameter"
  | .optionalOutOfOrder => "Optional positional parameter out of order"
  | .restOutOfOrder => "Rest positional parameter out of order"
  | .requiredOutOfOrder => "Required positional parameter out of order"
  | .recordKey => "Expected literal record key"
  | .notClassLike role => "Expected class or interface name for " ++ role.text

end Grammar

/-- Why a text is no signature file. -/
inductive SourceError where
  | lexer (cause : Lexer.Cause) (place : Position)
  | grammar (cause : Grammar.Cause) (place : Position)
  | value (fault : ValueFault)
  deriving DecidableEq, Repr

namespace SourceError

def report? : SourceError → Option (String × Position)
  | .lexer c p => some (c.message, p)
  | .grammar c p => some (c.message, p)
  | .value _ => none

/-- The whole text of an error in the source's form. -/
def message? : SourceError → Option String
  | .lexer c p => some (s!"Lexer error at {p.line}:{p.column}: " ++ c.message)
  | .grammar c p => some (s!"Parser error at {p.line}:{p.column}: " ++ c.message)
  | .value _ => none

end SourceError

/-- Comments that no tree keeps. -/
inductive Warning where
  | trailing (line : Nat)
  | detached (line : Nat)
  deriving DecidableEq, Repr

def Warning.message : Warning → String
  | .trailing line => s!"Dropping trailing comment at line {line}"
  | .detached line =>
    s!"Dropping comment at line {line}: not directly above a declaration or member"

end RubySig
