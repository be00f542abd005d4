import RubySig.Token.Lexeme
import RubySig.Tree.MethodName

/-! How names are spelled: in backquotes where they would not be read back. -/
namespace RubySig.Spell

def backquoted (name : String) : String :=
  "`" ++ name ++ "`"

def isReserved (name : String) : Bool :=
  (Keyword.ofName? name).isSome

def name (name : String) (allowReserved : Bool) : String :=
  if isReserved name && !allowReserved then backquoted name
  else if MethodName.isIdentifier name.toList then name
  else backquoted name

def methodName (name : String) (quoteReserved : Bool) : String :=
  if quoteReserved && isReserved name then backquoted name
  else if MethodName.isWhole name.toList then name
  else backquoted name

end RubySig.Spell
