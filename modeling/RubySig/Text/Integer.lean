import RubySig.Text.Blank
import RubySig.Text.Digit
import RubySig.Text.Hex

/-! Integers in decimal digits of any script. -/
namespace RubySig.Text

/-- The number of digits that an integer may have at most. -/
def maxIntegerDigits : Nat := 4300

/-- A text without the sign in front of it. -/
def unsigned : List Char → List Char
  | '+' :: cs | '-' :: cs => cs
  | cs => cs

def signedLike (cs : List Char) (size : Nat) : Int :=
  if cs.head? == some '-' then -(size : Int) else size

/-- Digits with single underscores between them; nothing else and no underscore at either end. -/
def spacedDigits? : List Char → Option (List Nat)
  | [] => none
  | [c] => (decimalValue? c).map ([·])
  | c :: '_' :: cs => do return (← decimalValue? c) :: (← spacedDigits? cs)
  | c :: cs => do return (← decimalValue? c) :: (← spacedDigits? cs)

/-- Blanks that may stand around an integer. -/
def isMargin (c : Char) : Bool :=
  isBlank c && !(0x1C ≤ c.toNat && c.toNat ≤ 0x1F)

/-- The integer that a text spells, blanks around it apart. -/
def integer? (cs : List Char) : Option Int :=
  let cs := ((cs.dropWhile isMargin).reverse.dropWhile isMargin).reverse
  match spacedDigits? (unsigned cs) with
  | some values =>
    if values.length > maxIntegerDigits then none else some (signedLike cs (ofDigits 10 values))
  | none => none

end RubySig.Text
