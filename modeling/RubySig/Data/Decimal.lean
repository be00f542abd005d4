/-!
Decimal text of binary floating-point numbers: the fewest digits that read back, and the positions
at which an exponent is written.
-/
namespace RubySig

/-- The number `mantissa * 2 ^ exponent`. -/
structure Binary where
  mantissa : Nat
  exponent : Int
  deriving DecidableEq, Repr

/-- The number `digits * 10 ^ exponent`. -/
structure Decimal where
  digits : Nat
  exponent : Int
  deriving DecidableEq, Repr

namespace Binary

/-- Whether the next smaller number is only half as far away as the next larger one. -/
def lowerGapHalved (b : Binary) : Bool :=
  b.mantissa == Nat.pow 2 52 && b.exponent != -1074

/-- The number, its distance to the next larger one, and `10 ^ e`, all over one denominator. -/
def overGrid (b : Binary) (e : Int) : Nat × Nat × Nat :=
  let unit := if b.exponent ≥ 2 then Nat.pow 2 b.exponent.toNat else 4
  let denominator := Nat.pow 2 (2 - b.exponent).toNat
  let up := Nat.pow 10 (-e).toNat
  (b.mantissa * unit * up, unit * up, Nat.pow 10 e.toNat * denominator)

/-- Whether `point` reads back as the number: it lies between the midpoints to the neighbours,
and on one of them only when the mantissa is even. -/
def readsBack (b : Binary) (value unit point : Nat) : Bool :=
  let low := value - (if b.lowerGapHalved then unit / 4 else unit / 2)
  let high := value + unit / 2
  if b.mantissa % 2 == 0 then low ≤ point && point ≤ high else low < point && point < high

/-- The multiple of `10 ^ e` nearest to the number that reads back, if one does. -/
def onGrid? (b : Binary) (e : Int) : Option Nat :=
  let (value, unit, step) := b.overGrid e
  let below := value / step
  let lowOk := below != 0 && b.readsBack value unit (below * step)
  let highOk := b.readsBack value unit ((below + 1) * step)
  match lowOk, highOk with
  | true, true =>
    let down := value - below * step
    let up := (below + 1) * step - value
    if down < up || (down == up && below % 2 == 0) then some below else some (below + 1)
  | true, false => some below
  | false, true => some (below + 1)
  | false, false => none

/-- The number of digits before the decimal point, or the zeros after it, counted negatively. -/
def magnitude (b : Binary) : Int :=
  let (value, _, one) := b.overGrid 0
  if value ≥ one then (toString (value / one)).length
  else
    let tiny := toString (value * Nat.pow 10 330 / one)
    (tiny.length : Int) - 330

/-- The first of the grids with `count`, `count + 1`, ... digits that holds a number which
reads back. -/
def shortestFrom (b : Binary) (magnitude : Int) : Nat → Nat → Decimal
  | 0, count => ⟨b.mantissa, magnitude - count⟩
  | fuel + 1, count =>
    match b.onGrid? (magnitude - count) with
    | some digits => ⟨digits, magnitude - count⟩
    | none => shortestFrom b magnitude fuel (count + 1)

/-- The fewest digits that read back. -/
def shortest (b : Binary) : Decimal :=
  b.shortestFrom b.magnitude 18 1

end Binary

namespace Decimal

/-- The digits without trailing zeros. -/
def significant (d : Decimal) : List Char :=
  ((toString d.digits).toList.reverse.dropWhile (· == '0')).reverse

/-- Positional between a ten-thousandth and ten to the sixteenth, with at least one place;
beyond, an exponent with a sign and at least two digits. -/
def text (d : Decimal) : String :=
  let digits := d.significant
  let point : Int := (toString d.digits).length + d.exponent
  if point ≤ -4 || point > 16 then
    let fraction := if digits.length > 1 then '.' :: digits.drop 1 else []
    let power := point - 1
    let size := toString power.natAbs
    String.ofList (digits.take 1 ++ fraction ++ ['e', if power < 0 then '-' else '+']
      ++ (if size.length < 2 then ['0'] else [])) ++ size
  else if point ≤ 0 then
    String.ofList ('0' :: '.' :: List.replicate point.natAbs '0' ++ digits)
  else
    let whole := point.toNat
    String.ofList (digits.take whole ++ List.replicate (whole - digits.length) '0' ++ ['.']
      ++ (if digits.length ≤ whole then ['0'] else digits.drop whole))

end Decimal

/-- The binary number with the bits `bits`, sign apart; nothing for infinities and NaN. -/
def Binary.ofBits? (bits : Nat) : Option Binary :=
  let exponent : Nat := bits / Nat.pow 2 52 % Nat.pow 2 11
  let fraction : Nat := bits % Nat.pow 2 52
  if exponent == 2047 then none
  else if exponent == 0 then some ⟨fraction, -1074⟩
  else some ⟨Nat.pow 2 52 + fraction, (exponent : Int) - 1075⟩

/-- The number without what stands behind the point. -/
def Binary.whole (b : Binary) : Nat :=
  if b.exponent ≥ 0 then b.mantissa * Nat.pow 2 b.exponent.toNat
  else b.mantissa / Nat.pow 2 (-b.exponent).toNat

def wholePart? (x : Float) : Option Int :=
  (Binary.ofBits? x.toBits.toNat).map fun b => if x < 0 then -(b.whole : Int) else b.whole

def floatText (x : Float) : String :=
  let bits := x.toBits.toNat
  let sign := if bits ≥ Nat.pow 2 63 then "-" else ""
  match Binary.ofBits? bits with
  | none => if bits % Nat.pow 2 52 == 0 then sign ++ "inf" else "nan"
  | some ⟨0, _⟩ => sign ++ "0.0"
  | some b => sign ++ b.shortest.text

end RubySig
