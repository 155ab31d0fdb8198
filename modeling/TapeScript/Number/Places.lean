import TapeScript.Number.Shortest

set_option autoImplicit false

/-! # Fixed places and significant digits

Rounding a binary number to a number of decimal places or of significant digits. The exact value is
rounded, and a tie goes to the even digit.
-/

namespace TapeScript.Number

attribute [local instance (high)] instPowNat

/-- A finite number in units of `10 ^ -places`, rounded, without its sign. -/
def unitsAt (x : Float) (places : Nat) : Nat :=
  let (n, d) := (Magnitude.ofBits x.toBits).value.over (-(places : Int))
  roundDiv n d

/-- The number nearest to a decimal. -/
def ofDecimal (negative : Bool) (d : Decimal) : Float :=
  let x :=
    if 0 ≤ d.exponent then Float.ofScientific (d.digits * 10 ^ d.exponent.toNat) false 0
    else Float.ofScientific d.digits true d.exponent.natAbs
  if negative then -x else x

def isFinite (x : Float) : Bool := !x.isNaN && !x.isInf

/-- Rounds to a number of decimal places. -/
def round (x : Float) (places : Nat) : Float :=
  if isFinite x then ofDecimal (isNegative x) ⟨unitsAt x places, -(places : Int)⟩ else x

/-- Writes a number with a fixed number of decimal places. -/
def fixedText (x : Float) (places : Nat) : String :=
  if isFinite x then
    let digits := toString (unitsAt x places)
    let digits := zeros (places + 1 - digits.length) ++ digits
    let whole := String.ofList (digits.toList.take (digits.length - places))
    let part := String.ofList (digits.toList.drop (digits.length - places))
    signText x ++ if places = 0 then whole else whole ++ "." ++ part
  else text x

/-- Rounds to a number of significant digits; zero loses its sign. -/
def roundSignificant (x : Float) (digits : Nat) : Float :=
  if isFinite x then
    let b := (Magnitude.ofBits x.toBits).value
    if b.m = 0 then 0
    else
      let grid := b.scale - digits
      let (n, d) := b.over grid
      ofDecimal (isNegative x) ⟨roundDiv n d, grid⟩
  else x

end TapeScript.Number
