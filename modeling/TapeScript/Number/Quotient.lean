set_option autoImplicit false

/-! # Rounded quotients

Division of natural numbers to the nearest integer, ties to even, and the quotient of two integers
rounded to a binary number of 53 significant digits.
-/

namespace TapeScript.Number

attribute [local instance (high)] instPowNat

/-- The integer nearest to `n / d`; of two equally near ones the even one. -/
def roundDiv (n d : Nat) : Nat :=
  let q := n / d
  let r := n % d
  if 2 * r < d then q
  else if d < 2 * r then q + 1
  else if q % 2 = 0 then q else q + 1

/-- The exponent `k` with `2 ^ k ≤ n / d < 2 ^ (k + 1)`, for positive `n` and `d`. -/
def quotientExponent (n d : Nat) : Int :=
  let k : Int := (Nat.log2 n : Int) - Nat.log2 d
  let below : Bool := if 0 ≤ k then n < d * 2 ^ k.toNat else n * 2 ^ (-k).toNat < d
  if below then k - 1 else k

/-- `m * 2 ^ e`. -/
structure Binary where
  m : Nat
  e : Int
  deriving DecidableEq

/-- The binary number with 53 significant digits nearest to `n / d`. -/
def nearestQuotient (n d : Nat) : Binary :=
  let e := quotientExponent n d - 52
  let m := if 0 ≤ e then roundDiv n (d * 2 ^ e.toNat) else roundDiv (n * 2 ^ (-e).toNat) d
  ⟨m, e⟩

/-- The integer part. -/
def Binary.floor (b : Binary) : Nat :=
  if 0 ≤ b.e then b.m * 2 ^ b.e.toNat else b.m / 2 ^ (-b.e).toNat

/-- The least number too large for the binary format. -/
def binaryLimit : Nat := 2 ^ (1024 : Nat)

/-- The quotient of two integers, rounded to 53 significant binary digits and cut toward zero; `none`
if it is too large for the format. The divisor must not be zero. -/
def truncatedQuotient? (a b : Int) : Option Int :=
  if a = 0 then some 0
  else
    let q := nearestQuotient a.natAbs b.natAbs
    if 1024 ≤ quotientExponent a.natAbs b.natAbs then none
    else
      let n := q.floor
      if binaryLimit ≤ n then none
      else if decide (a < 0) = decide (b < 0) then some n else some (-(n : Int))

end TapeScript.Number
