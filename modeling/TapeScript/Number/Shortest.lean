import TapeScript.Number.Quotient

set_option autoImplicit false

/-! # The text of a binary number

A finite number of the 64-bit binary format is `m * 2 ^ e`. Its text has the fewest digits that read
back as the same number, and of those the nearest ones. Everything is decided by exact arithmetic on
natural numbers.
-/

namespace TapeScript.Number

attribute [local instance (high)] instPowNat

/-- A finite number without its sign. `narrowBelow` says that the gap to the next smaller number is
half the gap to the next larger one. -/
structure Magnitude where
  value : Binary
  narrowBelow : Bool

/-- Reads the bits of a finite number; the sign bit is left out. -/
def Magnitude.ofBits (b : UInt64) : Magnitude :=
  let exponent := ((b >>> 52) &&& 0x7FF).toNat
  let fraction := (b &&& 0xFFFFFFFFFFFFF).toNat
  if exponent = 0 then ⟨⟨fraction, -1074⟩, false⟩
  else ⟨⟨2 ^ (52 : Nat) + fraction, (exponent : Int) - 1075⟩, fraction == 0 && decide (1 < exponent)⟩

/-- `digits * 10 ^ exponent`. -/
structure Decimal where
  digits : Nat
  exponent : Int
  deriving DecidableEq

/-- Compares `a * 10 ^ i` with `n * 2 ^ j`. -/
def compareScaled (a : Nat) (i : Int) (n : Nat) (j : Int) : Ordering :=
  compare (a * 10 ^ i.toNat * 2 ^ (-j).toNat) (n * 2 ^ j.toNat * 10 ^ (-i).toNat)

/-- Whether a decimal lies among the reals that round to the number: between the halfway points to
its neighbours, these included if `m` is even. -/
def Magnitude.readsBack (x : Magnitude) (d : Decimal) : Bool :=
  let lowEnd := if x.narrowBelow then 4 * x.value.m - 1 else 4 * x.value.m - 2
  let even := x.value.m % 2 == 0
  let low := compareScaled d.digits d.exponent lowEnd (x.value.e - 2)
  let high := compareScaled d.digits d.exponent (4 * x.value.m + 2) (x.value.e - 2)
  (low == .gt || (even && low == .eq)) && (high == .lt || (even && high == .eq))

/-- Numerator and denominator of `m * 2 ^ e / 10 ^ i`. -/
def Binary.over (b : Binary) (i : Int) : Nat × Nat :=
  (b.m * 2 ^ b.e.toNat * 10 ^ (-i).toNat, 2 ^ (-b.e).toNat * 10 ^ i.toNat)

/-- The decimals next to a number on the grid of multiples of `10 ^ i`, the nearer one first; of two
equally near ones the even one. -/
def Magnitude.neighbours (x : Magnitude) (i : Int) : List Decimal :=
  let (n, d) := x.value.over i
  let near := roundDiv n d
  let far := if near * d ≤ n then near + 1 else near - 1
  [⟨near, i⟩, ⟨far, i⟩]

/-- Raises an estimate of the least `k` with the number below `10 ^ k` until it is right. -/
def raiseScale (b : Binary) : Nat → Int → Int
  | 0, k => k
  | fuel + 1, k => if compareScaled 1 k b.m b.e == .gt then k else raiseScale b fuel (k + 1)

/-- The least `k` with the number below `10 ^ k`, for a positive number. -/
def Binary.scale (b : Binary) : Int :=
  let log2 : Int := Nat.log2 b.m + b.e
  raiseScale b 8 (log2 * 30103 / 100000 - 1)

/-- Moves zeros at the end of the digits into the exponent. -/
def Decimal.stripZeros : Nat → Decimal → Decimal
  | 0, d => d
  | fuel + 1, d =>
    if d.digits ≠ 0 ∧ d.digits % 10 = 0 then stripZeros fuel ⟨d.digits / 10, d.exponent + 1⟩ else d

/-- The most digits the shortest decimal of a number has. -/
def digitsEnough : Nat := 17

/-- The shortest decimal that reads back as the number, for a positive number. -/
def Magnitude.shortest (x : Magnitude) : Decimal :=
  let k := x.value.scale
  let found := (List.range digitsEnough).findSome? fun (n : Nat) =>
    (x.neighbours (k - n - 1)).find? x.readsBack
  (found.getD ⟨x.value.m * 5 ^ (-x.value.e).toNat * 2 ^ x.value.e.toNat, min x.value.e 0⟩).stripZeros 20

def zeros (n : Nat) : String := String.ofList (List.replicate n '0')

/-- Writes a decimal: positionally if its leading digit stands for `10 ^ -4` up to `10 ^ 15`, and
with an exponent of at least two digits otherwise. -/
def Decimal.text (d : Decimal) : String :=
  let digits := (Nat.toDigits 10 d.digits)
  let count := digits.length
  let lead : Int := d.exponent + count - 1
  if -4 ≤ lead ∧ lead < 16 then
    if 0 ≤ d.exponent then String.ofList digits ++ zeros d.exponent.toNat ++ ".0"
    else if 0 ≤ lead then
      let whole := lead.toNat + 1
      String.ofList (digits.take whole) ++ "." ++ String.ofList (digits.drop whole)
    else "0." ++ zeros (-lead - 1).toNat ++ String.ofList digits
  else
    let point := if count = 1 then "" else "."
    let sign := if lead < 0 then "-" else "+"
    let power := toString lead.natAbs
    String.ofList (digits.take 1) ++ point ++ String.ofList (digits.drop 1) ++ "e" ++ sign ++
      zeros (2 - power.length) ++ power

/-- Whether the sign bit is set. -/
def isNegative (x : Float) : Bool := x.toBits >>> 63 == 1

def signText (x : Float) : String := if isNegative x then "-" else ""

/-- The text of a number. -/
def text (x : Float) : String :=
  if x.isNaN then "nan"
  else if x.isInf then signText x ++ "inf"
  else
    let b := Magnitude.ofBits x.toBits
    if b.value.m = 0 then signText x ++ "0.0" else signText x ++ b.shortest.text

end TapeScript.Number
