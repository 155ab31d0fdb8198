import TapeScript.Number.Places
import TapeScript.Text.Digit

set_option autoImplicit false

/-! # Reading a number

A number may have blanks around it, a sign, a decimal point and an exponent; single underscores may
stand between digits. Infinity and the undefined number are written in words.
-/

namespace TapeScript.Number

attribute [local instance (high)] instPowNat

/-- The number of digits in a text, underscores left out. -/
def digitCount (s : List Char) : Nat := (s.filter (· ≠ '_')).length

/-- Reads digits that may be absent. -/
def optionalDigits? (s : List Char) : Option Nat :=
  if s.isEmpty then some 0 else Text.digitsFrom 0 false s

/-- A sign, and what follows it. -/
def splitSign : List Char → Bool × List Char
  | '-' :: rest => (true, rest)
  | '+' :: rest => (false, rest)
  | rest => (false, rest)

/-- Cuts a text at the first place where a character satisfies a condition. -/
def splitAtFirst (p : Char → Bool) (s : List Char) : List Char × Option (List Char) :=
  match s.dropWhile (!p ·) with
  | [] => (s, none)
  | _ :: rest => (s.takeWhile (!p ·), some rest)

/-- Exponents are cut off here: beyond, every number is zero or infinite. -/
def exponentBound : Int := 100000

/-- A decimal without its sign. -/
def decimal? (s : List Char) : Option Decimal := do
  let (mantissa, power) := splitAtFirst (fun c => c = 'e' || c = 'E') s
  let (whole, fraction) := splitAtFirst (· = '.') mantissa
  let part := fraction.getD []
  if digitCount whole = 0 ∧ digitCount part = 0 then none
  let wholeValue ← optionalDigits? whole
  let partValue ← optionalDigits? part
  let exponent ← match power with
    | none => some 0
    | some p =>
      let (negative, digits) := splitSign p
      (Text.digitsFrom 0 false digits).map fun (n : Nat) => if negative then -(n : Int) else n
  let places := digitCount part
  let exponent := max (-exponentBound) (min exponentBound exponent)
  return ⟨wholeValue * 10 ^ places + partValue, exponent - places⟩

/-- The number nearest to a decimal of any size. -/
def ofWideDecimal (negative : Bool) (d : Decimal) : Float :=
  let lead : Int := d.exponent + (toString d.digits).length
  if d.digits = 0 then (if negative then -0.0 else 0.0)
  else if 400 < lead then (if negative then -(1.0 / 0.0) else 1.0 / 0.0)
  else if lead < -400 then (if negative then -0.0 else 0.0)
  else ofDecimal negative d

/-- Reads a number. -/
def read? (s : List Char) : Option Float :=
  let (negative, rest) := splitSign (Text.trim s)
  let word := rest.map Char.toLower
  if word = "inf".toList ∨ word = "infinity".toList then
    some (if negative then -(1.0 / 0.0) else 1.0 / 0.0)
  else if word = "nan".toList then some (0.0 / 0.0)
  else (decimal? rest).map (ofWideDecimal negative)

end TapeScript.Number
