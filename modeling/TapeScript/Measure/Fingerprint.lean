import TapeScript.Data.Digest
import TapeScript.Measure.Value

set_option autoImplicit false

/-! # Fingerprints

A fingerprint is the digest of a value's trace, a byte sequence that depends on the content of the
value but not on the order in which sets and dictionaries hold it. Numbers count by their first six
significant digits. Containers are followed down to a fixed depth.
-/

namespace TapeScript.Measure

/-- Numbers are rounded to this many significant digits. -/
def significantDigits : Nat := 6

def roundedText (x : Float) : String := Number.text (Number.roundSignificant x significantDigits)

namespace Value

/-- Containers nested deeper than this are not followed. -/
def depthLimit : Nat := 8

/-- Sequences are followed up to this many items. -/
def itemLimit : Nat := 2000

/-- What stands for a part that is not followed. -/
def omitted : String := "..."

def utf8 (s : String) : List UInt8 := s.toUTF8.toList

def hexOf (trace : List UInt8) : String := Digest.hex trace

mutual

/-- The trace of a value at a depth. A dictionary gives its entries in the order of their keys'
fingerprints; a set gives the sorted fingerprints of its items. -/
def trace (depth : Nat) : Value → List UInt8
  | .none => utf8 "None"
  | .bool b => utf8 (boolText b)
  | .int n => utf8 (toString n)
  | .float x => utf8 (roundedText x)
  | .complex re im => utf8 ("c" ++ roundedText re ++ roundedText im)
  | .text s => utf8 ("s" ++ s)
  | .bytes _ content => utf8 "s" ++ content
  | .list items | .tuple items =>
    if depthLimit < depth + 1 then utf8 omitted
    else
      let traces := itemTraces (depth + 1) items
      let rest := if itemLimit < traces.length then utf8 omitted else []
      utf8 (s!"L{traces.length}") ++ (traces.take itemLimit).flatten ++ rest
  | .set _ items =>
    let marks := (itemTraces 0 items).map hexOf
    utf8 (s!"S{marks.length}" ++ String.join (marks.mergeSort (fun a b => decide (a ≤ b))))
  | .dict entries =>
    if depthLimit < depth + 1 then utf8 omitted
    else
      let traces := entryTraces (depth + 1) entries
      let sorted := traces.mergeSort fun a b => decide (hexOf a.1 ≤ hexOf b.1)
      utf8 (s!"D{traces.length}") ++ (sorted.map fun (k, v) => k ++ v).flatten
  | .record _ fields =>
    if depthLimit < depth + 1 then utf8 omitted
    else
      let traces := fieldTraces (depth + 1) fields
      let sorted := traces.mergeSort fun a b => decide (hexOf a.1 ≤ hexOf b.1)
      utf8 (s!"D{traces.length}") ++ (sorted.map fun (k, v) => k ++ v).flatten
  | .block shape format content =>
    utf8 (tupleText (shape.map toString) ++ format) ++ content
  | .written _ w => utf8 w

def itemTraces (depth : Nat) : List Value → List (List UInt8)
  | [] => []
  | v :: rest => v.trace depth :: itemTraces depth rest

def entryTraces (depth : Nat) : List (Value × Value) → List (List UInt8 × List UInt8)
  | [] => []
  | (k, v) :: rest => (k.trace depth, v.trace depth) :: entryTraces depth rest

def fieldTraces (depth : Nat) : List (String × Value) → List (List UInt8 × List UInt8)
  | [] => []
  | (k, v) :: rest => (utf8 ("s" ++ k), v.trace depth) :: fieldTraces depth rest

end

/-- The fingerprint of a value. -/
def fingerprint (v : Value) : String := hexOf (v.trace 0)

/-- Whether two values are one as members of a set: numbers by their value, others by content. -/
def sameMember (a b : Value) : Bool :=
  match a.number?, b.number? with
  | some x, some y => x == y
  | Option.none, Option.none => a.fingerprint == b.fingerprint
  | _, _ => false

/-- Items without repetitions; the first one stays. -/
def distinctMembers (items : List Value) : List Value :=
  (items.foldl (fun (kept : List Value) v =>
    if kept.any (sameMember v) then kept else v :: kept) []).reverse

/-- A dictionary from entries: a key that comes again takes the new value at its old place. -/
def dictOf (entries : List (Value × Value)) : Value :=
  .dict (entries.foldl (fun (kept : List (Value × Value)) (k, v) =>
    if kept.any (fun e => sameMember e.1 k) then
      kept.map fun e => if sameMember e.1 k then (e.1, v) else e
    else kept ++ [(k, v)]) [])

end Value

end TapeScript.Measure
