import TapeScript.Number.Places
import TapeScript.Text.Quote

set_option autoImplicit false

/-! # Measured values

What a measured function can return: numbers, texts, bytes, sequences, sets, dictionaries, records,
and values known only by their written form. A value has the name of its type and a written form.
-/

namespace TapeScript.Measure

inductive BytesKind where
  | fixed
  | growable
  | window

def BytesKind.typeName : BytesKind → String
  | .fixed => "bytes"
  | .growable => "bytearray"
  | .window => "memoryview"

inductive Value where
  | none
  | bool (b : Bool)
  | int (n : Int)
  | float (x : Float)
  | complex (re im : Float)
  | text (s : String)
  | bytes (kind : BytesKind) (content : List UInt8)
  | list (items : List Value)
  | tuple (items : List Value)
  | set (frozen : Bool) (items : List Value)
  | dict (entries : List (Value × Value))
  | record (typeName : String) (fields : List (String × Value))
  /-- A block of numbers: its lengths, the code of its number format, and its bytes. -/
  | block (shape : List Nat) (format : String) (content : List UInt8)
  /-- A value written as the given text. -/
  | written (typeName text : String)
  deriving Inhabited

namespace Value

def typeName : Value → String
  | .none => "NoneType"
  | .bool _ => "bool"
  | .int _ => "int"
  | .float _ => "float"
  | .complex _ _ => "complex"
  | .text _ => "str"
  | .bytes kind _ => kind.typeName
  | .list _ => "list"
  | .tuple _ => "tuple"
  | .set frozen _ => if frozen then "frozenset" else "set"
  | .dict _ => "dict"
  | .record name _ => name
  | .block _ _ _ => "ndarray"
  | .written name _ => name

def boolText (b : Bool) : String := if b then "True" else "False"

/-- Items between brackets; a single item of a tuple keeps its comma. -/
def tupleText (items : List String) : String :=
  match items with
  | [x] => "(" ++ x ++ ",)"
  | items => "(" ++ String.intercalate ", " items ++ ")"

def braced (items : List String) : String := "\x7b" ++ String.intercalate ", " items ++ "\x7d"

mutual

/-- The written form of a value. -/
def form : Value → String
  | .none => "None"
  | .bool b => boolText b
  | .int n => toString n
  | .float x => Number.text x
  | .complex re im => "(" ++ Number.text re ++ "+" ++ Number.text im ++ "j)"
  | .text s => Text.quote s
  | .bytes _ content => "b" ++ Text.quote (String.ofList (content.map fun b => Char.ofNat b.toNat))
  | .list items => "[" ++ String.intercalate ", " (forms items) ++ "]"
  | .tuple items => tupleText (forms items)
  | .set frozen items =>
    if frozen then "frozenset(" ++ braced (forms items) ++ ")" else braced (forms items)
  | .dict entries => braced (entryForms entries)
  | .record name fields => name ++ "(" ++ String.intercalate ", " (fieldForms fields) ++ ")"
  | .block _ _ _ => "array(...)"
  | .written _ w => w

def forms : List Value → List String
  | [] => []
  | v :: rest => v.form :: forms rest

def entryForms : List (Value × Value) → List String
  | [] => []
  | (k, v) :: rest => (k.form ++ ": " ++ v.form) :: entryForms rest

def fieldForms : List (String × Value) → List String
  | [] => []
  | (k, v) :: rest => (k ++ "=" ++ v.form) :: fieldForms rest

end

/-- The form shown to a reader: a text stands for itself. -/
def shown : Value → String
  | .text s => s
  | v => v.form

/-- The numeric value of a number. -/
def number? : Value → Option Float
  | .bool b => some (if b then 1 else 0)
  | .int n => some (Float.ofInt n)
  | .float x => some x
  | _ => Option.none

/-! ## Values known by their written form -/

def joined (parts : List Int) : String := String.intercalate ", " (parts.map toString)

def date (parts : List Int) : Value := .written "date" ("datetime.date(" ++ joined parts ++ ")")

/-- A point in time; zero microseconds and then zero seconds are left out. -/
def dateTime (parts : List Int) : Value :=
  let padded := parts ++ List.replicate (5 - parts.length) 0
  let cut := if padded.length = 7 && padded.getLast? = some 0 then padded.dropLast else padded
  let cut := if cut.length = 6 && cut.getLast? = some 0 then cut.dropLast else cut
  .written "datetime" ("datetime.datetime(" ++ joined cut ++ ")")

/-- A span of days and seconds, the seconds brought into the range of one day. -/
def span (days seconds : Int) : Value :=
  let days := days + seconds.fdiv 86400
  let seconds := seconds.fmod 86400
  let parts := (if days = 0 then [] else [s!"days={days}"]) ++
    (if seconds = 0 then [] else [s!"seconds={seconds}"])
  let inner := if parts.isEmpty then "0" else String.intercalate ", " parts
  .written "timedelta" ("datetime.timedelta(" ++ inner ++ ")")

def decimal (text : String) : Value := .written "Decimal" ("Decimal('" ++ text ++ "')")

/-- A fraction in lowest terms with a positive denominator. -/
def fraction (n d : Int) : Value :=
  let g : Int := Int.gcd n d
  let sign : Int := if d < 0 then -1 else 1
  let top := if g = 0 then n else sign * n / g
  let bottom := if g = 0 then d else sign * d / g
  .written "Fraction" s!"Fraction({top}, {bottom})"

def path (tidied : String) : Value :=
  .written "PurePosixPath" ("PurePosixPath(" ++ Text.quote tidied ++ ")")

/-- An identifier of 32 hexadecimal digits, in groups of 8, 4, 4, 4 and 12. -/
def identifier (digits : String) : Value :=
  let ds := digits.toList.filter fun c => c ≠ '-'
  let cut (start length : Nat) : String := String.ofList ((ds.drop start).take length)
  let groups := [cut 0 8, cut 8 4, cut 12 4, cut 16 4, cut 20 12]
  .written "UUID" ("UUID('" ++ (String.intercalate "-" groups).toLower ++ "')")

/-- An object that says nothing of its content. -/
def thing : Value := .written "Thing" "<mod.Thing>"

end Value

end TapeScript.Measure
