import TapeScript.Number.Read

set_option autoImplicit false

/-! # JSON

Values, and reading a text as one. Numbers keep their text, so that whole numbers of any size and
the difference between `1` and `1.0` survive.
-/

namespace TapeScript

inductive Json where
  | null
  | bool (b : Bool)
  | num (text : String)
  | str (s : String)
  | arr (items : List Json)
  | obj (fields : List (String × Json))
  deriving Inhabited

namespace Json

/-! ## Reading -/

def isSpace (c : Char) : Bool := c = ' ' || c = '\t' || c = '\n' || c = '\r'

def skipSpace (s : List Char) : List Char := s.dropWhile isSpace

def hexValue? (c : Char) : Option Nat :=
  if '0' ≤ c ∧ c ≤ '9' then some (c.toNat - 48)
  else if 'a' ≤ c ∧ c ≤ 'f' then some (c.toNat - 87)
  else if 'A' ≤ c ∧ c ≤ 'F' then some (c.toNat - 55)
  else none

/-- A number of four hexadecimal digits, and what follows. -/
def hex4? : List Char → Option (Nat × List Char)
  | a :: b :: c :: d :: rest => do
    let a ← hexValue? a
    let b ← hexValue? b
    let c ← hexValue? c
    let d ← hexValue? d
    return (((a * 16 + b) * 16 + c) * 16 + d, rest)
  | _ => none

/-- The character of a simple escape. -/
def escape? (c : Char) : Option Char :=
  match c with
  | '"' => some '"'
  | '\\' => some '\\'
  | '/' => some '/'
  | 'b' => some '\x08'
  | 'f' => some '\x0c'
  | 'n' => some '\n'
  | 'r' => some '\r'
  | 't' => some '\t'
  | _ => none

/-- The character of an escape by number, with the second half of a pair if one is needed. -/
def numbered? (s : List Char) : Option (Char × List Char) := do
  let (high, rest) ← hex4? s
  if 0xd800 ≤ high ∧ high < 0xdc00 then
    match rest with
    | '\\' :: 'u' :: rest' => do
      let (low, rest'') ← hex4? rest'
      if 0xdc00 ≤ low ∧ low < 0xe000 then
        return (Char.ofNat (0x10000 + (high - 0xd800) * 1024 + (low - 0xdc00)), rest'')
      else return (Char.ofNat 0xfffd, rest)
    | _ => return (Char.ofNat 0xfffd, rest)
  else return (Char.ofNat high, rest)

/-- The rest of a string after its opening quote; `done` is read already, backwards. -/
def string? : Nat → List Char → List Char → Option (String × List Char)
  | 0, _, _ => none
  | fuel + 1, done, s =>
    match s with
    | [] => none
    | '"' :: rest => some (String.ofList done.reverse, rest)
    | '\\' :: 'u' :: rest =>
      match numbered? rest with
      | some (c, rest) => string? fuel (c :: done) rest
      | none => none
    | '\\' :: c :: rest =>
      match escape? c with
      | some e => string? fuel (e :: done) rest
      | none => none
    | c :: rest => if c.toNat < 32 then none else string? fuel (c :: done) rest

/-- Digits, at least one, and what follows. -/
def digits? (s : List Char) : Option (List Char × List Char) :=
  let ds := s.takeWhile Char.isDigit
  if ds.isEmpty then none else some (ds, s.dropWhile Char.isDigit)

/-- A fraction or an exponent that may be absent: without digits it is not read. -/
def fraction (s : List Char) : List Char × List Char :=
  match s with
  | '.' :: rest =>
    match digits? rest with
    | some (ds, rest) => ('.' :: ds, rest)
    | none => ([], s)
  | _ => ([], s)

def exponent (s : List Char) : List Char × List Char :=
  match s with
  | e :: rest =>
    if e = 'e' || e = 'E' then
      let (sign, rest) := match rest with
        | '+' :: r => (['+'], r)
        | '-' :: r => (['-'], r)
        | r => ([], r)
      match digits? rest with
      | some (ds, rest) => (e :: sign ++ ds, rest)
      | none => ([], s)
    else ([], s)
  | [] => ([], s)

/-- A number: a zero or a digit sequence without leading zeros, then fraction and exponent. -/
def number? (s : List Char) : Option (String × List Char) := do
  let (sign, rest) := match s with
    | '-' :: r => (['-'], r)
    | r => ([], r)
  let (whole, rest) ← match rest with
    | '0' :: r => some (['0'], r)
    | r => digits? r
  let (part, rest) := fraction rest
  let (power, rest) := exponent rest
  return (String.ofList (sign ++ whole ++ part ++ power), rest)

/-- A word, and the value it stands for. -/
def word? (s : List Char) : Option (Json × List Char) :=
  let table : List (String × Json) := [
    ("null", .null), ("true", .bool true), ("false", .bool false), ("NaN", .num "NaN"),
    ("Infinity", .num "Infinity"), ("-Infinity", .num "-Infinity")]
  table.findSome? fun (w, v) =>
    if w.toList.isPrefixOf s then some (v, s.drop w.length) else none

mutual

/-- A value and what follows it. Every step uses up a character, so that fuel of twice the length of
the text is always enough for what is left. -/
def value? : Nat → List Char → Option (Json × List Char)
  | 0, _ => none
  | fuel + 1, s =>
    match skipSpace s with
    | '"' :: rest => (string? fuel [] rest).map fun (t, rest) => (.str t, rest)
    | '[' :: rest =>
      match skipSpace rest with
      | ']' :: rest => some (.arr [], rest)
      | rest => (items? fuel rest).map fun (xs, rest) => (.arr xs, rest)
    | '{' :: rest =>
      match skipSpace rest with
      | '}' :: rest => some (.obj [], rest)
      | rest => (fields? fuel rest).map fun (kvs, rest) => (.obj kvs, rest)
    | rest =>
      match word? rest with
      | some found => some found
      | none => (number? rest).map fun (t, rest) => (.num t, rest)

/-- The items of an array after its opening bracket. -/
def items? : Nat → List Char → Option (List Json × List Char)
  | 0, _ => none
  | fuel + 1, s => do
    let (x, rest) ← value? fuel s
    match skipSpace rest with
    | ']' :: rest => return ([x], rest)
    | ',' :: rest => do
      let (xs, rest) ← items? fuel rest
      return (x :: xs, rest)
    | _ => none

/-- The fields of an object after its opening brace. -/
def fields? : Nat → List Char → Option (List (String × Json) × List Char)
  | 0, _ => none
  | fuel + 1, s => do
    match skipSpace s with
    | '"' :: rest => do
      let (key, rest) ← string? fuel [] rest
      match skipSpace rest with
      | ':' :: rest => do
        let (v, rest) ← value? fuel rest
        match skipSpace rest with
        | '}' :: rest => return ([(key, v)], rest)
        | ',' :: rest => do
          let (kvs, rest) ← fields? fuel rest
          return ((key, v) :: kvs, rest)
        | _ => none
      | _ => none
    | _ => none

end

/-- Reads a text as one value. -/
def parse? (s : List Char) : Option Json := do
  let (v, rest) ← value? (2 * s.length + 2) s
  if (skipSpace rest).isEmpty then some v else none

/-! ## Writing -/

/-- A character inside a string; control characters are written by number. -/
def writeChar (c : Char) : List Char :=
  if c = '"' then ['\\', '"']
  else if c = '\\' then ['\\', '\\']
  else if c.toNat < 32 then
    let digits := Nat.toDigits 16 c.toNat
    ['\\', 'u'] ++ List.replicate (4 - digits.length) '0' ++ digits
  else [c]

def writeString (s : String) : String := "\"" ++ String.ofList (s.toList.flatMap writeChar) ++ "\""

mutual

/-- The text of a value. -/
def write : Json → String
  | .null => "null"
  | .bool b => if b then "true" else "false"
  | .num t => t
  | .str s => writeString s
  | .arr items => "[" ++ String.intercalate "," (writeItems items) ++ "]"
  | .obj fields => "\x7b" ++ String.intercalate "," (writeFields fields) ++ "\x7d"

def writeItems : List Json → List String
  | [] => []
  | j :: rest => j.write :: writeItems rest

def writeFields : List (String × Json) → List String
  | [] => []
  | (k, j) :: rest => (writeString k ++ ":" ++ j.write) :: writeFields rest

end

/-! ## Looking inside -/

/-- The value of a field; the last one wins if there are several. -/
def field? (j : Json) (key : String) : Option Json :=
  match j with
  | .obj kvs => kvs.reverse.lookup key
  | _ => none

def field (j : Json) (key : String) : Json := (j.field? key).getD .null

def items (j : Json) : List Json :=
  match j with
  | .arr xs => xs
  | _ => []

def fields (j : Json) : List (String × Json) :=
  match j with
  | .obj kvs => kvs
  | _ => []

def text? (j : Json) : Option String :=
  match j with
  | .str s => some s
  | _ => none

/-- The value of a number. -/
def float? (j : Json) : Option Float :=
  match j with
  | .num t => Number.read? t.toList
  | _ => none

/-- The value of a whole number. -/
def int? (j : Json) : Option Int :=
  match j with
  | .num t => t.toInt?
  | _ => none

def bool? (j : Json) : Option Bool :=
  match j with
  | .bool b => some b
  | _ => none

def ofFloat (x : Float) : Json := .num (Number.text x)

def ofInt (n : Int) : Json := .num (toString n)

end Json

end TapeScript
