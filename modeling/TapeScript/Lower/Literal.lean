import TapeScript.Fault
import TapeScript.Text.Digit

set_option autoImplicit false

/-! # Literals

The values of number texts, character literals and define values.
-/

namespace TapeScript.Literal

/-- The value of a number text. -/
def number (text : String) : Except Fault Int :=
  match Text.integer? text.toList with
  | some n => .ok n
  | none => .error .notANumber

/-- What a backslash and the character behind it stand for. A backslash at a line end stands for
nothing, and one before a character without a meaning stays. -/
def escape (c : Char) : Except Fault (List Char) :=
  if 255 < c.toNat then .error .notEncodable
  else if '0' ≤ c ∧ c ≤ '7' then .ok [Char.ofNat (c.toNat - '0'.toNat)]
  else
    match c with
    | 'a' => .ok ['\x07']
    | 'b' => .ok ['\x08']
    | 'f' => .ok ['\x0c']
    | 'n' => .ok ['\n']
    | 'r' => .ok ['\r']
    | 't' => .ok ['\t']
    | 'v' => .ok ['\x0b']
    | '\\' => .ok ['\\']
    | '\'' => .ok ['\'']
    | '"' => .ok ['"']
    | '\n' => .ok []
    | 'x' | 'u' | 'U' | 'N' => .error .invalidEscape
    | c => .ok ['\\', c]

/-- The text a character literal stands for; it may be written with or without its quotes. -/
def characterText (text : List Char) : Except Fault (List Char) :=
  match text with
  | [c] => .ok [c]
  | ['\\', c] => escape c
  | [_, c, _] => .ok [c]
  | [_, '\\', c, _] => escape c
  | _ => .error (.invalidCharacter (String.ofList text))

/-- The code point of a text of one character. -/
def codePoint (text : List Char) : Except Fault Int :=
  match text with
  | [c] => .ok c.toNat
  | _ => .error .notOneCharacter

/-- The value of a define: digits, or the first character between single quotes. -/
def defineValue (value : String) : Except Fault Int :=
  let chars := value.toList
  if Text.allDigits chars then number value
  else if chars.head? = some '\'' ∧ chars.getLast? = some '\'' then
    match chars with
    | _ :: c :: _ => .ok c.toNat
    | _ => .error .missingItem
  else .error (.invalidDefine value)

end TapeScript.Literal
