set_option autoImplicit false

/-! # Reading UTF-8

Decodes bytes strictly: over-long forms, surrogates and code points beyond the last plane are
refused, and a refusal says which bytes are at fault and why.
-/

namespace TapeScript.Text

inductive DecodeReason where
  | invalidStart
  | invalidContinuation
  | unexpectedEnd
  deriving DecidableEq

def DecodeReason.text : DecodeReason → String
  | .invalidStart => "invalid start byte"
  | .invalidContinuation => "invalid continuation byte"
  | .unexpectedEnd => "unexpected end of data"

/-- The bytes from `start` up to, not including, `stop` cannot be decoded; `first` is the first of
them. -/
structure DecodeFault where
  start : Nat
  stop : Nat
  first : UInt8
  reason : DecodeReason
  deriving DecidableEq

/-- Two lower-case hexadecimal digits. -/
def hexByte (b : UInt8) : String :=
  let digits := Nat.toDigits 16 b.toNat
  String.ofList (List.replicate (2 - digits.length) '0' ++ digits)

def DecodeFault.message (f : DecodeFault) : String :=
  if f.stop = f.start + 1 then
    s!"'utf-8' codec can't decode byte 0x{hexByte f.first} in position {f.start}: {f.reason.text}"
  else
    let last := f.stop - 1
    s!"'utf-8' codec can't decode bytes in position {f.start}-{last}: {f.reason.text}"

/-- The first code point of some bytes: the character and the bytes behind it, or how many bytes are
at fault and why. -/
inductive DecodeStep where
  | char (c : Char) (rest : List UInt8)
  | bad (length : Nat) (reason : DecodeReason)

def isContinuation (b : UInt8) : Bool := 0x80 ≤ b && b ≤ 0xbf

/-- A code point from the payloads of its bytes. -/
def codePoint (payloads : List Nat) : Char := Char.ofNat (payloads.foldl (fun n p => n * 64 + p) 0)

/-- The second byte has to lie in the given range, which excludes over-long forms, surrogates and
code points that are too large. -/
def decodeStep (bytes : List UInt8) : DecodeStep :=
  match bytes with
  | [] => .bad 0 .unexpectedEnd
  | a :: rest =>
    let payload (b : UInt8) : Nat := b.toNat % 64
    if a < 0x80 then .char (Char.ofNat a.toNat) rest
    else if a < 0xc2 || 0xf4 < a then .bad 1 .invalidStart
    else if a < 0xe0 then
      match rest with
      | [] => .bad 1 .unexpectedEnd
      | b :: rest =>
        if isContinuation b then .char (codePoint [a.toNat % 32, payload b]) rest
        else .bad 1 .invalidContinuation
    else if a < 0xf0 then
      let low : UInt8 := if a = 0xe0 then 0xa0 else 0x80
      let high : UInt8 := if a = 0xed then 0x9f else 0xbf
      match rest with
      | [] => .bad 1 .unexpectedEnd
      | b :: rest =>
        if b < low || high < b then .bad 1 .invalidContinuation
        else
          match rest with
          | [] => .bad 2 .unexpectedEnd
          | c :: rest =>
            if isContinuation c then
              .char (codePoint [a.toNat % 16, payload b, payload c]) rest
            else .bad 2 .invalidContinuation
    else
      let low : UInt8 := if a = 0xf0 then 0x90 else 0x80
      let high : UInt8 := if a = 0xf4 then 0x8f else 0xbf
      match rest with
      | [] => .bad 1 .unexpectedEnd
      | b :: rest =>
        if b < low || high < b then .bad 1 .invalidContinuation
        else
          match rest with
          | [] => .bad 2 .unexpectedEnd
          | c :: rest =>
            if !isContinuation c then .bad 2 .invalidContinuation
            else
              match rest with
              | [] => .bad 3 .unexpectedEnd
              | d :: rest =>
                if isContinuation d then
                  .char (codePoint [a.toNat % 8, payload b, payload c, payload d]) rest
                else .bad 3 .invalidContinuation

/-- The characters up to the first fault, backwards, and the fault. Fuel of the number of bytes is
enough. -/
def decodeFrom (position : Nat) (done : List Char) : Nat → List UInt8 → List Char × Option DecodeFault
  | 0, _ => (done, none)
  | fuel + 1, bytes =>
    match bytes with
    | [] => (done, none)
    | first :: _ =>
      match decodeStep bytes with
      | .char c rest => decodeFrom (position + (bytes.length - rest.length)) (c :: done) fuel rest
      | .bad length reason => (done, some ⟨position, position + length, first, reason⟩)

/-- Decodes bytes; after a fault come the characters before it. -/
def decode (bytes : List UInt8) : List Char × Option DecodeFault :=
  let (done, fault) := decodeFrom 0 [] (bytes.length + 1) bytes
  (done.reverse, fault)

end TapeScript.Text
