set_option autoImplicit false

/-! # SHA-256

The digest of a byte sequence, written as 64 hexadecimal digits. The message is padded to blocks of
64 bytes; each block is expanded to 64 words and mixed into eight words of state.
-/

namespace TapeScript.Digest

attribute [local instance (high)] instPowNat

def roundConstants : Array UInt32 := #[
  0x428a2f98, 0x71374491, 0xb5c0fbcf, 0xe9b5dba5, 0x3956c25b, 0x59f111f1, 0x923f82a4, 0xab1c5ed5,
  0xd807aa98, 0x12835b01, 0x243185be, 0x550c7dc3, 0x72be5d74, 0x80deb1fe, 0x9bdc06a7, 0xc19bf174,
  0xe49b69c1, 0xefbe4786, 0x0fc19dc6, 0x240ca1cc, 0x2de92c6f, 0x4a7484aa, 0x5cb0a9dc, 0x76f988da,
  0x983e5152, 0xa831c66d, 0xb00327c8, 0xbf597fc7, 0xc6e00bf3, 0xd5a79147, 0x06ca6351, 0x14292967,
  0x27b70a85, 0x2e1b2138, 0x4d2c6dfc, 0x53380d13, 0x650a7354, 0x766a0abb, 0x81c2c92e, 0x92722c85,
  0xa2bfe8a1, 0xa81a664b, 0xc24b8b70, 0xc76c51a3, 0xd192e819, 0xd6990624, 0xf40e3585, 0x106aa070,
  0x19a4c116, 0x1e376c08, 0x2748774c, 0x34b0bcb5, 0x391c0cb3, 0x4ed8aa4a, 0x5b9cca4f, 0x682e6ff3,
  0x748f82ee, 0x78a5636f, 0x84c87814, 0x8cc70208, 0x90befffa, 0xa4506ceb, 0xbef9a3f7, 0xc67178f2]

/-- The eight words mixed by every block. -/
structure State where
  a : UInt32
  b : UInt32
  c : UInt32
  d : UInt32
  e : UInt32
  f : UInt32
  g : UInt32
  h : UInt32

def State.start : State :=
  ⟨0x6a09e667, 0xbb67ae85, 0x3c6ef372, 0xa54ff53a, 0x510e527f, 0x9b05688c, 0x1f83d9ab, 0x5be0cd19⟩

def State.words (s : State) : List UInt32 := [s.a, s.b, s.c, s.d, s.e, s.f, s.g, s.h]

/-- Adds two states word by word. -/
def State.add (s t : State) : State :=
  ⟨s.a + t.a, s.b + t.b, s.c + t.c, s.d + t.d, s.e + t.e, s.f + t.f, s.g + t.g, s.h + t.h⟩

def rotateRight (x : UInt32) (n : UInt32) : UInt32 := (x >>> n) ||| (x <<< (32 - n))

/-- One round with a word of the schedule and a constant. -/
def State.round (s : State) (word constant : UInt32) : State :=
  let s1 := rotateRight s.e 6 ^^^ rotateRight s.e 11 ^^^ rotateRight s.e 25
  let choice := (s.e &&& s.f) ^^^ ((~~~ s.e) &&& s.g)
  let t1 := s.h + s1 + choice + constant + word
  let s0 := rotateRight s.a 2 ^^^ rotateRight s.a 13 ^^^ rotateRight s.a 22
  let majority := (s.a &&& s.b) ^^^ (s.a &&& s.c) ^^^ (s.b &&& s.c)
  ⟨t1 + (s0 + majority), s.a, s.b, s.c, s.d + t1, s.e, s.f, s.g⟩

/-- A word from four bytes, the most significant first. -/
def wordAt (block : Array UInt8) (i : Nat) : UInt32 :=
  let byte (k : Nat) : UInt32 := (block.getD (i + k) 0).toUInt32
  (byte 0 <<< 24) ||| (byte 1 <<< 16) ||| (byte 2 <<< 8) ||| byte 3

/-- Extends the sixteen words of a block to the schedule of 64 words. -/
def schedule (block : Array UInt8) : Array UInt32 :=
  let first := (List.range 16).foldl (fun ws i => ws.push (wordAt block (4 * i))) #[]
  (List.range' 16 48).foldl (fun (ws : Array UInt32) i =>
    let x := ws.getD (i - 15) 0
    let y := ws.getD (i - 2) 0
    let s0 := rotateRight x 7 ^^^ rotateRight x 18 ^^^ (x >>> 3)
    let s1 := rotateRight y 17 ^^^ rotateRight y 19 ^^^ (y >>> 10)
    ws.push (ws.getD (i - 16) 0 + s0 + ws.getD (i - 7) 0 + s1)) first

/-- Mixes a block into the state. -/
def State.absorb (s : State) (block : Array UInt8) : State :=
  let ws := schedule block
  let mixed := (List.range 64).foldl (fun (t : State) i =>
    t.round (ws.getD i 0) (roundConstants.getD i 0)) s
  s.add mixed

/-- The bytes of a number, the most significant first. -/
def bigEndian (count n : Nat) : List UInt8 :=
  (List.range count).map fun i => (n / 256 ^ (count - 1 - i)).toUInt8

/-- The message followed by a one bit, zeros, and its length in bits. -/
def padded (message : List UInt8) : List UInt8 :=
  let length := message.length
  let zeros := (55 + 64 - length % 64) % 64
  message ++ [0x80] ++ List.replicate zeros 0 ++ bigEndian 8 (8 * length)

/-- Absorbs whole blocks; fuel of their number is enough. -/
def absorbAll : Nat → State → List UInt8 → State
  | 0, s, _ => s
  | fuel + 1, s, bytes =>
    match bytes with
    | [] => s
    | bytes => absorbAll fuel (s.absorb (bytes.take 64).toArray) (bytes.drop 64)

/-- The digest as bytes. -/
def bytes (message : List UInt8) : List UInt8 :=
  let all := padded message
  ((absorbAll (all.length / 64) .start all).words).flatMap fun w => bigEndian 4 w.toNat

def hexDigit (n : Nat) : Char := if n < 10 then Char.ofNat (48 + n) else Char.ofNat (87 + n)

/-- The digest in hexadecimal. -/
def hex (message : List UInt8) : String :=
  String.ofList ((bytes message).flatMap fun b => [hexDigit (b.toNat / 16), hexDigit (b.toNat % 16)])

end TapeScript.Digest
