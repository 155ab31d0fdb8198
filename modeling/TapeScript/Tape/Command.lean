set_option autoImplicit false

/-! # Commands of the tape machine

The machine knows eight commands, each written as one character; every other character of a
program text is a comment. Emitted code is a plain list of commands (`Code`).
-/

namespace TapeScript

/-- The commands `>`, `<`, `+`, `-`, `.`, `,`, `[` and `]`. -/
inductive Cmd where
  | right
  | left
  | inc
  | dec
  | put
  | get
  | enter
  | leave
  deriving DecidableEq

namespace Cmd

/-- The command a character stands for, if it is one of the eight. -/
def ofChar? : Char → Option Cmd
  | '>' => some .right
  | '<' => some .left
  | '+' => some .inc
  | '-' => some .dec
  | '.' => some .put
  | ',' => some .get
  | '[' => some .enter
  | ']' => some .leave
  | _ => none

def toChar : Cmd → Char
  | .right => '>'
  | .left => '<'
  | .inc => '+'
  | .dec => '-'
  | .put => '.'
  | .get => ','
  | .enter => '['
  | .leave => ']'

/-- Runs of these commands are counted; the other four stand alone. -/
def repeats : Cmd → Bool
  | .right | .left | .inc | .dec => true
  | .put | .get | .enter | .leave => false

@[simp] theorem ofChar?_toChar (c : Cmd) : ofChar? c.toChar = some c := by
  cases c <;> rfl

end Cmd

/-- Tape code, as the emitter builds it. -/
abbrev Code := List Cmd

/-- The program text of emitted code. -/
def Code.text (code : Code) : String := String.ofList (code.map Cmd.toChar)

end TapeScript
