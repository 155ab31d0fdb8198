import TapeScript.Tape.Command

set_option autoImplicit false

/-! # Run-length programs

A program text is read into a list of instructions: a maximal run of one of `+ - < >` becomes a
single instruction that carries its length, and a bracket carries the index of its partner.
Each instruction remembers where in the text it starts. Reading fails only when the brackets
do not match.
-/

namespace TapeScript

/-- One instruction: its command, the run length or the partner's index, and the text position. -/
structure Instr where
  cmd : Cmd
  arg : Nat
  pos : Nat
  deriving DecidableEq

abbrev Program := Array Instr

/-- Why a text is not a program: the position of a `]` that closes nothing, or of the last `[`
that is never closed. -/
inductive BracketFault where
  | strayClose (pos : Nat)
  | unclosed (pos : Nat)
  deriving DecidableEq

def BracketFault.message : BracketFault → String
  | .strayClose pos => s!"Mismatched ']' at code position ~{pos}"
  | .unclosed pos => s!"Mismatched '[' at code position ~{pos}"

namespace Program

/-- The commands of a text with their positions; all other characters are skipped. -/
def commands (text : List Char) : List (Nat × Cmd) :=
  text.zipIdx.filterMap fun (c, i) => (Cmd.ofChar? c).map fun cmd => (i, cmd)

/-- Puts one command in front of grouped instructions, joining it with the run that follows. -/
def addCommand (command : Nat × Cmd) (grouped : List Instr) : List Instr :=
  let alone : Instr := ⟨command.2, 1, command.1⟩
  match grouped with
  | [] => [alone]
  | next :: rest =>
    if command.2.repeats && next.cmd == command.2 then
      ⟨command.2, next.arg + 1, command.1⟩ :: rest
    else
      alone :: grouped

/-- The maximal runs of a command sequence. -/
def group (commands : List (Nat × Cmd)) : List Instr := commands.foldr addCommand []

/-- Instructions linked so far, and the indices of the brackets still open, innermost first. -/
structure Linking where
  done : Array Instr := #[]
  pending : List Nat := []

/-- Appends one instruction; a closing bracket and its partner learn of each other. -/
def Linking.add (l : Linking) (instr : Instr) : Except BracketFault Linking :=
  match instr.cmd with
  | .enter =>
    .ok { done := l.done.push { instr with arg := 0 }, pending := l.done.size :: l.pending }
  | .leave =>
    match l.pending with
    | [] => .error (.strayClose instr.pos)
    | start :: outer =>
      let here := l.done.size
      let done := l.done.modify start fun opening => { opening with arg := here }
      .ok { done := done.push { instr with arg := start }, pending := outer }
  | _ => .ok { l with done := l.done.push instr }

/-- The finished program, once no bracket is open. -/
def Linking.finish (l : Linking) : Except BracketFault Program :=
  match l.pending with
  | [] => .ok l.done
  | start :: _ => .error (.unclosed ((l.done[start]?.map Instr.pos).getD 0))

def link (instrs : List Instr) : Except BracketFault Program := do
  let linked ← instrs.foldlM Linking.add {}
  linked.finish

/-- Reads a program text. -/
def ofChars (text : List Char) : Except BracketFault Program := link (group (commands text))

def ofText (text : String) : Except BracketFault Program := ofChars text.toList

end Program

end TapeScript
