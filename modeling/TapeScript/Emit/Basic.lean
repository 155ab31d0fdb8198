import TapeScript.Tape.Command
import TapeScript.Cells.Table

set_option autoImplicit false

/-! # Emitting tape code

Code is emitted at a `Workbench`: it tracks where the head will stand when the code emitted so far
has run, which cells are in use, and the log lines written on the way. An emission that fails keeps
what it had changed at the workbench.
-/

namespace TapeScript

attribute [local instance (high)] instPowNat

structure Workbench where
  head : Int := 0
  cells : CellTable
  log : Array String := #[]

/-- An action at the workbench. -/
abbrev Emit := ExceptT Fault (StateM Workbench)

namespace Emit

/-- Runs an action; the workbench survives a failure. -/
def runAt {α : Type} (action : Emit α) (w : Workbench) : Except Fault α × Workbench :=
  (ExceptT.run action).run w

def note (line : String) : Emit Unit := modify fun w => { w with log := w.log.push line }

/-! ## Scratch cells -/

def takeScratch : Emit Int := do
  let (cell, cells) ← (← get).cells.take
  modify fun w => { w with cells }
  note s!"MemoryManager: Temp cell {cell} allocated."
  return cell

def giveBack (cell : Int) : Emit Unit := do
  let cells ← (← get).cells.giveBack cell
  modify fun w => { w with cells }
  note s!"MemoryManager: Temp cell {cell} released."

/-! ## Single commands -/

/-- Emits the code of several actions in turn. -/
def seq : List (Emit Code) → Emit Code
  | [] => pure []
  | e :: es => do
    let first ← e
    let rest ← seq es
    return first ++ rest

/-- Counts from here on, in either direction, cannot be repeated. -/
def countBound : Int := 2 ^ (63 : Nat)

/-- A command repeated; a negative count gives no code. -/
def repeated (cmd : Cmd) (count : Int) : Emit Code :=
  if count < -countBound ∨ countBound ≤ count then throw .countTooLarge
  else pure (List.replicate count.toNat cmd)

def plus (count : Int) : Emit Code := repeated .inc count

def minus (count : Int) : Emit Code := repeated .dec count

def one (cmd : Cmd) : Emit Code := pure [cmd]

/-- Moves the head by a positive distance. -/
def moveBy (direction : Direction) (count : Int) : Emit Code := do
  if count ≤ 0 then throw (.moveNotPositive direction)
  match direction with
  | .right =>
    modify fun w => { w with head := w.head + count }
    repeated .right count
  | .left =>
    modify fun w => { w with head := w.head - count }
    repeated .left count

/-- Moves the head to a cell. -/
def moveTo (cell : Int) : Emit Code := do
  let distance := cell - (← get).head
  if 0 < distance then moveBy .right distance
  else if distance < 0 then moveBy .left (-distance)
  else return []

end Emit

end TapeScript
