import TapeScript.Tape.Machine

set_option autoImplicit false

/-! # Looking at a machine

The state of a machine as a record (`FinalState`), a window of its tape as text (`Machine.view`),
and a summary of both (`Machine.summary`).
-/

namespace TapeScript

/-- How a cell is written in a view. -/
inductive CellFormat where
  | decimal
  | hexadecimal
  | character
  deriving DecidableEq

namespace CellFormat

/-- The format of a name; an unknown name means decimal. -/
def ofName (name : String) : CellFormat :=
  if name = "hex" then .hexadecimal
  else if name = "char" then .character
  else .decimal

/-- Upper-case hexadecimal digits, filled up with zeros to the given width. -/
def hex (width v : Nat) : String :=
  let digits := (Nat.toDigits 16 v).map Char.toUpper
  String.ofList (List.replicate (width - digits.length) '0' ++ digits)

/-- A cell is shown as a character when its lowest byte is printable. -/
def write (format : CellFormat) (width : Width) (v : Nat) : String :=
  match format with
  | .decimal => toString v
  | .hexadecimal => "0x" ++ hex ((width.bits + 3) / 4) v
  | .character =>
    let low := v % 256
    if 32 ≤ low ∧ low ≤ 126 then s!"'{Char.ofNat low}' ({v})" else s!". ({v})"

end CellFormat

/-- What a machine shows of itself after a run. -/
structure FinalState where
  codePtr : Int
  dataPtr : Int
  cellValue : Option Nat
  size : Int
  fixedSize : Option Nat
  width : Width
  finished : Bool
  output : String
  inputRead : Nat

namespace Machine

/-- Fills a text up with blanks on the right. -/
def padRight (width : Nat) (s : String) : String :=
  s ++ String.ofList (List.replicate (width - s.length) ' ')

/-- One line of a view. -/
def viewLine (m : Machine) (cells : Array Nat) (format : CellFormat) (i : Nat) : String :=
  match cells[i]? with
  | none => s!"[{i}]: <beyond allocated>"
  | some v =>
    let shown := padRight 15 (format.write m.setup.width v)
    let mark := if (i : Int) = m.head then "(final ptr)" else ""
    s!"[{i}]: {shown} {mark}"

/-- The cells from `first` up to, but not including, `last` (ten cells if it is not given). -/
def view (m : Machine) (first : Int) (last : Option Int) (format : CellFormat) : String :=
  match m.memory with
  | none => "Memory not initialized."
  | some cells =>
    let last := min (last.getD (first + 10)) m.size
    let first := max 0 first
    if last ≤ first then "Invalid memory range."
    else
      let count := (last - first).toNat
      String.intercalate "\n"
        ((List.range' first.toNat count).map (m.viewLine cells format))

/-- The value under the head, if the head stands on the tape. -/
def currentCell (m : Machine) : Except RunFault (Option Nat) :=
  match m.memory with
  | none => .ok none
  | some cells =>
    if cells.size ≠ 0 ∧ 0 ≤ m.head ∧ m.head < m.size then (m.cell m.head).map some
    else .ok none

def finalState (m : Machine) : Except RunFault FinalState := do
  let cellValue ← m.currentCell
  return {
    codePtr := m.pc
    dataPtr := m.head
    cellValue
    size := m.size
    fixedSize := m.setup.fixedSize
    width := m.setup.width
    finished := m.finished
    output := m.output
    inputRead := m.inputPos }

/-- A run that took time without finishing counts as timed out. -/
def status (m : Machine) : String :=
  if m.finished then "Finished"
  else if m.timed then "Timed Out"
  else "Not Run/Incomplete"

/-- The summary of a machine; `seconds` is the time its run took, as it is to be printed. -/
def summary (m : Machine) (seconds : String) : Except RunFault String := do
  let state ← m.finalState
  let shown := m.view (max 0 (state.dataPtr - 4)) (some (state.dataPtr + 6)) .decimal
  let cellText := match state.cellValue with
    | some v => toString v
    | none => "None"
  let configured := match state.fixedSize with
    | some n => toString n
    | none => "infinite"
  let codeSize := m.setup.program.size
  let bits := state.width.bits
  let status := m.status
  return String.intercalate "\n" [
    "--- Brainfuck Interpreter Final State ---",
    s!" Status       : {status}",
    s!" Code Ptr     : {state.codePtr} / {codeSize}",
    s!" Data Ptr     : {state.dataPtr}",
    s!" Final Cell   : {cellText}",
    s!" Memory Size  : {state.size} (Configured: {configured})",
    s!" Cell Bits    : {bits}",
    s!" Input Read   : {state.inputRead} chars",
    s!" Exec Time    : {seconds} s",
    s!" Total Output : '{state.output}'",
    "--- Final Memory View (around ptr) ---",
    shown,
    "---------------------------------------"]

/-- The nonzero cells with their indices, in ascending order. -/
def nonzeroCells (m : Machine) : Except RunFault (List (Nat × Nat)) :=
  match m.memory with
  | none => .error .noTape
  | some cells => .ok (cells.toList.zipIdx.filterMap fun (v, i) => if v = 0 then none else some (i, v))

end Machine

end TapeScript
