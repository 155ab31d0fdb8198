import TapeScript.Tape.Program

set_option autoImplicit false

/-! # The tape machine

A machine holds a program, a tape of cells of a fixed width, a head, an input text and the output
written so far. `Machine.step` executes one instruction and `Machine.run` repeats it until the
program ends, an instruction fails, or the time allowed is over. Time is measured in instructions:
`run` takes the number of instructions that fit into the time limit.

A machine that failed keeps what the failing instruction had already done; in particular the head
stays where it was moved, and running again repeats the instruction.
-/

namespace TapeScript

attribute [local instance (high)] instPowNat

/-- The width of a cell. -/
inductive Width where
  | w8
  | w16
  | w32
  | w64
  deriving DecidableEq

namespace Width

def bits : Width → Nat
  | .w8 => 8
  | .w16 => 16
  | .w32 => 32
  | .w64 => 64

def ofBits? (n : Int) : Option Width :=
  if n = 8 then some .w8
  else if n = 16 then some .w16
  else if n = 32 then some .w32
  else if n = 64 then some .w64
  else none

/-- Cells hold numbers below the modulus and wrap around it. -/
def modulus : Width → Nat
  | .w8 => 256
  | .w16 => 65536
  | .w32 => 4294967296
  | .w64 => 18446744073709551616

/-- The cell value congruent to a number. -/
def wrap (w : Width) (n : Int) : Nat := (n % (w.modulus : Int)).toNat

/-- Adds the modulus until a number is not negative. -/
def lift (w : Width) (n : Int) : Int := if n < 0 then w.lift (n + w.modulus) else n
termination_by (-n).toNat
decreasing_by
  cases w <;> simp only [modulus] <;> omega

/-- Brings a number into the range of a cell. -/
def evaluate (w : Width) (n : Int) : Nat := (w.lift n % w.modulus).toNat

theorem modulus_eq (w : Width) : w.modulus = 2 ^ w.bits := by
  cases w <;> rfl

end Width

/-- Why a machine cannot be built. -/
inductive SetupFault where
  | sizeNotPositive
  | unsupportedWidth
  | brackets (fault : BracketFault)
  | tapeTooLong
  | tapeUncountable
  deriving DecidableEq

/-- Why a run, or a look at a cell, stops. -/
inductive RunFault where
  | belowZero
  | beyondTape (head size : Int)
  | cannotGrow (size : Int)
  | cannotGrowFurther (size : Int)
  | timeLimit (limit : String)
  | noSuchCell
  | noTape
  | valueOutOfRange
  deriving DecidableEq

def SetupFault.message : SetupFault → Option String
  | .sizeNotPositive => some "memory_size must be positive or None"
  | .unsupportedWidth => some "Unsupported cell_bits. Use 8, 16, 32, or 64."
  | .brackets fault => some fault.message
  | .tapeTooLong => none
  | .tapeUncountable => none

def RunFault.message : RunFault → Option String
  | .belowZero => some "Data pointer went below zero"
  | .beyondTape head size => some s!"Data pointer ({head}) out of fixed memory bounds ({size})"
  | .cannotGrow size => some s!"Cannot expand memory to size {size}"
  | .cannotGrowFurther size => some s!"Cannot expand memory further (requested size {size})"
  | .timeLimit limit => some s!"Execution exceeded maximum time of {limit} seconds."
  | .noSuchCell => none
  | .noTape => none
  | .valueOutOfRange => none

/-- What does not change while a machine runs. A machine without a fixed size starts with
`Setup.growingStart` cells and grows on demand. `limit` is the time limit as it is printed, and
`capacity` the first length of a tape that does not fit into memory. -/
structure Setup where
  program : Program
  width : Width
  fixedSize : Option Nat
  input : Array Char
  limit : String
  capacity : Nat

namespace Setup

def growingStart : Nat := 1024

/-- From this length on a tape cannot even be addressed. -/
def addressBound : Nat := 2 ^ (63 : Nat)

/-- The capacity where none is given. -/
def usualCapacity : Nat := 2 ^ (36 : Nat)

def startSize (s : Setup) : Nat := s.fixedSize.getD growingStart

end Setup

/-- The state of a tape machine. `size` is the length the machine takes its tape to have and
`memory` the tape itself; only changes made from outside can set them apart, remove the tape, or
put the head or the program counter below zero. `timed` says that a run has taken time. -/
structure Machine where
  setup : Setup
  memory : Option (Array Nat)
  size : Int
  head : Int
  pc : Int
  inputPos : Nat
  output : String
  timed : Bool
  finished : Bool

namespace Machine

/-- The machine before its first instruction. -/
def start (s : Setup) : Machine where
  setup := s
  memory := some (Array.replicate s.startSize 0)
  size := s.startSize
  head := 0
  pc := 0
  inputPos := 0
  output := ""
  timed := false
  finished := false

/-- Builds a machine, checking its size, then its width, then its program. -/
def build (text : String) (size : Option Int) (bits : Int) (input : String) (limit : String)
    (capacity : Nat := Setup.usualCapacity) : Except SetupFault Machine := do
  if size.any (· ≤ 0) then throw .sizeNotPositive
  let some width := Width.ofBits? bits | throw .unsupportedWidth
  let program ← (Program.ofText text).mapError SetupFault.brackets
  let setup : Setup :=
    { program, width, fixedSize := size.map Int.toNat, input := input.toList.toArray, limit, capacity }
  if Setup.addressBound ≤ setup.startSize then throw .tapeUncountable
  if capacity ≤ setup.startSize then throw .tapeTooLong
  return start setup

def reset (m : Machine) : Machine := start m.setup

/-! ## Cells -/

/-- The place of an index in a sequence; indices below zero count from the end. -/
def place? (length : Nat) (i : Int) : Option Nat :=
  if 0 ≤ i then
    if i < length then some i.toNat else none
  else if 0 ≤ (length : Int) + i then some ((length : Int) + i).toNat
  else none

def cell (m : Machine) (i : Int) : Except RunFault Nat :=
  match m.memory with
  | none => .error .noTape
  | some cells =>
    match place? cells.size i with
    | none => .error .noSuchCell
    | some k => .ok (cells.getD k 0)

/-- The result of an instruction: the machine after it, or a fault and what was done before it. -/
inductive Result where
  | next (m : Machine)
  | fault (f : RunFault) (m : Machine)

/-- Rewrites the cell under the head. -/
@[inline] def updateCell (m : Machine) (f : Nat → Nat) : Result :=
  match m with
  | ⟨setup, none, size, head, pc, inputPos, output, timed, finished⟩ =>
    .fault .noTape ⟨setup, none, size, head, pc, inputPos, output, timed, finished⟩
  | ⟨setup, some cells, size, head, pc, inputPos, output, timed, finished⟩ =>
    match place? cells.size head with
    | none => .fault .noSuchCell ⟨setup, some cells, size, head, pc, inputPos, output, timed, finished⟩
    | some k => .next ⟨setup, some (cells.modify k f), size, head, pc, inputPos, output, timed, finished⟩

/-- Writes a cell from outside; the value has to fit. -/
def poke (m : Machine) (i v : Int) : Except RunFault Machine :=
  match m.memory with
  | none => .error .noTape
  | some cells =>
    match place? cells.size i with
    | none => .error .noSuchCell
    | some k =>
      if 0 ≤ v ∧ v < m.setup.width.modulus then
        .ok { m with memory := some (cells.setIfInBounds k v.toNat) }
      else .error .valueOutOfRange

/-! ## Moving the head -/

/-- The length a growing tape takes when the head stands beyond its end. -/
def grownSize (head size : Int) : Int := max (max (head + 1) (size * 2)) (head + 1024)

/-- How many leading cells of a new tape of the given length the old tape replaces. -/
def replaced (size newSize : Int) : Nat :=
  if size < 0 then (newSize + size).toNat else (min size newSize).toNat

/-- Makes room for the head on a growing tape. -/
def grow (m : Machine) : Result :=
  let newSize := grownSize m.head m.size
  if (Setup.addressBound : Int) ≤ newSize then .fault (.cannotGrowFurther newSize) m
  else if (m.setup.capacity : Int) ≤ newSize then .fault (.cannotGrow newSize) m
  else
    match m.memory with
    | none => .fault .noTape m
    | some cells =>
      let fresh := newSize.toNat - replaced m.size newSize
      .next { m with memory := some (cells ++ Array.replicate fresh 0), size := newSize }

/-- Moves the head and checks where it stands. -/
def move (m : Machine) (distance : Int) : Result :=
  let m := { m with head := m.head + distance }
  if m.head < 0 then .fault .belowZero m
  else if m.head < m.size then .next m
  else if m.setup.fixedSize.isSome then .fault (.beyondTape m.head m.size) m
  else m.grow

/-! ## Instructions -/

/-- Takes the next input character; after the last one, zero. -/
def readInput (m : Machine) : Nat × Machine :=
  match m.setup.input[m.inputPos]? with
  | some c => (c.toNat, { m with inputPos := m.inputPos + 1 })
  | none => (0, m)

/-- The character a cell prints: its lowest byte. -/
def outputChar (v : Nat) : Char := Char.ofNat (v % 256)

/-- Executes one instruction, without going on to the next. -/
def execute (m : Machine) (i : Instr) : Result :=
  match i.cmd with
  | .right => m.move i.arg
  | .left => m.move (-(i.arg : Int))
  | .inc =>
    let modulus := m.setup.width.modulus
    m.updateCell fun v => (v + i.arg) % modulus
  | .dec =>
    let modulus := m.setup.width.modulus
    m.updateCell fun v => (v + (modulus - i.arg % modulus)) % modulus
  | .put =>
    match m.cell m.head with
    | .error f => .fault f m
    | .ok v => .next { m with output := m.output.push (outputChar v) }
  | .get =>
    let (v, m) := m.readInput
    let modulus := m.setup.width.modulus
    m.updateCell fun _ => v % modulus
  | .enter =>
    match m.cell m.head with
    | .error f => .fault f m
    | .ok v => .next (if v = 0 then { m with pc := i.arg } else m)
  | .leave =>
    match m.cell m.head with
    | .error f => .fault f m
    | .ok v => .next (if v = 0 then m else { m with pc := i.arg })

/-- Executes the instruction at the program counter and goes on. -/
def step (m : Machine) : Result :=
  match place? m.setup.program.size m.pc with
  | none => .fault .noSuchCell m
  | some k =>
    match m.setup.program[k]? with
    | none => .fault .noSuchCell m
    | some i =>
      match m.execute i with
      | .next m => .next { m with pc := m.pc + 1 }
      | .fault f m => .fault f m

/-- The program has come to its end. -/
def ended (m : Machine) : Bool := (m.setup.program.size : Int) ≤ m.pc

/-- Executes at most the given number of instructions. -/
def runFor : Nat → Machine → Option RunFault × Machine
  | 0, m =>
    if m.ended then (none, { m with timed := true, finished := true })
    else (some (.timeLimit m.setup.limit), { m with timed := true, finished := true })
  | budget + 1, m =>
    if m.ended then (none, { m with timed := true, finished := true })
    else
      match m.step with
      | .next m => runFor budget m
      | .fault f m => (some f, m)

/-- Runs the machine unless it has finished already. -/
def run (budget : Nat) (m : Machine) : Option RunFault × Machine :=
  if m.finished then (none, m) else runFor budget m

/-- A budget no run of practical length uses up. -/
def unlimited : Nat := 2 ^ (62 : Nat)

/-- How many instructions count as one second. -/
def instructionsPerSecond : Float := 4000000

/-- The instructions that fit into a time limit, none if it is not positive. -/
def budget (seconds : Float) : Nat :=
  if seconds > 0 then (seconds * instructionsPerSecond).toUInt64.toNat else 0

end Machine

end TapeScript
