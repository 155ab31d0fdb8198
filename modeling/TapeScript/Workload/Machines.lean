import TapeScript.Tape.View
import TapeScript.Workload.Item

set_option autoImplicit false

/-! # Workloads on the tape machine

`greetings` runs three small programs at each cell width and looks at the machines afterwards.
`compression` groups a long program into runs, lets a tape grow, and makes machines fail in every way
they can.
-/

namespace TapeScript.Workload

/-- A program with its input and the size of its tape. -/
structure Job where
  program : String
  input : String
  size : Int

def greetingJobs : List Job := [
  ⟨"++++++++[>++++[>++>+++>+++>+<<<<-]>+>+>->>+[<]<-]>>.>---.+++++++..+++.>>.<-.<.+++.------.--------.>>+.>++.",
    "", 100⟩,
  ⟨",[.>,]", "abcXYZ!", 50⟩,
  ⟨"+++[>++++<-]", "", 100⟩]

/-- The widths in turn. -/
def widthBits (i : Nat) : Int := [8, 16, 32, 64].getD (i % 4) 8

/-- Looks at a machine after its run: its output, three views, its state, a number brought into the
range of its cells, and the length of its summary. -/
def inspect (m : Machine) : List Item :=
  let state := match m.finalState with
    | .ok s => Item.group [.number s.dataPtr, match s.cellValue with
        | some v => .number v
        | none => .nothing, .text s.output]
    | .error f => .runFault f
  let summary := match m.summary secondsShape with
    | .ok s => Item.number s.length
    | .error f => .runFault f
  [.text m.output, .text (m.view 0 (some 6) .decimal), .text (m.view 0 (some 4) .hexadecimal),
    .text (m.view 0 (some 4) .character), state, .number (m.setup.width.evaluate (-3)), summary]

/-- Builds and runs a machine for a job. -/
def runJob (bits : Int) (job : Job) : List Item :=
  match Machine.build job.program (some job.size) bits job.input "1000000000.0" with
  | .error f => [.setupFault f]
  | .ok m =>
    match m.run Machine.unlimited with
    | (some f, _) => [.runFault f]
    | (none, m) => inspect m

/-- Runs all jobs once for each of a number of widths. -/
def greetings (count : Int) : List Item :=
  (below count).flatMap fun i => greetingJobs.flatMap (runJob (widthBits i))

/-! ## Compression and failures -/

/-- A program of 31 commands in 13 runs, whose last command differs from its first. -/
def pattern : String := "+++++[>+++++<-]>++++>>>>---<<<."

/-- The pattern repeated until it is longer than the given length. -/
def longProgram (length : Int) : String :=
  String.join (List.replicate (length.fdiv pattern.length + 1).toNat pattern)

/-- How many runs a program has. -/
def runCount (program : String) : Item :=
  match Machine.build program none 8 "" "5.0" with
  | .ok m => .number m.setup.program.size
  | .error f => .setupFault f

/-- The size a growing tape has after a long way to the right. -/
def grownTape (distance : Nat) : Item :=
  match Machine.build (String.ofList (List.replicate distance '>')) none 8 "" "5.0" with
  | .error f => .setupFault f
  | .ok m =>
    match m.run Machine.unlimited with
    | (some f, _) => .runFault f
    | (none, m) => .number m.size

/-- The failure of building a machine. -/
def setupProbe (program : String) (size bits : Int) : List Item :=
  match Machine.build program (some size) bits "" "5.0" with
  | .error f => [.setupFault f]
  | .ok _ => []

/-- The failure of running a machine. -/
def runProbe (program : String) (size : Int) (limit : String) (budget : Nat) : List Item :=
  match Machine.build program (some size) 8 "" limit with
  | .error f => [.setupFault f]
  | .ok m =>
    match m.run budget with
    | (some f, _) => [.runFault f]
    | (none, _) => []

/-- A view of nothing. -/
def emptyView : List Item :=
  match Machine.build "+" (some 10) 8 "" "5.0" with
  | .error f => [.setupFault f]
  | .ok m => [.text (m.view 5 (some 5) .decimal)]

def compression (length : Int) : List Item :=
  [runCount (longProgram length)] ++ emptyView ++ [grownTape 1032] ++
    setupProbe "+" 0 8 ++ setupProbe "+" 10 7 ++ setupProbe "[" 10 8 ++ setupProbe "]" 10 8 ++
    runProbe "<" 10 "5.0" Machine.unlimited ++ runProbe ">>" 2 "5.0" Machine.unlimited ++
    runProbe "+[]" 10 "0.01" (Machine.budget 0.01)

end TapeScript.Workload
