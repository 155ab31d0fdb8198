import TapeScript.Command.Arguments
import TapeScript.Command.Report
import TapeScript.Number.Read
import TapeScript.Source.Path
import TapeScript.Tape.Machine
import TapeScript.Text.Utf8

set_option autoImplicit false

/-! # The interpret command

Runs the program in a file on an input given on the command line. What happens is an `Ending`; its
report is written once the time the run took is known.
-/

namespace TapeScript.Command.Interpret

def acceptsInteger (s : String) : Bool := (Text.integer? s.toList).isSome

/-- A width has to be one of those a cell can have. -/
def acceptsWidth (s : String) : Bool := ((Text.integer? s.toList).bind Width.ofBits?).isSome

def acceptsNumber (s : String) : Bool := (Number.read? s.toList).isSome

def interface : Interface where
  options := [
    ⟨'h', "help", none⟩,
    ⟨'m', "memory-size", some acceptsInteger⟩,
    ⟨'b', "cell-bits", some acceptsWidth⟩,
    ⟨'t', "max-time", some acceptsNumber⟩]
  positionals := [⟨"brainfuck_file", true⟩, ⟨"initial_input", false⟩]

def usage : String :=
  "usage: interpreter.py [-h] [-m MEMORY_SIZE] [-b \x7b8,16,32,64\x7d] [-t MAX_TIME]\n" ++
    "                      brainfuck_file [initial_input]\n"

def helpText : String :=
  usage ++ "\nInterpret Brainfuck (.bf) code.\n\n" ++
    "positional arguments:\n" ++
    "  brainfuck_file        Path to the Brainfuck file (.bf) to execute.\n" ++
    "  initial_input         Optional initial input string for the Brainfuck\n" ++
    "                        program.\n\n" ++
    "options:\n" ++
    "  -h, --help            show this help message and exit\n" ++
    "  -m MEMORY_SIZE, --memory-size MEMORY_SIZE\n" ++
    "                        Size of the Brainfuck memory tape (number of cells).\n" ++
    "                        Default: 30000\n" ++
    "  -b \x7b8,16,32,64\x7d, --cell-bits \x7b8,16,32,64\x7d\n" ++
    "                        Bit size of each memory cell (8, 16, 32, 64). Default:\n" ++
    "                        32\n" ++
    "  -t MAX_TIME, --max-time MAX_TIME\n" ++
    "                        Maximum execution time in seconds (0 for unlimited).\n" ++
    "                        Default: 5.0\n"

/-- What a command line asks for. A time that is not positive means no limit. -/
structure Request where
  path : String
  input : String
  size : Int
  bits : Int
  limit : Option Float

def Request.ofValues (v : Values) : Request where
  path := Path.tidy ((v.positional? "brainfuck_file").getD "")
  input := (v.positional? "initial_input").getD ""
  size := ((v.option? "memory-size").bind fun s => Text.integer? s.toList).getD 30000
  bits := ((v.option? "cell-bits").bind fun s => Text.integer? s.toList).getD 32
  limit :=
    let t := ((v.option? "max-time").bind fun s => Number.read? s.toList).getD 5.0
    if t > 0 && !t.isInf then some t else none

def Request.limitText (r : Request) : String := (r.limit.map Number.text).getD "Unlimited"

/-- Instructions allowed within the time limit. -/
def Request.budget (r : Request) : Nat := (r.limit.map Machine.budget).getD Machine.unlimited

/-- How the command ends. -/
inductive Ending where
  | help
  | misuse
  | notFound (path : String)
  | undecodable (path : String) (fault : Text.DecodeFault)
  | notBuilt (request : Request) (fault : SetupFault)
  | stopped (request : Request) (fault : RunFault)
  | done (request : Request) (output : String)

/-- Runs what a command line asks for. -/
def perform (fs : FileSystem) (r : Request) : Ending :=
  match fs.fileAt? r.path with
  | none => .notFound r.path
  | some bytes =>
    match Text.decode bytes with
    | (_, some fault) => .undecodable r.path fault
    | (chars, none) =>
      let text := String.ofList (Text.universalNewlines chars)
      match Machine.build text (some r.size) r.bits r.input r.limitText with
      | .error fault => .notBuilt r fault
      | .ok m =>
        match m.run r.budget with
        | (some fault, _) => .stopped r fault
        | (none, m) => .done r m.output

def ending (fs : FileSystem) (args : List String) : Ending :=
  match interface.read args with
  | .help => .help
  | .misuse => .misuse
  | .values v => perform fs (Request.ofValues v)

def rule : String := line "--------------------"

def opening (path : String) : String := line s!"Reading Brainfuck code from: {path}"

def preamble (r : Request) : String :=
  let time := r.limitText
  opening r.path ++ line "Initializing Interpreter..." ++ line s!"  Memory Size: {r.size}" ++
    line s!"  Cell Bits:   {r.bits}" ++ line s!"  Max Time:    {time}" ++
    line s!"  Input:       '{r.input}'" ++ rule ++ line "Running Code:" ++ rule

def failed (reason : String) : String := "\nInterpreter Error:\n" ++ line reason

/-- A fault of the set-up as it is printed. -/
def setupText (fault : SetupFault) : String :=
  match fault with
  | .tapeUncountable => "cannot fit 'int' into an index-sized integer"
  | fault => fault.message.getD ""

/-- The report of an ending; `seconds` is the time the run took. -/
def Ending.report (seconds : String) : Ending → Report
  | .help => .help helpText
  | .misuse => .misuse usage
  | .notFound path =>
    { exit := failureCode, out := "", err := line s!"Error: Brainfuck file not found: {path}" }
  | .undecodable path fault =>
    { exit := failureCode, out := opening path, err := failed fault.message }
  | .notBuilt r fault => { exit := failureCode, out := preamble r, err := failed (setupText fault) }
  | .stopped r fault =>
    { exit := failureCode, out := preamble r, err := failed (fault.message.getD "") }
  | .done r output =>
    { exit := 0
      out := preamble r ++ line output ++ rule ++ line s!"Execution finished in {seconds} seconds."
      err := "" }

end TapeScript.Command.Interpret
