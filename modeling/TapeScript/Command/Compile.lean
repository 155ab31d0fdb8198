import TapeScript.Command.Arguments
import TapeScript.Command.Report
import TapeScript.Compile

set_option autoImplicit false

/-! # The compile command

Compiles one file into another. If the first compilation needs fewer scratch cells than there are,
the user is asked whether to compile again with only as many as it needs. The command is therefore
cut in two at the question: `Draft` is what is there before it, and `Draft.finish` takes the answer.
-/

namespace TapeScript.Command.Compile

def interface : Interface where
  options := [⟨'h', "help", none⟩]
  positionals := [⟨"input_file", true⟩, ⟨"output_file", true⟩]

def usage : String := "usage: compiler.py [-h] input_file output_file\n"

def helpText : String :=
  usage ++ "\nCompile BrainfuckScript (.bfs) to Brainfuck (.bf).\n\n" ++
    "positional arguments:\n" ++
    "  input_file   Path to the input BrainfuckScript file (.bfs).\n" ++
    "  output_file  Path to the output Brainfuck file (.bf).\n\n" ++
    "options:\n  -h, --help   show this help message and exit\n"

/-- The number of scratch cells of a first compilation. -/
def defaultPool : Nat := 20

def question : String := "Would you like to optimize the temporary cell pool? (y/n): "

/-- What is known before the question: the outcome of the first compilation, what was written so
far, and the number of scratch cells it needed. -/
structure Draft where
  input : String
  output : String
  code : Option Code
  out : String
  needed : Int

/-- The question is asked if scratch cells were left over. -/
def Draft.asks (d : Draft) : Bool := d.needed < defaultPool

/-- The end of a command: its report, and the file it wrote, if any. -/
structure Finished where
  report : Report
  asked : Bool
  written : Option (String × String)

def missingInput (path : String) : String := line s!"Error: Input file not found: {path}"

def failed (reason : String) : String := "\nCompilation Error:\n" ++ line reason

def logText (s : Session) : String := s.bench.log.foldl (fun t l => t ++ line l) ""

/-- Compiles with a fresh session: the code and the log, and the scratch cells that were needed. The
failure of reading a file at all is passed on. -/
def compileWith (fs : FileSystem) (pool : Int) (path : String) :
    Except IncludeFault (Option Code × String × Int) :=
  let (outcome, s) := (Session.ofPool pool).compile fs path
  match outcome with
  | .unreadable fault => .error fault
  | outcome => .ok (outcome.code?, logText s, s.bench.cells.maxScratch)

/-- The first compilation, or why the command ends before it is complete. -/
def draft (fs : FileSystem) (input output : String) : Except Finished Draft :=
  let input := Path.tidy input
  if !fs.isFile input then
    .error ⟨{ exit := failureCode, out := "", err := missingInput input }, false, none⟩
  else
    let start := line s!"Compiling {input}..."
    match compileWith fs defaultPool input with
    | .error fault =>
      .error ⟨{ exit := failureCode, out := start, err := failed fault.text }, false, none⟩
    | .ok (code, log, needed) =>
      let offer :=
        if needed < defaultPool then
          line s!"Only {needed} temporary cells used out of {defaultPool} available." ++ question
        else ""
      .ok { input, output := Path.tidy output, code, out := start ++ log ++ offer, needed }

/-- What is said about the code. -/
def verdict (code : Option Code) : String :=
  match code with
  | some (cmd :: rest) =>
    line "\nCompilation successful. Brainfuck code generated." ++
      line "\n--- Generated Brainfuck ---" ++ line (Code.text (cmd :: rest))
  | _ => line "\nCompilation failed."

def accepts (answer : String) : Bool := answer = "y" || answer = "Y"

/-- Writes the code. Without code the file is left empty, and the command fails. Where the operating
system refuses to write, the reason is in its own words, which are left out. -/
def save (fs : FileSystem) (d : Draft) (code : Option Code) (out : String) : Finished :=
  if !fs.canWrite d.output then
    ⟨{ exit := failureCode, out, err := failed "" }, d.asks, none⟩
  else
    match code with
    | some emitted =>
      ⟨{ exit := 0, out := out ++ line s!"Successfully compiled to {d.output}", err := "" }, d.asks,
        some (d.output, emitted.text)⟩
    | none =>
      ⟨{ exit := failureCode, out, err := failed "write() argument must be str, not None" }, d.asks,
        some (d.output, "")⟩

/-- The rest of the command, after the answer to the question if it was asked. -/
def Draft.finish (fs : FileSystem) (d : Draft) (answer : Option String) : Finished :=
  match d.asks, answer with
  | true, none =>
    ⟨{ exit := failureCode, out := d.out, err := failed "EOF when reading a line" }, true, none⟩
  | asks, answer =>
    if asks && answer.any accepts then
      match compileWith fs d.needed d.input with
      | .error fault =>
        ⟨{ exit := failureCode, out := d.out, err := failed fault.text }, true, none⟩
      | .ok (code, log, _) => save fs d code (d.out ++ log ++ verdict code)
    else save fs d d.code (d.out ++ verdict d.code)

/-- The first line of an input, if there is one. -/
def firstLine? (input : List Char) : Option String :=
  (Text.lines (Text.universalNewlines input)).head?.map String.ofList

/-- What a command line asks for: the two paths, or a report at once. -/
def request (args : List String) : Except Report (String × String) :=
  match interface.read args with
  | .help => .error (.help helpText)
  | .misuse => .error (.misuse usage)
  | .values v =>
    match v.positional? "input_file", v.positional? "output_file" with
    | some input, some output => .ok (input, output)
    | _, _ => .error { exit := failureCode, out := "", err := usage }

/-- The whole command, with the text the user types. -/
def run (fs : FileSystem) (typed : List Char) (args : List String) : Finished :=
  match request args with
  | .error report => ⟨report, false, none⟩
  | .ok (input, output) =>
    match draft fs input output with
    | .error finished => finished
    | .ok d => d.finish fs (firstLine? typed)

end TapeScript.Command.Compile
