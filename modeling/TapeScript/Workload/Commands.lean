import TapeScript.Command.Compile
import TapeScript.Command.Interpret
import TapeScript.Workload.Item

set_option autoImplicit false

/-! # The workload on commands

Compiles a short program from a file to a file, interprets what was written, and makes both commands
fail: on a file that is not there, and on one that they cannot make sense of.
-/

namespace TapeScript.Workload

/-- A program that declares a number of variables and prints a greeting. -/
def greetingSource (count : Int) : String :=
  String.join ((below count).map fun i => s!"size_t v{i} = {i};\n") ++
    "output('H');\noutput('i');\noutput('!');\n"

/-- The files the commands find: the program, a text that is no program, and code that is not
balanced. -/
def commandFiles (count : Int) : FileSystem where
  cwd := "/work"
  files := [
    (["work", "main.bfs"], (greetingSource count).toUTF8.toList),
    (["work", "broken.bfs"], "size_t = ;".toUTF8.toList),
    (["work", "broken.bf"], "[".toUTF8.toList)]

/-- A compile command; the question about the pool is answered with no. -/
def compileFile (fs : FileSystem) (input : String) : Command.Compile.Finished :=
  Command.Compile.run fs ['n'] [input, "out.bf"]

/-- The size of what a compile command wrote, or its mark and exit code. -/
def compileItem (fs : FileSystem) (input : String) : Item :=
  let finished := compileFile fs input
  match finished.report.exit, finished.written with
  | 0, some (_, code) => .number code.length
  | exit, _ => .group [.text "compiler_err", .number exit]

/-- The mark of an interpret command, with the exit code if it failed. -/
def interpretItem (fs : FileSystem) (path : String) : Item :=
  match ((Command.Interpret.ending fs [path]).report secondsShape).exit with
  | 0 => .text "interp_ok"
  | exit => .group [.text "interp_err", .number exit]

def commands (count : Int) : List Item :=
  let fs := commandFiles count
  let code := ((compileFile fs "main.bfs").written.map Prod.snd).getD ""
  let fs := fs.write "out.bf" code.toUTF8.toList
  [compileItem fs "main.bfs", compileItem fs "missing.bfs", compileItem fs "broken.bfs",
    interpretItem fs "out.bf", interpretItem fs "missing.bf", interpretItem fs "broken.bf"]

end TapeScript.Workload
