import TapeScript.Command.Compile
import TapeScript.Command.Interpret

set_option autoImplicit false

/-! # The program

`compile` and `interpret` on the command line. This layer reads and writes files and the console; the
commands themselves are in `TapeScript.Command`.
-/

namespace TapeScript

/-- The file at a path, if there is one. -/
def loadFile? (path : String) : IO (Option (List UInt8)) := do
  try
    let bytes ← IO.FS.readBinFile path
    return some bytes.toList
  catch _ => return none

/-- Loads files and the files they include. -/
partial def loadAll (fs : FileSystem) : List String → IO FileSystem
  | [] => return fs
  | path :: rest => do
    if fs.isFile path then loadAll fs rest
    else
      match ← loadFile? path with
      | none => loadAll fs rest
      | some bytes =>
        let fs := fs.write path bytes
        let base := Path.parent (Path.absolute fs.cwd path)
        let inner := (Include.namesIn bytes).map (Path.join base)
        loadAll fs (inner ++ rest)

/-- The files a command can reach from the paths on its command line. -/
def reachable (args : List String) : IO FileSystem := do
  let cwd ← IO.currentDir
  loadAll { cwd := cwd.toString, files := [] } args

def emitReport (r : Command.Report) : IO UInt32 := do
  IO.print r.out
  IO.eprint r.err
  return r.exit.toUInt32

/-- Reads the answer to a question; `none` at the end of the input. -/
def readAnswer : IO (Option String) := do
  let input ← IO.getStdin
  let typed ← input.getLine
  return Command.Compile.firstLine? typed.toList

def runCompile (args : List String) : IO UInt32 := do
  match Command.Compile.request args with
  | .error report => emitReport report
  | .ok (input, output) =>
    let fs ← reachable [input]
    match Command.Compile.draft fs input output with
    | .error finished => emitReport finished.report
    | .ok draft =>
      IO.print draft.out
      (← IO.getStdout).flush
      let answer ← if draft.asks then readAnswer else pure none
      let finished := draft.finish fs answer
      let rest := finished.report.out.drop draft.out.length
      match finished.written with
      | some (path, text) =>
        let directory := Path.parent (Path.absolute fs.cwd path)
        IO.FS.createDirAll directory
        IO.FS.writeFile path text
      | none => pure ()
      emitReport { finished.report with out := rest.toString }

def runInterpret (args : List String) : IO UInt32 := do
  let fs ← reachable args
  let before ← IO.monoMsNow
  let ending := Command.Interpret.ending fs args
  let failed := match ending with
    | .done _ _ => false
    | _ => true
  let after ← if failed then pure before else IO.monoMsNow
  let seconds := Number.fixedText ((after - before).toFloat / 1000) 4
  emitReport (ending.report seconds)

end TapeScript

def main (args : List String) : IO UInt32 :=
  match args with
  | "compile" :: rest => TapeScript.runCompile rest
  | "interpret" :: rest => TapeScript.runInterpret rest
  | _ => do
    IO.eprintln "usage: tapescript (compile | interpret) ..."
    return 2
