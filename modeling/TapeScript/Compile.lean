import TapeScript.Lower.Source
import TapeScript.Source.Include

set_option autoImplicit false

/-! # Compiling files

A file is compiled in three stages: its include lines are expanded, the text is parsed, and the
program is lowered. The session keeps its scopes, its cells and the head position from one file to
the next. A failure is written to the log and ends the compilation, except that a path which is no
readable file ends it without a word.
-/

namespace TapeScript

/-- How a compilation ends. -/
inductive Outcome where
  | code (code : Code)
  | includeFault (fault : IncludeFault)
  | parseFault (fault : ParseFault)
  | lowerFault (fault : RuleFault)
  /-- The file could not be read at all. -/
  | unreadable (fault : IncludeFault)

namespace Outcome

/-- The emitted code; empty after a failed lowering, and missing if it did not come to that. -/
def code? : Outcome → Option Code
  | .code emitted => some emitted
  | .lowerFault _ => some []
  | .includeFault _ | .parseFault _ | .unreadable _ => none

end Outcome

/-- Whether a fault of include expansion is reported, or leaves the compiler as it is. -/
def IncludeFault.reported : IncludeFault → Bool
  | .circular _ _ | .badFormat _ _ | .notFound _ | .impossibleName | .undecodable _ => true
  | .isDirectory | .throughFile | .nameTooLong => false

/-- A fault of include expansion as it is logged. -/
def IncludeFault.text : IncludeFault → String
  | .undecodable fault => fault.message
  | .impossibleName => "embedded null byte"
  | fault => fault.message.getD ""

def ParseFault.text : ParseFault → String
  | .unexpectedToken (some token) line column =>
    s!"Unexpected token '{token}' at line {line}, column {column}."
  | .unexpectedToken none line column =>
    s!"Unexpected end of input after line {line}, column {column}."
  | .unexpectedCharacter char line column =>
    s!"No terminal matches '{char}' at line {line} col {column}"

def RuleFault.text (f : RuleFault) : String :=
  let reason := f.fault.message.getD ""
  match f.rule with
  | some rule => s!"Error trying to process rule \"{rule}\":\n\n{reason}"
  | none => reason

/-- Compiles the file at a path. -/
def Session.compile (fs : FileSystem) (path : String) (s : Session) (stack : CallStack := {}) :
    Outcome × Session :=
  let s := s.note s!"--- Starting Compilation: {path} ---"
  match Include.expand fs path with
  | .error fault =>
    if fault.reported then
      (.includeFault fault, s.note s!"Error during include processing: {fault.text}")
    else (.unreadable fault, s)
  | .ok text =>
    match Source.parse text.toList with
    | .error fault => (.parseFault fault, s.note s!"Error during parsing: {fault.text}")
    | .ok source =>
      let s := { s with defines := DefineTable.ofText text.toList }
      match (SourceLower.source source stack).run s with
      | (.error fault, s) =>
        (.lowerFault fault,
          s.note s!"An unexpected error occurred during transformation: {fault.text}")
      | (.ok code, s) => (.code code, s.note s!"Max Temp used: {s.bench.cells.maxScratch}")

end TapeScript
