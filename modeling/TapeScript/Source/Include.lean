import TapeScript.Source.Path
import TapeScript.Text.Blank
import TapeScript.Text.Utf8

set_option autoImplicit false

/-! # Include lines

A line that starts with `#include` is replaced by the file it names, between two marker comments;
every other line is kept without the blanks at its end. A file must not include itself, directly or
by way of other files, but may be included more than once.
-/

namespace TapeScript

/-- Why a file cannot be expanded. A place is a file and a line number. -/
inductive IncludeFault where
  /-- The path that was met twice, and the include lines that led there, innermost first. -/
  | circular (path : String) (places : List (String × Nat))
  | badFormat (path : String) (line : Nat)
  /-- A file that is not there is reported as the file whose reading failed last: the one that the
  expansion started from. -/
  | notFound (path : String)
  | isDirectory
  | throughFile
  | nameTooLong
  | impossibleName
  | undecodable (fault : Text.DecodeFault)
  deriving DecidableEq

namespace IncludeFault

def placesText (places : List (String × Nat)) : String :=
  String.join (places.map fun (path, line) => s!" (referenced in {path}:{line})")

/-- The text of a fault, and whether the language itself words it. -/
def message : IncludeFault → Option String
  | .circular path places => some (s!"Circular include detected: {path}" ++ placesText places)
  | .badFormat path line =>
    some (s!"Invalid #include format in {path}:{line}. " ++ "Expected #include \"filename\";")
  | .notFound path => some s!"Main file not found: {path}"
  | .isDirectory | .throughFile | .nameTooLong | .impossibleName | .undecodable _ => none

/-- Adds the include line by which the failing file was reached. -/
def reachedFrom (path : String) (line : Nat) : IncludeFault → IncludeFault
  | .circular inner places => .circular inner (places ++ [(path, line)])
  | .notFound _ => .notFound path
  | fault => fault

end IncludeFault

namespace Include

/-- What a line asks for. -/
inductive Line where
  | text (line : List Char)
  | includes (name : String)
  | malformed
  deriving DecidableEq

def startsWith (s start : List Char) : Bool := start.isPrefixOf s

/-- The name in a well-formed include line: a first word, then a name in double quotes and a
semicolon. -/
def nameIn? (stripped : List Char) : Option String :=
  match Text.wordsAtMost 1 stripped with
  | [_, rest] =>
    if rest.getLast? = some ';' then
      let quoted := Text.trim rest.dropLast
      if quoted.head? = some '"' ∧ quoted.getLast? = some '"' then
        some (String.ofList (quoted.drop 1).dropLast)
      else none
    else none
  | _ => none

def Line.read (line : List Char) : Line :=
  let stripped := Text.trim line
  if startsWith stripped "#include".toList then
    match nameIn? stripped with
    | some name => .includes name
    | none => .malformed
  else .text (Text.trimRight line)

/-- The lines of a file, and the fault met behind them. Bytes that can never be decoded spoil the
whole file; an incomplete character at its end is met only there, and is counted from the start of
what is left. -/
def fileLines (bytes : List UInt8) : List (List Char) × Option IncludeFault :=
  let (chars, fault) := Text.decode bytes
  let chars := Text.universalNewlines chars
  match fault with
  | none => (Text.lines chars, none)
  | some f =>
    if f.reason = .unexpectedEnd then
      let complete := (chars.reverse.dropWhile (· ≠ '\n')).reverse
      (Text.lines complete, some (.undecodable { f with start := 0, stop := f.stop - f.start }))
    else ([], some (.undecodable f))

/-- The expansion of a file. `active` are the files being expanded, by normal path. Every level adds
a file to them, so that fuel of one more than the number of files is enough. -/
def expandFile (fs : FileSystem) : Nat → List (List String) → String → Except IncludeFault (List String)
  | 0, _, path => .error (.notFound path)
  | fuel + 1, active, path =>
    let segs := Path.normalSegments fs.cwd path
    if segs ∈ active then .error (.circular path [])
    else
      match fs.find segs with
      | .missing => .error (.notFound path)
      | .directory => .error .isDirectory
      | .throughFile => .error .throughFile
      | .nameTooLong => .error .nameTooLong
      | .impossibleName => .error .impossibleName
      | .file bytes => do
        let base := Path.parent (Path.ofSegments segs)
        let (lines, fault) := fileLines bytes
        let pieces ← lines.zipIdx.mapM fun (line, i) =>
          match Line.read line with
          | .text kept => .ok [String.ofList kept]
          | .malformed => .error (.badFormat path (i + 1))
          | .includes name =>
            match expandFile fs fuel (segs :: active) (Path.join base name) with
            | .ok inner =>
              .ok [s!"// --- Start include: {name} ---\n", String.intercalate "\n" inner,
                s!"\n// --- End include: {name} ---"]
            | .error fault => .error (fault.reachedFrom path (i + 1))
        match fault with
        | some f => .error f
        | none => .ok pieces.flatten

/-- The names a file includes. -/
def namesIn (bytes : List UInt8) : List String :=
  (fileLines bytes).1.filterMap fun line =>
    match Line.read line with
    | .includes name => some name
    | .text _ | .malformed => none

/-- The text of a file with all include lines expanded. -/
def expand (fs : FileSystem) (path : String) : Except IncludeFault String := do
  let pieces ← expandFile fs (fs.files.length + 1) [] path
  return String.intercalate "\n" pieces

end Include

end TapeScript
