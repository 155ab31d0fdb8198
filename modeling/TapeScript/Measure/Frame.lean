import TapeScript.Source.Path

set_option autoImplicit false

/-! # Whose code a frame runs

A profile attributes time to files. A file belongs to the repository if it lies below its root and is
neither the bench file nor one of the measuring scripts, nor in a directory of built or foreign code.
-/

namespace TapeScript.Measure

/-- Matches a text against a pattern in which `*` stands for any characters, slashes included. -/
def matchesGlob : List Char → List Char → Bool
  | [], s => s.isEmpty
  | '*' :: p, s => matchesGlob p s || match s with
    | [] => false
    | _ :: rest => matchesGlob ('*' :: p) rest
  | c :: p, s =>
    match s with
    | [] => false
    | d :: rest => c == d && matchesGlob p rest
termination_by p s => (p.length, s.length)

/-- Where the measured repository lies. -/
def repositoryRoot : String := "/repo"

def benchFile : String := "/repo/microbench.py"

/-- Files that count as foreign although they lie below the root. -/
def foreignPatterns : List String := [
  "*/_pti_*", "*/build/*", "*/dist/*", "*/venv/*", "*/.venv/*", "*/vendor/*", "*/site-packages/*",
  "*/*.egg-info/*"]

/-- Whether a file belongs to the repository. Names in angle brackets, and those that start with a
tilde, are no files. -/
def isRepositoryFile (file : String) : Bool :=
  if file.startsWith "<" || file.startsWith "~" then false
  else
    let path := Path.absolute repositoryRoot file
    path.startsWith (repositoryRoot ++ "/") && path ≠ benchFile &&
      !foreignPatterns.any fun p => matchesGlob p.toList path.toList

end TapeScript.Measure
