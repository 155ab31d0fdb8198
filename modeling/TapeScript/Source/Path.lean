set_option autoImplicit false

/-! # Paths and files

Paths are texts with `/` between their segments. They are brought into a normal form without
looking at any file, so that `x/../y` is `y` whether or not there is an `x`. A `FileSystem` is the
files a program can see, by their normal absolute paths.
-/

namespace TapeScript

namespace Path

def segments (path : String) : List String := (path.toList.splitOn '/').map String.ofList

/-- Follows one segment; `..` at the top stays there. -/
def follow (stack : List String) (segment : String) : List String :=
  if segment = "" ∨ segment = "." then stack
  else if segment = ".." then stack.drop 1
  else segment :: stack

def isAbsolute (path : String) : Bool := path.startsWith "/"

/-- The normal segments of a path seen from a directory. -/
def normalSegments (cwd path : String) : List String :=
  let start := if isAbsolute path then [] else (segments cwd).foldl follow []
  ((segments path).foldl follow start).reverse

def ofSegments (segs : List String) : String := "/" ++ String.intercalate "/" segs

/-- The normal absolute form of a path. -/
def absolute (cwd path : String) : String := ofSegments (normalSegments cwd path)

/-- The directory part of a normal absolute path. -/
def parent (path : String) : String := ofSegments ((segments path).filter (· ≠ "")).dropLast

/-- A path without empty segments and without `.`; `..` is kept, because what it leads to depends on
the directories that are there. -/
def tidySegments (path : String) : List String :=
  (segments path).filter fun s => s ≠ "" && s ≠ "."

/-- A path as it is printed. -/
def tidy (path : String) : String :=
  let body := String.intercalate "/" (tidySegments path)
  if isAbsolute path then "/" ++ body else if body = "" then "." else body

/-- A path seen from a directory, not brought into normal form. -/
def join (directory path : String) : String :=
  if isAbsolute path then path
  else if directory = "" ∨ directory.endsWith "/" then directory ++ path
  else directory ++ "/" ++ path

end Path

/-- What is found at a path. -/
inductive Entry where
  | file (bytes : List UInt8)
  | directory
  | missing
  /-- A segment before the last one is a file. -/
  | throughFile
  /-- A segment is too long. -/
  | nameTooLong
  /-- The path holds a character no name can hold. -/
  | impossibleName
  deriving DecidableEq

/-- Files by their segments. The directories are those on the way to a file or to the directory the
program runs in. -/
structure FileSystem where
  cwd : String
  files : List (List String × List UInt8)

namespace FileSystem

def cwdSegments (fs : FileSystem) : List String := Path.normalSegments "" fs.cwd

/-- The longest name of a file or directory, in bytes. -/
def nameLimit : Nat := 255

/-- Looks a normal path up. -/
def find (fs : FileSystem) (segs : List String) : Entry :=
  if segs.any fun s => s.toList.any (·.toNat = 0) then .impossibleName
  else
    match fs.files.lookup segs with
    | some bytes => .file bytes
    | none =>
      if segs.isPrefixOf fs.cwdSegments || fs.files.any fun (path, _) => segs.isPrefixOf path then
        .directory
      else if fs.files.any fun (path, _) => path.isPrefixOf segs then .throughFile
      else if segs.any fun s => decide (nameLimit < s.utf8ByteSize) then .nameTooLong
      else .missing

/-- Looks a path up, seen from the directory the program runs in. -/
def entry (fs : FileSystem) (path : String) : Entry := fs.find (Path.normalSegments fs.cwd path)

/-- Follows a path segment by segment; every segment has to start from a directory. -/
def walk (fs : FileSystem) (stack : List String) : List String → Option (List String)
  | [] => some stack.reverse
  | segment :: rest =>
    match fs.find stack.reverse with
    | .directory => fs.walk (Path.follow stack segment) rest
    | _ => none

/-- Where a path starts from. -/
def origin (fs : FileSystem) (path : String) : List String :=
  if Path.isAbsolute path then [] else fs.cwdSegments.reverse

/-- The bytes of the file at a path. -/
def fileAt? (fs : FileSystem) (path : String) : Option (List UInt8) := do
  let segs ← fs.walk (fs.origin path) (Path.tidySegments path)
  match fs.find segs with
  | .file bytes => some bytes
  | _ => none

def isFile (fs : FileSystem) (path : String) : Bool := (fs.fileAt? path).isSome

/-- Follows the directories of a path, making those that are missing. -/
def makeWay (fs : FileSystem) (stack : List String) : List String → Option (List String)
  | [] => some stack
  | segment :: rest =>
    let stack := Path.follow stack segment
    match fs.find stack.reverse with
    | .directory | .missing => fs.makeWay stack rest
    | _ => none

/-- Whether a file can be written at a path, once missing directories are made. -/
def canWrite (fs : FileSystem) (path : String) : Bool :=
  let segs := Path.tidySegments path
  match fs.makeWay (fs.origin path) segs.dropLast with
  | none => false
  | some stack =>
    match fs.find (segs.drop (segs.length - 1) |>.foldl Path.follow stack).reverse with
    | .file _ | .missing => true
    | _ => false

/-- Writes a file. -/
def write (fs : FileSystem) (path : String) (bytes : List UInt8) : FileSystem :=
  let segs := Path.normalSegments fs.cwd path
  { fs with files := (fs.files.filter fun (p, _) => p ≠ segs) ++ [(segs, bytes)] }

end FileSystem

end TapeScript
