import TapeScript.Measure.Frame
import TapeScript.Number.Places

set_option autoImplicit false

/-! # Profiles

A profile says how many seconds were spent in each function itself. Summed up, it says how much of
the total belongs to the repository, how much to compiled code, and where the rest went.
-/

namespace TapeScript.Measure

/-- The seconds spent in one function of a file. -/
structure ProfileRow where
  file : String
  seconds : Float

structure Profile where
  rows : List ProfileRow
  total : Float

namespace Profile

def empty : Profile := ⟨[], 0⟩

def sumOf (rows : List ProfileRow) : Float := rows.foldl (fun t r => t + r.seconds) 0

/-- Seconds in code of the repository. -/
def repositorySeconds (p : Profile) : Float := sumOf (p.rows.filter fun r => isRepositoryFile r.file)

/-- Built-in functions and compiled modules. -/
def isCompiled (file : String) : Bool :=
  file.startsWith "~" || file.endsWith ".so" || file.endsWith ".pyd"

def compiledSeconds (p : Profile) : Float := sumOf (p.rows.filter fun r => isCompiled r.file)

/-- A part of the total; nothing is a part of no time. -/
def share (p : Profile) (seconds : Float) : Float :=
  if p.total > 0 then Number.round (seconds / p.total) 3 else 0

def repositoryShare (p : Profile) : Float := p.share p.repositorySeconds

def compiledShare (p : Profile) : Float := p.share p.compiledSeconds

/-- Milliseconds in code of the repository. -/
def repositoryMillis (p : Profile) : Float := Number.round (p.repositorySeconds * 1000) 1

/-! ## Where the rest went -/

/-- The name under which time outside the repository is shown. -/
def outsideName (file : String) : String :=
  if file.startsWith "~" then "builtins"
  else if Path.absolute repositoryRoot file = benchFile then "<run() body>"
  else
    let base := ((file.splitOn "/").getLast?).getD file
    if base.endsWith ".py" then String.ofList (base.toList.take (base.length - 3)) else base

/-- Adds seconds to a name. -/
def addTo (sums : List (String × Float)) (name : String) (seconds : Float) : List (String × Float) :=
  if sums.any fun s => s.1 = name then
    sums.map fun s => if s.1 = name then (s.1, s.2 + seconds) else s
  else sums ++ [(name, seconds)]

/-- Seconds outside the repository by name, in order of first appearance. -/
def outside (p : Profile) : List (String × Float) :=
  (p.rows.filter fun r => !isRepositoryFile r.file).foldl
    (fun sums r => addTo sums (outsideName r.file) r.seconds) []

/-- The total that percentages refer to; no time at all counts as a nanosecond. -/
def base (p : Profile) : Float := if p.total > 0 then p.total else 1e-9

def percent (p : Profile) (seconds : Float) : Float := Number.round (100 * seconds / p.base) 1

/-- How many names are shown. -/
def hotCount : Nat := 2

/-- The names that took most time outside the repository, with their percentages. -/
def hottest (p : Profile) : List (Float × String) :=
  let sorted := p.outside.mergeSort fun a b => decide (a.2 ≥ b.2)
  ((sorted.take hotCount).filter fun s => s.2 > 0).map fun (name, seconds) => (p.percent seconds, name)

end Profile

end TapeScript.Measure
