import TapeScript.Measure.Subject

set_option autoImplicit false

/-! # Time shares

How much of the time of each function is spent in the repository, and where most of the rest goes.
-/

namespace TapeScript.Measure

/-- The percentage of a function, negative if it failed, and its hottest places outside. -/
structure TimeShare where
  percent : Float
  hottest : List (Float × String)

namespace TimeShare

/-- Runs a function with its defaults. A direct function has done its work before it can be observed,
and does it once more for that. -/
def perform (s : Subject) : Trial TimeShare := do
  if s.direct then
    let _ ← s.call []
  let (_, p) ← s.observe []
  return ⟨p.percent p.repositorySeconds, p.hottest⟩

def failed (f : Failure) : TimeShare := ⟨-1, [(0, "<" ++ f.kind ++ ">")]⟩

/-- Measures all functions in turn. -/
def all (subjects : List Subject) (profiles : List Profile) : List (String × TimeShare) :=
  let step (acc : List (String × TimeShare) × List Profile) (s : Subject) :=
    let (result, supply) := (perform s).run.run { made := 0, profiles := acc.2 }
    let share := match result with
      | .ok share => share
      | .error f => failed f
    (acc.1 ++ [(s.name, share)], supply.profiles)
  ((measured subjects).foldl step ([], profiles)).1

end TimeShare

end TapeScript.Measure
