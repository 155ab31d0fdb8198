import TapeScript.Measure.Subject

set_option autoImplicit false

/-! # Self-checks

A self-check runs a function twice with its defaults and once with each choice of parameters. It
records the type and the fingerprints of what comes back, the fingerprints of the parameters, and
how much of the time was spent in the repository.
-/

namespace TapeScript.Measure

/-- The shares of one observed run. -/
structure Shares where
  repository : Float
  compiled : Float
  millis : Float

def Shares.ofProfile (p : Profile) : Shares :=
  ⟨p.repositoryShare, p.compiledShare, p.repositoryMillis⟩

/-- The record of one function. Runs are named by their parameters. -/
structure SelfCheck where
  returnType : String
  stable : List String := []
  byChoice : List (String × String) := []
  parameters : List String := []
  shares : List (String × Shares) := []

namespace SelfCheck

/-- The name of the run with defaults. -/
def defaultTag : String := "<default>"

/-- The name of a choice of parameters. -/
def tag (ps : Parameters) : String :=
  if ps.isEmpty then "-"
  else String.intercalate "," (ps.map fun (k, v) => k ++ "=" ++ v.shown)

/-- Records a run with a choice of parameters. -/
def addChoice (s : Subject) (check : SelfCheck) (ps : Parameters) : Trial SelfCheck := do
  let (v, p) ← s.observe ps
  let name := tag ps
  return { check with
    byChoice := check.byChoice.filter (·.1 ≠ name) ++ [(name, v.fingerprint)]
    shares := check.shares.filter (·.1 ≠ name) ++ [(name, .ofProfile p)] }

def perform (s : Subject) : Trial SelfCheck := do
  let (first, p) ← s.observe []
  let second ← s.call []
  let start : SelfCheck := {
    returnType := first.typeName
    stable := [first.fingerprint, second.fingerprint]
    parameters := s.choices.flatMap fun ps => ps.map fun (_, v) => v.fingerprint
    shares := [(defaultTag, .ofProfile p)] }
  s.choices.foldlM (addChoice s) start

/-- The record of a failed check. -/
def failed : Failure → SelfCheck
  | .alarm => { returnType := "<timeout>" }
  | f => { returnType := "<" ++ f.kind ++ ">" }

/-- Checks all functions in turn. -/
def all (subjects : List Subject) (profiles : List Profile) : List (String × SelfCheck) :=
  let step (acc : List (String × SelfCheck) × List Profile) (s : Subject) :=
    let (result, supply) := (perform s).run.run { made := 0, profiles := acc.2 }
    let check := match result with
      | .ok check => check
      | .error f => failed f
    (acc.1 ++ [(s.name, check)], supply.profiles)
  ((measured subjects).foldl step ([], profiles)).1

end SelfCheck

end TapeScript.Measure
