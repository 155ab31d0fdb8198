import TapeScript.Measure.Fingerprint
import TapeScript.Measure.Profile

set_option autoImplicit false

/-! # Measured functions

A `Subject` stands for a function under measurement. Called with parameters it prepares its work, and
running that work gives a value or a failure. Each finished run under observation takes the next of
the profiles on hand.
-/

namespace TapeScript.Measure

/-- A failure by its kind and its text; the alarm clock is a kind of its own. -/
inductive Failure where
  | raised (kind text : String)
  | alarm

namespace Failure

/-- The text of a failure; that of a missing key is quoted. -/
def text : Failure → String
  | .raised kind text => if kind = "KeyError" then Text.quote text else text
  | .alarm => ""

def kind : Failure → String
  | .raised kind _ => kind
  | .alarm => "_T"

/-- Kind and text. -/
def line (f : Failure) : String := f.kind ++ ": " ++ f.text

end Failure

abbrev Parameters := List (String × Value)

/-- A measured function. `make` builds the value from the parameters and from the number of values
built so far. A direct function does its work at once, instead of returning the work. -/
structure Subject where
  name : String
  callable : Bool
  make : Parameters → Nat → Except Failure Value
  defaults : Parameters
  choices : List Parameters
  setupFailure : Option Failure
  failure : Option Failure
  direct : Bool

/-- What is used up by measuring: values are counted per subject, profiles over all of them. -/
structure Supply where
  made : Nat
  profiles : List Profile

/-- A call that may fail; what was used up stays so. -/
abbrev Trial := ExceptT Failure (StateM Supply)

namespace Subject

/-- The given parameters over the defaults. -/
def merged (s : Subject) (given : Parameters) : Parameters :=
  given ++ s.defaults.filter fun d => !given.any fun g => g.1 = d.1

/-- Does the work. -/
def work (s : Subject) (ps : Parameters) : Trial Value := do
  if let some f := s.failure then throw f
  let supply ← getThe Supply
  match s.make ps (supply.made + 1) with
  | .error f => throw f
  | .ok v =>
    set { supply with made := supply.made + 1 }
    return v

def prepare (s : Subject) : Trial Unit := do
  if let some f := s.setupFailure then throw f

/-- A run from preparation to value. -/
def call (s : Subject) (given : Parameters) : Trial Value := do
  s.prepare
  s.work (s.merged given)

/-- Takes the next profile. -/
def takeProfile : Trial Profile := do
  let supply ← getThe Supply
  match supply.profiles with
  | [] => return .empty
  | p :: rest =>
    set { supply with profiles := rest }
    return p

/-- A run under observation. -/
def observe (s : Subject) (given : Parameters) : Trial (Value × Profile) := do
  let v ← s.call given
  let p ← takeProfile
  return (v, p)

end Subject

/-- The subjects that are measured: functions whose name starts as it should, in order of name. -/
def measured (all : List Subject) : List Subject :=
  (all.filter fun s => s.callable && s.name.startsWith "bench_").mergeSort fun a b =>
    decide (a.name ≤ b.name)

/-- What importing the measured functions gives. -/
abbrev Subjects := Except Failure (List Subject)

end TapeScript.Measure
