import TapeScript.Fault
import TapeScript.Tape.Machine

set_option autoImplicit false

/-! # Results of workloads

A workload exercises one part of the library a given number of times. It gives back a list of items:
what the calls returned, and a mark for every call that was expected to fail and did.
-/

namespace TapeScript.Workload

inductive Item where
  | number (n : Int)
  | text (s : String)
  | flag (b : Bool)
  | nothing
  | group (items : List Item)
  | setupFault (fault : SetupFault)
  | runFault (fault : RunFault)

/-- The numbers below a count; none if the count is negative. -/
def below (count : Int) : List Nat := List.range count.toNat

/-- The time of a run has the length of this text. -/
def secondsShape : String := "0.000000"

/-- The mark of a call, if it failed. -/
def mark {α : Type} (label : String) (result : Except Fault α) : List Item :=
  match result with
  | .error _ => [.text label]
  | .ok _ => []

end TapeScript.Workload
