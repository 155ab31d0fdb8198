import TapeScript.Data.Json
import TapeScript.Number.Places

set_option autoImplicit false

/-! # Verdicts on self-checks

A verdict on a function from the record of its self-check. The record is read as data, because it
comes from a run of its own and may be incomplete.
-/

namespace TapeScript.Measure

inductive Verdict where
  | repositoryModified
  | error
  | returnsNone
  | unstable
  | returnsInput
  | lowRepositoryTime
  | tooFast
  | parameterInvariant
  | okWithoutParameters
  | ok
  deriving DecidableEq

namespace Verdict

def label : Verdict → String
  | .repositoryModified => "repo-modified"
  | .error => "error"
  | .returnsNone => "returns-none"
  | .unstable => "unstable"
  | .returnsInput => "returns-input"
  | .lowRepositoryTime => "low-repo-time"
  | .tooFast => "too-fast"
  | .parameterInvariant => "param-invariant"
  | .okWithoutParameters => "ok-unparam"
  | .ok => "ok"

/-- Whether the function may stay as it is. -/
def isFine : Verdict → Bool
  | .ok | .okWithoutParameters => true
  | _ => false

end Verdict

/-- The record of a self-check as it is judged. -/
structure CheckRecord where
  returnType : Option String
  stable : List String
  parameters : List String
  byChoice : List String
  shares : List Float
  millis : List Float

namespace CheckRecord

def texts (j : Json) : List String := j.items.filterMap Json.text?

/-- The numbers among the values of an object. -/
def numbers (j : Json) : List Float := j.fields.filterMap fun f => f.2.float?

def ofJson (j : Json) : CheckRecord where
  returnType := (j.field "ret_type").text?
  stable := texts (j.field "fp_stable")
  parameters := texts (j.field "param_fps")
  byChoice := (j.field "fp_by_param").fields.filterMap fun f => f.2.text?
  shares := numbers (j.field "repo_frac")
  millis := numbers (j.field "repo_tt_ms")

def ascending (xs : List Float) : List Float := xs.mergeSort fun a b => decide (a ≤ b)

/-- The least share; nothing counts as zero. -/
def leastShare (r : CheckRecord) : Float := ((ascending r.shares).head?).getD 0

/-- The middle value, or the mean of the two middle ones. -/
def median (xs : List Float) : Float :=
  let sorted := ascending xs
  let n := sorted.length
  if n = 0 then 0
  else if n % 2 = 1 then sorted.getD (n / 2) 0
  else (sorted.getD (n / 2 - 1) 0 + sorted.getD (n / 2) 0) / 2

def medianMillis (r : CheckRecord) : Float := median r.millis

/-- All texts are the same one. -/
def allSame (xs : List String) : Bool :=
  match xs with
  | [] => false
  | x :: rest => rest.all (· = x)

/-- The share of the time below which a function says too little about the repository. -/
def shareGoal : Float := 0.5

/-- The time below which a run is too short to be measured, in milliseconds. -/
def millisGoal : Float := 1.0

/-- The first fault that applies. -/
def verdict (r : CheckRecord) : Verdict :=
  match r.returnType with
  | none => .error
  | some type =>
    if type.startsWith "<" then .error
    else if type = "NoneType" then .returnsNone
    else if !allSame r.stable then .unstable
    else if r.stable.any (· ∈ r.parameters) then .returnsInput
    else if r.shares.any (· < shareGoal) then .lowRepositoryTime
    else if !r.millis.isEmpty && r.medianMillis < millisGoal then .tooFast
    else if r.byChoice.length < 2 then .okWithoutParameters
    else if allSame r.byChoice then .parameterInvariant
    else .ok

end CheckRecord

end TapeScript.Measure
