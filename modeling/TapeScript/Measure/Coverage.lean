import TapeScript.Data.Json
import TapeScript.Measure.Subject

set_option autoImplicit false

/-! # Coverage

Runs every function once while coverage is recorded, and adds to the recorded data which functions
failed and how many there were.
-/

namespace TapeScript.Measure

/-- The outcome of a coverage run. -/
structure CoverageRun where
  errors : List (String × String)
  count : Nat

namespace CoverageRun

/-- Runs the functions; if they cannot even be imported, that is the one error. -/
def perform (subjects : Subjects) : CoverageRun :=
  match subjects with
  | .error f => ⟨[("<import>", f.line)], 0⟩
  | .ok all =>
    let chosen := measured all
    let errors := chosen.filterMap fun s =>
      match (s.call []).run.run { made := 0, profiles := [] } with
      | (.error f, _) => some (s.name, f.line)
      | (.ok _, _) => none
    ⟨errors, chosen.length⟩

/-- Replaces a field, or adds it at the end. -/
def setField (fields : List (String × Json)) (key : String) (v : Json) : List (String × Json) :=
  if fields.any fun f => f.1 = key then fields.map fun f => if f.1 = key then (key, v) else f
  else fields ++ [(key, v)]

/-- The recorded data with the outcome noted in its head part. -/
def annotate (r : CoverageRun) (data : Json) : Json :=
  let errors := Json.obj (r.errors.map fun (name, text) => (name, .str text))
  let head := setField (data.field "meta").fields "_pti_bench_errors" errors
  let head := setField head "_pti_n_benches" (.ofInt r.count)
  .obj (setField data.fields "meta" (.obj head))

/-- One line on the outcome. -/
def summary (r : CoverageRun) (data : Json) : String :=
  let totals := data.field "totals"
  let percent := Number.fixedText ((totals.field "percent_covered").float?.getD 0) 1
  let covered := ((totals.field "covered_lines").int?).getD 0
  let statements := ((totals.field "num_statements").int?).getD 0
  let failures := r.errors.length
  s!"coverage: {percent}% ({covered}/{statements} stmts, {r.count} benches, {failures} errors)\n"

end CoverageRun

end TapeScript.Measure
