import TapeScript.Measure.Subject
import TapeScript.Measure.Verdict

set_option autoImplicit false

/-! # A round of measuring

One round asks up to four helpers (coverage, time shares, version control, self-checks), prints a
report on what they say, and appends an entry to the journal of rounds. A round ends with a call to
stop once the shares of the repository have converged.
-/

namespace TapeScript.Measure

/-- What a helper gives back. -/
structure Reply where
  failure : Option Failure := none
  out : String := ""
  err : String := ""
  code : Int := 0

inductive Helper where
  | coverage
  | timeShare
  | versionControl
  | selfCheck
  deriving DecidableEq

/-- Everything a round depends on. `coverageData` is the file the coverage helper leaves behind. -/
structure Surroundings where
  benchSource : Option String
  journal : String
  coverage : Reply
  coverageData : Option Json
  timeShare : Option Reply
  versionControl : Reply
  selfCheck : Option Reply
  now : Json
  coverageSeconds : Float

/-- What a round leaves behind. A round that ran to its end has no exit code. -/
structure RoundReport where
  exit : Option Int
  out : String
  err : String
  asked : List Helper
  entry : Option Json

namespace Round

/-! ## Layout -/

def blanks (n : Nat) : String := String.ofList (List.replicate n ' ')

def padLeft (width : Nat) (s : String) : String := blanks (width - s.length) ++ s

def padRight (width : Nat) (s : String) : String := s ++ blanks (width - s.length)

def percentText (x : Float) : String := padLeft 4 (Number.fixedText x 0) ++ "%"

/-! ## The coverage table -/

structure CoverageRow where
  name : String
  statements : Int
  missing : Int
  percent : Float
  lines : List String

/-- Names are cut to this length. -/
def nameLimit : Nat := 60

/-- Missing lines are listed up to this number. -/
def lineLimit : Nat := 12

/-- A path seen from the root of the repository. -/
def relativeName (path : String) : String :=
  let root := Path.normalSegments "" repositoryRoot
  let segs := Path.normalSegments repositoryRoot path
  let rec descend : List String → List String → List String
    | r :: rs, s :: ss => if r = s then descend rs ss else (r :: rs).map (fun _ => "..") ++ s :: ss
    | rs, ss => rs.map (fun _ => "..") ++ ss
  match descend root segs with
  | [] => "."
  | rest => String.intercalate "/" rest

def CoverageRow.ofJson (path : String) (j : Json) : CoverageRow :=
  let summary := j.field "summary"
  { name := String.ofList ((relativeName path).toList.take nameLimit)
    statements := (summary.field "num_statements").int?.getD 0
    missing := (summary.field "missing_lines").int?.getD 0
    percent := (summary.field "percent_covered").float?.getD 0
    lines := (j.field "missing_lines").items.map fun l => toString (l.int?.getD 0) }

def CoverageRow.lineText (r : CoverageRow) : String :=
  let rest := if lineLimit < r.lines.length then "…" else ""
  String.intercalate "," (r.lines.take lineLimit) ++ rest

/-- The coverage recorded for all files together. -/
structure Totals where
  percent : Json
  covered : Json
  statements : Json

def Totals.ofJson (j : Json) : Totals where
  percent := (j.field? "percent_covered").getD (.ofFloat 0)
  covered := (j.field? "covered_lines").getD (.ofInt 0)
  statements := (j.field? "num_statements").getD (.ofInt 0)

def Totals.percentValue (t : Totals) : Float := t.percent.float?.getD 0

def rowText (width : Nat) (name : String) (statements missing : Int) (percent : Float) : String :=
  padRight width name ++ "  " ++ padLeft 5 (toString statements) ++ "  " ++
    padLeft 4 (toString missing) ++ "  " ++ percentText percent

/-- The table, the least covered files first. -/
def coverageTable (files : List (String × Json)) (t : Totals) : String :=
  let rows := (files.map fun (path, j) => CoverageRow.ofJson path j).mergeSort fun a b =>
    decide (a.percent ≤ b.percent)
  let width := rows.foldl (fun w r => max w r.name.length) 4
  let rule := String.ofList (List.replicate (width + 42) '-')
  let head := padRight width "Name" ++ "  Stmts  Miss  Cover  Missing"
  let body := rows.map fun r =>
    rowText width r.name r.statements r.missing r.percent ++ "  " ++ r.lineText
  let statements := t.statements.int?.getD 0
  let covered := t.covered.int?.getD 0
  let last := rowText width "TOTAL" statements (statements - covered) t.percentValue
  String.join (([head, rule] ++ body ++ [rule, last]).map (· ++ "\n"))

/-- Functions that failed under coverage. -/
def errorText (errors : List (String × Json)) : String :=
  if errors.isEmpty then ""
  else
    let count := errors.length
    s!"\n{count} bench error(s):\n" ++
      String.join (errors.map fun (name, text) => "  " ++ name ++ ": " ++ text.text?.getD "" ++ "\n")

/-! ## Time shares -/

/-- Functions below this percentage are marked. -/
def sharePercent : Float := 45

/-- The percentages by function. -/
def percentages (shares : List (String × Json)) : List (String × Float) :=
  shares.filterMap fun (name, j) => j.float?.map (name, ·)

/-- Failed functions have a negative percentage and are left out of the counts. -/
def valid (ps : List (String × Float)) : List (String × Float) := ps.filter fun p => p.2 ≥ 0

def below (ps : List (String × Float)) : List (String × Float) :=
  (valid ps).filter fun p => p.2 < sharePercent

def hotText (hot : List Json) : String :=
  if hot.isEmpty then ""
  else
    let parts := hot.map fun j =>
      let percent := Number.fixedText (((j.items.getD 0 .null).float?).getD 0) 0
      let name := ((j.items.getD 1 .null).text?).getD ""
      name ++ " " ++ percent ++ "%"
    " (hot: " ++ String.intercalate " " parts ++ ")"

def shareLine (hot : Json) (p : String × Float) : String :=
  let marked := p.2 ≥ 0 && p.2 < sharePercent
  let mark := if marked then "*" else " "
  let shown := if p.2 < 0 then 0 else p.2
  let tail :=
    if p.2 < 0 then "  <error>"
    else if marked then hotText (hot.field p.1).items
    else ""
  "  " ++ mark ++ " " ++ padRight 32 p.1 ++ " " ++ padLeft 5 (Number.fixedText shown 1) ++ "%" ++ tail

def shareText (shares : List (String × Float)) (hot : Json) : String :=
  if shares.isEmpty then ""
  else
    let sorted := shares.mergeSort fun a b => decide (a.2 ≤ b.2)
    "\nrepo_time (target 50%; * = below 45%):\n" ++
      String.join (sorted.map fun p => shareLine hot p ++ "\n")

/-! ## Modified files and self-checks -/

/-- Files that belong to the measuring itself. -/
def isOwnFile (path : String) : Bool :=
  path = "microbench.py" || path.startsWith "_pti_" || path.startsWith ".pti_"

/-- The modified files in the listing of the version control: a state of two letters, a blank, and
the path. Files it does not know are left out. -/
def modifiedFiles (listing : String) : List String :=
  (Text.splitLines listing.toList).filterMap fun line =>
    let path := String.ofList (Text.trim (line.drop 3))
    if path = "" || line.take 2 = ['?', '?'] || isOwnFile path then none else some path

def modifiedText (files : List String) : String :=
  if files.isEmpty then ""
  else
    let count := files.length
    s!"\n** repo modified ({count} file(s)) — revert these; only microbench.py is yours to edit:\n" ++
      String.join (files.map fun f => "   " ++ f ++ "\n")

def advice : List String := [
  "\nself-check (* = fix needed):",
  "  returns-none: run() has no return — collect and return the call results",
  "  unstable: seed RNG in setup; avoid time/uuid/id in the return",
  "  returns-input: return repo output, not the parameter value",
  "  low-repo-time: <50% of run() time is in repo code — move glue to setup",
  "  param-invariant: return something derived from run()'s work, not setup",
  "  repo-modified: revert edits to repo files (git checkout -- <path>)"]

/-- A function with its record and the verdict on it. -/
structure Judged where
  name : String
  record : CheckRecord
  verdict : Verdict

/-- Judges the records that are objects; a modified repository spoils all of them. -/
def judge (modified : Bool) (records : List (String × Json)) : List Judged :=
  records.filterMap fun (name, j) =>
    match j with
    | .obj _ =>
      let record := CheckRecord.ofJson j
      some ⟨name, record, if modified then .repositoryModified else record.verdict⟩
    | _ => none

def Judged.line (j : Judged) : String :=
  let mark := if j.verdict.isFine then " " else "*"
  let type := j.record.returnType.getD "?"
  let share := Number.fixedText (j.record.leastShare * 100) 0
  let millis := Number.fixedText j.record.medianMillis 1
  "  " ++ mark ++ " " ++ padRight 32 j.name ++ " " ++ padRight 16 j.verdict.label ++
    s!" ({type}, repo {share}%) {millis}ms"

/-- The functions to be fixed come first, each group in order of name. -/
def checkText (judged : List Judged) : String :=
  if judged.isEmpty then ""
  else
    let sorted := judged.mergeSort fun a b => decide (a.name ≤ b.name)
    let (bad, fine) := sorted.partition fun j => !j.verdict.isFine
    String.join ((advice ++ (bad ++ fine).map Judged.line).map (· ++ "\n"))

/-! ## The journal -/

/-- The earlier entries; `none` if one of them cannot be read. -/
def entries? (journal : String) : Option (List Json) :=
  ((journal.splitOn "\n").filter (fun l => !(Text.trim l.toList).isEmpty)).mapM fun l =>
    Json.parse? l.toList

/-- The number of the round: one more than the lines before it. -/
def roundNumber (journal : String) : Nat :=
  ((journal.splitOn "\n").filter (fun l => !(Text.trim l.toList).isEmpty)).length + 1

/-- The number of functions in the bench file: top-level definitions with the right name. -/
def countFunctions (source : String) : Nat :=
  ((source.splitOn "\n").filter fun l =>
    l.startsWith "def bench_" && ((l.toList.drop 10).head?).any fun c =>
      c.isAlphanum || c = '_' || 128 ≤ c.toNat).length

/-- Seconds since the last entry. -/
def sinceLast (earlier : List Json) (now : Json) : Float :=
  match (earlier.getLast?.map fun e => e.field "ts").bind Json.float?, now.float? with
  | some before, some t => if before == 0 then 0 else Number.round (t - before) 2
  | _, _ => 0

/-- Coverage below this percentage keeps a round from calling to stop. -/
def coverageGoal : Float := 60

/-- After this many rounds without improvement the shares count as converged. -/
def patience : Nat := 3

/-- The call to stop, from the numbers of marked functions in all rounds, the last one being that of
this round. -/
def stopText (coverage : Float) (current : Option Int) (earlier : List Int) : String :=
  match current with
  | none => ""
  | some n =>
    let call (reason : String) : String :=
      "\n>>> STOP: repo_time converged (" ++ reason ++ "). Finalize microbench.py now. <<<\n"
    if coverage < coverageGoal then ""
    else if n = 0 then call "0 below"
    else
      let all := earlier ++ [n]
      let best := all.foldl min n
      let idle := all.length - 1 - all.idxOf best
      if patience ≤ idle then call s!"no improvement in {idle} rounds; best {best} below" else ""

/-! ## The round -/

/-- What a helper printed as data, or why it failed. The data is on the last line. -/
def replyData (r : Reply) : Except String Json :=
  match r.failure with
  | some f => .error f.line
  | none =>
    match ((r.out.splitOn "\n").filter (fun l => !(Text.trim l.toList).isEmpty)).getLast? with
    | none => .ok .null
    | some line =>
      match Json.parse? line.toList with
      | some j => .ok j
      | none => .error "JSONDecodeError: Expecting value: line 1 column 1 (char 0)"

/-- The data of a helper that may be missing, and what is said about its failure. -/
def consult (r : Option Reply) (label : String) : Json × String :=
  match r.map replyData with
  | none => (.null, "")
  | some (.ok j) => (j, "")
  | some (.error text) => (.null, s!"[{label} runner: {text}]\n")

/-- A whole round. -/
def perform (s : Surroundings) : RoundReport :=
  match s.coverage.code, s.coverageData with
  | 0, some data =>
    let t := Totals.ofJson (data.field "totals")
    let errors := ((data.field "meta").field "_pti_bench_errors").fields
    let (times, timeErr) := consult s.timeShare "repotime"
    let shares := (times.field "repo_time_pct").fields
    let percents := percentages shares
    let (checks, checkErr) := consult s.selfCheck "semcheck"
    let modified :=
      if s.selfCheck.isNone || s.versionControl.failure.isSome then []
      else modifiedFiles s.versionControl.out
    let judged := judge (!modified.isEmpty) (checks.field "semcheck").fields
    let bad := (judged.filter fun j => !j.verdict.isFine).length
    let validCount := (valid percents).length
    let belowCount := (below percents).length
    let current : Option Int := if validCount = 0 then none else some belowCount
    let number := roundNumber s.journal
    let functions := (s.benchSource.map countFunctions).getD 0
    let coverage := Number.fixedText t.percentValue 1
    let seconds := Number.fixedText s.coverageSeconds 1
    let belowPart :=
      if percents.isEmpty then "" else s!", {belowCount}/{validCount} below repo_time 45%"
    let checkPart :=
      if judged.isEmpty then "" else
        let count := judged.length
        s!", {bad}/{count} not self-checking"
    let closing := s!"\n[round {number}: {functions} benches, {coverage}% covered" ++ belowPart ++
      checkPart ++ s!", measured in {seconds}s]\n"
    let earlier := entries? s.journal
    let marks := (earlier.getD []).filterMap fun e => (e.field "n_below_repo_time").int?
    let entry := earlier.map fun before => Json.obj [
      ("round", .ofInt number),
      ("ts", s.now),
      ("wall_since_prev_s", .ofFloat (sinceLast before s.now)),
      ("coverage_pct", t.percent),
      ("covered_lines", t.covered),
      ("num_statements", t.statements),
      ("n_bench_fns", .ofInt functions),
      ("n_bench_errors", .ofInt errors.length),
      ("cov_measure_s", .ofFloat (Number.round s.coverageSeconds 3)),
      ("repo_time_pct", .obj shares),
      ("n_below_repo_time", (current.map Json.ofInt).getD .null),
      ("semcheck", .obj (judged.map fun j => (j.name, .str j.verdict.label))),
      ("n_not_self_checking", .ofInt bad)]
    { exit := none
      out := coverageTable (data.field "files").fields t ++ errorText errors ++
        shareText percents (times.field "hot_ext") ++ modifiedText modified ++ checkText judged ++
        closing ++ stopText t.percentValue current marks
      err := s.coverage.err ++ timeErr ++ checkErr
      asked := [.coverage] ++ (if s.timeShare.isSome then [.timeShare] else []) ++
        (if s.selfCheck.isSome then [.versionControl, .selfCheck] else [])
      entry }
  | code, _ =>
    { exit := some (if code = 0 then 1 else code)
      out := s!"coverage measurement failed (exit {code})\n" ++ s.coverage.out ++ "\n"
      err := s.coverage.err
      asked := [.coverage]
      entry := none }

end Round

end TapeScript.Measure
