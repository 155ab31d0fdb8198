import TapeScript.Command.Compile
import TapeScript.Proofs.PoolSize
import TapeScript.Proofs.WrittenFiles

set_option autoImplicit false

/-! # What the compile command leaves in its output file

The command writes a file in the end whenever the source could be read at all, also if there is no
code to write. So a compilation that fails empties the file, and after a failed lowering the command
even ends with success (`Command.Compile.ends_by_outcome`). The code of a compilation that succeeds
stands in the file, whether or not it was compiled a second time with fewer scratch cells.
-/

namespace TapeScript

/-! ## Files -/

namespace Path

/-- Empty segments and `.` lead nowhere. -/
theorem foldl_follow_filter (segs : List String) (stack : List String) :
    (segs.filter fun s => s ≠ "" && s ≠ ".").foldl follow stack = segs.foldl follow stack := by
  induction segs generalizing stack with
  | nil => rfl
  | cons s segs ih =>
    rw [List.filter_cons, List.foldl_cons]
    by_cases hs : s = "" ∨ s = "."
    · have hdropped : (decide (s ≠ "") && decide (s ≠ ".")) = false := by
        rcases hs with rfl | rfl <;> simp
      rw [hdropped, if_neg Bool.false_ne_true, ih, follow, if_pos hs]
    · have hkept : (decide (s ≠ "") && decide (s ≠ ".")) = true := by
        rw [not_or] at hs
        simp [hs]
      rw [hkept, if_pos rfl, List.foldl_cons, ih]

end Path

namespace FileSystem

variable {fs : FileSystem} {path : String}

theorem eq_of_makeWay {segs stack stack' : List String}
    (h : fs.makeWay stack segs = some stack') : stack' = segs.foldl Path.follow stack := by
  induction segs generalizing stack with
  | nil =>
    cases h
    rfl
  | cons s segs ih =>
    rw [makeWay] at h
    split at h
    · exact ih h
    · exact ih h
    · cases h

/-- The segments of a path, followed from where it starts, lead to its normal form. -/
theorem follow_origin (fs : FileSystem) (path : String) :
    ((Path.tidySegments path).foldl Path.follow (fs.origin path)).reverse =
      Path.normalSegments fs.cwd path := by
  have hcwd : fs.cwdSegments.reverse = (Path.segments fs.cwd).foldl Path.follow [] := by
    have hempty : Path.segments "" = [""] := rfl
    rw [cwdSegments, Path.normalSegments, List.reverse_reverse, hempty]
    simp [Path.follow]
  rw [Path.tidySegments, Path.foldl_follow_filter, origin, hcwd]
  rfl

/-- Where a file can be written, there is a file or nothing. -/
theorem entry_of_canWrite (h : fs.canWrite path = true) :
    (∃ bytes, fs.entry path = .file bytes) ∨ fs.entry path = .missing := by
  unfold canWrite at h
  dsimp only at h
  split at h
  · cases h
  · next stack hway =>
    have hsegs := Path.tidySegments path |>.take_append_drop ((Path.tidySegments path).length - 1)
    rw [← List.dropLast_eq_take] at hsegs
    rw [eq_of_makeWay hway, ← List.foldl_append, hsegs, follow_origin] at h
    unfold entry
    split at h
    · next bytes hfind => exact .inl ⟨bytes, hfind⟩
    · next hfind => exact .inr hfind
    · cases h

-- a directory is neither
example : canWrite ⟨"/", [(["m", "o"], [])]⟩ "m" = false := by decide +kernel

/-- What is written can be read again. -/
theorem entry_write (h : fs.canWrite path = true) (bytes : List UInt8) :
    (fs.write path bytes).entry path = .file bytes := by
  have hpossible :
      ((Path.normalSegments fs.cwd path).any fun s => s.toList.any (·.toNat = 0)) = false := by
    by_contra himpossible
    have hentry : fs.entry path = .impossibleName := by
      rw [entry, find, if_pos (by simpa using himpossible)]
    rcases entry_of_canWrite h with ⟨_, hfile⟩ | hmissing
    · rw [hentry] at hfile
      cases hfile
    · rw [hentry] at hmissing
      cases hmissing
  have hlookup : (fs.write path bytes).files.lookup (Path.normalSegments fs.cwd path) =
      some bytes := by
    rw [write, List.lookup_append, List.lookup_eq_none_iff.mpr, Option.none_or, List.lookup_cons_self]
    intro entry hentry
    have hne : entry.1 ≠ Path.normalSegments fs.cwd path := by
      simpa using (List.mem_filter.mp hentry).2
    exact bne_iff_ne.mpr hne.symm
  show (fs.write path bytes).find (Path.normalSegments fs.cwd path) = .file bytes
  rw [find, hpossible, if_neg Bool.false_ne_true, hlookup]

/-- All other files stay as they are. -/
theorem lookup_write_of_ne {segs : List String} (h : segs ≠ Path.normalSegments fs.cwd path)
    (bytes : List UInt8) : (fs.write path bytes).files.lookup segs = fs.files.lookup segs := by
  rw [write, List.lookup_append]
  have hsingle : [(Path.normalSegments fs.cwd path, bytes)].lookup segs = none := by
    rw [List.lookup_cons, beq_eq_false_iff_ne.mpr h, List.lookup_nil]
  rw [hsingle, Option.or_none]
  induction fs.files with
  | nil => rfl
  | cons entry files ih =>
    by_cases hentry : entry.1 = Path.normalSegments fs.cwd path
    · rw [List.filter_cons_of_neg (by simpa using hentry), ih, List.lookup_cons]
      have hne : (segs == entry.1) = false := by
        rw [hentry]
        simpa using h
      rw [hne]
    · rw [List.filter_cons_of_pos (by simpa using hentry), List.lookup_cons, List.lookup_cons, ih]

end FileSystem

/-! ## Reading and resizing -/

namespace Session

variable {fs : FileSystem} {path : String}

/-- Whether a file can be read at all does not depend on the session. -/
theorem unreadable_iff {s : Session} {fault : IncludeFault} :
    (s.compile fs path).1 = .unreadable fault ↔
      Include.expand fs path = .error fault ∧ fault.reported = false := by
  unfold compile
  dsimp only
  cases Include.expand fs path with
  | error other =>
    by_cases hreported : other.reported = true
    · simp only [hreported, if_true]
      constructor
      · intro h
        cases h
      · rintro ⟨⟨⟩, hnot⟩
        rw [hreported] at hnot
        cases hnot
    · simp only [hreported]
      constructor
      · rintro ⟨⟩
        exact ⟨rfl, by simpa using hreported⟩
      · rintro ⟨⟨⟩, -⟩
        rfl
  | ok text =>
    dsimp only
    constructor
    · intro h
      split at h
      · cases h
      · split at h <;> cases h
    · rintro ⟨⟨⟩, -⟩

/-- The outcome for a script that is read, and the cells that are left. -/
theorem outcome_of_read {script : Script} (size : Int) (h : Script.read fs path = some script) :
    ((ofPool size).compile fs path).1 = (runFrom (SourceLower.source script.source)
        (opening size path script.defines)).1.casesOn .lowerFault .code ∧
      ((ofPool size).compile fs path).2.bench.cells = (runFrom (SourceLower.source script.source)
        (opening size path script.defines)).2.bench.cells := by
  rw [compile_of_read size h]
  generalize runFrom (SourceLower.source script.source) (opening size path script.defines) = r
  obtain ⟨r, s⟩ := r
  cases r <;> exact ⟨rfl, rfl⟩

end Session

namespace Compilation

variable {stack : CallStack} {size : Int} {fs : FileSystem} {path : String} {script : Script}
  {nodes : List Node} {lowered : Session} {code : Code} {bench : Workbench}

/-- No pool hands out more cells than it has. -/
theorem maxScratch_le (h : Compilation stack size fs path script nodes lowered code bench)
    (hreach : ((size.toNat + script.names.length : Nat) : Int) ≤ Emit.countBound) :
    bench.cells.maxScratch ≤ size.toNat := by
  rcases h.resized hreach with ⟨_, _, _, _, _, hresized⟩ | ⟨⟨s', hrun⟩, -⟩
  · obtain ⟨a, back, hleft⟩ := hresized.leftover
    have hle := hleft.le
    have hmax := hleft.maxScratch
    omega
  · have hsource := SourceLower.gives_source.mpr
      ⟨h.shallow, nodes, lowered, bench, h.lowers, h.fits, h.emits, rfl⟩
    unfold Gives at hsource
    rw [hsource] at hrun
    cases hrun

end Compilation

/-- A script that leaves scratch cells over compiles with only those it used exactly if it compiled
in the first place. -/
theorem Session.compiles_needed_iff {size needed : Int} {fs : FileSystem} {path : String}
    {script : Script} (hread : Script.read fs path = some script)
    (hneeded : ((ofPool size).compile fs path).2.bench.cells.maxScratch = needed)
    (hlt : needed < size) (hreach : (size.toNat + script.names.length : Int) ≤ Emit.countBound) :
    Compiles size fs path ↔ Compiles needed fs path := by
  constructor
  · rintro ⟨code, s', hcompile⟩
    obtain ⟨script', nodes, lowered, bench, h, rfl⟩ := compile_eq_code.mp hcompile
    obtain rfl : script = script' := Option.some.inj (hread.symm.trans h.read)
    have hmax : bench.cells.maxScratch = needed := by
      rw [hcompile] at hneeded
      exact hneeded
    have hreach' : ((needed.toNat + script.names.length : Nat) : Int) ≤ Emit.countBound := by omega
    rcases h.resized hreach' with ⟨nodes', lowered', code', bench', h', -⟩ | ⟨-, hshort⟩
    · exact compiles_iff.mpr ⟨script, nodes', lowered', code', bench', h'⟩
    · omega
  · intro hcompiles
    obtain ⟨script', nodes, lowered, code, bench, h⟩ := compiles_iff.mp hcompiles
    obtain rfl : script = script' := Option.some.inj (hread.symm.trans h.read)
    have hmax := h.maxScratch_le (by omega)
    have hreach' : ((size.toNat + script.names.length : Nat) : Int) ≤ Emit.countBound := by omega
    rcases h.resized hreach' with ⟨nodes', lowered', code', bench', h', -⟩ | ⟨-, hshort⟩
    · exact compiles_iff.mpr ⟨script, nodes', lowered', code', bench', h'⟩
    · omega

/-! ## The command -/

namespace Command.Compile

/-- The files when the command is done. -/
def Finished.leaves (f : Finished) (fs : FileSystem) : FileSystem :=
  match f.written with
  | none => fs
  | some (path, text) => fs.write path text.toUTF8.toList

/-- The scratch cells that the first compilation needed. -/
def needed (fs : FileSystem) (path : String) : Int :=
  ((Session.ofPool defaultPool).compile fs path).2.bench.cells.maxScratch

/-- The outcome of the last compilation. It is the second one if there was a question and the answer
to it was yes. -/
def lastOutcome (fs : FileSystem) (path : String) (answer : Option String) : Outcome :=
  if needed fs path < defaultPool ∧ answer.any accepts = true then
    ((Session.ofPool (needed fs path)).compile fs path).1
  else ((Session.ofPool defaultPool).compile fs path).1

/-- The end of the command and what the output file then holds, by the outcome of the compilation. -/
def EndsBy (fs : FileSystem) (output : String) (finished : Finished) : Outcome → Prop
  | .code code => finished.report.exit = 0 ∧
      (finished.leaves fs).entry output = .file code.text.toUTF8.toList
  | .lowerFault _ => finished.report.exit = 0 ∧ (finished.leaves fs).entry output = .file []
  | .includeFault _ | .parseFault _ => finished.report.exit = failureCode ∧
      (finished.leaves fs).entry output = .file []
  | .unreadable _ => finished.report.exit = failureCode ∧ finished.leaves fs = fs

section Parts

variable {fs : FileSystem} {path : String} {d : Draft}

/-- A compilation with a fresh session, by its outcome. -/
theorem compileWith_eq (pool : Int) : compileWith fs pool path =
    match (Session.ofPool pool).compile fs path with
    | (.unreadable fault, _) => .error fault
    | (outcome, s) => .ok (outcome.code?, logText s, s.bench.cells.maxScratch) := by
  unfold compileWith
  generalize (Session.ofPool pool).compile fs path = r
  obtain ⟨outcome, s⟩ := r
  cases outcome <;> rfl

/-- What is saved of an outcome. -/
theorem endsBy_save (hwrite : fs.canWrite d.output = true) {outcome : Outcome}
    (hread : ∀ fault, outcome ≠ .unreadable fault) (out : String) :
    EndsBy fs d.output (save fs d outcome.code? out) outcome := by
  have hempty : "".toUTF8.toList = [] := by simp
  unfold save
  rw [hwrite]
  cases outcome with
  | code code => exact ⟨rfl, FileSystem.entry_write hwrite _⟩
  | lowerFault fault | includeFault fault | parseFault fault =>
    refine ⟨rfl, ?_⟩
    rw [← hempty]
    exact FileSystem.entry_write hwrite _
  | unreadable fault => exact absurd rfl (hread fault)

theorem save_refused (hwrite : fs.canWrite d.output = false) (code : Option Code) (out : String) :
    (save fs d code out).report.exit = failureCode ∧ (save fs d code out).leaves fs = fs := by
  unfold save
  rw [hwrite]
  exact ⟨rfl, rfl⟩

theorem written_save {code : Option Code} {out text : String}
    (h : (save fs d code out).written = some (path, text)) : path = d.output := by
  unfold save at h
  split at h
  · cases h
  · cases code <;> (cases h; rfl)

/-- The question is asked and there is no answer. -/
theorem finish_unanswered (hasks : d.asks = true) :
    (d.finish fs none).report.exit = failureCode ∧ (d.finish fs none).written = none := by
  unfold Draft.finish
  rw [hasks]
  exact ⟨rfl, rfl⟩

/-- With an answer to the question, if it is asked, there is a second compilation or none. -/
theorem finish_answered {answer : Option String} (hanswer : d.asks = true → answer.isSome) :
    d.finish fs answer =
      if d.asks = true ∧ answer.any accepts = true then
        match compileWith fs d.needed d.input with
        | .error fault => ⟨{ exit := failureCode, out := d.out, err := failed fault.text }, true, none⟩
        | .ok (code, log, _) => save fs d code (d.out ++ log ++ verdict code)
      else save fs d d.code (d.out ++ verdict d.code) := by
  unfold Draft.finish
  cases hasks : d.asks with
  | false => simp
  | true =>
    obtain ⟨text, rfl⟩ := Option.isSome_iff_exists.mp (hanswer hasks)
    exact if_congr (by simp) rfl rfl

end Parts

section Run

variable {fs : FileSystem} {typed : List Char} {args : List String} {input output : String}

/-- The command up to the question. -/
theorem exists_run (hrequest : request args = .ok (input, output))
    (hinput : fs.isFile (Path.tidy input) = true) :
    (∃ fault, ((Session.ofPool defaultPool).compile fs (Path.tidy input)).1 = .unreadable fault ∧
      (run fs typed args).report.exit = failureCode ∧ (run fs typed args).written = none) ∨
    (∀ fault, ((Session.ofPool defaultPool).compile fs (Path.tidy input)).1 ≠ .unreadable fault) ∧
      ∃ d : Draft, d.input = Path.tidy input ∧ d.output = Path.tidy output ∧
        d.code = ((Session.ofPool defaultPool).compile fs (Path.tidy input)).1.code? ∧
        d.needed = needed fs (Path.tidy input) ∧
        run fs typed args = d.finish fs (firstLine? typed) := by
  unfold run draft needed
  simp only [hrequest, hinput, compileWith_eq, Bool.not_true, Bool.false_eq_true, if_false]
  generalize (Session.ofPool defaultPool).compile fs (Path.tidy input) = r
  obtain ⟨outcome, s⟩ := r
  cases outcome with
  | unreadable fault => exact .inl ⟨fault, rfl, rfl, rfl⟩
  | code _ | includeFault _ | parseFault _ | lowerFault _ =>
    exact .inr ⟨fun _ => by simp, _, rfl, rfl, rfl, rfl, rfl⟩

/-- The command ends by the outcome of the last compilation. -/
theorem endsBy_run (hrequest : request args = .ok (input, output))
    (hinput : fs.isFile (Path.tidy input) = true) (hwrite : fs.canWrite (Path.tidy output) = true)
    (hanswer : needed fs (Path.tidy input) < defaultPool → (firstLine? typed).isSome) :
    EndsBy fs (Path.tidy output) (run fs typed args)
      (lastOutcome fs (Path.tidy input) (firstLine? typed)) := by
  rcases exists_run hrequest hinput with
    ⟨fault, hfault, hexit, hwritten⟩ | ⟨hread, d, hin, hout, hcode, hneeded, hrun⟩
  · -- the second compilation reads no more than the first
    have hlast : lastOutcome fs (Path.tidy input) (firstLine? typed) = .unreadable fault := by
      unfold lastOutcome
      split
      · exact Session.unreadable_iff.mpr (Session.unreadable_iff.mp hfault)
      · exact hfault
    rw [hlast]
    exact ⟨hexit, by rw [Finished.leaves, hwritten]⟩
  · have hasks : d.asks = true ↔ needed fs (Path.tidy input) < defaultPool := by
      rw [Draft.asks, hneeded, decide_eq_true_eq]
    rw [← hout] at hwrite ⊢
    rw [hrun, finish_answered fun h => hanswer (hasks.mp h),
      if_congr (and_congr_left' hasks) rfl rfl, lastOutcome]
    split
    · have hagain : ∀ fault, ((Session.ofPool (needed fs (Path.tidy input))).compile fs
          (Path.tidy input)).1 ≠ .unreadable fault := fun fault h =>
        hread fault (Session.unreadable_iff.mpr (Session.unreadable_iff.mp h))
      rw [hin, hneeded, compileWith_eq]
      generalize (Session.ofPool (needed fs (Path.tidy input))).compile fs (Path.tidy input) = r
        at hagain ⊢
      obtain ⟨outcome, s⟩ := r
      cases outcome with
      | unreadable fault => exact absurd rfl (hagain fault)
      | code _ | includeFault _ | parseFault _ | lowerFault _ => exact endsBy_save hwrite hagain _
    · rw [hcode]
      exact endsBy_save hwrite hread _

/-- Without an answer to the question, or with an output that cannot be written, nothing is. -/
theorem run_refused (hrequest : request args = .ok (input, output))
    (hinput : fs.isFile (Path.tidy input) = true)
    (hrefused : fs.canWrite (Path.tidy output) = false ∨
      needed fs (Path.tidy input) < defaultPool ∧ firstLine? typed = none) :
    (run fs typed args).report.exit = failureCode ∧ (run fs typed args).leaves fs = fs := by
  rcases exists_run hrequest hinput with
    ⟨fault, -, hexit, hwritten⟩ | ⟨-, d, hin, hout, -, hneeded, hrun⟩
  · exact ⟨hexit, by rw [Finished.leaves, hwritten]⟩
  · have hasks : d.asks = true ↔ needed fs (Path.tidy input) < defaultPool := by
      rw [Draft.asks, hneeded, decide_eq_true_eq]
    rw [hrun]
    by_cases hanswer : d.asks = true → (firstLine? typed).isSome
    · have hwrite : fs.canWrite d.output = false := by
        rw [hout]
        refine hrefused.resolve_right fun ⟨hlt, hnone⟩ => ?_
        have hsome := hanswer (hasks.mpr hlt)
        rw [hnone] at hsome
        cases hsome
      rw [finish_answered hanswer]
      split
      · split
        · exact ⟨rfl, rfl⟩
        · exact save_refused hwrite _ _
      · exact save_refused hwrite _ _
    · rw [Classical.not_imp, Option.not_isSome_iff_eq_none] at hanswer
      rw [hanswer.2]
      obtain ⟨hexit, hwritten⟩ := finish_unanswered hanswer.1
      exact ⟨hexit, by rw [Finished.leaves, hwritten]⟩

/-- Nothing but the output is written. -/
theorem output_of_written (hrequest : request args = .ok (input, output))
    (hinput : fs.isFile (Path.tidy input) = true) {path text : String}
    (h : (run fs typed args).written = some (path, text)) : path = Path.tidy output := by
  rcases exists_run hrequest hinput with
    ⟨fault, -, -, hwritten⟩ | ⟨-, d, -, hout, -, -, hrun⟩
  · rw [hwritten] at h
    cases h
  · rw [hrun] at h
    rw [← hout]
    by_cases hanswer : d.asks = true → (firstLine? typed).isSome
    · rw [finish_answered hanswer] at h
      split at h
      · split at h
        · cases h
        · exact written_save h
      · exact written_save h
    · rw [Classical.not_imp, Option.not_isSome_iff_eq_none] at hanswer
      rw [hanswer.2, (finish_unanswered hanswer.1).2] at h
      cases h

/-- The last compilation succeeds exactly if the first one did. -/
theorem code_lastOutcome_iff {path : String} (answer : Option String) (hsize : ∀ script,
    Script.read fs path = some script →
      (defaultPool + script.names.length : Int) ≤ Emit.countBound) :
    (∃ code, lastOutcome fs path answer = .code code) ↔
      ∃ code, ((Session.ofPool defaultPool).compile fs path).1 = .code code := by
  have hcompiles : ∀ size, (∃ code, ((Session.ofPool size).compile fs path).1 = .code code) ↔
      Session.Compiles size fs path := by
    intro size
    unfold Session.Compiles
    generalize (Session.ofPool size).compile fs path = r
    simp [Prod.ext_iff]
  unfold lastOutcome
  split
  · next h =>
    rw [hcompiles, hcompiles]
    cases hread : Script.read fs path with
    | none =>
      have hnone : ∀ size, ¬ Session.Compiles size fs path := by
        rintro size ⟨code, s', hcompile⟩
        obtain ⟨script, hsome⟩ := Session.read_of_compile hcompile
        rw [hread] at hsome
        cases hsome
      exact iff_of_false (hnone _) (hnone _)
    | some script =>
      exact (Session.compiles_needed_iff hread rfl h.1 (hsize script hread)).symm
  · rfl

end Run

/-- **A compilation that fails empties the output file.** The command ends by the outcome of the last
compilation, which succeeds exactly if the first one did. Only if the source cannot be read at all the
output stays as it was, and after a failed lowering the command ends with success. If the output
cannot be written or the question is not answered, nothing is written. -/
theorem ends_by_outcome {fs : FileSystem} {args : List String} {input output : String}
    (typed : List Char) (hrequest : request args = .ok (input, output))
    (hinput : fs.isFile (Path.tidy input) = true) :
    let finished := run fs typed args
    let answer := firstLine? typed
    let asked := needed fs (Path.tidy input) < defaultPool
    (fs.canWrite (Path.tidy output) = true → (asked → answer.isSome) →
      EndsBy fs (Path.tidy output) finished (lastOutcome fs (Path.tidy input) answer)) ∧
    (fs.canWrite (Path.tidy output) = false ∨ asked ∧ answer = none →
      finished.report.exit = failureCode ∧ finished.leaves fs = fs) ∧
    (∀ segs, segs ≠ Path.normalSegments fs.cwd (Path.tidy output) →
      (finished.leaves fs).files.lookup segs = fs.files.lookup segs) ∧
    ((∀ script, Script.read fs (Path.tidy input) = some script →
        (defaultPool + script.names.length : Int) ≤ Emit.countBound) →
      ((∃ code, lastOutcome fs (Path.tidy input) answer = .code code) ↔
        ∃ code, ((Session.ofPool defaultPool).compile fs (Path.tidy input)).1 = .code code)) := by
  intro finished answer asked
  refine ⟨endsBy_run hrequest hinput, run_refused hrequest hinput, fun segs hsegs => ?_,
    code_lastOutcome_iff answer⟩
  unfold Finished.leaves
  split
  · rfl
  · next path text hwritten =>
    obtain rfl := output_of_written hrequest hinput hwritten
    exact FileSystem.lookup_write_of_ne hsegs _

/-! ### A source beside its output -/

/-- A source of one line, and an output file that holds something already. -/
def beside (line : String) : FileSystem :=
  ⟨"/", [(["m"], line.toList.map fun c => UInt8.ofNat c.toNat), (["o"], "keep".toUTF8.toList)]⟩

/-- What is asked for, and the answers `y` and `n`. -/
theorem request_beside : request ["m", "o"] = .ok ("m", "o") ∧ Path.tidy "m" = "m" ∧ Path.tidy "o" = "o" ∧
    firstLine? "y\n".toList = some "y" ∧ firstLine? "n\n".toList = some "n" :=
  ⟨rfl, by decide +kernel⟩

theorem files_beside (line : String) : (beside line).isFile "m" = true ∧
    (beside line).canWrite "o" = true ∧ (beside line).entry "o" = .file "keep".toUTF8.toList := by
  obtain ⟨hpath, hout, hmain⟩ : Path.normalSegments "/" "o" = ["o"] ∧
      Path.tidySegments "o" = ["o"] ∧ Path.tidySegments "m" = ["m"] := by decide +kernel
  -- where a path starts from does not depend on the files
  obtain ⟨hfrom, hfrom'⟩ : (beside line).origin "o" = [] ∧ (beside line).origin "m" = [] :=
    have hnone : FileSystem.origin ⟨"/", []⟩ "o" = [] ∧ FileSystem.origin ⟨"/", []⟩ "m" = [] := by
      decide +kernel
    hnone
  refine ⟨?_, ?_, ?_⟩
  · rw [FileSystem.isFile, FileSystem.fileAt?, hmain, hfrom']
    rfl
  · rw [FileSystem.canWrite, hout, hfrom]
    rfl
  · show FileSystem.find _ (Path.normalSegments "/" "o") = _
    rw [hpath]
    rfl

/-- A declaration that needs no scratch cells. -/
def declaration : Source :=
  ⟨[.stmt (.variable ⟨.newName, "x", 1, 8⟩ (some (.number ⟨.number, "1", 1, 10⟩)))]⟩

/-- A name that is not declared. -/
def undeclared : Source := ⟨[.stmt (.output (.name ⟨.declaredName, "x", 1, 8⟩))]⟩

/-- What the lines hold; the last one is cut off. -/
theorem parse_lines :
    (Text.isPlainLine "size_t x=1;".toList = true ∧
      Source.parse "size_t x=1;".toList = .ok declaration) ∧
    (Text.isPlainLine "output(x);".toList = true ∧
      Source.parse "output(x);".toList = .ok undeclared) ∧
    Text.isPlainLine "output(;".toList = true ∧
      (Source.parse "output(;".toList).toOption = none := by decide +kernel

theorem expand_beside {line : String} (h : Text.isPlainLine line.toList = true) :
    Include.expand (beside line) "m" = .ok line :=
  Include.expand_plainLine Path.normalSegments_root rfl h

theorem read_beside {line : String} {source : Source} (h : Text.isPlainLine line.toList = true ∧
    Source.parse line.toList = .ok source) :
    Script.read (beside line) "m" = some ⟨source, []⟩ := by
  rw [Script.read_of_expand (expand_beside h.1), h.2,
    DefineTable.ofText_line (Text.isPlainLine_iff.mp h.1).1]
  rfl

theorem needed_declaration : needed (beside "size_t x=1;") "m" = 0 := by
  have hmax : (runFrom (SourceLower.source declaration)
      (Session.opening defaultPool "m" [])).2.bench.cells.maxScratch = 0 := by decide
  rw [needed, (Session.outcome_of_read defaultPool (read_beside parse_lines.1)).2]
  exact hmax

theorem lastOutcome_declaration :
    ∃ code, lastOutcome (beside "size_t x=1;") "m" (some "y") = .code code ∧ code.text = "[-]+" := by
  have hcode : (runFrom (SourceLower.source declaration) (Session.opening 0 "m" [])).1.toOption.map
      Code.text = some "[-]+" := by decide
  rw [lastOutcome, needed_declaration, if_pos (by decide),
    (Session.outcome_of_read 0 (read_beside parse_lines.1)).1]
  generalize (runFrom (SourceLower.source declaration) (Session.opening 0 "m" [])).1 = r at hcode
  cases r with
  | error fault => cases hcode
  | ok code => exact ⟨code, rfl, Option.some.inj hcode⟩

/-- A second compilation, with no scratch cells, for the answer `y`. -/
theorem ends_by_outcome_declaration :
    request ["m", "o"] = .ok ("m", "o") ∧ (beside "size_t x=1;").isFile (Path.tidy "m") = true ∧
      let finished := run (beside "size_t x=1;") "y\n".toList ["m", "o"]
      finished.report.exit = 0 ∧
        (finished.leaves (beside "size_t x=1;")).entry "o" = .file "[-]+".toUTF8.toList := by
  obtain ⟨hrequest, htidy, htidy', hanswer, -⟩ := request_beside
  obtain ⟨hsource, hwrite, -⟩ := files_beside "size_t x=1;"
  have hfile : (beside "size_t x=1;").isFile (Path.tidy "m") = true := by
    rw [htidy]
    exact hsource
  refine ⟨hrequest, hfile, ?_⟩
  obtain ⟨hends, -⟩ := ends_by_outcome "y\n".toList hrequest hfile
  obtain ⟨code, hlast, htext⟩ := lastOutcome_declaration
  rw [htidy, htidy', hanswer, hlast] at hends
  obtain ⟨hexit, hentry⟩ := hends hwrite fun _ => rfl
  exact ⟨hexit, hentry.trans (by rw [htext])⟩

/-- The answer `n` leaves it at the first compilation. -/
theorem endsBy_beside (line : String) :
    EndsBy (beside line) "o" (run (beside line) "n\n".toList ["m", "o"])
      ((Session.ofPool defaultPool).compile (beside line) "m").1 := by
  obtain ⟨hrequest, htidy, htidy', -, hanswer⟩ := request_beside
  obtain ⟨hsource, hwrite, -⟩ := files_beside line
  have hends : EndsBy (beside line) (Path.tidy "o") (run (beside line) "n\n".toList ["m", "o"])
      (lastOutcome (beside line) (Path.tidy "m") (firstLine? "n\n".toList)) :=
    endsBy_run hrequest (by rw [htidy]; exact hsource) (by rw [htidy']; exact hwrite)
      fun _ => by rw [hanswer]; rfl
  have hno : ¬ ((some "n").any accepts = true) := by decide
  rw [htidy, htidy', hanswer, lastOutcome, if_neg fun h => hno h.2] at hends
  exact hends

theorem compile_undeclared : ((Session.ofPool defaultPool).compile (beside "output(x);") "m").1 =
    .lowerFault ⟨some "DECLARED_NAME", .undefinedName "x"⟩ := by
  have hfault : (runFrom (SourceLower.source undeclared) (Session.opening defaultPool "m" [])).1 =
      .error ⟨some "DECLARED_NAME", .undefinedName "x"⟩ := by decide
  rw [(Session.outcome_of_read defaultPool (read_beside parse_lines.2.1)).1, hfault]

theorem compile_unfinished :
    ∃ fault, ((Session.ofPool defaultPool).compile (beside "output(;") "m").1 = .parseFault fault := by
  obtain ⟨-, -, hline, hnone⟩ := parse_lines
  obtain ⟨fault, hparse⟩ := Source.exists_fault hnone
  refine ⟨fault, ?_⟩
  unfold Session.compile
  simp only [expand_beside hline, hparse]

/-- Two compilations that fail. After the first, the command ends with success, and after both the
output file has lost what it held. -/
theorem failure_empties_output :
    (let fs := beside "output(x);";
      ((Session.ofPool defaultPool).compile fs "m").1 =
          .lowerFault ⟨some "DECLARED_NAME", .undefinedName "x"⟩ ∧
        fs.entry "o" = .file "keep".toUTF8.toList ∧
        (run fs "n\n".toList ["m", "o"]).report.exit = 0 ∧
        ((run fs "n\n".toList ["m", "o"]).leaves fs).entry "o" = .file []) ∧
    (let fs := beside "output(;";
      (∃ fault, ((Session.ofPool defaultPool).compile fs "m").1 = .parseFault fault) ∧
        fs.entry "o" = .file "keep".toUTF8.toList ∧
        (run fs "n\n".toList ["m", "o"]).report.exit = failureCode ∧
        ((run fs "n\n".toList ["m", "o"]).leaves fs).entry "o" = .file []) := by
  constructor
  · have hends := endsBy_beside "output(x);"
    rw [compile_undeclared] at hends
    exact ⟨compile_undeclared, (files_beside _).2.2, hends⟩
  · have hends := endsBy_beside "output(;"
    obtain ⟨fault, hfault⟩ := compile_unfinished
    rw [hfault] at hends
    exact ⟨⟨fault, hfault⟩, (files_beside _).2.2, hends⟩

end Command.Compile

end TapeScript
