import Mathlib.Data.List.TakeWhile
import TapeScript.Compile
import TapeScript.Proofs.CallDepth
import TapeScript.Proofs.Fuel
import TapeScript.Proofs.Interpreters
import TapeScript.Proofs.NodeActions
import TapeScript.Proofs.Rendering

set_option autoImplicit false

/-! # Compiled code does what the script says

A compilation that succeeds reads the script, lowers it and emits its code (`Compilation`). Lowering
keeps the meaning of the script, and the emitted code does what the lowered nodes mean; so a machine
that runs the code comes to an end exactly when the script does, with the same output, as much input
read, and every variable in its cell (`Session.compile_preserves_meaning`).
-/

namespace TapeScript

/-! ## The phases of a compilation -/

theorem depth_le_depthOfAll {t : Tree} : ∀ {ts : List Tree}, t ∈ ts → t.depth ≤ depthOfAll ts
  | _ :: _, .head _ => Nat.le_max_left _ _
  | _ :: _, .tail _ h => (depth_le_depthOfAll h).trans (Nat.le_max_right _ _)

/-- All items of a tree that has room for its levels have room for theirs. -/
theorem Source.takeWhile_items (source : Source) {levels : Nat} (h : source.tree.depth ≤ levels) :
    source.items.takeWhile (fun i => i.tree.depth < levels) = source.items :=
  List.takeWhile_eq_self_iff.mpr fun _ hi => decide_eq_true
    ((Nat.lt_succ_of_le (depth_le_depthOfAll (List.mem_map_of_mem hi))).trans_le h)

namespace SourceLower

theorem gives_source {source : Source} {stack : CallStack} {s s' : Session} {code : Code} :
    Gives (SourceLower.source source stack) s code s' ↔
      source.tree.depth ≤ stack.levels ∧ ∃ nodes s1 bench,
        Gives (items source.items) s nodes s1 ∧ Node.callsAll (working nodes) ≤ stack.calls ∧
        Gives (Node.emitAll (working nodes)) s1.bench code bench ∧ s' = { s1 with bench } := by
  unfold SourceLower.source Lower.program
  simp only [gives_bind, gives_when, gives_during, Lower.gives_atBench, gives_pure,
    Node.gives_emitAll_cutAll, not_lt]
  constructor
  · rintro ⟨nodes, s1, hitems, hdepth, _, _, ⟨code', _, ⟨bench, ⟨hcalls, hemit⟩, rfl⟩, rfl, rfl⟩, hcode⟩
    obtain ⟨rfl, rfl⟩ := gives_pure.mp hcode
    rw [source.takeWhile_items hdepth] at hitems
    exact ⟨hdepth, nodes, s1, bench, hitems, hcalls, hemit, rfl⟩
  · rintro ⟨hdepth, nodes, s1, bench, hitems, hcalls, hemit, rfl⟩
    refine ⟨nodes, s1, ?_, hdepth, .program code, _,
      ⟨code, _, ⟨bench, ⟨hcalls, hemit⟩, rfl⟩, rfl, rfl⟩, gives_pure.mpr ⟨rfl, rfl⟩⟩
    rw [source.takeWhile_items hdepth]
    exact hitems

end SourceLower

/-- The session in which a script is lowered. -/
def Session.opening (size : Int) (path : String) (defines : DefineTable) : Session :=
  { (Session.ofPool size).note s!"--- Starting Compilation: {path} ---" with defines }

theorem Session.opening_flat (size : Int) (path : String) (defines : DefineTable) :
    (opening size path defines).Flat size.toNat [] where
  head := rfl
  scratch := rfl
  free := rfl
  maxScratch := rfl
  taken := (Flat.ofPool size).taken
  inner := rfl
  global := rfl
  nodup := List.nodup_nil

theorem Session.requests_opening (size : Int) (path : String) (defines : DefineTable) :
    requests (opening size path defines).bench.log = [] :=
  requests_push_of_not (by unfold isRequest; simp [List.isPrefixOf, toString])

/-- A compilation that succeeds: the script is read, its levels fit on the call stack, its items are
lowered, the calls that emit the code of the nodes fit too, and the code is emitted. -/
structure Compilation (stack : CallStack) (size : Int) (fs : FileSystem) (path : String) (script : Script)
    (nodes : List Node) (lowered : Session) (code : Code) (bench : Workbench) : Prop where
  read : Script.read fs path = some script
  shallow : script.source.tree.depth ≤ stack.levels
  lowers : Gives (SourceLower.items script.source.items)
    (Session.opening size path script.defines) nodes lowered
  fits : Node.callsAll (SourceLower.working nodes) ≤ stack.calls
  emits : Gives (Node.emitAll (SourceLower.working nodes)) lowered.bench code bench

/-- A file of one line that includes nothing. -/
theorem Include.expand_of_find {fs : FileSystem} {path : String} {segs : List String}
    {bytes : List UInt8} {line kept : List Char} (hsegs : Path.normalSegments fs.cwd path = segs)
    (hfind : fs.find segs = .file bytes) (hlines : fileLines bytes = ([line], none))
    (hplain : startsWith (Text.trim line) "#include".toList = false)
    (hkept : Text.trimRight line = kept) : expand fs path = .ok (String.ofList kept) := by
  have hline : Line.read line = .text kept := by
    unfold Line.read
    simp only [hplain, hkept]
    rfl
  unfold expand expandFile
  simp only [hsegs, hfind, hlines, List.zipIdx_singleton, List.mapM_cons, List.mapM_nil, hline]
  rfl

theorem Script.read_of_expand {fs : FileSystem} {path text : String}
    (h : Include.expand fs path = .ok text) :
    read fs path = (Source.parse text.toList).toOption.map fun source =>
      ⟨source, DefineTable.ofText text.toList⟩ := by
  unfold read
  simp only [h]
  cases Source.parse text.toList <;> rfl

/-- The files of a script of one line. -/
def FileSystem.ofLine (line : String) : FileSystem :=
  ⟨"/", [(["m"], line.toList.map fun c => UInt8.ofNat c.toNat)]⟩

theorem Script.read_ofLine {line : String}
    (hlines : Include.fileLines (line.toList.map fun c => UInt8.ofNat c.toNat) =
      ([line.toList], none))
    (hplain : Include.startsWith (Text.trim line.toList) "#include".toList = false)
    (hkept : Text.trimRight line.toList = line.toList) :
    read (.ofLine line) "m" = (Source.parse line.toList).toOption.map fun source =>
      ⟨source, DefineTable.ofText line.toList⟩ := by
  have hsegs : Path.normalSegments (FileSystem.ofLine line).cwd "m" = ["m"] := by
    show Path.normalSegments "/" "m" = ["m"]
    decide +kernel
  have hexpand : Include.expand (.ofLine line) "m" = .ok line := by
    rw [Include.expand_of_find hsegs rfl hlines hplain hkept, String.ofList_toList]
  exact read_of_expand hexpand

namespace Session

variable {fs : FileSystem} {path : String} {stack : CallStack}

/-- Lowers a script that has been read. -/
def compileScript (path : String) (script : Script) (s : Session) (stack : CallStack := {}) :
    Outcome × Session :=
  match runFrom (SourceLower.source script.source stack)
    { s.note s!"--- Starting Compilation: {path} ---" with defines := script.defines } with
  | (.error fault, s) => (.lowerFault fault,
      s.note s!"An unexpected error occurred during transformation: {fault.text}")
  | (.ok code, s) => (.code code, s.note s!"Max Temp used: {s.bench.cells.maxScratch}")

/-- A script that is read is lowered, and the outcome is that of the lowering. -/
theorem compile_of_script {script : Script} (s : Session) (h : Script.read fs path = some script) :
    s.compile fs path stack = s.compileScript path script stack := by
  unfold Script.read at h
  split at h
  · simp at h
  · next text hexpand =>
    split at h
    · simp at h
    · next source hparse =>
      obtain rfl := Option.some.inj h
      simp only [Session.compile, hexpand, hparse]
      rfl

theorem compileScript_ofPool (size : Int) (path : String) (script : Script) :
    (ofPool size).compileScript path script stack =
      match runFrom (SourceLower.source script.source stack) (opening size path script.defines) with
      | (.error fault, s) => (.lowerFault fault,
          s.note s!"An unexpected error occurred during transformation: {fault.text}")
      | (.ok code, s) => (.code code, s.note s!"Max Temp used: {s.bench.cells.maxScratch}") := rfl

theorem compile_of_read {script : Script} (size : Int) (h : Script.read fs path = some script) :
    (Session.ofPool size).compile fs path stack =
      match runFrom (SourceLower.source script.source stack) (opening size path script.defines) with
      | (.error fault, s) => (.lowerFault fault,
          s.note s!"An unexpected error occurred during transformation: {fault.text}")
      | (.ok code, s) => (.code code, s.note s!"Max Temp used: {s.bench.cells.maxScratch}") :=
  (compile_of_script (ofPool size) h).trans (compileScript_ofPool size path script)

theorem exists_code_of_any {size : Int}
    (h : ((Script.read fs path).any fun script =>
      (runFrom (SourceLower.source script.source stack)
        (opening size path script.defines)).1.isOk) = true) :
    ∃ code s', (Session.ofPool size).compile fs path stack = (.code code, s') := by
  obtain ⟨script, hread, hok⟩ := (Option.any_eq_true _ _).mp h
  rw [compile_of_read size hread]
  generalize runFrom (SourceLower.source script.source stack) _ = r at hok
  obtain ⟨r, s⟩ := r
  cases r with
  | error fault => cases hok
  | ok code => exact ⟨code, _, rfl⟩

/-- Nothing is compiled that is not read. -/
theorem read_of_compile {code : Code} {s s' : Session}
    (h : s.compile fs path stack = (.code code, s')) : ∃ script, Script.read fs path = some script := by
  unfold Script.read
  unfold Session.compile at h
  cases hexpand : Include.expand fs path with
  | error fault =>
    simp only [hexpand] at h
    split at h <;> simp at h
  | ok text =>
    cases hparse : Source.parse text.toList with
    | error fault => simp [hexpand, hparse] at h
    | ok source => exact ⟨⟨source, .ofText text.toList⟩, by simp [hparse]⟩

theorem compile_eq_code {size : Int} {code : Code} {s' : Session} :
    (Session.ofPool size).compile fs path stack = (.code code, s') ↔
      ∃ script nodes lowered bench, Compilation stack size fs path script nodes lowered code bench ∧
        s' = ({ lowered with bench } : Session).note s!"Max Temp used: {bench.cells.maxScratch}" := by
  constructor
  · intro h
    obtain ⟨script, hread⟩ := read_of_compile h
    rw [compile_of_read size hread] at h
    split at h
    · simp at h
    · next emitted s1 hsource =>
      simp only [Prod.mk.injEq, Outcome.code.injEq] at h
      obtain ⟨rfl, rfl⟩ := h
      obtain ⟨hshallow, nodes, lowered, bench, hlowers, hfits, hemits, rfl⟩ :=
        SourceLower.gives_source.mp hsource
      exact ⟨script, nodes, lowered, bench, ⟨hread, hshallow, hlowers, hfits, hemits⟩, rfl⟩
  · rintro ⟨script, nodes, lowered, bench, ⟨hread, hshallow, hlowers, hfits, hemits⟩, rfl⟩
    have hsource := SourceLower.gives_source.mpr
      ⟨hshallow, nodes, lowered, bench, hlowers, hfits, hemits, rfl⟩
    unfold Gives at hsource
    rw [compile_of_read size hread, hsource]

/-- A compilation with a pool of so many scratch cells succeeds. -/
def Compiles (size : Int) (fs : FileSystem) (path : String) (stack : CallStack := {}) :
    Prop := ∃ code s', (Session.ofPool size).compile fs path stack = (.code code, s')

theorem compiles_iff {size : Int} :
    Compiles size fs path stack ↔ ∃ script nodes lowered code bench,
      Compilation stack size fs path script nodes lowered code bench := by
  unfold Compiles
  simp only [compile_eq_code]
  constructor
  · rintro ⟨code, -, script, nodes, lowered, bench, h, -⟩
    exact ⟨script, nodes, lowered, code, bench, h⟩
  · rintro ⟨script, nodes, lowered, code, bench, h⟩
    exact ⟨code, _, script, nodes, lowered, bench, h, rfl⟩

end Session

namespace Compilation

variable {stack : CallStack} {size : Int} {fs : FileSystem} {path : String} {script : Script}
  {nodes : List Node} {lowered : Session} {code : Code} {bench : Workbench}

/-- Lowering declares the variables of the script, and asks for no scratch cell. -/
theorem declares (h : Compilation stack size fs path script nodes lowered code bench) :
    lowered.Flat size.toNat script.names ∧ requests lowered.bench.log = [] := by
  obtain ⟨hdecl, -⟩ :=
    SourceLower.items_mean script.source.items (Session.opening_flat ..) h.lowers
  exact ⟨hdecl.flat, hdecl.requests_eq.trans (Session.requests_opening ..)⟩

/-- The nodes do what the script says. -/
theorem eval_rel (h : Compilation stack size fs path script nodes lowered code bench) (w : Width)
    (input : String) (fuel : Nat) :
    Option.Rel (State.StoredOn size.toNat script.names) (script.eval w input fuel)
      (Node.runAll w input.toList.toArray fuel (SourceLower.working nodes)
        Tape.blank.toSurface) := by
  obtain ⟨-, hmeans⟩ := SourceLower.items_mean script.source.items (Session.opening_flat ..) h.lowers
  obtain ⟨-, hrel⟩ := hmeans script.names (List.prefix_refl _) h.declares.1.nodup
  exact hrel w input.toList.toArray fuel State.initial _ ⟨rfl, rfl, fun _ _ _ => rfl⟩

/-- The code is that of a plan that does what the nodes mean, on any tape that has the scratch
cells and the variables. -/
theorem exists_acts (h : Compilation stack size fs path script nodes lowered code bench) {s : Setting}
    (hheld : ∀ c : Int, 0 ≤ c → c < size.toNat + script.names.length → s.holds c) :
    ∃ p : Plan, p.Spells 0 code bench.head ∧ p.Acts s size.toNat fun fuel =>
      Node.runAll s.width s.input fuel (SourceLower.working nodes) := by
  have hflat := h.declares.1
  obtain ⟨-, hmeans⟩ := SourceLower.items_mean script.source.items (Session.opening_flat ..) h.lowers
  obtain ⟨hwithin, -⟩ := hmeans script.names (List.prefix_refl _) hflat.nodup
  have hpool : lowered.bench.Pooled s size.toNat := by
    refine ⟨by rw [hflat.free]; exact nodup_firstCells _, fun c hc => ?_⟩
    rw [hflat.free, mem_firstCells] at hc
    exact ⟨hheld c hc.1 (by omega), hc.2⟩
  have hF : ∀ c ∈ firstCells size.toNat, c < (size.toNat : Int) := fun c hc =>
    (mem_firstCells.mp hc).2
  obtain ⟨-, -, p, hspells, hacts⟩ :=
    Node.yields_emitAll (fun c h0 hc => hheld c (by omega) hc) _ (firstCells size.toNat) hwithin hF
      lowered.bench code bench hpool (by rw [hflat.free]; exact List.Subset.refl _) h.emits
  rw [hflat.head] at hspells
  exact ⟨p, hspells, hacts⟩

end Compilation

/-! ## What the code does on a tape -/

/-- On an empty tape the plan never leaves the tape, it halts exactly when there is a result, and
then the tape shows the result. -/
structure Plan.Performs (s : Setting) (pool : Nat) (names : List String) (r : Nat → Option State)
    (p : Plan) : Prop where
  on_tape : ∀ fuel sf, p.exec s fuel Tape.blank ≠ .offTape sf
  halts_iff : (∃ fuel t, p.exec s fuel Tape.blank = .halted t) ↔ ∃ fuel, (r fuel).isSome
  shows_result : ∀ fuel t fuel' σ, p.exec s fuel Tape.blank = .halted t → r fuel' = some σ →
    σ.StoredOn pool names t.toSurface

theorem exists_of_rel_some {α β : Type} {R : α → β → Prop} {o : Option α} {o' : Option β}
    (h : Option.Rel R o o') {a : α} (ho : o = some a) : ∃ b, o' = some b ∧ R a b := by
  subst ho
  cases h with
  | some hr => exact ⟨_, rfl, hr⟩

/-- A plan that does what a function does performs what the function stores. -/
theorem Plan.Acts.performs {s : Setting} {pool : Nat} {names : List String} {p : Plan}
    {r : Nat → Option State} {f : Nat → Surface → Option Surface} (hp : p.Acts s pool f)
    (hmono : ∀ {fuel fuel' : Nat}, fuel ≤ fuel' → ∀ sf sf', f fuel sf = some sf' →
      f fuel' sf = some sf')
    (hrel : ∀ fuel, Option.Rel (State.StoredOn pool names) (r fuel)
      (f fuel Tape.blank.toSurface)) : p.Performs s pool names r := by
  have hblank : s.Bounds Tape.blank := fun _ => s.width.modulus_pos
  have hacts : ∀ fuel, s.width.modulus ≤ fuel →
      (p.exec s fuel Tape.blank).Shows pool (f fuel Tape.blank.toSurface) := fun fuel hfuel =>
    hp fuel _ _ hfuel hblank ⟨rfl, rfl, fun _ _ => rfl⟩
  -- an ending is still there when there is fuel enough for the comparison
  have hlater : ∀ {fuel fuel' : Nat}, fuel ≤ fuel' → s.width.modulus ≤ fuel' →
      p.exec s fuel Tape.blank ≠ .spent →
      (p.exec s fuel Tape.blank).Shows pool (f fuel' Tape.blank.toSurface) := by
    intro fuel fuel' hle hfuel hrun
    rw [← exec_mono hle p hrun]
    exact hacts fuel' hfuel
  refine ⟨fun fuel sf hoff => ?_, ⟨?_, ?_⟩, ?_⟩
  · have hshows := hlater (Nat.le_max_left fuel _) (Nat.le_max_right _ _) (by simp [hoff])
    rw [hoff] at hshows
    exact hshows
  · rintro ⟨fuel, t, hrun⟩
    have hshows := hlater (Nat.le_max_left fuel _) (Nat.le_max_right _ _) (by simp [hrun])
    rw [hrun] at hshows
    obtain ⟨sf, hsome, -⟩ := hshows
    have hr := hrel (max fuel s.width.modulus)
    rw [hsome] at hr
    refine ⟨max fuel s.width.modulus, ?_⟩
    cases hr' : r (max fuel s.width.modulus) with
    | none => rw [hr'] at hr; cases hr
    | some σ => rfl
  · rintro ⟨fuel, hsome⟩
    obtain ⟨σ, hσ⟩ := Option.isSome_iff_exists.mp hsome
    obtain ⟨sf, hsf, -⟩ := exists_of_rel_some (hrel fuel) hσ
    have hshows := hacts _ (Nat.le_max_right fuel s.width.modulus)
    rw [hmono (Nat.le_max_left _ _) _ _ hsf] at hshows
    refine ⟨max fuel s.width.modulus, ?_⟩
    cases hrun : p.exec s (max fuel s.width.modulus) Tape.blank with
    | halted t => exact ⟨t, rfl⟩
    | offTape sf' => rw [hrun] at hshows; exact hshows.elim
    | spent => rw [hrun] at hshows; cases hshows
  · intro fuel t fuel' σ hrun hσ
    obtain ⟨sf, hsf, hstored⟩ := exists_of_rel_some (hrel fuel') hσ
    have hshows := hlater (Nat.le_max_left fuel (max fuel' s.width.modulus)) (by omega)
      (by simp [hrun])
    rw [hrun, hmono (by omega) _ _ hsf] at hshows
    obtain ⟨sf', hsf', hshown⟩ := hshows
    obtain rfl := Option.some.inj hsf'
    refine ⟨hshown.inputPos.trans hstored.inputPos, hshown.output.trans hstored.output,
      fun k name hk => ?_⟩
    rw [hstored.vars k name hk, hshown.cells _ (by omega)]

/-! ## What the code does on a machine -/

/-- There is memory enough for so many cells: the tape has a fixed length, it can grow over the
cells, or no run of the machine fails for lack of memory. -/
def Machine.Suffices (cells : Nat) (m : Machine) : Prop :=
  m.setup.fixedSize.isSome ∨ Setup.Grows m.setup.capacity (max 1 cells) ∨ m.Ample

/-- Runs of the machine never fail but for the time limit, they come to an end exactly when there
is a result, and then the output, the input that was read and the variables are those of the
result. -/
structure Machine.Performs (pool : Nat) (names : List String) (r : Nat → Option State)
    (m : Machine) : Prop where
  faultless : ∀ n f, (m.run n).1 = some f → f = .timeLimit m.setup.limit
  ends_iff : (∃ n, (m.run n).1 = none) ↔ ∃ fuel, (r fuel).isSome
  shows_result : ∀ n m' fuel σ, m.run n = (none, m') → r fuel = some σ →
    m'.output = σ.output ∧ m'.inputPos = σ.inputPos ∧
      ∀ (k : Nat) (name : String), names[k]? = some name → m'.cellAt (pool + k) = σ.vars name

/-- A machine for the code of a plan performs what the plan does. -/
theorem Plan.Performs.on_machine {s : Setting} {σ : Setup} {pool : Nat} {names : List String}
    {r : Nat → Option State} {p : Plan} {code : Code} {h' : Int} (hp : p.Performs s pool names r)
    (hspells : p.Spells 0 code h') (hprogram : Program.ofText code.text = .ok σ.program)
    (hzero : s.holds 0) (hstands : (Machine.start σ).Stands s σ 0 Tape.blank) :
    (Machine.start σ).Performs pool names r := by
  obtain ⟨b, hcode, hlinked⟩ := Program.exists_block_of_ofChars hprogram
  rw [Program.filterMap_text] at hcode
  have hexec : ∀ fuel, b.exec s fuel Tape.blank = p.exec s fuel Tape.blank := fun fuel => by
    rw [Block.exec_eq_of_code_eq (hcode.symm.trans hspells.code_eq) (.blank hzero)]
    exact p.exec_block (t := Tape.blank) hspells.returns hzero
  have hoff : ∀ fuel sf, b.exec s fuel Tape.blank = .offTape sf → s.limit = σ.fixedSize := by
    intro fuel sf hrun
    rw [hexec] at hrun
    exact absurd hrun (hp.on_tape fuel sf)
  have hends : ∀ t, (∃ n, Machine.ending ((Machine.start σ).run n) = .halted t) ↔
      ∃ fuel, p.exec s fuel Tape.blank = .halted t := by
    intro t
    simp only [← hexec]
    exact Machine.ending_iff hlinked hstands hoff (by simp)
  refine ⟨?_, ?_, ?_⟩
  · intro n f hrun
    rcases Machine.fault_cases hlinked hstands hoff hrun with htime | ⟨-, fuel, sf, hleft⟩
    · exact htime
    · rw [hexec] at hleft
      exact absurd hleft (hp.on_tape fuel sf)
  · rw [← hp.halts_iff]
    constructor
    · rintro ⟨n, hn⟩
      obtain ⟨fuel, hfuel⟩ := (hends _).mp ⟨n, Machine.ending_eq_halted_iff.mpr ⟨hn, rfl⟩⟩
      exact ⟨fuel, _, hfuel⟩
    · rintro ⟨fuel, t, hfuel⟩
      obtain ⟨n, hn⟩ := (hends t).mpr ⟨fuel, hfuel⟩
      exact ⟨n, (Machine.ending_eq_halted_iff.mp hn).1⟩
  · intro n m' fuel state hrun hstate
    have hhalted : Machine.ending ((Machine.start σ).run n) = .halted m'.tape := by
      rw [Machine.ending_eq_halted_iff, hrun]
      exact ⟨rfl, rfl⟩
    obtain ⟨fuel', hfuel⟩ := (hends m'.tape).mp ⟨n, hhalted⟩
    have hstored := hp.shows_result fuel' m'.tape fuel state hfuel hstate
    exact ⟨hstored.output, hstored.inputPos, fun k name hk => (hstored.vars k name hk).symm⟩

/-- The machine has the cells of a setting, whichever way there is memory for them. -/
theorem Machine.Suffices.exists_setting {σ : Setup} {cells : Nat}
    (h : (Machine.start σ).Suffices cells) (hfixed : ∀ n, σ.fixedSize = some n → max 1 cells ≤ n) :
    ∃ s : Setting, s.width = σ.width ∧ s.input = σ.input ∧
      (∀ c : Int, 0 ≤ c → c < max 1 cells → s.holds c) ∧ (Machine.start σ).Room s := by
  refine ⟨⟨σ.width, some (max 1 cells), σ.input⟩, rfl, rfl, fun c h0 hc => ?_, ?_⟩
  · exact (Setting.holds_iff _ c).mpr ⟨h0, by rintro n ⟨⟩; exact hc⟩
  · unfold Machine.Room
    rw [show (Machine.start σ).setup.fixedSize = σ.fixedSize from rfl]
    cases hsize : σ.fixedSize with
    | some n => exact ⟨_, rfl, hfixed n hsize⟩
    | none =>
      refine (h.resolve_left ?_).imp_left fun hgrows => ⟨_, rfl, hgrows⟩
      rw [show (Machine.start σ).setup.fixedSize = none from hsize]
      simp

/-- A tape on which the code of a script can be run: it grows, or it has the scratch cells and one
cell for each variable, and there is memory for it. -/
def Script.FitsOn (script : Script) (size : Int) (capacity : Nat) (tape : Option Int) : Prop :=
  (∀ n ∈ tape, max 1 (size.toNat + script.names.length : Int) ≤ n) ∧ Setup.Provides capacity tape

namespace Compilation

variable {stack : CallStack} {size : Int} {fs : FileSystem} {path : String} {script : Script}
  {nodes : List Node} {lowered : Session} {code : Code} {bench : Workbench}

/-- Emitted code can be read as a program. -/
theorem exists_program (h : Compilation stack size fs path script nodes lowered code bench) :
    ∃ program, Program.ofText code.text = .ok program := by
  let s : Setting := ⟨.w8, none, #[]⟩
  obtain ⟨p, hspells, -⟩ := h.exists_acts (s := s) fun c h0 _ =>
    (s.holds_iff c).mpr ⟨h0, by rintro n ⟨⟩⟩
  obtain ⟨program, -, hprogram, -⟩ := Program.exists_of_block (p.block 0)
  rw [hspells.code_eq]
  exact ⟨program, hprogram⟩

/-- A machine with enough memory performs what the script says. -/
theorem performs (h : Compilation stack size fs path script nodes lowered code bench) {program : Program}
    (hprogram : Program.ofText code.text = .ok program) {w : Width} {fixed : Option Nat}
    {input limit : String} {capacity : Nat}
    (hfixed : ∀ n, fixed = some n → max 1 (size.toNat + script.names.length) ≤ n)
    (hmemory : (Machine.start ⟨program, w, fixed, input.toList.toArray, limit, capacity⟩).Suffices
      (size.toNat + script.names.length)) :
    (Machine.start ⟨program, w, fixed, input.toList.toArray, limit, capacity⟩).Performs size.toNat
      script.names (script.eval w input) := by
  obtain ⟨s, hw, hi, hheld, hroom⟩ := hmemory.exists_setting hfixed
  obtain ⟨p, hspells, hacts⟩ := h.exists_acts fun c h0 hc => hheld c h0 (by omega)
  have hstart : 0 < Setup.startSize ⟨program, w, fixed, input.toList.toArray, limit, capacity⟩ := by
    show 0 < fixed.getD Setup.growingStart
    cases hsize : fixed with
    | none => decide
    | some n =>
      have := hfixed n hsize
      show 0 < n
      omega
  have hperforms : p.Performs s size.toNat script.names (script.eval w input) := by
    refine hacts.performs (fun hle sf sf' => Node.runAll_mono s.width s.input hle _ sf sf') ?_
    rw [hw, hi]
    exact h.eval_rel w input
  exact hperforms.on_machine hspells hprogram (hheld 0 (Int.le_refl 0) (by omega))
    (Machine.stands_start hstart hw.symm hi.symm hroom)

/-- A machine can be built for the code, and with enough memory it performs what the script says. -/
theorem exists_machine (h : Compilation stack size fs path script nodes lowered code bench)
    {tape : Option Int} {bits : Int} {w : Width} (hw : Width.ofBits? bits = some w)
    {capacity : Nat} (htape : script.FitsOn size capacity tape) (input limit : String) :
    ∃ m, Machine.build code.text tape bits input limit capacity = .ok m ∧
      (m.Suffices (size.toNat + script.names.length) →
        m.Performs size.toNat script.names (script.eval w input)) := by
  obtain ⟨program, hprogram⟩ := h.exists_program
  obtain ⟨htape, hprovides⟩ := htape
  have hpos : ∀ n ∈ tape, 0 < n := fun n hn => by
    have := htape n hn
    omega
  refine ⟨_, Machine.build_eq_ok_iff.mpr ⟨w, program, hpos, hw, hprogram, hprovides, rfl⟩, ?_⟩
  refine h.performs hprogram fun n hn => ?_
  obtain ⟨k, hk, rfl⟩ := Option.map_eq_some_iff.mp hn
  have := htape k hk
  omega

end Compilation

/-- **Compiled code does what the script says.** Let a script be compiled with a pool of scratch
cells of any size. On a tape that has the scratch cells and one cell for each variable, or on one
that grows, a machine can be built for the code. With enough memory its runs never fail, they come
to an end exactly when the direct evaluation of the script does, and then the output, the number of
characters read and the value of every variable are those of the direct evaluation. -/
theorem Session.compile_preserves_meaning {pool : Int} {fs : FileSystem} {path : String}
    {stack : CallStack} {code : Code} {s' : Session}
    (hcompile : (Session.ofPool pool).compile fs path stack = (.code code, s')) :
    ∃ script, Script.read fs path = some script ∧
      ∀ (size : Option Int) (bits : Int) (w : Width) (input limit : String) (capacity : Nat),
        Width.ofBits? bits = some w → script.FitsOn pool capacity size →
        ∃ m, Machine.build code.text size bits input limit capacity = .ok m ∧
          (m.Suffices (pool.toNat + script.names.length) →
            m.Performs pool.toNat script.names (script.eval w input)) := by
  obtain ⟨script, nodes, lowered, bench, h, -⟩ := Session.compile_eq_code.mp hcompile
  exact ⟨script, h.read, fun size bits w input limit capacity hw hsize =>
    h.exists_machine hw hsize input limit⟩

/-- A loop that counts down. -/
def countdown : String := "size_t x=2;while(x)\x7boutput(x);x=x-1;\x7d"

/-- The files of a script that counts down. -/
def FileSystem.countdown : FileSystem :=
  ⟨"/", [(["m"], TapeScript.countdown.toList.map fun c => UInt8.ofNat c.toNat)]⟩

theorem Script.read_countdown : Script.read .countdown "m" =
    (Source.parse countdown.toList).toOption.map fun source =>
      ⟨source, DefineTable.ofText countdown.toList⟩ :=
  Script.read_ofLine (by decide +kernel) (by decide +kernel) (by decide +kernel)

/-- A loop that counts down, with as many scratch cells as it needs. On eight-bit cells it writes
its counter twice, and the variable behind the scratch cells ends at zero. -/
theorem Session.compile_preserves_meaning_countdown :
    ∃ fs code s', (Session.ofPool 5).compile fs "m" = (.code code, s') ∧
      ∃ m, Machine.build code.text (some 6) 8 "" "1" = .ok m ∧
        ∃ n m', m.run n = (none, m') ∧ m'.output = "\x02\x01" ∧ m'.cellAt 5 = 0 := by
  have hcode : ((Script.read .countdown "m").any fun script => (runFrom (SourceLower.source script.source)
      (opening 5 "m" script.defines)).1.isOk) = true := by
    rw [Script.read_countdown]
    decide +kernel
  have heval : (Script.read .countdown "m").map (fun script => (script.names,
      (script.eval .w8 "" 3).map fun σ => (σ.output, σ.vars "x"))) =
        some (["x"], some ("\x02\x01", 0)) := by
    rw [Script.read_countdown]
    decide +kernel
  obtain ⟨code, s', hcompile⟩ := exists_code_of_any hcode
  obtain ⟨script, hscript, h⟩ := compile_preserves_meaning hcompile
  rw [hscript, Option.map_some, Option.some_inj, Prod.mk.injEq] at heval
  obtain ⟨hnames, heval⟩ := heval
  obtain ⟨σ, hσ, hresult⟩ := Option.map_eq_some_iff.mp heval
  have hfits : script.FitsOn 5 Setup.usualCapacity (some 6) := by
    refine ⟨?_, by decide⟩
    rw [hnames]
    decide
  obtain ⟨m, hbuild, hperforms⟩ := h (some 6) 8 .w8 "" "1" Setup.usualCapacity rfl hfits
  rw [hnames] at hperforms
  refine ⟨.countdown, code, s', hcompile, m, hbuild, ?_⟩
  obtain ⟨w, program, -, -, -, -, rfl⟩ := Machine.build_eq_ok_iff.mp hbuild
  obtain ⟨-, hends, hshows⟩ := hperforms (.inl rfl)
  obtain ⟨n, hn⟩ := hends.mpr ⟨3, by rw [hσ]; rfl⟩
  obtain ⟨houtput, -, hcells⟩ := hshows n _ 3 σ (Prod.ext hn rfl) hσ
  refine ⟨n, _, Prod.ext hn rfl, houtput.trans (congrArg Prod.fst hresult), ?_⟩
  exact (hcells 0 "x" rfl).trans (congrArg Prod.snd hresult)

end TapeScript
