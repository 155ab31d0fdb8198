import TapeScript.Proofs.BasicLowering
import TapeScript.Proofs.WrittenFiles

set_option autoImplicit false

/-! # Basic scripts compile

A basic script whose branches all have an alternative, and that assigns no variable to itself,
compiles with some pool exactly if the call stack has room for its levels and for the calls that emit
its code, and no constant that is left in the code is negative or too large. An alternative that is
an empty block makes no difference to what the code does (`Session.basic_scripts_compile`).
-/

namespace TapeScript

open Emit (AllStorable)

/-! ## Branches without an alternative -/

mutual

/-- An alternative that is an empty block is left out. -/
def Stmt.trimmed : Stmt → Stmt
  | .ifElse condition body none => .ifElse condition body.trimmed none
  | .ifElse condition body (some (.block [])) => .ifElse condition body.trimmed none
  | .ifElse condition body (some otherwise) => .ifElse condition body.trimmed (some otherwise.trimmed)
  | .loop condition body => .loop condition body.trimmed
  | .block body => .block (trimmedAll body)
  | st => st

def trimmedAll : List Stmt → List Stmt
  | [] => []
  | st :: sts => st.trimmed :: trimmedAll sts

end

section Run

variable (defines : DefineTable) (w : Width) (input : Array Char) (fuel : Nat)

mutual

/-- **An empty alternative does nothing.** -/
theorem Stmt.run_trimmed : ∀ st : Stmt, st.trimmed.run defines w input fuel = st.run defines w input fuel
  | .ifElse condition body none | .loop condition body => by
    funext σ
    rw [Stmt.trimmed, Stmt.run, Stmt.run, body.run_trimmed]
  | .ifElse condition body (some otherwise) => by
    funext σ
    have hbody := body.run_trimmed
    have hotherwise := otherwise.run_trimmed
    by_cases hempty : otherwise = .block []
    · subst hempty
      simp only [Stmt.trimmed, Stmt.run, runAll, hbody]
    · rw [Stmt.trimmed, Stmt.run, Stmt.run, hbody, hotherwise]
      exact fun heq => hempty heq
  | .block body => by
    funext σ
    rw [Stmt.trimmed, Stmt.run, Stmt.run, runAll_trimmed body]
  | .variable _ _ | .stack _ _ | .assign _ _ | .expr _ | .push _ _ | .output _ | .returning _ => by
    simp only [Stmt.trimmed]

theorem runAll_trimmed : ∀ sts : List Stmt,
    runAll defines w input fuel (trimmedAll sts) = runAll defines w input fuel sts
  | [] => by rw [trimmedAll]
  | st :: sts => by
    funext σ
    rw [trimmedAll, runAll, runAll, st.run_trimmed, runAll_trimmed sts]

end

theorem runItems_map_stmt (sts : List Stmt) (σ : State) :
    runItems defines w input fuel (sts.map .stmt) σ = runAll defines w input fuel sts σ := by
  induction sts generalizing σ with
  | nil => rw [List.map_nil, runItems, runAll]
  | cons st sts ih =>
    rw [List.map_cons, runItems, Item.run, runAll]
    congr 1
    funext σ'
    exact ih σ'

end Run

/-! ## Compilation -/

/-- In a session where nothing was emitted, there is code for statements that need no more scratch
cells than there are. -/
theorem Session.Flat.exists_code_of_works {pool : Nat} {names : List String} {s : Session}
    (hflat : s.Flat pool names) {reach : Int} (hreach : reach ≤ Emit.countBound)
    (hbase : (pool : Int) ≤ reach) (hpos : 0 < reach) {k : Nat} {ns : List Node}
    (h : Node.AllWorkWithin pool reach k ns) (hk : k ≤ pool) :
    ∃ code bench, Gives (Node.emitAll ns) s.bench code bench := by
  have hsupplied : s.bench.Supplied pool reach k := by
    refine ⟨?_, ?_, ?_, ?_, ?_⟩
    · rw [hflat.head]
      exact ⟨le_refl 0, hpos⟩
    · rw [hflat.free]
      simpa [firstCells] using hk
    · rw [hflat.free]
      exact nodup_firstCells pool
    · intro c hc
      rw [hflat.free] at hc
      exact mem_firstCells.mp hc
    · intro c hc
      rw [hflat.scratch, ← hflat.free]
      exact hc
  obtain ⟨code, bench, hemits, -⟩ := h.emits hreach hbase (Int.natCast_nonneg pool) (firstCells pool)
    (fun c hc => (mem_firstCells.mp hc).2) s.bench hsupplied (by rw [hflat.free]; exact fun _ h => h)
  exact ⟨code, bench, hemits⟩

namespace Script

/-- The script with other statements. -/
def saying (script : Script) (body : List Stmt) : Script := { script with source := ⟨body.map .stmt⟩ }

namespace Basic

variable {body : List Stmt} {script : Script} {fs : FileSystem} {path : String} {size : Int}
  {stack : CallStack}

theorem names_eq (h : script.Basic body) : script.names = declaredAll body := by
  rw [Script.names, h.items_eq, declaredItems_map_stmt]

theorem eval_trimmed (h : script.Basic body) (w : Width) (input : String) :
    (script.saying (trimmedAll body)).eval w input = script.eval w input := by
  funext fuel
  rw [Script.eval, Script.eval, saying, h.items_eq]
  simp only [runItems_map_stmt, runAll_trimmed]

/-- The nodes of a basic script. -/
theorem gives_items (h : script.Basic body) (size : Int) (path : String) {reach : Int}
    (hreach : (size.toNat + script.names.length : Int) ≤ reach)
    (hsize : 2 ^ 32 * workspaceAll body < 10 ^ Text.digitLimit) :
    ∃ ns lowered, Gives (SourceLower.items script.source.items)
        (Session.opening size path script.defines) ns lowered ∧
      lowered.Flat size.toNat script.names ∧ Node.AllEmbody size.toNat reach body ns := by
  have hflat := Session.opening_flat size path script.defines
  have hnodup := h.nodup
  have hplain := h.plain
  rw [h.names_eq] at hnodup hplain hreach ⊢
  obtain ⟨ns, lowered, hgives, hall⟩ := SourceLower.gives_basic_stmts body
    ⟨hflat, hnodup, hplain⟩ h.basic hreach hsize
  refine ⟨ns, lowered, ?_, (SourceLower.stmts_mean body hflat hgives).1.flat, hall⟩
  rw [h.items_eq, SourceLower.items_map_stmt]
  exact hgives

/-- There is code only for scripts for which there is room, that are regular and whose constants can be
written out. -/
theorem of_compiles (h : script.Basic body) (hread : Script.read fs path = some script)
    (hsize : 2 ^ 32 * workspaceAll body < 10 ^ Text.digitLimit)
    (hcompiles : Session.Compiles size fs path stack) :
    (script.source.tree.depth ≤ stack.levels ∧ nestingAll body ≤ stack.calls) ∧ RegularAll body ∧
      AllStorable (constantsAll body) := by
  obtain ⟨script', nodes, lowered, code, bench, hc⟩ := Session.compiles_iff.mp hcompiles
  obtain rfl := Option.some.inj (hread.symm.trans hc.read)
  obtain ⟨ns, lowered', hgives, -, hall⟩ := h.gives_items size path (le_refl _) hsize
  obtain ⟨rfl, rfl⟩ := hc.lowers.unique hgives
  have hemits := hc.emits
  have hfits := hc.fits
  rw [SourceLower.working_of_hasCode hall.hasCode] at hemits hfits
  rw [hall.calls_eq] at hfits
  have hstorable := Node.shows_emitAll _ _ _ _ hemits
  rw [hall.numbers_eq] at hstorable
  exact ⟨⟨hc.shallow, hfits⟩, hall.regular _ _ _ hemits, hstorable⟩

/-- With the scratch cells that suffice there is code for all others. -/
theorem compiles (h : script.Basic body) (hread : Script.read fs path = some script)
    (hregular : RegularAll body) (hdepth : script.source.tree.depth ≤ stack.levels)
    (hcalls : nestingAll body ≤ stack.calls) (hstorable : AllStorable (constantsAll body))
    (hpool : workspaceAll body ≤ size.toNat)
    (hcells : (size.toNat + script.names.length : Int) ≤ Emit.countBound) :
    Session.Compiles size fs path stack := by
  have hbound := Plan.one_lt_countBound
  have hsize := Lower.lt_digitLimit (k := workspaceAll body) (by omega)
  -- a script without variables may need no cell at all, and still the head stands on one
  let reach : Int := max 1 (size.toNat + script.names.length)
  have hsmall : reach ≤ Emit.countBound := max_le hbound.le hcells
  have hreach : (size.toNat + script.names.length : Int) ≤ reach := le_max_right ..
  obtain ⟨ns, lowered, hgives, hflat, hall⟩ := h.gives_items size path hreach hsize
  obtain ⟨k, hk, hworks⟩ := hall.works hregular hstorable
  obtain ⟨code, bench, hemits⟩ := hflat.exists_code_of_works hsmall
    (le_trans (by omega) hreach) (lt_of_lt_of_le Int.one_pos (le_max_left ..)) hworks (hk.trans hpool)
  rw [← hall.calls_eq] at hcalls
  rw [← SourceLower.working_of_hasCode hall.hasCode] at hemits hcalls
  exact Session.compiles_iff.mpr ⟨script, ns, lowered, code, bench, hread, hdepth, hgives, hcalls,
    hemits⟩

end Basic

end Script

/-- **Basic scripts compile.** Let every branch of a basic script have an alternative, let it assign
no variable to itself, and let its cells be within the largest distance. Then it compiles with some
pool of scratch cells if and only if the call stack has room for its levels and for the nested calls
that emit its code, of which a chain takes one for each operand, and no constant that is left in the
code when numbers have been folded is negative or too large; and then it compiles with a pool of the
size that is told beforehand. Whenever it compiles, an empty alternative makes no difference: with
enough memory, a machine for the code performs what the script says with every empty alternative left
out. -/
theorem Session.basic_scripts_compile (stack : CallStack) {fs : FileSystem} {path : String}
    {script : Script} {body : List Stmt} (hread : Script.read fs path = some script)
    (hbasic : script.Basic body) (hregular : RegularAll body)
    (hcells : (workspaceAll body + script.names.length : Int) ≤ Emit.countBound) :
    ((∃ size, Compiles size fs path stack) ↔
      script.source.tree.depth ≤ stack.levels ∧ nestingAll body ≤ stack.calls ∧
        AllStorable (constantsAll body)) ∧
    ((∃ size, Compiles size fs path stack) → Compiles (workspaceAll body) fs path stack) ∧
    ∀ (size : Int) (code : Code) (s' : Session),
      (Session.ofPool size).compile fs path stack = (.code code, s') →
      ∀ (tape : Option Int) (bits : Int) (w : Width) (input limit : String) (capacity : Nat),
        Width.ofBits? bits = some w → script.FitsOn size capacity tape →
        ∃ m, Machine.build code.text tape bits input limit capacity = .ok m ∧
          (m.Suffices (size.toNat + script.names.length) →
            m.Performs size.toNat script.names
              ((script.saying (trimmedAll body)).eval w input)) := by
  have hsize := Lower.lt_digitLimit (k := workspaceAll body) (by omega)
  have hnecessary : (∃ size, Compiles size fs path stack) → script.source.tree.depth ≤ stack.levels ∧
      nestingAll body ≤ stack.calls ∧ AllStorable (constantsAll body) := by
    rintro ⟨size, hcompiles⟩
    obtain ⟨⟨hdepth, hcalls⟩, -, hstorable⟩ := hbasic.of_compiles hread hsize hcompiles
    exact ⟨hdepth, hcalls, hstorable⟩
  have hsufficient : script.source.tree.depth ≤ stack.levels ∧ nestingAll body ≤ stack.calls ∧
      AllStorable (constantsAll body) → Compiles (workspaceAll body) fs path stack :=
    fun ⟨hdepth, hcalls, hstorable⟩ =>
      hbasic.compiles hread hregular hdepth hcalls hstorable (le_refl _) hcells
  refine ⟨⟨hnecessary, fun h => ⟨_, hsufficient h⟩⟩, fun h => hsufficient (hnecessary h), ?_⟩
  intro size code s' hcompile tape bits w input limit capacity hw htape
  obtain ⟨script', nodes, lowered, bench, hc, -⟩ := compile_eq_code.mp hcompile
  obtain rfl := Option.some.inj (hread.symm.trans hc.read)
  rw [hbasic.eval_trimmed]
  exact hc.exists_machine hw htape input limit

-- a branch needs an alternative
example : (runFrom (SourceLower.source ⟨[.stmt (.ifElse .input (.output .input) none)]⟩)
    (Session.opening 9 "m" [])).1.isOk = false := by decide +kernel

/-- `size_t x='B';while(x>64){if(x==65){output(x);}else{}x=x-1;}`. -/
def oneLetter : List Stmt :=
  [.variable ⟨.newName, "x", 1, 8⟩ (some (.character ⟨.charLiteral, "'B'", 1, 10⟩)),
    .loop (.chain .comparison (.name ⟨.declaredName, "x", 1, 20⟩)
        [(⟨.gt, ">", 1, 21⟩, .number ⟨.number, "64", 1, 22⟩)])
      (.block [.ifElse (.chain .comparison (.name ⟨.declaredName, "x", 1, 29⟩)
            [(⟨.eq, "==", 1, 30⟩, .number ⟨.number, "65", 1, 32⟩)])
          (.block [.output (.name ⟨.declaredName, "x", 1, 43⟩)]) (some (.block [])),
        .assign ⟨.declaredName, "x", 1, 53⟩ (.chain .arithmetic (.name ⟨.declaredName, "x", 1, 55⟩)
          [(⟨.minus, "-", 1, 56⟩, .number ⟨.number, "1", 1, 57⟩)])])]

theorem Script.read_oneLetter : read (.ofLine
      "size_t x='B';while(x>64)\x7bif(x==65)\x7boutput(x);\x7delse\x7b\x7dx=x-1;\x7d") "m" =
    some ⟨⟨oneLetter.map .stmt⟩, []⟩ :=
  read_of_plainLine (by decide +kernel)

theorem Script.basic_oneLetter : Script.Basic oneLetter ⟨⟨oneLetter.map .stmt⟩, []⟩ := by
  refine ⟨rfl, ?_, by decide, by decide⟩
  have hx : "x" ∈ [] ++ ["x"] := by decide
  refine ⟨⟨rfl, .inl ⟨'B', by decide, by decide, by decide⟩⟩, ⟨⟨nofun, hx, by decide, ?_, trivial⟩,
    ⟨⟨nofun, hx, by decide, ?_, trivial⟩, ⟨hx, trivial⟩, trivial⟩,
    ⟨hx, nofun, hx, by decide, ?_, trivial⟩, trivial⟩, trivial⟩
  all_goals exact Token.isLiteral_iff.mpr (by decide)

/-- A script with a loop and an empty alternative: 70 scratch cells suffice, and the code writes one
letter. -/
theorem Session.basic_scripts_compile_oneLetter : ∃ code s',
    (Session.ofPool 70).compile (.ofLine
      "size_t x='B';while(x>64)\x7bif(x==65)\x7boutput(x);\x7delse\x7b\x7dx=x-1;\x7d") "m" =
        (.code code, s') ∧
    ∃ m, Machine.build code.text none 8 "" "1" = .ok m ∧
      (m.Suffices 71 → ∃ n m', m.run n = (none, m') ∧ m'.output = "A") := by
  have hregular : RegularAll oneLetter :=
    ⟨trivial, ⟨⟨⟨trivial, trivial⟩, trivial⟩, nofun, trivial⟩, trivial⟩
  obtain ⟨hiff, hpool, hbehaves⟩ := basic_scripts_compile {} Script.read_oneLetter
    Script.basic_oneLetter hregular (by decide)
  obtain ⟨code, s', hcompile⟩ := hpool (hiff.mpr (by decide))
  obtain ⟨m, hbuild, hperforms⟩ := hbehaves _ code s' hcompile none 8 .w8 "" "1" Setup.usualCapacity
    rfl ⟨nofun, by decide⟩
  have heval : ((Script.saying ⟨⟨oneLetter.map .stmt⟩, []⟩ (trimmedAll oneLetter)).eval .w8 "" 3).map
      State.output = some "A" := by decide
  obtain ⟨σ, hσ, houtput⟩ := Option.map_eq_some_iff.mp heval
  refine ⟨code, s', hcompile, m, hbuild, fun hm => ?_⟩
  obtain ⟨-, hends, hshows⟩ := hperforms hm
  obtain ⟨n, hn⟩ := hends.mpr ⟨3, by rw [hσ]; rfl⟩
  exact ⟨n, _, Prod.ext hn rfl, (hshows n _ 3 σ (Prod.ext hn rfl) hσ).1.trans houtput⟩

/-! ### Basic scripts that are refused -/

theorem Script.Basic.not_compiles {fs : FileSystem} {path : String} {script : Script}
    {body : List Stmt} (hbasic : script.Basic body) (hread : Script.read fs path = some script)
    (hsize : workspaceAll body ≤ 14) (h : ¬ (RegularAll body ∧ AllStorable (constantsAll body)))
    (size : Int) (stack : CallStack) : ¬ Session.Compiles size fs path stack := by
  have hbound : Emit.countBound = 2 ^ 63 := rfl
  have hsmall := Lower.lt_digitLimit (k := workspaceAll body) (by omega)
  exact fun hcompiles => h (hbasic.of_compiles hread hsmall hcompiles).2

/-- `size_t x = 1 - 4294967295;`. -/
def negativeStored : List Stmt :=
  [.variable ⟨.newName, "x", 1, 8⟩ (some (.chain .arithmetic (.number ⟨.number, "1", 1, 12⟩)
    [(⟨.minus, "-", 1, 14⟩, .number ⟨.number, "4294967295", 1, 16⟩)]))]

/-- `size_t x; x = x;`. -/
def ownValue : List Stmt :=
  [.variable ⟨.newName, "x", 1, 8⟩ none,
    .assign ⟨.declaredName, "x", 1, 11⟩ (.name ⟨.declaredName, "x", 1, 15⟩)]

/-- `size_t x; if (x) output(x);`. -/
def loneBranch : List Stmt :=
  [.variable ⟨.newName, "x", 1, 8⟩ none,
    .ifElse (.name ⟨.declaredName, "x", 1, 15⟩) (.output (.name ⟨.declaredName, "x", 1, 25⟩)) none]

/-- The line is a basic script that does not compile with any pool on any call stack. -/
def Session.NeverCompiles (line : String) : Prop :=
  (∃ script body, Script.read (.ofLine line) "m" = some script ∧ script.Basic body) ∧
    ∀ size stack, ¬ Compiles size (.ofLine line) "m" stack

/-- Of three basic scripts that are refused, one stores a negative number, one assigns a variable to
itself, and one has a branch without an alternative. -/
theorem Session.some_basic_scripts_never_compile : NeverCompiles "size_t x = 1 - 4294967295;" ∧
    NeverCompiles "size_t x; x = x;" ∧ NeverCompiles "size_t x; if (x) output(x);" := by
  have hx : "x" ∈ [] ++ ["x"] := by decide
  refine ⟨?_, ?_, ?_⟩
  · have hread : Script.read (.ofLine "size_t x = 1 - 4294967295;") "m" =
        some ⟨⟨negativeStored.map .stmt⟩, []⟩ :=
      Script.read_of_plainLine (by decide +kernel)
    have hbasic : Script.Basic negativeStored ⟨⟨negativeStored.map .stmt⟩, []⟩ := by
      refine ⟨rfl, ⟨⟨by decide, ?_, by decide, ?_, trivial⟩, trivial⟩, by decide, by decide⟩
      all_goals exact Token.isLiteral_iff.mpr (by decide)
    exact ⟨⟨_, _, hread, hbasic⟩, hbasic.not_compiles hread (by decide) fun h => absurd h.2 (by decide)⟩
  · have hread : Script.read (.ofLine "size_t x; x = x;") "m" = some ⟨⟨ownValue.map .stmt⟩, []⟩ :=
      Script.read_of_plainLine (by decide +kernel)
    have hbasic : Script.Basic ownValue ⟨⟨ownValue.map .stmt⟩, []⟩ :=
      ⟨rfl, ⟨trivial, ⟨hx, hx⟩, trivial⟩, by decide, by decide⟩
    exact ⟨⟨_, _, hread, hbasic⟩, hbasic.not_compiles hread (by decide) fun h => h.1.2.1 _ rfl rfl⟩
  · have hread : Script.read (.ofLine "size_t x; if (x) output(x);") "m" =
        some ⟨⟨loneBranch.map .stmt⟩, []⟩ :=
      Script.read_of_plainLine (by decide +kernel)
    have hbasic : Script.Basic loneBranch ⟨⟨loneBranch.map .stmt⟩, []⟩ :=
      ⟨rfl, ⟨trivial, ⟨hx, hx⟩, trivial⟩, by decide, by decide⟩
    exact ⟨⟨_, _, hread, hbasic⟩, hbasic.not_compiles hread (by decide) fun h => h.1.2.1⟩

end TapeScript
