import TapeScript.Proofs.BasicLowering
import TapeScript.Proofs.Places
import TapeScript.Proofs.Probes
import TapeScript.Proofs.WrittenFiles

set_option autoImplicit false

/-! # Sessions that are as new

A session that has compiled other files gives the outcomes of a new one for as long as nothing was left
behind: no variable is declared, the whole pool is free, and the head is at the first cell. If any of
this is not so, some file shows it: a measuring script finds a pool that is too small, the code of an
output starts with the way of the head to the first scratch cell, and a declaration goes to the cell
behind the variables (`Session.same_outcomes_iff_same_remains`).
-/

namespace TapeScript

/-! ## Measuring files -/

/-- What measuring scripts are written with. -/
def probeLexemes : List Lexeme :=
  [Terminal.input, .parenOpen, .parenClose, .plus, .whileWord, .output, .semicolon].map Terminal.lexeme

theorem plain_probeLexemes : ∀ x ∈ probeLexemes, x.Plain := by decide

theorem written_input : Phrase.Written (.expr none .input)
    [Terminal.input.lexeme, Terminal.parenOpen.lexeme, Terminal.parenClose.lexeme] := .input

theorem exists_written_summing :
    ∃ xs, Clause.Written (.stmt .summing) xs ∧ ∀ x ∈ xs, x ∈ probeLexemes :=
  ⟨_, .output (Phrase.Written.chain (written_input.operand .arithmetic)
    (.restCons ⟨.plus, "+", 0, 0⟩ (written_input.operand .arithmetic) (.restNil _))).widen, by decide⟩

theorem exists_written_probing (w : Nat) :
    ∃ xs, Clause.Written (.stmt (.probing w)) xs ∧ xs ≠ [] ∧ ∀ x ∈ xs, x ∈ probeLexemes := by
  induction w with
  | zero => exact ⟨_, .output (written_input.loosen .comparison), by simp, by decide⟩
  | succ w ih =>
    obtain ⟨xs, hxs, -, hmem⟩ := ih
    have hfirst : ∀ x ∈ [Terminal.whileWord.lexeme, Terminal.parenOpen.lexeme, Terminal.input.lexeme,
        Terminal.parenOpen.lexeme, Terminal.parenClose.lexeme, Terminal.parenClose.lexeme],
        x ∈ probeLexemes := by decide
    refine ⟨_, .loop (written_input.loosen .comparison) hxs, by simp, fun x hx => ?_⟩
    exact (List.mem_append.mp hx).elim (hfirst x) (hmem x)

theorem exists_written_measuring (k w : Nat) :
    ∃ xs, Clause.Written (.stmts (measuring k w)) xs ∧ xs ≠ [] ∧ ∀ x ∈ xs, x ∈ probeLexemes := by
  induction k with
  | zero =>
    obtain ⟨xs, hxs, hne, hmem⟩ := exists_written_probing w
    exact ⟨_, .cons hxs .nil, by simpa using hne, by simpa using hmem⟩
  | succ k ih =>
    obtain ⟨xs, hxs, hne, hmem⟩ := ih
    obtain ⟨ys, hys, hmem'⟩ := exists_written_summing
    refine ⟨_, .cons hys hxs, by simp [hne], fun x hx => ?_⟩
    exact (List.mem_append.mp hx).elim (hmem' x) (hmem x)

theorem proper_measuring (k w : Nat) : ProperStmts (measuring k w) := by
  induction k with
  | zero =>
    refine ⟨?_, trivial⟩
    induction w with
    | zero => trivial
    | succ w ih => exact ⟨trivial, ih⟩
  | succ k ih =>
    have hplus : Token.IsOperator .arithmetic ⟨.plus, "+", 0, 0⟩ := ⟨.plus, by decide, rfl⟩
    exact ⟨⟨trivial, by simp, hplus, trivial, trivial⟩, ih⟩

/-- The file holds the statements, up to the places of their tokens. -/
def Script.Holds (fs : FileSystem) (path : String) (ss : List Stmt) : Prop :=
  ∃ ss', read fs path = some ⟨⟨ss'.map .stmt⟩, []⟩ ∧ bareStmts ss' = bareStmts ss

/-- There is a file for every measuring script. -/
theorem Script.exists_measuring (k w : Nat) : ∃ fs path, Holds fs path (measuring k w) := by
  obtain ⟨xs, hxs, hne, hmem⟩ := exists_written_measuring k w
  exact exists_read (proper_measuring k w) hxs hne fun x hx => plain_probeLexemes x (hmem x hx)

/-! ## Declarations -/

/-- There is always another name. -/
theorem exists_other_name (names : List String) :
    ∃ k, String.ofList (List.replicate (k + 1) 'x') ∉ names := by
  have hinj : Function.Injective fun k : Nat => String.ofList (List.replicate (k + 1) 'x') := by
    intro j k hjk
    have hlength := congrArg (fun s : String => s.toList.length) hjk
    simpa using hlength
  obtain ⟨name, ⟨k, rfl⟩, hnot⟩ :=
    (Set.infinite_range_of_injective hinj).exists_notMem_finset names.toFinset
  exact ⟨k, by simpa using hnot⟩

/-- There is a file that declares a name which is not among the given ones. -/
theorem Script.exists_declaration (names : List String) :
    ∃ fs path t, Holds fs path [.variable t none] ∧ t.text ∉ names := by
  obtain ⟨k, hnew⟩ := exists_other_name names
  let name : Token := ⟨.newName, String.ofList (List.replicate (k + 1) 'x'), 0, 0⟩
  have hname : name.IsNewName := by
    refine ⟨rfl, 'x', List.replicate k 'x', by simp [name, List.replicate_succ], by decide, ?_⟩
    intro c hc
    obtain rfl := List.eq_of_mem_replicate hc
    decide
  have hwritten := Clause.Written.cons (.uninitialised name) .nil
  have hplain : ∀ x ∈ [Terminal.sizeT.lexeme, name.lexeme, Terminal.semicolon.lexeme] ++ [], x.Plain := by
    intro x hx
    simp only [List.append_nil, List.mem_cons, List.not_mem_nil, or_false] at hx
    rcases hx with rfl | rfl | rfl
    · decide
    · refine ⟨by simp [name, Token.lexeme, List.replicate_succ], fun c hc => ?_⟩
      obtain rfl : c = 'x' := by simpa [name, Token.lexeme] using hc
      decide
    · decide
  have hproper : ProperStmts [.variable name none] := ⟨hname, trivial⟩
  obtain ⟨fs, path, hholds⟩ := exists_read hproper hwritten (by simp) hplain
  exact ⟨fs, path, name, hholds, hnew⟩

/-! ## Files with known nodes -/

theorem Source.bare_of_stmts {ss ss' : List Stmt} (h : bareStmts ss = bareStmts ss') :
    (Source.mk (ss.map .stmt)).bare = (Source.mk (ss'.map .stmt)).bare := by
  have hmap : ∀ ss : List Stmt, (ss.map Item.stmt).map Item.bare = (bareStmts ss).map .stmt := by
    intro ss
    induction ss with
    | nil => rfl
    | cons st ss ih => rw [List.map_cons, List.map_cons, bareStmts, List.map_cons, ih, Item.bare]
  rw [Source.bare, Source.bare, hmap, hmap, h]

namespace Session

/-- The session in which a file without defines is lowered. -/
def begun (s : Session) (path : String) : Session :=
  { s.note s!"--- Starting Compilation: {path} ---" with defines := [] }

/-- The code of a file is that of the nodes of its statements. -/
theorem code_iff {fs : FileSystem} {path : String} {stack : CallStack} {ss : List Stmt}
    (hfile : Script.Holds fs path ss)
    (hdepth : depthOfAll ((ss.map Item.stmt).map Item.tree) < stack.levels) {s s1 : Session}
    {ns : List Node} (hstmts : Gives (SourceLower.stmts ss) (s.begun path) ns s1)
    (hready : ∀ n ∈ ns, n.hasCode = .ok true) (hcalls : Node.callsAll ns ≤ stack.calls)
    {code : Code} :
    (s.compile fs path stack).1 = .code code ↔
      ∃ bench, Gives (Node.emitAll ns) s1.bench code bench := by
  obtain ⟨ss', hread, hbare⟩ := hfile
  have hsource : (s.compile fs path stack).1 = .code code ↔
      ∃ s', Gives (SourceLower.source ⟨ss.map .stmt⟩ stack) (s.begun path) code s' := by
    rw [compile_of_script s hread, compileScript,
      SourceLower.source_eq_of_bare (Source.bare_of_stmts hbare) stack]
    unfold Gives begun
    generalize runFrom (SourceLower.source _ stack) _ = r
    obtain ⟨r, t⟩ := r
    cases r <;> simp
  rw [← SourceLower.items_map_stmt] at hstmts
  rw [← SourceLower.working_of_hasCode hready] at hcalls ⊢
  rw [hsource]
  simp only [SourceLower.gives_source]
  constructor
  · rintro ⟨_, -, nodes, s2, bench, hnodes, -, hcode, -⟩
    obtain ⟨rfl, rfl⟩ := hnodes.unique hstmts
    exact ⟨bench, hcode⟩
  · rintro ⟨bench, hcode⟩
    exact ⟨_, hdepth, ns, s1, bench, hstmts, hcalls, hcode, rfl⟩

theorem emitAll_single (n : Node) : Node.emitAll [n] = n.emit := by
  rw [Node.emitAll_eq]
  exact (Emit.Flat.single n.emit).symm

/-! ## What the files find -/

section Finds

variable {pool : Nat} {names : List String} {s : Session} {fs : FileSystem} {path : String}
variable {stack : CallStack} {k w : Nat} {code : Code}

/-! ### The pool -/

theorem Rows.begun (h : s.Rows pool names) (path : String) : (s.begun path).Rows pool names :=
  (h.noted _).withDefines []

theorem Rows.supplied (h : s.Rows pool names) {reach : Int} (hhead : InReach reach s.bench.head)
    {k : Nat} (hk : k ≤ s.bench.cells.free.length) : s.bench.Supplied pool reach k := by
  refine ⟨hhead, hk, h.nodup_free, fun c hc => mem_firstCells.mp (h.free.subset hc), fun c hc => ?_⟩
  rw [h.scratch]
  exact h.free.subset hc

/-- The call stack has room for a few loops and operators. -/
structure Roomy (stack : CallStack) : Prop where
  levels : 20 ≤ stack.levels
  calls : 20 ≤ stack.calls

theorem code_measuring_iff (hstack : Roomy stack) (hfile : Script.Holds fs path (measuring k w))
    (hw : w ≤ 5) (s : Session) : (s.compile fs path stack).1 = .code code ↔
      ∃ bench, Gives (Node.emitAll (Node.measure k w)) (s.begun path).bench code bench := by
  have hdepth := depth_measuring k w
  have hcalls := Node.callsAll_measure k w
  have hlevels := hstack.levels
  have hroom := hstack.calls
  exact code_iff hfile (by omega) (SourceLower.gives_measuring k w) (Node.hasCode_measure k w) (by omega)

/-- A new session has the scratch cells for a measuring script. -/
theorem exists_code_measuring {size : Int} (hstack : Roomy stack)
    (hfile : Script.Holds fs path (measuring k w)) (hw : w ≤ 5) (hk : k = 0 ∨ 4 ≤ w)
    (hneed : 2 * k + (w + 1) ≤ size.toNat) (hsize : size < Emit.countBound) :
    ∃ code, ((ofPool size).compile fs path stack).1 = .code code ∧ code ≠ [] := by
  have hbound := Plan.one_lt_countBound
  have hreach : max 1 (size.toNat : Int) ≤ Emit.countBound := by omega
  have hsupplied : ((ofPool size).begun path).bench.Supplied size.toNat (max 1 (size.toNat : Int))
      (2 * k + (w + 1)) :=
    ((Rows.ofPool size).begun path).supplied ⟨le_refl 0, lt_max_of_lt_left Int.one_pos⟩ (by
      simpa [begun, note, ofPool, CellTable.ofSize, CellTable.ofPool] using hneed)
  obtain ⟨code, bench, hgives, -⟩ := Node.emits_measure hreach (le_max_right ..)
    (Int.natCast_nonneg _) hk (fun c hc => (mem_firstCells.mp hc).2) _ hsupplied (List.Subset.refl _)
  exact ⟨code, (code_measuring_iff hstack hfile hw _).mpr ⟨bench, hgives⟩, Node.ne_nil_of_measure hgives⟩

/-- There are as many free scratch cells as a measuring script needs. -/
theorem need_le (hstack : Roomy stack) (hfile : Script.Holds fs path (measuring k w)) (hw : w ≤ 5)
    (hcode : (s.compile fs path stack).1 = .code code) :
    2 * k + (w + 1) ≤ s.bench.cells.free.length := by
  obtain ⟨bench, hgives⟩ := (code_measuring_iff hstack hfile hw s).mp hcode
  exact Node.needs_measure k w (s.begun path).bench code bench hgives

/-! ### The head -/

/-- The code of `output(input());` starts with the way to the first scratch cell. -/
theorem code_echo {w w' : Workbench} {rest : List Int} (hfree : w.cells.free = 0 :: rest)
    (hg : Gives (Node.emitAll (Node.measure 0 0)) w code w') :
    code = (Beat.go 0).code w.head ++ [.get, .put] := by
  rw [Node.measure, emitAll_single] at hg
  have hscripted : Emit.Scripted (Emit.seq [Node.input.emitInto 0, Emit.moveTo 0, Emit.one .put])
      [.go 0, .act .get, .go 0, .act .put] :=
    Emit.Scripted.cons ((Emit.scripted_moveTo 0).cons ((Emit.scripted_one .get rfl rfl).cons .nil))
      ((Emit.scripted_moveTo 0).cons ((Emit.scripted_one .put rfl rfl).cons .nil))
  obtain ⟨cell, w1, htake, hrest⟩ := gives_bind.mp hg
  obtain ⟨code', w2, hcode, hback⟩ := gives_bind.mp hrest
  obtain ⟨_, w3, -, hend⟩ := gives_bind.mp hback
  obtain ⟨rfl, -⟩ := gives_pure.mp hend
  obtain ⟨others, hcons, rfl⟩ := Emit.gives_takeScratch.mp htake
  obtain rfl : cell = 0 := (List.cons.inj (hcons.symm.trans hfree)).1
  rw [show Emit.seq _ = Emit.seq (List.map Beat.emit _) from hscripted, Emit.gives_beats] at hcode
  rw [hcode.2.1]
  rfl

theorem head_of_code_go {h : Int} (hcode : (Beat.go 0).code h = []) : h = 0 := by
  have hlength := congrArg List.length hcode
  simp only [Beat.code, Op.code, List.length_append, List.length_replicate, List.length_nil] at hlength
  simp only [Op.count] at hlength
  omega

/-! ### The variables -/

theorem Rows.gives_declaration (h : s.Rows pool names) {t : Token} (hnew : t.text ∉ names) :
    ∃ s1, Gives (SourceLower.stmt (.variable t none)) s
      (.declare (variableAt pool t.text names.length) none) s1 ∧ s.bench.Alike s1.bench := by
  obtain ⟨s1, hdefine, -, hbench, -⟩ := h.define hnew
  refine ⟨s1, ?_, hbench⟩
  rw [SourceLower.stmt]
  refine gives_bind.mpr ⟨.newName t.text, s, SourceLower.gives_during.mpr (gives_pure.mpr ⟨rfl, rfl⟩),
    SourceLower.gives_during.mpr ?_⟩
  unfold Lower.declare
  rw [gives_lift_bind]
  refine ⟨t.text, rfl, ?_⟩
  rw [gives_get_bind, gives_when]
  refine ⟨fun hbound => hnew ((h.binds_iff t.text).mp hbound), ?_⟩
  exact gives_bind.mpr ⟨_, s1, hdefine, gives_pure.mpr ⟨rfl, rfl⟩⟩

/-- The code of a declaration leads from the head to the cell of the variable. -/
theorem gives_declare {w w' : Workbench} {name : String} {k : Nat} :
    Gives (Node.declare (variableAt pool name k) none).emit w code w' ↔
      Beat.FitsAll w.head (Plan.setCell ((pool + k : Nat) : Int) 0).beats ∧
        code = Beat.codeAll w.head (Plan.setCell ((pool + k : Nat) : Int) 0).beats ∧
        w' = { w with head := Beat.headAll w.head (Plan.setCell ((pool + k : Nat) : Int) 0).beats } := by
  have hscripted : Emit.Scripted (Emit.setCell ((pool + k : Nat) : Int) 0)
      (Plan.setCell ((pool + k : Nat) : Int) 0).beats := Emit.scripted_setCell _ (le_refl 0)
  rw [← Emit.gives_beats, ← show Emit.setCell _ 0 = Emit.seq (List.map Beat.emit _) from hscripted]
  rfl

theorem length_codeAll_setCell (cell : Nat) :
    (Beat.codeAll 0 (Plan.setCell (cell : Int) 0).beats).length = cell + 3 := by
  simp only [Plan.setCell, Plan.clear, Plan.beats_append, Plan.beats]
  simp [Beat.codeAll, Beat.code, Beat.head, Op.code, Op.count, Op.shift]

/-- The code of a file that declares a variable. -/
theorem code_declaration_iff {t : Token} (hstack : Roomy stack)
    (hfile : Script.Holds fs path [.variable t none]) (hrows : s.Rows pool names)
    (hnew : t.text ∉ names) : (s.compile fs path stack).1 = .code code ↔
      Beat.FitsAll s.bench.head (Plan.setCell ((pool + names.length : Nat) : Int) 0).beats ∧
        code = Beat.codeAll s.bench.head (Plan.setCell ((pool + names.length : Nat) : Int) 0).beats := by
  obtain ⟨s1, hstmt, hbench⟩ := (hrows.begun path).gives_declaration hnew
  have hstmts : Gives (SourceLower.stmts [.variable t none]) (s.begun path)
      [.declare (variableAt pool t.text names.length) none] s1 := by
    rw [SourceLower.stmts]
    exact gives_bind.mpr ⟨_, s1, hstmt, rfl⟩
  have hlevels := hstack.levels
  have hroom := hstack.calls
  have hdepth : depthOfAll (([Stmt.variable t none].map Item.stmt).map Item.tree) = 2 := rfl
  rw [code_iff hfile (by omega) hstmts (List.forall_mem_singleton.mpr rfl)
    (show 5 ≤ stack.calls by omega)]
  simp only [emitAll_single, gives_declare, ← hbench.head]
  constructor
  · rintro ⟨bench, hfits, hcode, -⟩
    exact ⟨hfits, hcode⟩
  · rintro ⟨hfits, hcode⟩
    exact ⟨_, hfits, hcode, rfl⟩

/-- A new session has the cell for a variable. -/
theorem exists_code_declaration {t : Token} {size : Int} (hstack : Roomy stack)
    (hfile : Script.Holds fs path [.variable t none]) (hsize : size < Emit.countBound) :
    ∃ code, ((ofPool size).compile fs path stack).1 = .code code ∧ code ≠ [] := by
  have hbound := Plan.one_lt_countBound
  have hspans : (Plan.setCell ((size.toNat + 0 : Nat) : Int) 0).Spans (size.toNat + 1) :=
    Plan.spans_setCell.mpr ⟨⟨by omega, by omega⟩, by decide⟩
  have hhead : InReach (size.toNat + 1) 0 := ⟨le_refl 0, by omega⟩
  obtain ⟨hfits, -⟩ := hspans.fits (by omega) hhead
  refine ⟨_, (code_declaration_iff hstack hfile (Rows.ofPool size) List.not_mem_nil).mpr ⟨hfits, rfl⟩,
    List.ne_nil_of_length_pos ?_⟩
  rw [show (ofPool size).bench.head = 0 from rfl, length_codeAll_setCell]
  omega

end Finds

/-! ## New sessions -/

/-- The same was left behind by what was compiled before. -/
structure SameRemains (s s' : Session) : Prop where
  names : s.global.names = s'.global.names
  free : s.bench.cells.free = s'.bench.cells.free
  head : s.bench.head = s'.bench.head

variable {size : Int} {names : List String} {s : Session}

theorem layout_injective (pool : Nat) : Function.Injective (layout pool) := by
  intro names names' h
  have hfst := congrArg (List.map Prod.fst) h
  simpa [layout, Function.comp_def] using hfst

/-- Nothing else that was left behind is ever looked at. -/
theorem SameRemains.alike {pool : Nat} {names' : List String} {s' : Session} (h : s.SameRemains s')
    (hrows : s.Rows pool names) (hrows' : s'.Rows pool names') : s.Alike pool s' := by
  have hnames : names = names' :=
    layout_injective pool (hrows.global.symm.trans (h.names.trans hrows'.global))
  subst hnames
  exact ⟨⟨names, hrows, hrows'⟩, h.head, h.free, hrows.scratch.trans hrows'.scratch.symm⟩

/-- For every size of a pool there is a measuring script that needs the whole pool. -/
theorem exists_need {n : Nat} (hn : 0 < n) :
    ∃ k w, w ≤ 5 ∧ (k = 0 ∨ 4 ≤ w) ∧ 2 * k + (w + 1) = n := by
  by_cases hsmall : n ≤ 6
  · exact ⟨0, n - 1, by omega, .inl rfl, by omega⟩
  · exact ⟨(n - 5) / 2, 5 - n % 2, by omega, .inr (by omega), by omega⟩

/-- Code that is not empty comes from a lowering that ended well. -/
theorem eq_code_of_same {r r' : Outcome} {code : Code} (hsame : r.code? = r'.code?)
    (hcode : r' = .code code) (hne : code ≠ []) : r = .code code := by
  subst hcode
  cases r with
  | code emitted => exact congrArg Outcome.code (Option.some.inj hsame)
  | lowerFault _ => exact absurd (Option.some.inj hsame).symm hne
  | includeFault _ | parseFault _ | unreadable _ => exact nomatch hsame

section Converse

variable {stack : CallStack} (hstack : Roomy stack) (hrows : s.Rows size.toNat names) (hpos : 0 < size)
  (hsize : size < Emit.countBound) (hsame : ∀ fs path,
    (s.compile fs path stack).1.code? = ((ofPool size).compile fs path stack).1.code?)

include hstack hrows hpos hsize hsame

theorem free_of_same : s.bench.cells.free = firstCells size.toNat := by
  obtain ⟨k, w, hw, hk, hneed⟩ := exists_need (n := size.toNat) (by omega)
  obtain ⟨fs, path, hfile⟩ := Script.exists_measuring k w
  obtain ⟨code, hcode, hne⟩ := exists_code_measuring hstack hfile hw hk (le_of_eq hneed) hsize
  have hle : 2 * k + (w + 1) ≤ s.bench.cells.free.length :=
    need_le hstack hfile hw (eq_code_of_same (hsame fs path) hcode hne)
  refine hrows.free.eq_of_length_le ?_
  rw [hneed] at hle
  simpa [firstCells] using hle

theorem head_of_same : s.bench.head = 0 := by
  have hfree := free_of_same hstack hrows hpos hsize hsame
  obtain ⟨n, hn⟩ : ∃ n, size.toNat = n + 1 := ⟨size.toNat - 1, by omega⟩
  have hfirst : firstCells size.toNat = 0 :: (firstCells size.toNat).tail := by
    rw [hn]
    simp [firstCells, List.range_succ_eq_map]
  obtain ⟨fs, path, hfile⟩ := Script.exists_measuring 0 0
  obtain ⟨code, hcode, hne⟩ :=
    exists_code_measuring hstack hfile (Nat.zero_le 5) (.inl rfl) (by omega) hsize
  obtain ⟨bench, hgives⟩ := (code_measuring_iff hstack hfile (Nat.zero_le 5) _).mp hcode
  obtain ⟨bench', hgives'⟩ := (code_measuring_iff hstack hfile (Nat.zero_le 5) s).mp
    (eq_code_of_same (hsame fs path) hcode hne)
  have hnew := code_echo (show ((ofPool size).begun path).bench.cells.free = _ from hfirst) hgives
  have hused := code_echo (show (s.begun path).bench.cells.free = _ from hfree.trans hfirst) hgives'
  exact head_of_code_go (List.append_cancel_right (hused.symm.trans hnew))

theorem names_of_same : names = [] := by
  have hhead := head_of_same hstack hrows hpos hsize hsame
  obtain ⟨fs, path, t, hfile, hnew⟩ := Script.exists_declaration names
  obtain ⟨code, hcode, hne⟩ := exists_code_declaration hstack hfile hsize
  obtain ⟨-, hfresh⟩ :=
    (code_declaration_iff hstack hfile (Rows.ofPool size) List.not_mem_nil).mp hcode
  obtain ⟨-, hused⟩ := (code_declaration_iff hstack hfile hrows hnew).mp
    (eq_code_of_same (hsame fs path) hcode hne)
  rw [show (ofPool size).bench.head = 0 from rfl] at hfresh
  rw [hhead] at hused
  have hlength := congrArg List.length (hused.symm.trans hfresh)
  rw [length_codeAll_setCell, length_codeAll_setCell, List.length_nil] at hlength
  exact List.length_eq_zero_iff.mp (by omega)

end Converse

/-- **What was left behind decides.** In two sessions with pools of one size, which have compiled any
files with any success, a file has the same outcome if the same was left behind of variables and of free
scratch cells, and the head was left at the same place. Compared with a new session, which has no
variables, all of its pool, and the head at the first cell, this is necessary as well, if the call stack
has room for a few loops: all files have the same code only if nothing was left behind. A file that
cannot be read as a script has its outcome in every session, and leaves nothing behind. -/
theorem same_outcomes_iff_same_remains (size : Int) (stack : CallStack)
    (calls : List (FileSystem × String)) :
    let s := (ofPool size).compileAll calls stack
    (∀ calls', s.SameRemains ((ofPool size).compileAll calls' stack) → ∀ fs path,
      (s.compile fs path stack).1 =
        (((ofPool size).compileAll calls' stack).compile fs path stack).1) ∧
    (0 < size → size < Emit.countBound → Roomy stack →
      ((∀ fs path, (s.compile fs path stack).1.code? =
          ((ofPool size).compile fs path stack).1.code?) ↔ s.SameRemains (ofPool size))) ∧
    ∀ fs path, Script.read fs path = none →
      (s.compile fs path stack).1 = ((ofPool size).compile fs path stack).1 ∧
        (s.compile fs path stack).2.SameRemains s := by
  intro s
  obtain ⟨names, hrows⟩ := (Rows.ofPool size).compileAll calls stack
  have hsufficient : ∀ calls', s.SameRemains ((ofPool size).compileAll calls' stack) → ∀ fs path,
      (s.compile fs path stack).1 =
        (((ofPool size).compileAll calls' stack).compile fs path stack).1 := by
    intro calls' hremains fs path
    obtain ⟨names', hrows'⟩ := (Rows.ofPool size).compileAll calls' stack
    exact ((hremains.alike hrows hrows').compile fs path stack).1
  refine ⟨hsufficient, fun hpos hsize hstack => ⟨fun hsame => ?_, fun hremains fs path => ?_⟩, ?_⟩
  · obtain rfl := names_of_same hstack hrows hpos hsize hsame
    exact ⟨hrows.global, free_of_same hstack hrows hpos hsize hsame,
      head_of_same hstack hrows hpos hsize hsame⟩
  · exact congrArg Outcome.code? (hsufficient [] hremains fs path)
  · intro fs path hread
    obtain ⟨hsame, log, hlog⟩ := compile_of_unread hread s (ofPool size)
    refine ⟨hsame, ?_⟩
    rw [hlog]
    exact ⟨rfl, rfl, rfl⟩

end Session

/-! ### Files of one line -/

/-- The script `output(input());`. -/
def echoing : Source := ⟨[.stmt (.output .input)]⟩

/-- The script `size_t x;`. -/
def declaring : Source := ⟨[.stmt (.variable ⟨.newName, "x", 1, 8⟩ none)]⟩

/-- A condition with nothing to do in either case. -/
def branching : Source := ⟨[.stmt (.ifElse .input (.block []) (some (.block [])))]⟩

/-- The script `output(1-2);`. -/
def negating : Source :=
  ⟨[.stmt (.output (.chain .arithmetic (.number ⟨.number, "1", 1, 8⟩)
    [(⟨.minus, "-", 1, 9⟩, .number ⟨.number, "2", 1, 10⟩)]))]⟩

/-- What the files hold; the last one is cut off. -/
theorem Script.read_lines :
    read (.ofLine "output(input());") "m" = some ⟨echoing, []⟩ ∧
    read (.ofLine "size_t x;") "m" = some ⟨declaring, []⟩ ∧
    read (.ofLine "if(input())\x7b\x7delse\x7b\x7d") "m" = some ⟨branching, []⟩ ∧
    read (.ofLine "output(1-2);") "m" = some ⟨negating, []⟩ ∧
    read (.ofLine "output(") "m" = none := by
  refine ⟨read_of_plainLine (by decide +kernel), read_of_plainLine (by decide +kernel),
    read_of_plainLine (by decide +kernel), read_of_plainLine (by decide +kernel), ?_⟩
  have hparse : (Source.parse "output(".toList).toOption = none := by decide +kernel
  rw [read_plainLine (by decide +kernel), hparse]
  rfl

namespace Session

/-- The session after one file. -/
theorem compileAll_single (s : Session) {fs : FileSystem} {path : String} {script : Script}
    (hread : Script.read fs path = some script) :
    s.compileAll [(fs, path)] = (s.compileScript path script).2 :=
  congrArg Prod.snd (compile_of_script s hread)

/-- After an output all files have the outcomes they have in a new session. After a declaration some
file does not have its code, but one that is cut off still has its outcome. -/
theorem same_outcomes_iff_same_remains_oneLine :
    (let s := (ofPool 4).compileAll [(.ofLine "output(input());", "m")];
      s.SameRemains (ofPool 4) ∧
        ∀ fs path, (s.compile fs path).1 = ((ofPool 4).compile fs path).1) ∧
    (let s := (ofPool 4).compileAll [(.ofLine "size_t x;", "m")];
      (0 : Int) < 4 ∧ 4 < Emit.countBound ∧ Roomy {} ∧ ¬ s.SameRemains (ofPool 4) ∧
        (∃ fs path, (s.compile fs path).1.code? ≠ ((ofPool 4).compile fs path).1.code?) ∧
        Script.read (.ofLine "output(") "m" = none ∧
        (s.compile (.ofLine "output(") "m").1 = ((ofPool 4).compile (.ofLine "output(") "m").1 ∧
        (s.compile (.ofLine "output(") "m").2.SameRemains s) := by
  obtain ⟨hechoing, hdeclaring, -, -, hcutOff⟩ := Script.read_lines
  constructor
  · have hremains : ((ofPool 4).compileAll [(.ofLine "output(input());", "m")]).SameRemains
        (ofPool 4) := by
      rw [compileAll_single _ hechoing]
      exact ⟨by decide, by decide, by decide⟩
    exact ⟨hremains, (same_outcomes_iff_same_remains 4 {} _).1 [] hremains⟩
  · have hremains : ¬ ((ofPool 4).compileAll [(.ofLine "size_t x;", "m")]).SameRemains
        (ofPool 4) := by
      rw [compileAll_single _ hdeclaring]
      intro h
      exact absurd h.names (by decide)
    obtain ⟨-, hiff, hunread⟩ := same_outcomes_iff_same_remains 4 {} [(.ofLine "size_t x;", "m")]
    have hstack : Roomy {} := ⟨by decide, by decide⟩
    refine ⟨by decide, by decide, hstack, hremains, ?_, hcutOff, hunread _ _ hcutOff⟩
    by_contra hnone
    simp only [not_exists, ne_eq, not_not] at hnone
    exact hremains ((hiff (by decide) (by decide) hstack).mp hnone)

/-- A declaration cannot be compiled again. The head is left behind where a branching ended, and the
code of the next file starts with the way back. A compilation that fails keeps the scratch cells it had
taken, and there are none left for the next file. -/
theorem earlier_files_interfere :
    (let fs := FileSystem.ofLine "size_t x;";
      ((ofPool 4).compile fs "m").1.code?.map Code.text = some ">>>>[-]" ∧
      (((ofPool 4).compileAll [(fs, "m")]).compile fs "m").1.code?.map Code.text = some "") ∧
    (let first := FileSystem.ofLine "if(input())\x7b\x7delse\x7b\x7d";
      let next := FileSystem.ofLine "output(input());";
      ((ofPool 4).compile next "m").1.code?.map Code.text = some ",." ∧
      (((ofPool 4).compileAll [(first, "m")]).compile next "m").1.code?.map Code.text =
        some "<,.") ∧
    (let first := FileSystem.ofLine "output(1-2);";
      let next := FileSystem.ofLine "output(input());";
      ((ofPool 1).compile first "m").1.code?.map Code.text = some "" ∧
      ((ofPool 1).compile next "m").1.code?.map Code.text = some ",." ∧
      (((ofPool 1).compileAll [(first, "m")]).compile next "m").1.code?.map Code.text =
        some "") := by
  obtain ⟨hechoing, hdeclaring, hbranching, hnegating, -⟩ := Script.read_lines
  dsimp only
  rw [compileAll_single _ hdeclaring, compileAll_single _ hbranching, compileAll_single _ hnegating]
  simp only [compile_of_script _ hdeclaring, compile_of_script _ hnegating,
    compile_of_script _ hechoing]
  decide +kernel

end Session

end TapeScript
