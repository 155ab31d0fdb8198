import TapeScript.Proofs.ScratchUse
import TapeScript.Proofs.Tenancy

set_option autoImplicit false

/-! # What a compilation leaves behind

A session goes through one compilation after the other, and a compilation that fails has often done
half of its work. Whatever came of it, three things are left to the next one: the variables that were
declared, the scratch cells that did not come back to the pool, and the place of the head. Sessions
that agree in these give the same outcome for every file (`Session.Alike.compile`), and none of the
three is ever undone: variables stay where they are, in the cells behind the pool, and the pool only
gets smaller (`Session.Rows`).
-/

namespace TapeScript

/-! ## Emission -/

/-- The head is at one place in both, and the pools are the same. -/
structure Workbench.Alike (w w' : Workbench) : Prop where
  head : w.head = w'.head
  free : w.cells.free = w'.cells.free
  scratch : w.cells.scratch = w'.cells.scratch

namespace Emit

theorem respects_takeScratch : Respects Workbench.Alike takeScratch := by
  intro w w' h
  rw [runFrom_takeScratch, runFrom_takeScratch, CellTable.take, CellTable.take, ← h.free]
  cases w.cells.free with
  | nil => exact ⟨rfl, h⟩
  | cons cell rest => exact ⟨rfl, h.head, rfl, h.scratch⟩

theorem respects_giveBack (cell : Int) : Respects Workbench.Alike (giveBack cell) := by
  intro w w' h
  rw [runFrom_giveBack, runFrom_giveBack, CellTable.giveBack, CellTable.giveBack, ← h.free, ← h.scratch]
  by_cases hfree : cell ∈ w.cells.free
  · rw [if_pos hfree, if_pos hfree]
    exact ⟨rfl, h⟩
  · rw [if_neg hfree, if_neg hfree]
    by_cases hscratch : cell ∈ w.cells.scratch
    · rw [if_pos hscratch, if_pos hscratch]
      exact ⟨rfl, h.head, rfl, rfl⟩
    · rw [if_neg hscratch, if_neg hscratch]
      exact ⟨rfl, h⟩

/-- What is emitted depends on the head and on the pool alone. -/
theorem Built.respects {α : Type} {e : Emit α} (h : Built e) : Respects Workbench.Alike e :=
  h.respects_of (fun _ _ h => h.head) (fun _ _ _ h => ⟨rfl, h.free, h.scratch⟩) respects_takeScratch
    respects_giveBack

/-! ### The pool only gets smaller -/

/-- No scratch cell comes to the pool that was not there. -/
def shrinking : Effect Workbench Fault where
  leads w w' := w.cells.free.Nodup → w'.cells.free.Sublist w.cells.free
  faults _ := True
  refl _ _ := List.Sublist.refl _
  trans h h' hnodup := (h' ((h hnodup).nodup hnodup)).trans (h hnodup)

open Effect

theorem shrinking_moveTo (cell : Int) : shrinking.Allows (moveTo cell) := by
  have hrepeated : ∀ cmd count, shrinking.Allows (repeated cmd count) := fun _ _ =>
    allows_ite (fun _ => allows_throw trivial) fun _ => allows_pure _
  have hmove : ∀ f : Workbench → Int, shrinking.Allows
      (modify fun w => { w with head := f w } : Emit Unit) := fun _ =>
    allows_modify fun _ _ => List.Sublist.refl _
  have hmoveBy : ∀ direction count, shrinking.Allows (moveBy direction count) := by
    intro direction count
    unfold moveBy
    refine allows_ite (fun _ => allows_bind (allows_throw trivial) fun _ => ?_) fun _ => ?_
    all_goals
      cases direction with
      | right => exact allows_bind (hmove _) fun _ => hrepeated _ _
      | left => exact allows_bind (hmove _) fun _ => hrepeated _ _
  refine allows_bind allows_get fun w => allows_ite (fun _ => hmoveBy _ _) fun _ => ?_
  exact allows_ite (fun _ => hmoveBy _ _) fun _ => allows_pure _

theorem shrinking_takeScratch : shrinking.Allows takeScratch := by
  intro w
  refine ⟨fun _ => ?_, fun _ _ => trivial⟩
  rw [runFrom_takeScratch, CellTable.take]
  cases hfree : w.cells.free with
  | nil =>
    show w.cells.free.Sublist []
    rw [hfree]
  | cons cell rest => exact List.sublist_cons_self cell rest

/-- A borrowed cell comes back to its place at the front, or is lost. -/
theorem shrinking_borrow {f : Int → Emit Code} (h : ∀ cell, shrinking.Allows (f cell)) :
    shrinking.Allows (borrow f) := by
  intro w
  refine ⟨fun hnodup => ?_, fun _ _ => trivial⟩
  unfold borrow
  rw [runFrom_bind, runFrom_takeScratch, CellTable.take]
  cases hfree : w.cells.free with
  | nil =>
    show w.cells.free.Sublist []
    rw [hfree]
  | cons cell rest =>
    rw [hfree] at hnodup
    dsimp only
    generalize hw : ({ w with cells := _, log := _ } : Workbench) = w1
    have hrest : w1.cells.free = rest := by rw [← hw]
    have hinner := (h cell w1).1 (by rw [hrest]; exact hnodup.tail)
    rw [hrest] at hinner
    rw [runFrom_bind]
    cases hrun : runFrom (f cell) w1 with
    | mk r w2 =>
      rw [hrun] at hinner
      cases r with
      | error fault => exact hinner.cons cell
      | ok code =>
        dsimp only
        rw [runFrom_bind, runFrom_giveBack, CellTable.giveBack]
        split_ifs
        · exact hinner.cons cell
        · exact hinner.cons_cons cell
        · exact hinner.cons cell

/-- **No emission puts a cell into the pool that was not there**, whether it succeeds or not. -/
theorem Built.shrinks {α : Type} {e : Emit α} (h : Built e) : shrinking.Allows e := by
  induction h with
  | pure a => exact allows_pure a
  | throw _ => exact allows_throw trivial
  | bind _ _ ihx ihk => exact allows_bind ihx ihk
  | takeScratch => exact shrinking_takeScratch
  | borrow _ ih => exact shrinking_borrow ih
  | moveTo cell => exact shrinking_moveTo cell

end Emit

/-! ## Sessions -/

namespace Session

/-- The variables have the cells behind the scratch pool, one each and in order, and the scratch cells
that are free are in order too. -/
structure Rows (pool : Nat) (names : List String) (s : Session) : Prop where
  scratch : s.bench.cells.scratch = firstCells pool
  free : s.bench.cells.free.Sublist (firstCells pool)
  taken : s.bench.cells.taken = firstCells (pool + names.length)
  inner : s.inner = []
  global : s.global.names = layout pool names

/-- The same variables, the same free scratch cells, and the head at the same place. -/
structure Alike (pool : Nat) (s s' : Session) : Prop where
  rows : ∃ names, s.Rows pool names ∧ s'.Rows pool names
  bench : s.bench.Alike s'.bench

/-- Sessions that are alike and lower a text with the same defines. -/
structure Twins (pool : Nat) (s s' : Session) : Prop extends Alike pool s s' where
  defines : s.defines = s'.defines

variable {pool : Nat} {names : List String} {s s' : Session}

namespace Rows

theorem ofPool (size : Int) : (Session.ofPool size).Rows size.toNat [] where
  scratch := rfl
  free := List.Sublist.refl _
  taken := eraseDups_of_nodup (nodup_firstCells _)
  inner := rfl
  global := rfl

theorem alike (h : s.Rows pool names) : s.Alike pool s := ⟨⟨names, h, h⟩, rfl, rfl, rfl⟩

theorem nodup_free (h : s.Rows pool names) : s.bench.cells.free.Nodup :=
  h.free.nodup (nodup_firstCells pool)

theorem noted (h : s.Rows pool names) (line : String) : (s.note line).Rows pool names :=
  ⟨h.scratch, h.free, h.taken, h.inner, h.global⟩

theorem withDefines (h : s.Rows pool names) (defines : DefineTable) :
    Rows pool names { s with defines } := ⟨h.scratch, h.free, h.taken, h.inner, h.global⟩

theorem quiet (h : s.Rows pool names) (hquiet : s.Quiet s') : s'.Rows pool names := by
  rw [hquiet.same]
  exact ⟨h.scratch, h.free, h.taken, h.inner, h.global⟩

theorem current_eq (h : s.Rows pool names) : s.current = s.global := by
  rw [Session.current, h.inner]

theorem lookup_eq (h : s.Rows pool names) (name : String) :
    s.lookup name = (layout pool names).lookup name := by
  rw [Session.lookup, h.inner, ← h.global]
  simp [Frame.lookup?]

theorem binds_iff (h : s.Rows pool names) (name : String) :
    s.current.binds name = true ↔ name ∈ names := by
  rw [h.current_eq, Frame.binds, Frame.lookup?, h.global, Option.isSome_iff_ne_none, Ne,
    lookup_layout_eq_none, not_not]

/-- After any emission the cells are in order still. -/
theorem emitted (h : s.Rows pool names) (ns : List Node) :
    Rows pool names { s with bench := (runFrom (Node.emitAll ns) s.bench).2 } := by
  obtain ⟨⟨htaken, hscratch⟩, -⟩ := (Node.built_emitAll ns).allows s.bench
  have hfree := ((Node.built_emitAll ns).shrinks s.bench).1 h.nodup_free
  exact ⟨hscratch.trans h.scratch, hfree.trans h.free, htaken.trans h.taken, h.inner, h.global⟩

/-- A new variable gets the next cell. -/
theorem define (h : s.Rows pool names) {name : String} (hnew : name ∉ names) :
    ∃ s', Gives (Lower.define (Lower.fresh name)) s (variableAt pool name names.length) s' ∧
      s'.Rows pool (names ++ [name]) ∧ s.bench.Alike s'.bench ∧ s'.defines = s.defines := by
  have hunbound : s.current.binds name = false := by
    rw [← Bool.not_eq_true, h.binds_iff]
    exact hnew
  let before : FrameState Symbol :=
    { frame := s.current, cells := s.bench.cells, log := s.bench.log }
  have hmanaged : before.managed = true := rfl
  obtain ⟨after, hgives, hcells, hframe, -⟩ := FrameM.gives_define hmanaged h.taken hunbound
  have hset : s.setCurrent after.frame = { s with global := after.frame } := by
    rw [Session.setCurrent, h.inner]
  refine ⟨_, Lower.runFrom_inScope _ s hgives, ?_, ?_, by rw [hset]⟩
  · rw [hset, hcells]
    refine ⟨h.scratch, h.free, ?_, h.inner, ?_⟩
    · rw [List.length_append]
      rfl
    · rw [layout_append, ← h.global, ← h.current_eq]
      exact hframe
  · rw [hcells]
    exact ⟨rfl, rfl, rfl⟩

end Rows

theorem Alike.noted (h : s.Alike pool s') (line line' : String) :
    (s.note line).Alike pool (s'.note line') := by
  obtain ⟨⟨names, hrows, hrows'⟩, hhead, hfree, hscratch⟩ := h
  exact ⟨⟨names, hrows.noted line, hrows'.noted line'⟩, hhead, hfree, hscratch⟩

namespace Twins

theorem lookup_eq (h : s.Twins pool s') (name : String) : s.lookup name = s'.lookup name := by
  obtain ⟨names, hrows, hrows'⟩ := h.rows
  rw [hrows.lookup_eq, hrows'.lookup_eq]

theorem binds_eq (h : s.Twins pool s') (name : String) :
    s.current.binds name = s'.current.binds name := by
  obtain ⟨names, hrows, hrows'⟩ := h.rows
  rw [Bool.eq_iff_iff, hrows.binds_iff, hrows'.binds_iff]

end Twins

end Session

/-! ### The rules -/

namespace Lower

open Session (Twins)

variable {pool : Nat}

theorem respects_note (line : String) : Respects (Twins pool) (note line) :=
  respects_modify fun _ _ h => ⟨h.toAlike.noted line line, h.defines⟩

theorem respects_number (text : String) : Respects (Twins pool) (number text) :=
  respects_bind (respects_lift _) fun _ => respects_pure _

theorem respects_character (text : String) : Respects (Twins pool) (character text) :=
  respects_bind (respects_lift _) fun _ => respects_bind (respects_note _) fun _ =>
    respects_bind (respects_lift _) fun _ => respects_pure _

theorem respects_declaredName (name : String) : Respects (Twins pool) (declaredName name) := by
  refine respects_get_bind (fun s s' h => by rw [h.defines, h.lookup_eq]) fun s => ?_
  cases s.defines.lookup name with
  | some value =>
    exact respects_bind (respects_note _) fun _ => respects_bind (respects_lift _) fun _ =>
      respects_pure _
  | none =>
    cases s.lookup name with
    | none => exact respects_throw _
    | some symbol =>
      dsimp only
      cases symbol.kind with
      | «variable» => exact respects_pure _
      | stack => exact respects_throw _
      | function => exact respects_throw _

theorem respects_combine (level : Level) (left : Node) (op : String) (right : Node) :
    Respects (Twins pool) (combine level left op right) := by
  refine respects_bind (respects_lift _) fun both => respects_ite ?_ ?_
  · refine respects_bind (respects_lift _) fun a => respects_bind (respects_lift _) fun b =>
      respects_bind (respects_lift _) fun result => ?_
    have hrest : Respects (Twins pool) (do
        note (folded op a b result)
        return Node.constant result true) :=
      respects_bind (respects_note _) fun _ => respects_pure _
    exact respects_ite hrest (respects_bind (respects_throw _) fun _ => hrest)
  · have hbinary : Respects (Twins pool) (pure (Node.binary level op left right) : Lower Node) :=
      respects_pure _
    have hright : Respects (Twins pool) ((do
        unless ← right.hasCode do throw .operandWithoutCode
        return Node.binary level op left right) : Lower Node) :=
      respects_bind (respects_lift _) fun _ =>
        respects_ite hbinary (respects_bind (respects_throw _) fun _ => hbinary)
    exact respects_bind (respects_lift _) fun _ =>
      respects_ite hright (respects_bind (respects_throw _) fun _ => hright)

theorem respects_chain (level : Level) (first : Node) (rest : List (String × Node)) :
    Respects (Twins pool) (chain level first rest) := by
  unfold chain
  induction rest generalizing first with
  | nil => exact respects_pure _
  | cons operand rest ih =>
    rw [List.foldlM_cons]
    exact respects_bind (respects_combine _ _ _ _) ih

theorem respects_unary (op : String) (operand : Node) : Respects (Twins pool) (unary op operand) := by
  refine respects_bind (respects_lift _) fun _ => respects_ite ?_ (respects_pure _)
  refine respects_bind (respects_lift _) fun value => ?_
  have hrest : ∀ result, Respects (Twins pool) (do
      note (foldedSign op value result)
      return Node.constant result true) :=
    fun _ => respects_bind (respects_note _) fun _ => respects_pure _
  exact respects_ite (hrest _) (respects_bind (respects_throw _) fun _ => hrest _)

theorem respects_assign (target value : Node) : Respects (Twins pool) (assign target value) := by
  refine respects_bind (respects_lift _) fun symbol => ?_
  have hassigned : Respects (Twins pool) (pure (Node.assign symbol value) : Lower Node) :=
    respects_pure _
  have hrest : Respects (Twins pool) ((do
      unless ← value.hasCode do throw .assignmentWithoutCode
      return Node.assign symbol value) : Lower Node) :=
    respects_bind (respects_lift _) fun _ =>
      respects_ite hassigned (respects_bind (respects_throw _) fun _ => hassigned)
  exact respects_ite (respects_bind (respects_throw _) fun _ => hrest) hrest

theorem respects_block (body : List Node) : Respects (Twins pool) (block body) := by
  intro s s' h
  obtain ⟨names, hrows, hrows'⟩ := h.rows
  obtain ⟨t, hgives, hquiet⟩ := gives_block hrows.inner body
  obtain ⟨t', hgives', hquiet'⟩ := gives_block hrows'.inner body
  rw [hgives, hgives']
  refine ⟨rfl, ⟨⟨names, hrows.quiet hquiet, hrows'.quiet hquiet'⟩, ?_⟩, ?_⟩
  · rw [hquiet.same, hquiet'.same]
    exact ⟨h.bench.head, h.bench.free, h.bench.scratch⟩
  · exact hquiet.defines_eq.trans (h.defines.trans hquiet'.defines_eq.symm)

theorem respects_program (items : List Node) (room : Nat) :
    Respects (Twins pool) (program items room) := by
  refine respects_bind (fun s s' h => ?_) fun _ => respects_pure _
  obtain ⟨names, hrows, hrows'⟩ := h.rows
  obtain ⟨hresult, hbench⟩ := (Node.built_emitAll _).respects _ _ h.bench
  rw [runFrom_atBench, runFrom_atBench]
  exact ⟨hresult, ⟨⟨names, hrows.emitted _, hrows'.emitted _⟩, hbench⟩, h.defines⟩

theorem respects_define (name : String) : Respects (Twins pool) (define (fresh name)) := by
  intro s s' h
  obtain ⟨names, hrows, hrows'⟩ := h.rows
  by_cases hmem : name ∈ names
  · rw [runFrom_define_of_bound ((hrows.binds_iff name).mpr hmem),
      runFrom_define_of_bound ((hrows'.binds_iff name).mpr hmem)]
    exact ⟨rfl, h⟩
  · obtain ⟨t, hgives, hnext, hbench, hdefines⟩ := hrows.define hmem
    obtain ⟨t', hgives', hnext', hbench', hdefines'⟩ := hrows'.define hmem
    rw [hgives, hgives']
    refine ⟨rfl, ⟨⟨_, hnext, hnext'⟩, ?_⟩, hdefines.trans (h.defines.trans hdefines'.symm)⟩
    exact ⟨hbench.head.symm.trans (h.bench.head.trans hbench'.head),
      hbench.free.symm.trans (h.bench.free.trans hbench'.free),
      hbench.scratch.symm.trans (h.bench.scratch.trans hbench'.scratch)⟩

theorem respects_declare (target : Node) (initial : Option Node) :
    Respects (Twins pool) (declare target initial) := by
  refine respects_bind (respects_lift _) fun name => ?_
  refine respects_get_bind (fun s s' h => by rw [h.binds_eq]) fun s => ?_
  refine respects_ite (respects_bind (respects_throw _) fun _ => ?_) ?_
  all_goals
    refine respects_bind (respects_define name) fun symbol => ?_
    cases initial with
    | none => exact respects_pure _
    | some value =>
      exact respects_bind (respects_lift _) fun _ => respects_ite (respects_pure _)
        (respects_bind (respects_throw _) fun _ => respects_pure _)

end Lower

/-! ### Programs -/

namespace SourceLower

open Session (Twins)

variable {pool : Nat}
variable {α : Type}

theorem respects_during (rule : String) {action : Lower α} (h : Respects (Twins pool) action) :
    Respects (Twins pool) (during rule action) := by
  intro s s' hs
  obtain ⟨hresult, hstate⟩ := h s s' hs
  rw [runFrom_during, runFrom_during, hresult]
  exact ⟨rfl, hstate⟩

theorem respects_rule {action : Lower α} (h : action.IsRule) : Respects (Twins pool) action := by
  cases h with
  | fault f => exact respects_throw f
  | number text => exact Lower.respects_number _
  | character text => exact Lower.respects_character _
  | declaredName name => exact Lower.respects_declaredName _
  | newName name => exact respects_pure _
  | unary op operand => exact Lower.respects_unary _ _
  | chain level first rest => exact Lower.respects_chain _ _ _
  | declare target initial => exact Lower.respects_declare _ _
  | assign target value => exact Lower.respects_assign _ _
  | block body => exact Lower.respects_block _
  | note text => exact Lower.respects_note _
  | program items room => exact Lower.respects_program _ _

theorem Built.respects {e : SourceLower α} (h : Built e) : Respects (Twins pool) e := by
  induction h with
  | pure a => exact respects_pure a
  | throw f => exact respects_throw f
  | bind _ _ ihx ihk => exact respects_bind ihx ihk
  | during rule h => exact respects_during rule (respects_rule h)

end SourceLower

/-! ## Histories -/

namespace Session

variable {pool : Nat} {s s' : Session} {stack : CallStack}

/-- A file that cannot be read as a script has one outcome, and leaves no trace but in the log. -/
theorem compile_of_unread {fs : FileSystem} {path : String} (h : Script.read fs path = none)
    (s s' : Session) : (s.compile fs path stack).1 = (s'.compile fs path stack).1 ∧ ∃ log,
      (s.compile fs path stack).2 = { s with bench := { s.bench with log } } := by
  unfold Script.read at h
  unfold Session.compile
  cases hexpand : Include.expand fs path with
  | error fault =>
    dsimp only
    split_ifs
    · exact ⟨rfl, _, rfl⟩
    · exact ⟨rfl, _, rfl⟩
  | ok text =>
    rw [hexpand] at h
    dsimp only at h ⊢
    cases hparse : Source.parse text.toList with
    | error fault => exact ⟨rfl, _, rfl⟩
    | ok source =>
      rw [hparse] at h
      cases h

theorem Alike.compileScript (h : s.Alike pool s') (path : String) (script : Script) :
    (s.compileScript path script stack).1 = (s'.compileScript path script stack).1 ∧
      (s.compileScript path script stack).2.Alike pool (s'.compileScript path script stack).2 := by
  let line := s!"--- Starting Compilation: {path} ---"
  obtain ⟨⟨names, hrows, hrows'⟩, hbench⟩ := h.noted line line
  obtain ⟨hresult, hstate⟩ := (SourceLower.built_source script.source stack).respects _ _
    ⟨⟨⟨names, hrows.withDefines script.defines, hrows'.withDefines script.defines⟩, hbench⟩, rfl⟩
  unfold Session.compileScript
  generalize runFrom (SourceLower.source script.source stack) _ = r at hresult hstate ⊢
  generalize runFrom (SourceLower.source script.source stack) _ = r' at hresult hstate ⊢
  obtain ⟨r, t⟩ := r
  obtain ⟨r', t'⟩ := r'
  obtain rfl : r = r' := hresult
  cases r with
  | error fault => exact ⟨rfl, hstate.toAlike.noted _ _⟩
  | ok code => exact ⟨rfl, hstate.toAlike.noted _ _⟩

/-- **The outcome depends on what was left behind alone**, and so does what is left then. -/
theorem Alike.compile (h : s.Alike pool s') (fs : FileSystem) (path : String)
    (stack : CallStack) :
    (s.compile fs path stack).1 = (s'.compile fs path stack).1 ∧
      (s.compile fs path stack).2.Alike pool (s'.compile fs path stack).2 := by
  cases hread : Script.read fs path with
  | none =>
    obtain ⟨hsame, log, hlog⟩ := compile_of_unread hread s s'
    obtain ⟨-, log', hlog'⟩ := compile_of_unread hread s' s
    obtain ⟨⟨names, hrows, hrows'⟩, hbench⟩ := h
    refine ⟨hsame, ?_⟩
    rw [hlog, hlog']
    exact ⟨⟨names, ⟨hrows.scratch, hrows.free, hrows.taken, hrows.inner, hrows.global⟩,
      ⟨hrows'.scratch, hrows'.free, hrows'.taken, hrows'.inner, hrows'.global⟩⟩,
      hbench.head, hbench.free, hbench.scratch⟩
  | some script =>
    rw [compile_of_script s hread, compile_of_script s' hread]
    exact h.compileScript path script

/-- Whatever was compiled, the cells are in order. -/
theorem Rows.compileAll {names : List String} (h : s.Rows pool names)
    (calls : List (FileSystem × String)) (stack : CallStack) :
    ∃ names', (s.compileAll calls stack).Rows pool names' := by
  induction calls generalizing s names with
  | nil => exact ⟨names, h⟩
  | cons call calls ih =>
    obtain ⟨names', hnext, -⟩ := (h.alike.compile call.1 call.2 stack).2.rows
    exact ih hnext

end Session

end TapeScript
