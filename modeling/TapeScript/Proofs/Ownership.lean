import Mathlib.Data.List.Basic
import TapeScript.Compile
import TapeScript.Scope.Forest
import TapeScript.Proofs.Effects
import TapeScript.Proofs.Lowering

set_option autoImplicit false

/-! # Every cell has one owner

Scopes draw their cells from one table. Whatever they define, allocate and release, in any order and
with any failures, a cell in use belongs either to the scratch pool or to exactly one scope. The
search for a block comes to an end at cells that are all free (`CellTable.searches_freeStart`); so
an action on one scope keeps that scope apart from all other owners (`FrameM.effect`), and a forest
of scopes stays divided among them. The same holds of a session, whose variables thus never share a
cell.
-/

namespace TapeScript

/-! ## The search for a block -/

namespace CellTable

/-- The search for a block, for as long as it takes: it goes on behind each conflict and stops where
there is none. -/
inductive Searches (taken : List Int) (size : Int) : Int → Int → Prop where
  | found {start : Int} (h : conflict? taken start size = none) : Searches taken size start start
  | skip {start stop : Int} {i : Nat} (h : conflict? taken start size = some i)
      (rest : Searches taken size (start + i + i + 1) stop) : Searches taken size start stop

variable {taken : List Int} {size start stop : Int}

theorem mem_block {c : Int} : c ∈ block start size ↔ start ≤ c ∧ c < start + size := by
  unfold block
  simp only [List.mem_map, List.mem_range]
  constructor
  · rintro ⟨i, hi, rfl⟩
    omega
  · rintro ⟨hle, hlt⟩
    exact ⟨(c - start).toNat, by omega, by omega⟩

theorem nodup_block (start size : Int) : (block start size).Nodup := by
  refine List.nodup_range.map fun i j h => ?_
  omega

theorem free_of_conflict?_eq_none (h : conflict? taken start size = none) :
    ∀ c ∈ block start size, c ∉ taken := by
  intro c hc
  unfold block at hc
  obtain ⟨i, hi, rfl⟩ := List.mem_map.mp hc
  simpa using List.find?_eq_none.mp h i hi

theorem mem_of_conflict?_eq_some {i : Nat} (h : conflict? taken start size = some i) :
    start + i ∈ taken := by
  simpa using List.find?_some h

/-- Each conflict passes a cell in use, so that as many rounds as there are such cells ahead are
enough. -/
theorem searches_searchFrom {rounds : Nat}
    (h : (taken.filter (start ≤ ·)).length ≤ rounds) :
    Searches taken size start (searchFrom taken size rounds start) := by
  induction rounds generalizing start with
  | zero =>
    rw [searchFrom]
    apply Searches.found
    cases hconflict : conflict? taken start size with
    | none => rfl
    | some i =>
      have hmem : start + i ∈ taken.filter (start ≤ ·) :=
        List.mem_filter.mpr ⟨mem_of_conflict?_eq_some hconflict, by simp⟩
      have hpos := List.length_pos_of_mem hmem
      omega
  | succ rounds ih =>
    rw [searchFrom]
    cases hconflict : conflict? taken start size with
    | none => exact .found hconflict
    | some i =>
      refine .skip hconflict (ih ?_)
      have hmem : start + i ∈ taken.filter (start ≤ ·) :=
        List.mem_filter.mpr ⟨mem_of_conflict?_eq_some hconflict, by simp⟩
      have hfilter : taken.filter (start + i + i + 1 ≤ ·) =
          (taken.filter (start ≤ ·)).filter (start + i + i + 1 ≤ ·) := by
        rw [List.filter_filter]
        refine List.filter_congr fun c _ => ?_
        by_cases hc : start + i + i + 1 ≤ c
        · have : start ≤ c := by omega
          simp [hc, this]
        · simp [hc]
      have hlt : (taken.filter (start + i + i + 1 ≤ ·)).length <
          (taken.filter (start ≤ ·)).length := by
        rw [hfilter]
        refine List.length_filter_lt_length_iff_exists.mpr ⟨start + i, hmem, ?_⟩
        simp only [decide_eq_true_eq, not_le]
        omega
      omega

theorem searches_freeStart (t : CellTable) (size : Int) :
    Searches t.taken size 0 (t.freeStart size) :=
  searches_searchFrom (List.length_filter_le _ _)

namespace Searches

theorem start_le (h : Searches taken size start stop) : start ≤ stop := by
  induction h with
  | found => exact Int.le_refl _
  | skip _ _ ih => omega

theorem free (h : Searches taken size start stop) : ∀ c ∈ block stop size, c ∉ taken := by
  induction h with
  | found hnone => exact free_of_conflict?_eq_none hnone
  | skip _ _ ih => exact ih

end Searches

theorem freeStart_nonneg (t : CellTable) (size : Int) : 0 ≤ t.freeStart size :=
  (searches_freeStart t size).start_le

theorem block_freeStart_free (t : CellTable) (size : Int) :
    ∀ c ∈ block (t.freeStart size) size, c ∉ t.taken := (searches_freeStart t size).free

end CellTable

/-! ## One frame among other owners -/

/-- The cells in use are those of the frame and those of the others, with none in common. -/
structure FrameState.Owns {α : Type} (others : Int → Prop) (s : FrameState α) : Prop where
  taken_iff : ∀ c, c ∈ s.cells.taken ↔ others c ∨ c ∈ s.frame.cells
  apart : ∀ c ∈ s.frame.cells, ¬ others c
  nodup : s.frame.cells.Nodup
  nonneg : ∀ c ∈ s.frame.cells, 0 ≤ c

namespace FrameState.Owns

variable {α : Type} {others : Int → Prop} {s : FrameState α}

/-- The frame gets a free block. -/
theorem grow (h : s.Owns others) (size : Int) {s' : FrameState α}
    (htaken : s'.cells.taken = s.cells.taken ++ CellTable.block (s.cells.freeStart size) size)
    (hcells : s'.frame.cells = s.frame.cells ++ CellTable.block (s.cells.freeStart size) size) :
    s'.Owns others := by
  have hfree := CellTable.block_freeStart_free s.cells size
  have hstart := CellTable.freeStart_nonneg s.cells size
  constructor
  · intro c
    rw [htaken, hcells, List.mem_append, List.mem_append, h.taken_iff, or_assoc]
  · intro c hc hother
    rcases List.mem_append.mp (hcells ▸ hc) with hold | hnew
    · exact h.apart c hold hother
    · exact hfree c hnew ((h.taken_iff c).mpr (.inl hother))
  · rw [hcells]
    refine h.nodup.append (CellTable.nodup_block _ _) fun c hold hnew => ?_
    exact hfree c hnew ((h.taken_iff c).mpr (.inr hold))
  · intro c hc
    rcases List.mem_append.mp (hcells ▸ hc) with hold | hnew
    · exact h.nonneg c hold
    · have := (CellTable.mem_block.mp hnew).1
      omega

/-- The frame gives all its cells back. -/
theorem empty (h : s.Owns others) {s' : FrameState α}
    (htaken : s'.cells.taken = s.cells.taken.filter fun c => !s.frame.cells.contains c)
    (hcells : s'.frame.cells = []) : s'.Owns others := by
  constructor
  · intro c
    rw [htaken, hcells, List.mem_filter, h.taken_iff]
    constructor
    · rintro ⟨hother | hown, hnot⟩
      · exact .inl hother
      · simp [hown] at hnot
    · rintro (hother | hnone)
      · have hnot : c ∉ s.frame.cells := fun hown => h.apart c hown hother
        exact ⟨.inl hother, by simp [hnot]⟩
      · cases hnone
  · simp [hcells]
  · simp [hcells]
  · simp [hcells]

theorem congr (h : s.Owns others) {s' : FrameState α} (htaken : s'.cells.taken = s.cells.taken)
    (hcells : s'.frame.cells = s.frame.cells) : s'.Owns others := by
  constructor
  · intro c
    rw [htaken, hcells, h.taken_iff]
  · rw [hcells]
    exact h.apart
  · rw [hcells]
    exact h.nodup
  · rw [hcells]
    exact h.nonneg

end FrameState.Owns

namespace FrameM

open Effect

variable {α : Type}
variable {size : Int}

/-- Actions on a frame keep it apart from the other owners, whoever they are. -/
def effect (α : Type) : Effect (FrameState α) Fault where
  leads s s' := s'.cells.scratch = s.cells.scratch ∧ ∀ others, s.Owns others → s'.Owns others
  faults _ := True
  refl _ := ⟨rfl, fun _ h => h⟩
  trans h h' := ⟨h'.1.trans h.1, fun others hs => h'.2 others (h.2 others hs)⟩

theorem allows_note (line : String) : (effect α).Allows (note line) :=
  allows_modify fun _ => ⟨rfl, fun _ h => h.congr rfl rfl⟩

/-- A managed frame gets any number of cells that is positive. -/
theorem exists_allocate {s : FrameState α} (hmanaged : s.managed = true) (hsize : 0 < size) :
    ∃ s', Gives (allocate size) s (s.cells.freeStart size) s' ∧
      s'.cells = { s.cells with
        taken := s.cells.taken ++ CellTable.block (s.cells.freeStart size) size } ∧
      s'.frame = { s.frame with
        cells := s.frame.cells ++ CellTable.block (s.cells.freeStart size) size } ∧
      s'.managed = true := by
  have hallocate : s.cells.allocate size = .ok (s.cells.freeStart size, { s.cells with
      taken := s.cells.taken ++ CellTable.block (s.cells.freeStart size) size }) := by
    rw [CellTable.allocate, if_neg (by omega)]
  refine ⟨{ s with
    cells := { s.cells with
      taken := s.cells.taken ++ CellTable.block (s.cells.freeStart size) size }
    frame := { s.frame with
      cells := s.frame.cells ++ CellTable.block (s.cells.freeStart size) size }
    log := s.log.push s!"Scope: Allocated {size} cells starting at {s.cells.freeStart size}" },
    ?_, rfl, rfl, hmanaged⟩
  unfold allocate note
  rw [gives_get_bind, if_pos hmanaged]
  simp only [gives_bind, gives_lift, gives_modify, gives_pure]
  exact ⟨_, s, ⟨hallocate, rfl⟩, (), _, rfl, (), _, rfl, rfl, rfl⟩

/-- Any other demand changes nothing. -/
theorem runFrom_allocate_of_not {s : FrameState α} (h : ¬ (s.managed = true ∧ 0 < size)) :
    ∃ f, runFrom (allocate size) s = (.error f, s) := by
  unfold allocate
  rw [runFrom_bind, show runFrom get s = (.ok s, s) from rfl]
  dsimp only
  by_cases hmanaged : s.managed = true
  · have hsize : size ≤ 0 := by
      by_contra hpos
      exact h ⟨hmanaged, by omega⟩
    rw [if_pos hmanaged, CellTable.allocate, if_pos hsize]
    exact ⟨_, rfl⟩
  · rw [if_neg hmanaged]
    exact ⟨_, rfl⟩

theorem allows_allocate (size : Int) : (effect α).Allows (allocate size) := by
  intro s
  refine ⟨?_, fun _ _ => trivial⟩
  by_cases h : s.managed = true ∧ 0 < size
  · obtain ⟨s', hgives, hcells, hframe, -⟩ := exists_allocate h.1 h.2
    rw [hgives]
    refine ⟨by rw [hcells], fun others hs => ?_⟩
    exact hs.grow size (by rw [hcells]) (by rw [hframe])
  · obtain ⟨f, hrun⟩ := runFrom_allocate_of_not h
    rw [hrun]
    exact (effect α).refl s

theorem allows_release : (effect α).Allows release := by
  apply allows_bind allows_get
  intro s
  refine allows_ite (fun _ => ?_) fun _ => allows_pure _
  apply allows_bind (allows_note _)
  intro _
  exact allows_modify fun s => ⟨rfl, fun _ h => h.empty rfl rfl⟩

theorem allows_locate (symbol : Symbol) : (effect α).Allows (locate symbol) := by
  apply allows_bind (allows_lift fun _ _ => trivial)
  intro demand
  cases demand with
  | none => exact allows_pure _
  | some size =>
    apply allows_bind (allows_allocate size)
    intro location
    exact allows_pure _

theorem allows_bindTo (name : String) (value : α) :
    (effect α).Allows (modify fun s => { s with frame := s.frame.bind name value }) :=
  allows_modify fun _ => ⟨rfl, fun _ h => h.congr rfl rfl⟩

theorem allows_define (symbol : Symbol) (reference : Symbol → α) :
    (effect α).Allows (define symbol reference) := by
  apply allows_bind allows_get
  intro s
  have hrest : (effect α).Allows (do
      let located ←
        try locate symbol
        catch fault => do
          modify fun s => { s with frame := s.frame.bind symbol.name (reference symbol) }
          throw fault
      modify fun s => { s with frame := s.frame.bind symbol.name (reference located) }
      note s!"Scope: Defined {located.text}"
      return located) := by
    refine allows_bind (allows_tryCatch (allows_locate symbol) fun fault => ?_) fun located => ?_
    · exact allows_bind (allows_bindTo _ _) fun _ => allows_throw trivial
    · apply allows_bind (allows_bindTo _ _)
      intro _
      apply allows_bind (allows_note _)
      intro _
      exact allows_pure _
  exact allows_ite (fun _ => allows_bind (allows_throw trivial) fun _ => hrest) fun _ => hrest

/-- A symbol that asks for cells gets them in a managed frame, if its name is new there. -/
theorem exists_define {s : FrameState α} (hmanaged : s.managed = true) {symbol : Symbol}
    (hdemand : symbol.demand = .ok (some size)) (hsize : 0 < size)
    (hnew : s.frame.binds symbol.name = false) (reference : Symbol → α) :
    ∃ s', Gives (define symbol reference) s
        { symbol with location := some (s.cells.freeStart size) } s' ∧
      s'.cells = { s.cells with
        taken := s.cells.taken ++ CellTable.block (s.cells.freeStart size) size } ∧
      s'.frame.cells = s.frame.cells ++ CellTable.block (s.cells.freeStart size) size ∧
      s'.frame.names = s.frame.names ++
        [(symbol.name, reference { symbol with location := some (s.cells.freeStart size) })] := by
  obtain ⟨s1, hallocate, hcells, hframe, -⟩ := exists_allocate hmanaged hsize
  have hlocate : Gives (locate symbol) s
      { symbol with location := some (s.cells.freeStart size) } s1 := by
    unfold locate
    rw [gives_lift_bind]
    refine ⟨some size, hdemand, ?_⟩
    exact gives_bind.mpr ⟨_, s1, hallocate, gives_pure.mpr ⟨rfl, rfl⟩⟩
  let located : Symbol := { symbol with location := some (s.cells.freeStart size) }
  refine ⟨{ s1 with
    frame := s1.frame.bind symbol.name (reference located)
    log := s1.log.push s!"Scope: Defined {located.text}" }, ?_, hcells, ?_, ?_⟩
  · unfold define note
    rw [gives_get_bind, if_neg (by simp [hnew])]
    simp only [gives_bind, gives_modify, gives_pure]
    exact ⟨_, s1, (gives_tryCatch (by simp)).mpr hlocate, (), _, rfl, (), _, rfl, rfl, rfl⟩
  · simp [Frame.bind, hframe]
  · simp [Frame.bind, hframe, located]

end FrameM

/-! ## Scopes that share a table -/

namespace Forest

/-- The cells of a scope. -/
def cellsOf (f : Forest) (scope : Nat) : List Int :=
  match f.scopes[scope]? with
  | some node => node.frame.cells
  | none => []

/-- The cells in use are divided among the scratch pool and the scopes. -/
structure Divided (pool : List Int) (f : Forest) : Prop where
  scratch_eq : f.cells.scratch = pool
  taken_iff : ∀ c, c ∈ f.cells.taken ↔ c ∈ pool ∨ ∃ scope, c ∈ f.cellsOf scope
  apart_pool : ∀ scope, ∀ c ∈ f.cellsOf scope, c ∉ pool
  apart : ∀ i j, i ≠ j → ∀ c ∈ f.cellsOf i, c ∉ f.cellsOf j
  nodup : ∀ scope, (f.cellsOf scope).Nodup
  nonneg : ∀ scope, ∀ c ∈ f.cellsOf scope, 0 ≤ c

theorem divided_ofPool (pool : List Int) : (ofPool pool).Divided pool := by
  have hnone : ∀ scope, (ofPool pool).cellsOf scope = [] := fun scope => by simp [ofPool, cellsOf]
  refine ⟨rfl, fun c => ?_, ?_, ?_, ?_, ?_⟩
  · simp only [hnone, List.not_mem_nil, exists_false, or_false]
    exact List.mem_eraseDups
  all_goals simp [hnone]

/-! ### One action -/

/-- A scope at work. -/
def stateOf (f : Forest) (node : ScopeNode) : FrameState Nat :=
  { frame := node.frame, cells := f.cells, managed := node.managed, log := f.log }

/-- A scope after some work. -/
def put (f : Forest) (scope : Nat) (node : ScopeNode) (s : FrameState Nat) : Forest :=
  { f with
    cells := s.cells
    log := s.log
    scopes := f.scopes.setIfInBounds scope { node with frame := s.frame } }

variable {f : Forest} {scope : Nat} {node : ScopeNode} {pool : List Int}
variable {β : Type} {size : Int}

theorem within_of_some (h : f.scopes[scope]? = some node) (action : FrameM Nat β) :
    f.within scope action =
      ((runFrom action (f.stateOf node)).1, f.put scope node (runFrom action (f.stateOf node)).2) := by
  unfold within
  rw [h]
  rfl

theorem within_of_none (h : f.scopes[scope]? = none) (action : FrameM Nat β) :
    f.within scope action = (.error .missingItem, f) := by
  unfold within
  rw [h]

theorem cellsOf_of_some (h : f.scopes[scope]? = some node) : f.cellsOf scope = node.frame.cells := by
  rw [cellsOf, h]

theorem cellsOf_put_self (h : f.scopes[scope]? = some node) (s : FrameState Nat) :
    (f.put scope node s).cellsOf scope = s.frame.cells := by
  have hlt : scope < f.scopes.size := (Array.getElem?_eq_some_iff.mp h).1
  simp [cellsOf, put, hlt]

theorem cellsOf_put_of_ne {other : Nat} (h : other ≠ scope) (s : FrameState Nat) :
    (f.put scope node s).cellsOf other = f.cellsOf other := by
  simp [cellsOf, put, Array.getElem?_setIfInBounds_ne h.symm]

/-- What keeps a scope apart from other owners keeps the cells divided. -/
theorem Divided.put (hf : f.Divided pool) (h : f.scopes[scope]? = some node) {s : FrameState Nat}
    (hscratch : s.cells.scratch = f.cells.scratch)
    (howns : ∀ others, (f.stateOf node).Owns others → s.Owns others) :
    (f.put scope node s).Divided pool := by
  have hcells := cellsOf_of_some h
  have hself := cellsOf_put_self h s
  have hbefore : (f.stateOf node).Owns fun c => c ∈ pool ∨ ∃ j, j ≠ scope ∧ c ∈ f.cellsOf j := by
    refine ⟨fun c => ?_, fun c hc => ?_, ?_, fun c hc => ?_⟩
    · show c ∈ f.cells.taken ↔ _
      rw [hf.taken_iff]
      constructor
      · rintro (hpool | ⟨j, hj⟩)
        · exact .inl (.inl hpool)
        · by_cases heq : j = scope
          · subst heq
            exact .inr (hcells ▸ hj)
          · exact .inl (.inr ⟨j, heq, hj⟩)
      · rintro ((hpool | ⟨j, -, hj⟩) | hown)
        · exact .inl hpool
        · exact .inr ⟨j, hj⟩
        · exact .inr ⟨scope, hcells ▸ hown⟩
    · have hc : c ∈ f.cellsOf scope := hcells ▸ hc
      rintro (hpool | ⟨j, hne, hj⟩)
      · exact hf.apart_pool scope c hc hpool
      · exact hf.apart scope j hne.symm c hc hj
    · exact hcells ▸ hf.nodup scope
    · exact hf.nonneg scope c (hcells ▸ hc)
  have hafter := howns _ hbefore
  -- a cell of some scope is one of this scope or one of another, which has kept it
  have hmem : ∀ j c, c ∈ (f.put scope node s).cellsOf j →
      (j = scope ∧ c ∈ s.frame.cells) ∨ (j ≠ scope ∧ c ∈ f.cellsOf j) := by
    intro j c hc
    by_cases heq : j = scope
    · subst heq
      exact .inl ⟨rfl, hself ▸ hc⟩
    · exact .inr ⟨heq, cellsOf_put_of_ne heq s ▸ hc⟩
  refine ⟨hscratch.trans hf.scratch_eq, fun c => ?_, ?_, ?_, ?_, ?_⟩
  · show c ∈ s.cells.taken ↔ _
    rw [hafter.taken_iff]
    constructor
    · rintro ((hpool | ⟨j, hne, hj⟩) | hown)
      · exact .inl hpool
      · exact .inr ⟨j, (cellsOf_put_of_ne hne s).symm ▸ hj⟩
      · exact .inr ⟨scope, hself.symm ▸ hown⟩
    · rintro (hpool | ⟨j, hj⟩)
      · exact .inl (.inl hpool)
      · rcases hmem j c hj with ⟨-, hown⟩ | ⟨hne, hold⟩
        · exact .inr hown
        · exact .inl (.inr ⟨j, hne, hold⟩)
  · intro j c hj hpool
    rcases hmem j c hj with ⟨-, hown⟩ | ⟨-, hold⟩
    · exact hafter.apart c hown (.inl hpool)
    · exact hf.apart_pool j c hold hpool
  · intro i j hij c hi hj
    rcases hmem i c hi with ⟨heqi, howni⟩ | ⟨hnei, holdi⟩
    · rcases hmem j c hj with ⟨heqj, -⟩ | ⟨hnej, holdj⟩
      · exact hij (heqi.trans heqj.symm)
      · exact hafter.apart c howni (.inr ⟨j, hnej, holdj⟩)
    · rcases hmem j c hj with ⟨-, hownj⟩ | ⟨-, holdj⟩
      · exact hafter.apart c hownj (.inr ⟨i, hnei, holdi⟩)
      · exact hf.apart i j hij c holdi holdj
  · intro j
    by_cases heq : j = scope
    · subst heq
      rw [hself]
      exact hafter.nodup
    · rw [cellsOf_put_of_ne heq]
      exact hf.nodup j
  · intro j c hj
    rcases hmem j c hj with ⟨-, hown⟩ | ⟨-, hold⟩
    · exact hafter.nonneg c hown
    · exact hf.nonneg j c hold

theorem Divided.within (hf : f.Divided pool) (scope : Nat) {action : FrameM Nat β}
    (h : (FrameM.effect Nat).Allows action) : (f.within scope action).2.Divided pool := by
  cases hnode : f.scopes[scope]? with
  | none =>
    rw [within_of_none hnode]
    exact hf
  | some node =>
    rw [within_of_some hnode]
    exact hf.put hnode (h _).1.1 (h _).1.2

/-! ### Any number of actions -/

/-- What can be done to a forest. Leaving a scope is releasing its cells. -/
inductive Move where
  | create (parent : Option Nat) (managed : Bool)
  | introduce (name kind : String) (size : Option Int) (initialised : Bool)
  | define (scope symbol : Nat)
  | allocate (scope : Nat) (size : Int)
  | release (scope : Nat)

/-- The forest after a move, whether that succeeds or not. -/
def Move.apply (f : Forest) : Move → Forest
  | .create parent managed => (f.open_ parent managed).2
  | .introduce name kind size initialised => (f.newSymbol name kind size initialised).2
  | .define scope symbol => (f.define scope symbol).2
  | .allocate scope size => (f.allocate scope size).2
  | .release scope => (f.release scope).2

/-- The forest after some moves. -/
def after (f : Forest) (moves : List Move) : Forest := moves.foldl Move.apply f

theorem Divided.congr (hf : f.Divided pool) {f' : Forest} (hcells : f'.cells = f.cells)
    (hscopes : ∀ scope, f'.cellsOf scope = f.cellsOf scope) : f'.Divided pool := by
  refine ⟨by rw [hcells, hf.scratch_eq], fun c => ?_, ?_, ?_, ?_, ?_⟩
  · rw [hcells, hf.taken_iff]
    simp only [hscopes]
  all_goals simp only [hscopes]
  · exact hf.apart_pool
  · exact hf.apart
  · exact hf.nodup
  · exact hf.nonneg

theorem cellsOf_open (f : Forest) (parent : Option Nat) (managed : Bool) (scope : Nat) :
    (f.open_ parent managed).2.cellsOf scope = f.cellsOf scope := by
  simp only [open_, cellsOf, Array.getElem?_push]
  split_ifs with h
  · subst h
    simp
  · rfl

theorem Divided.apply (hf : f.Divided pool) (move : Move) : (move.apply f).Divided pool := by
  cases move with
  | create parent managed => exact hf.congr rfl (cellsOf_open f parent managed)
  | introduce name kind size initialised =>
    simp only [Move.apply, newSymbol]
    split
    · exact hf.congr rfl fun _ => rfl
    · exact hf
  | define scope symbol =>
    simp only [Move.apply, define]
    cases f.symbols[symbol]? with
    | none => exact hf
    | some s =>
      have hwithin := hf.within scope (FrameM.allows_define s fun _ => symbol)
      dsimp only
      generalize f.within scope (FrameM.define s fun _ => symbol) = r at hwithin
      obtain ⟨result, f'⟩ := r
      cases result with
      | ok located => exact hwithin.congr rfl fun _ => rfl
      | error fault => exact hwithin
  | allocate scope size => exact hf.within scope (FrameM.allows_allocate size)
  | release scope => exact hf.within scope FrameM.allows_release

theorem Divided.after (hf : f.Divided pool) (moves : List Move) : (f.after moves).Divided pool := by
  induction moves generalizing f with
  | nil => exact hf
  | cons move moves ih => exact ih (hf.apply move)

/-! ### Allocations -/

/-- The scope is there and has cells to draw on. -/
def Manages (f : Forest) (scope : Nat) : Prop :=
  ∃ node, f.scopes[scope]? = some node ∧ node.managed = true

/-- A block of consecutive cells is handed out to a scope: the search for it comes to an end, and
none of the cells was in use. -/
structure HandsOut (f : Forest) (scope : Nat) (start size : Int) (f' : Forest) : Prop where
  searched : CellTable.Searches f.cells.taken size 0 start
  nonneg : 0 ≤ start
  free : ∀ c, start ≤ c → c < start + size → c ∉ f.cells.taken
  owned : f'.cellsOf scope = f.cellsOf scope ++ CellTable.block start size
  others : ∀ j, j ≠ scope → f'.cellsOf j = f.cellsOf j

theorem handsOut_put (h : f.scopes[scope]? = some node) (size : Int) {s : FrameState Nat}
    (hcells : s.frame.cells =
      node.frame.cells ++ CellTable.block (f.cells.freeStart size) size) :
    f.HandsOut scope (f.cells.freeStart size) size (f.put scope node s) where
  searched := CellTable.searches_freeStart f.cells size
  nonneg := CellTable.freeStart_nonneg f.cells size
  free c hle hlt := CellTable.block_freeStart_free f.cells size c (CellTable.mem_block.mpr ⟨hle, hlt⟩)
  owned := by rw [cellsOf_put_self h, hcells, cellsOf_of_some h]
  others _ hne := cellsOf_put_of_ne hne s

theorem allocate_handsOut (hscope : f.Manages scope) (hsize : 0 < size) :
    ∃ start f', f.allocate scope size = (.ok start, f') ∧ f.HandsOut scope start size f' := by
  obtain ⟨node, hnode, hmanaged⟩ := hscope
  obtain ⟨s, hgives, -, hframe, -⟩ :=
    FrameM.exists_allocate (s := f.stateOf node) hmanaged hsize
  refine ⟨_, _, ?_, handsOut_put hnode size (s := s) (by rw [hframe]; rfl)⟩
  unfold allocate
  rw [within_of_some hnode, hgives]
  rfl

theorem allocate_refused (h : ¬ (f.Manages scope ∧ 0 < size)) :
    ∃ fault f', f.allocate scope size = (.error fault, f') ∧ f'.cells = f.cells ∧
      ∀ j, f'.cellsOf j = f.cellsOf j := by
  unfold allocate
  cases hnode : f.scopes[scope]? with
  | none =>
    rw [within_of_none hnode]
    exact ⟨_, f, rfl, rfl, fun _ => rfl⟩
  | some node =>
    have hrefused : ¬ ((f.stateOf node).managed = true ∧ 0 < size) := fun hboth =>
      h ⟨⟨node, hnode, hboth.1⟩, hboth.2⟩
    obtain ⟨fault, hrun⟩ := FrameM.runFrom_allocate_of_not hrefused
    rw [within_of_some hnode, hrun]
    refine ⟨fault, _, rfl, rfl, fun j => ?_⟩
    by_cases heq : j = scope
    · subst heq
      rw [cellsOf_put_self hnode, cellsOf_of_some hnode]
      rfl
    · exact cellsOf_put_of_ne heq _

theorem define_handsOut (hscope : f.Manages scope) {number : Nat} {symbol : Symbol}
    (hsymbol : f.symbols[number]? = some symbol) (hdemand : symbol.demand = .ok (some size))
    (hsize : 0 < size) (hnew : f.bindsLocally scope symbol.name = false) :
    ∃ located start f', f.define scope number = (.ok located, f') ∧
      located.location = some start ∧ f.HandsOut scope start size f' := by
  obtain ⟨node, hnode, hmanaged⟩ := hscope
  have hnew : (f.stateOf node).frame.binds symbol.name = false := by
    simpa [bindsLocally, hnode, stateOf] using hnew
  obtain ⟨s, hgives, -, hcells, -⟩ :=
    FrameM.exists_define (s := f.stateOf node) hmanaged hdemand hsize hnew fun _ => number
  have hwithin := within_of_some hnode (FrameM.define symbol fun _ => number)
  rw [hgives] at hwithin
  have hout := handsOut_put hnode size hcells
  let located : Symbol := { symbol with location := some (f.cells.freeStart size) }
  refine ⟨located, f.cells.freeStart size,
    { f.put scope node s with symbols := f.symbols.setIfInBounds number located }, ?_, rfl,
    ⟨hout.searched, hout.nonneg, hout.free, hout.owned, hout.others⟩⟩
  unfold define
  rw [hsymbol]
  dsimp only
  rw [hwithin]
  rfl

/-- A scope with cells to draw on gets as many as it asks for, on its own or for a symbol whose name
is new there, and every other demand changes no cells. -/
structure Serves (f : Forest) : Prop where
  allocates : ∀ scope size, f.Manages scope → 0 < size →
    ∃ start f', f.allocate scope size = (.ok start, f') ∧ f.HandsOut scope start size f'
  defines : ∀ scope number symbol size, f.Manages scope → f.symbols[number]? = some symbol →
    symbol.demand = .ok (some size) → 0 < size → f.bindsLocally scope symbol.name = false →
    ∃ located start f', f.define scope number = (.ok located, f') ∧
      located.location = some start ∧ f.HandsOut scope start size f'
  refuses : ∀ scope size, ¬ (f.Manages scope ∧ 0 < size) →
    ∃ fault f', f.allocate scope size = (.error fault, f') ∧ f'.cells = f.cells ∧
      ∀ j, f'.cellsOf j = f.cellsOf j

theorem serves (f : Forest) : f.Serves where
  allocates _ _ hscope hsize := allocate_handsOut hscope hsize
  defines _ _ _ _ hscope hsymbol hdemand hsize hnew :=
    define_handsOut hscope hsymbol hdemand hsize hnew
  refuses _ _ := allocate_refused

end Forest

end TapeScript
