import Mathlib.Data.List.Perm.Basic
import Mathlib.Order.Bounds.Basic
import TapeScript.Proofs.Effects

set_option autoImplicit false

/-! # Scratch cells are never shared

Scratch cells are taken and given back in any order, with calls that fail among them. Whatever the
calls were, the cells still free and those handed out make up the pool, each cell once
(`Workbench.Accounts`). That is kept by each call, and so by every history of calls. The order of the
free cells comes back as well where calls are nested (`WellNested`).
-/

namespace TapeScript

/-! ## Histories -/

/-- A call for a scratch cell, or one that gives a cell back. -/
inductive ScratchCall where
  | take
  | giveBack (cell : Int)

/-- What came of a call. -/
inductive ScratchEvent where
  | took (cell : Int)
  | gaveBack (cell : Int)
  | refused (f : Fault)

def ScratchCall.action : ScratchCall → Emit ScratchEvent
  | .take => do
    let cell ← Emit.takeScratch
    return .took cell
  | .giveBack cell => do
    Emit.giveBack cell
    return .gaveBack cell

namespace Workbench

/-- One call; what a failed call has changed stays changed. -/
def serve (w : Workbench) (call : ScratchCall) : ScratchEvent × Workbench :=
  match runFrom call.action w with
  | (.ok event, w') => (event, w')
  | (.error f, w') => (.refused f, w')

/-- Calls in turn. -/
def serveAll (w : Workbench) : List ScratchCall → List ScratchEvent × Workbench
  | [] => ([], w)
  | call :: calls =>
    let (event, w') := w.serve call
    let (events, w'') := w'.serveAll calls
    (event :: events, w'')

@[simp] theorem serveAll_cons_fst (w : Workbench) (call : ScratchCall) (calls : List ScratchCall) :
    (w.serveAll (call :: calls)).1 = (w.serve call).1 :: ((w.serve call).2.serveAll calls).1 := rfl

@[simp] theorem serveAll_cons_snd (w : Workbench) (call : ScratchCall) (calls : List ScratchCall) :
    (w.serveAll (call :: calls)).2 = ((w.serve call).2.serveAll calls).2 := rfl

end Workbench

/-- The cells held after an event. -/
def ScratchEvent.held (cells : List Int) : ScratchEvent → List Int
  | .took cell => cell :: cells
  | .gaveBack cell => cells.erase cell
  | .refused _ => cells

/-- The cells handed out and not given back since. -/
def outstanding (events : List ScratchEvent) : List Int := events.foldl ScratchEvent.held []

/-- Each cell that is given back is the one taken last of those still held. -/
inductive WellNested : List ScratchEvent → Prop where
  | nil : WellNested []
  | refused (f : Fault) {events : List ScratchEvent} (h : WellNested events) :
      WellNested (.refused f :: events)
  | pair (cell : Int) {inner rest : List ScratchEvent} (hinner : WellNested inner)
      (hrest : WellNested rest) : WellNested (.took cell :: (inner ++ .gaveBack cell :: rest))

theorem outstanding_concat (events : List ScratchEvent) (e : ScratchEvent) :
    outstanding (events ++ [e]) = e.held (outstanding events) := by
  rw [outstanding, List.foldl_append]
  rfl

/-- A cell is held until it is given back. -/
theorem ScratchEvent.mem_foldl_held {cell : Int} {events : List ScratchEvent} {cells : List Int}
    (hcell : cell ∈ cells) (h : .gaveBack cell ∉ events) : cell ∈ events.foldl held cells := by
  induction events generalizing cells with
  | nil => exact hcell
  | cons e events ih =>
    rw [List.mem_cons, not_or] at h
    refine ih ?_ h.2
    cases e with
    | took other => exact List.mem_cons_of_mem _ hcell
    | gaveBack other =>
      have hne : cell ≠ other := by
        rintro rfl
        exact h.1 rfl
      exact (List.mem_erase_of_ne hne).mpr hcell
    | refused _ => exact hcell

/-! ## What a call does -/

namespace Workbench

variable {w : Workbench} {call : ScratchCall}

/-- All that a call can come to. -/
inductive Serves (w : Workbench) : ScratchCall → ScratchEvent → Workbench → Prop where
  | took {cell : Int} {rest : List Int} (log : Array String) (h : w.cells.free = cell :: rest) :
      Serves w .take (.took cell) { w with
        cells := { w.cells with free := rest, maxScratch := max w.cells.maxScratch (cell + 1) }, log }
  | empty (h : w.cells.free = []) : Serves w .take (.refused .outOfScratch) w
  | gaveBack {cell : Int} (log : Array String) (hfree : cell ∉ w.cells.free)
      (hscratch : cell ∈ w.cells.scratch) : Serves w (.giveBack cell) (.gaveBack cell)
        { w with cells := { w.cells with free := cell :: w.cells.free }, log }
  | alreadyFree {cell : Int} (h : cell ∈ w.cells.free) :
      Serves w (.giveBack cell) (.refused .alreadyFree) w
  | notScratch {cell : Int} (hfree : cell ∉ w.cells.free) (hscratch : cell ∉ w.cells.scratch) :
      Serves w (.giveBack cell) (.refused .notScratch) w

theorem serves_serve (w : Workbench) (call : ScratchCall) :
    w.Serves call (w.serve call).1 (w.serve call).2 := by
  unfold serve
  cases call with
  | take =>
    rw [ScratchCall.action, runFrom_bind, Emit.runFrom_takeScratch, CellTable.take]
    cases hfree : w.cells.free with
    | nil => exact .empty hfree
    | cons cell rest => exact .took _ hfree
  | giveBack cell =>
    rw [ScratchCall.action, runFrom_bind, Emit.runFrom_giveBack, CellTable.giveBack]
    by_cases hfree : cell ∈ w.cells.free
    · rw [if_pos hfree]
      exact .alreadyFree hfree
    · rw [if_neg hfree]
      by_cases hscratch : cell ∈ w.cells.scratch
      · rw [if_pos hscratch]
        exact .gaveBack _ hfree hscratch
      · rw [if_neg hscratch]
        exact .notScratch hfree hscratch

/-- A call that fails changes nothing. -/
theorem serve_of_refused {f : Fault} (h : (w.serve call).1 = .refused f) :
    (w.serve call).2 = w := by
  have hserves := w.serves_serve call
  rw [h] at hserves
  generalize (w.serve call).2 = w' at hserves
  cases hserves <;> rfl

theorem refused_take_iff (w : Workbench) {f : Fault} :
    (w.serve .take).1 = .refused f ↔ w.cells.free = [] ∧ f = .outOfScratch := by
  have hserves := w.serves_serve .take
  generalize (w.serve .take).1 = e at hserves
  generalize (w.serve .take).2 = w' at hserves
  cases hserves with
  | took log hfree => simp [hfree]
  | empty hfree => simp [hfree, eq_comm]

/-- A cell is taken from the front of the free ones. -/
theorem free_of_took {cell : Int} (h : (w.serve call).1 = .took cell) :
    w.cells.free = cell :: (w.serve call).2.cells.free := by
  have hserves := w.serves_serve call
  rw [h] at hserves
  generalize (w.serve call).2 = w' at hserves
  cases hserves with
  | took log hfree => exact hfree

/-- A cell goes back to the front of the free ones. -/
theorem free_of_gaveBack {cell : Int} (h : (w.serve call).1 = .gaveBack cell) :
    (w.serve call).2.cells.free = cell :: w.cells.free := by
  have hserves := w.serves_serve call
  rw [h] at hserves
  generalize (w.serve call).2 = w' at hserves
  cases hserves with
  | gaveBack log hfree hscratch => rfl

/-! ## What a history keeps -/

/-- The workbench after some events that began with the given pool. -/
structure Accounts (pool : List Int) (events : List ScratchEvent) (w : Workbench) : Prop where
  scratch_eq : w.cells.scratch = pool
  perm : (w.cells.free ++ outstanding events).Perm pool
  apart : ∀ before between behind cell,
    events = before ++ .took cell :: (between ++ .took cell :: behind) → .gaveBack cell ∈ between
  greatest : IsGreatest (insert 0 {n | ∃ cell, .took cell ∈ events ∧ 0 ≤ cell ∧ n = cell + 1})
    w.cells.maxScratch

namespace Accounts

variable {pool : List Int} {events : List ScratchEvent} {w : Workbench}

theorem start (h : w.cells = .ofPool pool) : w.Accounts pool [] := by
  rw [CellTable.ofPool] at h
  refine ⟨by rw [h], by rw [h, outstanding, List.foldl_nil, List.append_nil], ?_, ?_⟩
  · intro before between behind cell heq
    have hlength := congrArg List.length heq
    simp at hlength
  · rw [h]
    constructor
    · exact Set.mem_insert 0 _
    · rintro n (rfl | ⟨cell, hcell, -⟩)
      · exact Int.le_refl _
      · cases hcell

/-- A cell is either free or handed out. -/
theorem mem_outstanding (h : w.Accounts pool events) (hpool : pool.Nodup) {cell : Int} :
    cell ∈ outstanding events ↔ cell ∈ pool ∧ cell ∉ w.cells.free := by
  have hnodup := h.perm.nodup_iff.mpr hpool
  have hmem : cell ∈ pool ↔ cell ∈ w.cells.free ∨ cell ∈ outstanding events := by
    rw [← h.perm.mem_iff, List.mem_append]
  constructor
  · intro hout
    exact ⟨hmem.mpr (.inr hout), fun hfree => (List.nodup_append.mp hnodup).2.2 cell hfree cell hout rfl⟩
  · rintro ⟨hcell, hfree⟩
    exact (hmem.mp hcell).resolve_left hfree

/-- A cell that is free now was given back since it was taken. -/
theorem apart_concat (h : w.Accounts pool events) (hpool : pool.Nodup) {e : ScratchEvent}
    (he : ∀ cell, e = .took cell → cell ∈ w.cells.free) (before between behind : List ScratchEvent)
    (cell : Int) (heq : events ++ [e] = before ++ .took cell :: (between ++ .took cell :: behind)) :
    .gaveBack cell ∈ between := by
  rcases List.eq_nil_or_concat behind with rfl | ⟨behind, last, rfl⟩
  · have hsplit : events ++ [e] = (before ++ .took cell :: between) ++ [.took cell] := by
      rw [heq]
      simp
    obtain ⟨hevents, hlast⟩ := List.append_inj' hsplit rfl
    by_contra hnot
    have hheld : cell ∈ outstanding events := by
      rw [hevents, outstanding, List.foldl_append, List.foldl_cons]
      exact ScratchEvent.mem_foldl_held List.mem_cons_self hnot
    exact ((h.mem_outstanding hpool).mp hheld).2 (he cell (List.head_eq_of_cons_eq hlast))
  · have hsplit : events ++ [e] =
        (before ++ .took cell :: (between ++ .took cell :: behind)) ++ [last] := by
      rw [heq]
      simp
    exact h.apart _ _ _ _ (List.append_inj' hsplit rfl).1

/-- An event that hands out no cell leaves the largest one as it is. -/
theorem greatest_concat (h : w.Accounts pool events) {e : ScratchEvent}
    (he : ∀ cell, e ≠ .took cell) :
    IsGreatest (insert 0 {n | ∃ cell, .took cell ∈ events ++ [e] ∧ 0 ≤ cell ∧ n = cell + 1})
      w.cells.maxScratch := by
  have hmem : ∀ cell, .took cell ∈ events ++ [e] ↔ .took cell ∈ events := by
    intro cell
    rw [List.mem_append, List.mem_singleton]
    exact or_iff_left fun heq => he cell heq.symm
  simp only [hmem]
  exact h.greatest

theorem greatest_took (h : w.Accounts pool events) (cell : Int) :
    IsGreatest (insert 0 {n | ∃ c, .took c ∈ events ++ [.took cell] ∧ 0 ≤ c ∧ n = c + 1})
      (max w.cells.maxScratch (cell + 1)) := by
  obtain ⟨hmem, hupper⟩ := h.greatest
  have hzero : 0 ≤ w.cells.maxScratch := hupper (Set.mem_insert 0 _)
  constructor
  · rcases le_total (cell + 1) w.cells.maxScratch with hle | hle
    · rw [max_eq_left hle]
      rcases hmem with hmem | ⟨c, hc, hrest⟩
      · exact .inl hmem
      · exact .inr ⟨c, List.mem_append_left _ hc, hrest⟩
    · rw [max_eq_right hle]
      by_cases hcell : 0 ≤ cell
      · exact .inr ⟨cell, List.mem_append_right _ List.mem_cons_self, hcell, rfl⟩
      · exact .inl (by omega)
  · rintro n (rfl | ⟨c, hc, hnonneg, rfl⟩)
    · exact le_max_of_le_left hzero
    · rcases List.mem_append.mp hc with hc | hc
      · exact le_max_of_le_left (hupper (.inr ⟨c, hc, hnonneg, rfl⟩))
      · obtain rfl : c = cell := by simpa using hc
        exact le_max_right _ _

/-- One call. -/
theorem serve (h : w.Accounts pool events) (hpool : pool.Nodup) (call : ScratchCall) :
    (w.serve call).2.Accounts pool (events ++ [(w.serve call).1]) := by
  have hserves := w.serves_serve call
  generalize (w.serve call).1 = e at hserves
  generalize (w.serve call).2 = w' at hserves
  cases hserves with
  | took log hfree =>
    rename_i cell rest
    refine ⟨h.scratch_eq, ?_, h.apart_concat hpool ?_, h.greatest_took cell⟩
    · have hperm := h.perm
      rw [hfree] at hperm
      rw [outstanding_concat]
      exact List.perm_middle.trans hperm
    · rintro _ ⟨⟩
      rw [hfree]
      exact List.mem_cons_self
  | gaveBack log hfree hscratch =>
    rename_i cell
    refine ⟨h.scratch_eq, ?_, h.apart_concat hpool (by rintro _ ⟨⟩),
      h.greatest_concat (by rintro _ ⟨⟩)⟩
    rw [outstanding_concat]
    have hout : cell ∈ outstanding events :=
      (h.mem_outstanding hpool).mpr ⟨h.scratch_eq ▸ hscratch, hfree⟩
    have hback : (cell :: (outstanding events).erase cell).Perm (outstanding events) :=
      (List.perm_cons_erase hout).symm
    exact (List.perm_middle.symm.trans (hback.append_left _)).trans h.perm
  | empty | alreadyFree | notScratch =>
    refine ⟨h.scratch_eq, ?_, h.apart_concat hpool (by rintro _ ⟨⟩),
      h.greatest_concat (by rintro _ ⟨⟩)⟩
    rw [outstanding_concat]
    exact h.perm

/-- All calls of a history. -/
theorem serveAll (h : w.Accounts pool events) (hpool : pool.Nodup) (calls : List ScratchCall) :
    (w.serveAll calls).2.Accounts pool (events ++ (w.serveAll calls).1) := by
  induction calls generalizing w events with
  | nil =>
    rw [Workbench.serveAll, List.append_nil]
    exact h
  | cons call calls ih =>
    have hrest := ih (h.serve hpool call)
    rw [List.append_assoc] at hrest
    exact hrest

theorem refused_giveBack_iff (h : w.Accounts pool events) (hpool : pool.Nodup) {cell : Int}
    {f : Fault} : (w.serve (.giveBack cell)).1 = .refused f ↔
      cell ∉ outstanding events ∧ f = if cell ∈ pool then .alreadyFree else .notScratch := by
  rw [h.mem_outstanding hpool]
  have hsub : cell ∈ w.cells.free → cell ∈ pool := fun hfree =>
    h.perm.mem_iff.mp (List.mem_append_left _ hfree)
  have hserves := w.serves_serve (.giveBack cell)
  generalize (w.serve (.giveBack cell)).1 = e at hserves
  generalize (w.serve (.giveBack cell)).2 = w' at hserves
  cases hserves with
  | gaveBack log hfree hscratch =>
    rw [h.scratch_eq] at hscratch
    simp [hfree, hscratch]
  | alreadyFree hfree => simp [hfree, hsub hfree, eq_comm]
  | notScratch hfree hscratch =>
    rw [h.scratch_eq] at hscratch
    simp [hscratch, eq_comm]

end Accounts

/-! ## Nested calls -/

/-- A history can be cut between any two events. -/
theorem exists_serveAll_of_append {calls : List ScratchCall} {events events' : List ScratchEvent}
    (h : (w.serveAll calls).1 = events ++ events') :
    ∃ first later, (w.serveAll first).1 = events ∧
      ((w.serveAll first).2.serveAll later).1 = events' ∧
      ((w.serveAll first).2.serveAll later).2 = (w.serveAll calls).2 := by
  induction events generalizing w calls with
  | nil => exact ⟨[], calls, rfl, h, rfl⟩
  | cons e events ih =>
    cases calls with
    | nil => cases h
    | cons call calls =>
      rw [serveAll_cons_fst, List.cons_append] at h
      obtain ⟨hhead, htail⟩ := List.cons.inj h
      obtain ⟨first, later, hfirst, hlater, hend⟩ := ih htail
      refine ⟨call :: first, later, ?_, hlater, hend⟩
      rw [serveAll_cons_fst, hhead, hfirst]

/-- Nested calls leave the free cells as they were, in the same order. -/
theorem free_of_wellNested {events : List ScratchEvent} (h : WellNested events)
    {calls : List ScratchCall} (hevents : (w.serveAll calls).1 = events) :
    (w.serveAll calls).2.cells.free = w.cells.free := by
  induction h generalizing w calls with
  | nil =>
    cases calls with
    | nil => rfl
    | cons call calls => cases hevents
  | refused f _ ih =>
    cases calls with
    | nil => cases hevents
    | cons call calls =>
      rw [serveAll_cons_fst] at hevents
      obtain ⟨hhead, htail⟩ := List.cons.inj hevents
      rw [serveAll_cons_snd, ih htail, serve_of_refused hhead]
  | pair cell _ _ ihinner ihrest =>
    cases calls with
    | nil => cases hevents
    | cons call calls =>
      rw [serveAll_cons_fst] at hevents
      obtain ⟨htook, hevents⟩ := List.cons.inj hevents
      obtain ⟨inside, later, hinside, hlater, hend⟩ := exists_serveAll_of_append hevents
      cases later with
      | nil => cases hlater
      | cons back later =>
        rw [serveAll_cons_fst] at hlater
        obtain ⟨hback, hlater⟩ := List.cons.inj hlater
        -- the cell is put in front of the cells that were behind it when it was taken
        rw [serveAll_cons_snd, ← hend, serveAll_cons_snd, ihrest hlater,
          free_of_gaveBack hback, ihinner hinside, ← free_of_took htook]

/-! ## The scratch pool -/

/-- The free cells and those handed out and not given back make up the pool at any time, so that a
cell is never handed out twice without coming back in between. A call fails only if no cell is free,
or if the cell to be given back is not handed out, and then changes nothing. -/
theorem scratch_is_never_shared (pool : List Int) (hpool : pool.Nodup) (w₀ : Workbench)
    (hstart : w₀.cells = .ofPool pool) (calls : List ScratchCall) :
    let events := (w₀.serveAll calls).1
    let w := (w₀.serveAll calls).2
    (w.cells.free ++ outstanding events).Perm pool ∧
    (∀ before between behind cell,
      events = before ++ .took cell :: (between ++ .took cell :: behind) →
        .gaveBack cell ∈ between) ∧
    (∀ f, (w.serve .take).1 = .refused f ↔ w.cells.free = [] ∧ f = .outOfScratch) ∧
    (∀ cell f, (w.serve (.giveBack cell)).1 = .refused f ↔
      cell ∉ outstanding events ∧ f = if cell ∈ pool then .alreadyFree else .notScratch) ∧
    (∀ call f, (w.serve call).1 = .refused f → (w.serve call).2 = w) ∧
    IsGreatest (insert 0 {n | ∃ cell, .took cell ∈ events ∧ 0 ≤ cell ∧ n = cell + 1})
      w.cells.maxScratch ∧
    (∀ more, WellNested (w.serveAll more).1 →
      (w.serveAll more).2.cells.free = w.cells.free) := by
  intro events w
  have h : w.Accounts pool events := (Accounts.start hstart).serveAll hpool calls
  exact ⟨h.perm, h.apart, fun _ => refused_take_iff w, fun _ _ => h.refused_giveBack_iff hpool,
    fun _ _ => serve_of_refused, h.greatest, fun _ hnested => free_of_wellNested hnested rfl⟩

/-- Cells given back out of order, one of them taken once more, and two calls that fail. -/
theorem scratch_is_never_shared_outOfOrder :
    let w₀ : Workbench := { cells := .ofPool [5, -2, 0] }
    let calls := [.take, .take, .giveBack 5, .take, .giveBack 0, .giveBack 9]
    let events := (w₀.serveAll calls).1
    let w := (w₀.serveAll calls).2
    [5, -2, (0 : Int)].Nodup ∧
    events = [.took 5, .took (-2), .gaveBack 5, .took 5, .refused .alreadyFree,
      .refused .notScratch] ∧
    (w.cells.free ++ outstanding events).Perm [5, -2, 0] ∧ outstanding events = [5, -2] ∧
    (w.serve (.giveBack 0)).1 = .refused .alreadyFree ∧
    (w.serveAll [.take, .take, .giveBack 0]).2.cells.free = w.cells.free := by
  intro w₀ calls events w
  obtain ⟨hperm, -, -, hgive, -, -, hnested⟩ :=
    scratch_is_never_shared [5, -2, 0] (by decide) w₀ rfl calls
  refine ⟨by decide, rfl, hperm, rfl, (hgive 0 .alreadyFree).mpr ⟨by decide, rfl⟩, hnested _ ?_⟩
  exact .pair 0 (.refused .outOfScratch .nil) .nil

end Workbench

end TapeScript
