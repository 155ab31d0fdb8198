import TapeScript.Proofs.EmissionPairs

set_option autoImplicit false

/-! # The pool after a statement

A statement gives its scratch cells back if it has no addition, and else loses two of them for each
addition. So a sequence of statements without additions needs no larger pool than each of them on
its own, while additions use up a pool of any size.
-/

namespace TapeScript

open Emit

/-- Workbenches with the same pool, wherever the head stands and whatever was taken before. -/
def Pairing.samePool : Pairing where
  cells c c' := c' = c ∧ Reachable c
  benches w w' := w'.cells.free = w.cells.free ∧ w'.cells.scratch = w.cells.scratch ∧
    Reachable w'.head ∧ ∀ c ∈ w.cells.free, Reachable c
  short _ := False
  reachable := by
    rintro c _ ⟨rfl, hc⟩
    exact hc
  eq_of_eq := by
    rintro c d _ _ ⟨rfl, -⟩ ⟨rfl, -⟩ heq
    exact heq
  head h := h.2.2.1
  goto h _ _ hh := ⟨h.1, h.2.1, hh, h.2.2.2⟩
  take := by
    rintro w w' c w1 ⟨hfree, hscratch, hhead, hreach⟩ hg
    obtain ⟨rest, hcons, rfl⟩ := gives_takeScratch.mp hg
    rw [hcons] at hfree hreach
    refine .inl ⟨_, gives_takeScratch.mpr ⟨rest, hfree, rfl⟩, ?_, rfl, hreach c (by simp)⟩
    exact ⟨rfl, hscratch, hhead, fun d hd => hreach d (by simp [hd])⟩
  giveBack := by
    rintro w w' c _ w1 ⟨hfree, hscratch, hhead, hreach⟩ ⟨-, hc⟩ hg
    obtain ⟨hnot, hmem, rfl⟩ := gives_giveBack.mp hg
    rw [← hfree] at hnot
    rw [← hscratch] at hmem
    refine ⟨_, gives_giveBack.mpr ⟨hnot, hmem, rfl⟩, ?_, hscratch, hhead, ?_⟩
    · rw [hfree]
    · exact List.forall_mem_cons.mpr ⟨hc, hreach⟩
  short_mono h _ := h

namespace Node

theorem relocate_id_symbol (symbol : Symbol) : symbol.relocate id = symbol := by
  simp [Symbol.relocate]

mutual

theorem relocate_id : ∀ n : Node, n.relocate id = n
  | .load symbol | .declare symbol none | .bare symbol => by rw [relocate, relocate_id_symbol]
  | .declare symbol (some value) | .assign symbol value => by
    rw [relocate, relocate_id_symbol, relocate_id value]
  | .unary _ value | .output value | .exprStmt value => by rw [relocate, relocate_id value]
  | .binary _ _ first second | .ifElse first second none | .loop first second => by
    rw [relocate, relocate_id first, relocate_id second]
  | .ifElse condition body (some otherwise) => by
    rw [relocate, relocate_id condition, relocate_id body, relocate_id otherwise]
  | .block body => by rw [relocate, relocateAll_id body]
  | .constant _ _ | .input | .newName _ | .nop _ | .program _ | .withheld _ | .blank | .misfit
  | .deep => rfl

theorem relocateAll_id : ∀ ns : List Node, relocateAll id ns = ns
  | [] => rfl
  | n :: ns => by rw [relocateAll, relocate_id n, relocateAll_id ns]

end

theorem additionsAll_eq_zero : ∀ {ns : List Node}, (∀ n ∈ ns, n.additions = 0) → additionsAll ns = 0
  | [], _ => rfl
  | n :: ns, h => by
    obtain ⟨hn, hns⟩ := List.forall_mem_cons.mp h
    rw [additionsAll, hn, additionsAll_eq_zero hns]

/-- Whether a statement can be emitted depends on the pool alone. -/
theorem exists_gives_of_samePool {n : Node} (hn : ∀ c ∈ n.varCells, Reachable c)
    {w0 w1 w : Workbench} {code : Code} (hg : Gives n.emit w0 code w1)
    (hfree : w.cells.free = w0.cells.free) (hscratch : w.cells.scratch = w0.cells.scratch)
    (hhead : Reachable w.head) (hreach : ∀ c ∈ w.cells.free, Reachable c) :
    ∃ code' w', Gives n.emit w code' w' ∧ Reachable w'.head := by
  have hplaced : Placed .samePool id n.varCells := fun c hc => ⟨rfl, hn c hc⟩
  have hmatches := matches_emit n hplaced
  rw [relocate_id] at hmatches
  have hpair : Pairing.samePool.benches w0 w := ⟨hfree, hscratch, hhead, hfree ▸ hreach⟩
  rcases hmatches.pairs hg hpair with ⟨code', w', hg', hpair'⟩ | ⟨-, hshort⟩
  · exact ⟨code', w', hg', Pairing.samePool.head hpair'⟩
  · exact hshort.elim

/-- Statements without additions that can each be emitted with some pool can be emitted with it one
after the other. -/
theorem exists_gives_emitAll {scratch free : List Int} (hreach : ∀ c ∈ free, Reachable c) :
    ∀ (ns : List Node) (w : Workbench), w.cells.scratch = scratch → w.cells.free = free →
      Reachable w.head → (∀ n ∈ ns, n.additions = 0 ∧ (∀ c ∈ n.varCells, Reachable c) ∧
        ∃ w0 code w1, w0.cells.scratch = scratch ∧ w0.cells.free = free ∧ Gives n.emit w0 code w1) →
      ∃ code w', Gives (emitAll ns) w code w'
  | [], w, _, _, _, _ => ⟨[], w, gives_pure.mpr ⟨rfl, rfl⟩⟩
  | n :: ns, w, hscratch, hfree, hhead, halone => by
    obtain ⟨⟨hplain, hn, w0, code0, w1, hscratch0, hfree0, hg0⟩, hrest⟩ :=
      List.forall_mem_cons.mp halone
    obtain ⟨first, w2, hfirst, hhead2⟩ := exists_gives_of_samePool hn hg0 (hfree.trans hfree0.symm)
      (hscratch.trans hscratch0.symm) hhead (hfree ▸ hreach)
    have hspent := spends_emit n w first w2 hfirst
    rw [hplain] at hspent
    obtain ⟨rest, w3, hg3⟩ := exists_gives_emitAll hreach ns w2 (hspent.scratch.trans hscratch)
      (hspent.free_eq.trans hfree) hhead2 hrest
    refine ⟨first ++ rest, w3, ?_⟩
    rw [emitAll]
    simp only [gives_bind, gives_pure]
    exact ⟨first, w2, hfirst, rest, w3, hg3, rfl, rfl⟩

/-- **A statement loses two scratch cells for each addition, and gives all others back in order.** So
statements without additions can be emitted one after the other with any pool with which each of
them can. -/
theorem emit_returns_scratch (w : Workbench) :
    (∀ (n : Node) (code : Code) (w' : Workbench), Gives n.emit w code w' →
      w'.cells.free.Sublist w.cells.free ∧
        w.cells.free.length = w'.cells.free.length + 2 * n.additions ∧
        (w'.cells.free = w.cells.free ↔ n.additions = 0)) ∧
    ∀ ns : List Node, Reachable w.head → (∀ c ∈ w.cells.free, Reachable c) →
      (∀ n ∈ ns, n.additions = 0 ∧ (∀ c ∈ n.varCells, Reachable c) ∧
        ∃ w₀ code w₁, w₀.cells.scratch = w.cells.scratch ∧ w₀.cells.free = w.cells.free ∧
          Gives n.emit w₀ code w₁) →
      ∃ code w', Gives (emitAll ns) w code w' ∧ w'.cells.free = w.cells.free := by
  refine ⟨fun n code w' hg => ?_, fun ns hhead hreach halone => ?_⟩
  · have hspent := spends_emit n w code w' hg
    refine ⟨hspent.free, hspent.length, fun heq => ?_, fun hplain => ?_⟩
    · have hlen := hspent.length
      rw [heq] at hlen
      omega
    · rw [hplain] at hspent
      exact hspent.free_eq
  · obtain ⟨code, w', hg⟩ := exists_gives_emitAll hreach ns w rfl rfl hhead halone
    have hplain : additionsAll ns = 0 := additionsAll_eq_zero fun n hn => (halone n hn).1
    have hspent := spends_emitAll ns w code w' hg
    rw [hplain] at hspent
    exact ⟨code, w', hg, hspent.free_eq⟩

/-- The statement `x = x + x`, with `x` in the cell behind a pool of four. -/
def doubling : Node :=
  let x : Symbol := { name := "x", kind := .variable, initialised := true, location := some 4 }
  .assign x (.binary .arithmetic "+" (.load x) (.load x))

/-- Four scratch cells are enough for a sum but not for two of them. -/
theorem doubling_exhausts_scratch :
    let w : Workbench := { cells := .ofSize 4 }
    (∃ code w', Gives doubling.emit w code w' ∧ w'.cells.free = [0, 1]) ∧
      Starves (emitAll [doubling, doubling]) w := by
  intro w
  have hone : ((runFrom doubling.emit w).1.isOk && (runFrom doubling.emit w).2.cells.free == [0, 1])
      = true := by decide +kernel
  have htwo : (runFrom (emitAll [doubling, doubling]) w).1 = .error .outOfScratch := by decide +kernel
  refine ⟨?_, ?_⟩
  · cases hrun : runFrom doubling.emit w with
    | mk outcome w' =>
      cases outcome with
      | error fault => simp [hrun, Except.isOk, Except.toBool] at hone
      | ok code => exact ⟨code, w', hrun, by simpa [hrun, Except.isOk, Except.toBool] using hone⟩
  · cases hrun : runFrom (emitAll [doubling, doubling]) w with
    | mk outcome w' =>
      rw [hrun] at htwo
      exact ⟨w', hrun.trans (Prod.ext htwo rfl)⟩

end Node

end TapeScript
