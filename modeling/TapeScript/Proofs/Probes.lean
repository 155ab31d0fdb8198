import TapeScript.Proofs.StatementSupply
import TapeScript.Proofs.Residue

set_option autoImplicit false

/-! # Scripts that measure a session

Each sum of inputs that is written out keeps two scratch cells, and an output inside of nested loops
needs one for itself and one for each loop. So sums in front of such loops need a number of scratch
cells that can be told exactly (`Node.emits_measure`, `Node.needs_measure`): for every size of the pool
there is such a script that compiles with the whole pool and with nothing less, and it takes no more of
the call stack than a few loops do.
-/

namespace TapeScript

open Emit

/-! ## Scratch cells that are needed -/

namespace Emit

/-- There is code only if so many scratch cells are free. -/
def Needs (k : Nat) (e : Emit Code) : Prop :=
  ∀ w code w', Gives e w code w' → k ≤ w.cells.free.length

section Parts

variable {j k : Nat} {e : Emit Code} {es : List (Emit Code)}

theorem needs_zero (e : Emit Code) : Needs 0 e := fun _ _ _ _ => Nat.zero_le _

theorem Needs.first (h : Needs k e) : Needs k (seq (e :: es)) := by
  intro w code w' hg
  obtain ⟨first, w1, hfirst, -⟩ := gives_bind.mp hg
  exact h w first w1 hfirst

/-- What comes later lacks the cells that were kept before. -/
theorem Needs.later (he : Spends j e) (h : Needs k (seq es)) : Needs (k + j) (seq (e :: es)) := by
  intro w code w' hg
  obtain ⟨first, w1, hfirst, hrest⟩ := gives_bind.mp hg
  obtain ⟨rest, w2, hrest, -⟩ := gives_bind.mp hrest
  rw [(he w first w1 hfirst).length]
  exact Nat.add_le_add_right (h w1 rest w2 hrest) j

theorem Needs.borrow {f : Int → Emit Code} (h : ∀ cell, Needs k (f cell)) :
    Needs (k + 1) (borrow f) := by
  intro w code w' hg
  obtain ⟨cell, w1, htake, hrest⟩ := gives_bind.mp hg
  obtain ⟨inner, w2, hinner, -⟩ := gives_bind.mp hrest
  obtain ⟨rest, hfree, rfl⟩ := gives_takeScratch.mp htake
  have hle : k ≤ rest.length := h cell _ inner w2 hinner
  rw [hfree, List.length_cons]
  omega

theorem Needs.loop (h : Needs k e) (cell : Int) : Needs k (loop cell e) := by
  intro w code w' hg
  obtain ⟨inner, w1, -, hinner, -⟩ := gives_loop.mp hg
  exact h { w with head := cell } inner w1 hinner

theorem Needs.lift {α : Type} {x : Except Fault α} {f : α → Emit Code} (h : ∀ a, Needs k (f a)) :
    Needs k (liftM x >>= f) := by
  intro w code w' hg
  obtain ⟨a, -, hf⟩ := gives_lift_bind.mp hg
  exact h a w code w' hf

end Parts

end Emit

/-! ## The measuring statements -/

namespace Node

/-- A sum of inputs that is written out. -/
def sum : Node := .output (.binary .arithmetic "+" .input .input)

/-- So many loops, one inside the other, around an output. -/
def probe : Nat → Node
  | 0 => .output .input
  | w + 1 => .loop .input (probe w)

/-- So many sums in front of so many loops. -/
def measure : Nat → Nat → List Node
  | 0, w => [probe w]
  | k + 1, w => sum :: measure k w

theorem hasCode_probe (w : Nat) : (probe w).hasCode = .ok true := by cases w <;> rfl

theorem hasCode_measure (k w : Nat) : ∀ n ∈ measure k w, n.hasCode = .ok true := by
  induction k with
  | zero => exact List.forall_mem_singleton.mpr (hasCode_probe w)
  | succ k ih => exact List.forall_mem_cons.mpr ⟨rfl, ih⟩

theorem calls_probe (w : Nat) : (probe w).calls = 2 * w + 4 := by
  induction w with
  | zero => rfl
  | succ w ih =>
    rw [probe, calls, ih, show Node.input.calls = 3 from rfl]
    omega

theorem callsAll_measure (k w : Nat) : callsAll (measure k w) ≤ 2 * w + 8 := by
  induction k with
  | zero =>
    rw [measure, callsAll, callsAll, calls_probe]
    omega
  | succ k ih =>
    rw [measure, callsAll, show sum.calls = 8 from rfl]
    omega

theorem spends_sum : Spends 2 sum.emit := spends_emit sum

theorem spends_probe (w : Nat) : Spends 0 (probe w).emit := by
  have h : (probe w).additions = 0 := by
    induction w with
    | zero => rfl
    | succ w ih => simp [probe, additions, ih]
  have hspends := spends_emit (probe w)
  rwa [h] at hspends

theorem spends_input (cell : Int) : Spends 0 (Node.input.emitInto cell) := spends_emitInto .input cell

/-- The code writes something out, inside of the loops. -/
theorem ne_nil_of_probe {w : Nat} {b b' : Workbench} {code : Code}
    (h : Gives (probe w).emit b code b') : code ≠ [] := by
  cases w with
  | zero =>
    rw [probe, emit, emitOutput_eq] at h
    simp only [Emit.borrow, seq, one, gives_bind, gives_pure] at h
    obtain ⟨_, _, -, _, _, ⟨_, _, -, _, _, ⟨_, _, -, _, _, ⟨_, _, ⟨rfl, -⟩, _, _, ⟨rfl, -⟩, rfl, -⟩,
      rfl, -⟩, rfl, -⟩, _, _, -, rfl, -⟩ := h
    simp
  | succ w =>
    rw [probe, emit_loop] at h
    simp only [Emit.borrow, emitRounds, seq, gives_bind, gives_pure, gives_loop] at h
    obtain ⟨_, _, -, _, _, ⟨_, _, -, _, _, -, _, _, -, _, _, ⟨_, _, ⟨_, _, -, -, -, -, rfl⟩, _, _,
      ⟨rfl, -⟩, rfl, -⟩, rfl, -⟩, _, _, -, rfl, -⟩ := h
    simp

theorem ne_nil_of_measure {k w : Nat} {b b' : Workbench} {code : Code}
    (h : Gives (emitAll (measure k w)) b code b') : code ≠ [] := by
  induction k generalizing b code with
  | zero =>
    simp only [measure, emitAll, gives_bind, gives_pure] at h
    obtain ⟨_, _, hfirst, _, _, -, rfl, -⟩ := h
    simp [ne_nil_of_probe hfirst]
  | succ k ih =>
    simp only [measure, emitAll, gives_bind, gives_pure] at h
    obtain ⟨_, _, -, _, _, hrest, rfl, rfl⟩ := h
    simp [ih hrest]

/-! ### No fewer cells will do -/

theorem needs_probe (w : Nat) : Needs (w + 1) (probe w).emit := by
  induction w with
  | zero => exact Needs.borrow fun _ => needs_zero _
  | succ w ih =>
    rw [probe, emit_loop]
    refine Needs.borrow fun result => Needs.lift fun _ => Needs.lift fun _ => ?_
    exact Needs.later (k := w + 1) (spends_input result) (Needs.loop ih.first result).first

theorem needs_measure (k w : Nat) : Needs (2 * k + (w + 1)) (emitAll (measure k w)) := by
  rw [emitAll_eq]
  induction k with
  | zero =>
    rw [Nat.mul_zero, Nat.zero_add]
    exact (needs_probe w).first
  | succ k ih =>
    rw [show 2 * (k + 1) + (w + 1) = 2 * k + (w + 1) + 2 by omega]
    exact .later spends_sum ih

/-! ### So many cells will do -/

section Emits

variable {base reach : Int} (hreach : reach ≤ countBound) (hbase : base ≤ reach) (hpos : 0 ≤ base)

theorem emittable_input : Node.input.Emittable base reach := trivial

theorem works_probe (w : Nat) : (probe w).WorksWithin base reach (w + 1) := by
  induction w with
  | zero => exact .output emittable_input
  | succ w ih =>
    have hloop : (probe (w + 1)).WorksWithin base reach (0 + (w + 1 + 0) + 1) :=
      .loop emittable_input ih
    rwa [Nat.zero_add] at hloop

theorem works_sum : sum.WorksWithin base reach 7 :=
  have hsum : (Node.binary .arithmetic "+" .input .input).Emittable base reach :=
    ⟨by decide, emittable_input, emittable_input⟩
  .output hsum

include hreach hbase hpos

/-- A sum takes seven cells and keeps two of them, so there have to be enough loops behind it. -/
theorem emits_measure {k w : Nat} (hw : k = 0 ∨ 4 ≤ w) {F : List Int} (hlow : ∀ c ∈ F, c < base) :
    Emits base reach F (2 * k + (w + 1)) (emitAll (measure k w)) := by
  rw [emitAll_eq]
  induction k with
  | zero =>
    have hlast : Emits base reach F 0 (seq []) := emits_nil
    exact (((works_probe w).emits hreach hbase hpos F hlow).mono (by omega)).cons (spends_probe w)
      hlast (by omega)
  | succ k ih =>
    have hsum := (works_sum.emits hreach hbase hpos F hlow).mono
      (show 7 ≤ 2 * (k + 1) + (w + 1) by omega)
    exact hsum.cons spends_sum (ih (by omega)) (by omega)

end Emits

end Node

/-! ## The measuring scripts -/

/-- The statement `output(input() + input());`. -/
def Stmt.summing : Stmt :=
  .output (.chain .arithmetic .input [(⟨.plus, "+", 0, 0⟩, .input)])

/-- The statement `while (input()) … output(input());`. -/
def Stmt.probing : Nat → Stmt
  | 0 => .output .input
  | w + 1 => .loop .input (probing w)

def measuring : Nat → Nat → List Stmt
  | 0, w => [.probing w]
  | k + 1, w => .summing :: measuring k w

namespace SourceLower

variable {s : Session}

theorem gives_probing (w : Nat) : Gives (stmt (.probing w)) s (Node.probe w) s := by
  induction w with
  | zero => rfl
  | succ w ih =>
    rw [Stmt.probing, stmt]
    exact gives_bind.mpr ⟨.input, s, rfl, gives_bind.mpr ⟨_, s, ih, gives_pure.mpr ⟨rfl, rfl⟩⟩⟩

/-- A measuring script leaves the session as it is until its code is emitted. -/
theorem gives_measuring (k w : Nat) : Gives (stmts (measuring k w)) s (Node.measure k w) s := by
  induction k with
  | zero =>
    rw [measuring, stmts]
    exact gives_bind.mpr ⟨_, s, gives_probing w, rfl⟩
  | succ k ih =>
    rw [measuring, stmts]
    exact gives_bind.mpr ⟨Node.sum, s, rfl, gives_bind.mpr ⟨_, s, ih, gives_pure.mpr ⟨rfl, rfl⟩⟩⟩

end SourceLower

theorem Stmt.depth_probing (w : Nat) : (Stmt.probing w).tree.depth = 2 * w + 3 := by
  induction w with
  | zero => rfl
  | succ w ih =>
    simp only [Stmt.probing, Stmt.tree, Stmt.tree.statement, Expr.tree, depthOfAll, Tree.depth, ih]
    omega

theorem depth_measuring (k w : Nat) :
    depthOfAll (((measuring k w).map Item.stmt).map Item.tree) ≤ 2 * w + 4 := by
  induction k with
  | zero =>
    simp only [measuring, List.map_cons, List.map_nil, depthOfAll, Item.tree, Stmt.depth_probing]
    omega
  | succ k ih =>
    have hsum : (Item.stmt .summing).tree.depth = 4 := rfl
    rw [measuring, List.map_cons, List.map_cons, depthOfAll, hsum]
    omega

end TapeScript
