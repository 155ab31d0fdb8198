import TapeScript.Proofs.Fuel
import TapeScript.Proofs.GadgetRuns
import TapeScript.Proofs.Interpreters

set_option autoImplicit false

/-! # How code ends

What a piece of code does is told by how it ends when it is run on its own from a tape (`Code.Ends`):
it halts with a tape, it leaves the tape, or it does neither. Code that is put together from balanced
pieces ends as the pieces do, one after the other (`Sequel`) or again and again (`While`), however the
pieces move the head. A machine ends as its code does (`Machine.Primed.ending_iff`).
-/

namespace TapeScript

/-- Run command by command from a tape, the code comes to this ending. -/
def Code.Ends (s : Setting) (code : Code) (t : Tape) (e : Ending) : Prop :=
  e ≠ .spent ∧ ∃ n, Plain.run s code.text.toList n ⟨0, t⟩ = e

/-- The first run, and then the second one from where the first halted. -/
inductive Sequel (R S : Tape → Ending → Prop) (t : Tape) : Ending → Prop where
  | goesOn {u : Tape} {e : Ending} (hfirst : R t (.halted u)) (hsecond : S u e) : Sequel R S t e
  | breaksOff {sf : Surface} (hfirst : R t (.offTape sf)) : Sequel R S t (.offTape sf)

/-- Rounds are run as long as the cell is not zero. The head is taken to the cell for every test. -/
inductive While (cell : Int) (R : Tape → Ending → Prop) : Tape → Ending → Prop where
  | done {t : Tape} (hzero : t.cells cell = 0) : While cell R t (.halted (t.goto cell))
  | round {t u : Tape} {e : Ending} (hne : t.cells cell ≠ 0)
      (hround : R (t.goto cell) (.halted u)) (hrest : While cell R u e) : While cell R t e
  | breaksOff {t : Tape} {sf : Surface} (hne : t.cells cell ≠ 0)
      (hround : R (t.goto cell) (.offTape sf)) : While cell R t (.offTape sf)

/-! ## Blocks with more fuel -/

theorem Block.exec_mono {s : Setting} {fuel fuel' : Nat} (hle : fuel ≤ fuel') (b : Block) {t : Tape}
    (h : b.exec s fuel t ≠ .spent) : b.exec s fuel' t = b.exec s fuel t := by
  induction b generalizing t with
  | done => rfl
  | act op rest ih =>
    rw [exec] at h ⊢
    rw [exec]
    cases hop : op.act s t with
    | none => rfl
    | some t' =>
      rw [hop] at h
      exact ih h
  | loop body rest ihb ihr =>
    rw [exec] at h ⊢
    rw [exec, iterate_mono (fun _ => ihb) hle (Ending.ne_spent_of_andThen h)]
    cases hl : iterate (body.exec s fuel) fuel t with
    | halted t' =>
      rw [hl] at h
      exact ihr h
    | offTape sf => rfl
    | spent => rfl

/-- A block comes to one end, whatever the fuel. -/
theorem Block.exec_unique {s : Setting} {fuel fuel' : Nat} {b : Block} {t : Tape} {e e' : Ending}
    (h : b.exec s fuel t = e) (h' : b.exec s fuel' t = e') (he : e ≠ .spent) (he' : e' ≠ .spent) :
    e = e' := by
  subst h h'
  rw [← exec_mono (Nat.le_max_left fuel fuel') b he, exec_mono (Nat.le_max_right fuel fuel') b he']

/-! ## Pieces of code -/

theorem Code.Balanced.exists_block {code : Code} (h : code.Balanced) : ∃ b : Block, b.code = code := by
  have hread : Code.Balanced (code.text.toList.filterMap Cmd.ofChar?) := by
    rw [Program.filterMap_text]
    exact h
  obtain ⟨p, hp⟩ := Program.exists_ofChars_of_balanced hread
  obtain ⟨b, hb, -⟩ := Program.exists_block_of_ofChars hp
  rw [Program.filterMap_text] at hb
  exact ⟨b, hb.symm⟩

namespace Code

variable {s : Setting} {t t' : Tape} {e e' : Ending} {code c d : Code}

/-- Code ends as any block with that code does. -/
theorem ends_iff {b : Block} (hb : b.code = code) (ht : s.Admits t) :
    code.Ends s t e ↔ e ≠ .spent ∧ ∃ fuel, b.exec s fuel t = e :=
  and_congr_right fun he => Plain.run_iff (by rw [Program.filterMap_text, hb]) ht he

/-- Halting keeps the head on the tape and the cells below the modulus. -/
theorem Ends.admits (hcode : code.Balanced) (ht : s.Admits t) (h : code.Ends s t (.halted t')) :
    s.Admits t' := by
  obtain ⟨b, hb⟩ := hcode.exists_block
  obtain ⟨-, fuel, hrun⟩ := (ends_iff hb ht).mp h
  exact b.admits_of_exec ht hrun

theorem balanced_append (hc : c.Balanced) (hd : d.Balanced) : (c ++ d).Balanced := by
  obtain ⟨b, rfl⟩ := hc.exists_block
  obtain ⟨b', rfl⟩ := hd.exists_block
  rw [← Block.code_append]
  exact (b ++ b').balanced_code

theorem balanced_loop (hc : c.Balanced) : Balanced (.enter :: c ++ [.leave]) := by
  obtain ⟨b, rfl⟩ := hc.exists_block
  exact (Block.loop b .done).balanced_code

/-- One piece after the other. -/
theorem ends_append (hc : c.Balanced) (hd : d.Balanced) (ht : s.Admits t) :
    (c ++ d).Ends s t e ↔ Sequel (c.Ends s) (d.Ends s) t e := by
  obtain ⟨b, rfl⟩ := hc.exists_block
  obtain ⟨b', rfl⟩ := hd.exists_block
  rw [ends_iff (Block.code_append b b') ht]
  constructor
  · rintro ⟨hne, fuel, hrun⟩
    rw [Block.exec_append] at hrun
    cases hfirst : b.exec s fuel t with
    | halted u =>
      rw [hfirst] at hrun
      have hends : b.code.Ends s t (.halted u) := (ends_iff rfl ht).mpr ⟨by simp, fuel, hfirst⟩
      have hu := b.admits_of_exec ht hfirst
      exact .goesOn hends ((ends_iff rfl hu).mpr ⟨hne, fuel, hrun⟩)
    | offTape sf =>
      rw [hfirst] at hrun
      subst hrun
      exact .breaksOff ((ends_iff rfl ht).mpr ⟨hne, fuel, hfirst⟩)
    | spent =>
      rw [hfirst] at hrun
      exact absurd hrun.symm hne
  · intro h
    cases h with
    | @goesOn u _ hfirst hsecond =>
      obtain ⟨-, fuel, hrun⟩ := (ends_iff rfl ht).mp hfirst
      obtain ⟨hne, fuel', hrun'⟩ := (ends_iff rfl (b.admits_of_exec ht hrun)).mp hsecond
      subst hrun'
      refine ⟨hne, max fuel fuel', ?_⟩
      rw [Block.exec_append, Block.exec_mono (Nat.le_max_left fuel fuel') b (by simp [hrun]), hrun,
        Ending.halted_andThen, Block.exec_mono (Nat.le_max_right fuel fuel') b' hne]
    | @breaksOff sf hfirst =>
      obtain ⟨hne, fuel, hrun⟩ := (ends_iff rfl ht).mp hfirst
      exact ⟨hne, fuel, by rw [Block.exec_append, hrun, Ending.offTape_andThen]⟩

section Loop

variable {b : Block} {cell : Int}

/-- The tests of a loop that is always tested at the same cell. -/
theorem while_of_iterate (hback : ∀ u u', s.Admits u → u.head = cell →
      b.code.Ends s u (.halted u') → u'.head = cell) {fuel n : Nat} (ht : s.Admits t)
    (hhead : t.head = cell) (h : Block.iterate (b.exec s fuel) n t = e) (he : e ≠ .spent) :
    While cell (b.code.Ends s) t e := by
  induction n generalizing t with
  | zero => exact absurd h.symm he
  | succ n ih =>
    have hstay : t.goto cell = t := by rw [← hhead, Tape.goto_self]
    have hcurrent : t.current = t.cells cell := by rw [Tape.current, hhead]
    rw [Block.iterate, hcurrent] at h
    split at h
    · next hzero =>
      subst h
      rw [← hstay]
      exact .done hzero
    · next hne =>
      cases hround : b.exec s fuel t with
      | halted u =>
        rw [hround, Ending.halted_andThen] at h
        have hends : b.code.Ends s t (.halted u) := (ends_iff rfl ht).mpr ⟨by simp, fuel, hround⟩
        refine .round hne (hstay.symm ▸ hends) (ih (b.admits_of_exec ht hround) ?_ h)
        exact hback t u ht hhead hends
      | offTape sf =>
        rw [hround, Ending.offTape_andThen] at h
        subst h
        exact .breaksOff hne (hstay.symm ▸ (ends_iff rfl ht).mpr ⟨he, fuel, hround⟩)
      | spent =>
        rw [hround] at h
        exact absurd h.symm he

theorem iterate_of_while (hback : ∀ u u', s.Admits u → u.head = cell →
      b.code.Ends s u (.halted u') → u'.head = cell) (h : While cell (b.code.Ends s) t e)
    (ht : s.Admits t) (hhead : t.head = cell) :
    ∃ fuel, Block.iterate (b.exec s fuel) fuel t = e ∧ e ≠ .spent := by
  induction h with
  | @done t hzero =>
    refine ⟨1, ?_, by simp⟩
    rw [Block.iterate, if_pos (by rw [Tape.current, hhead, hzero]), ← hhead, Tape.goto_self]
  | @round t u e hne hround _ ih =>
    rw [← hhead, Tape.goto_self] at hround
    obtain ⟨-, fuel, hrun⟩ := (ends_iff rfl ht).mp hround
    obtain ⟨fuel', hrest, he⟩ := ih (b.admits_of_exec ht hrun) (hback t u ht hhead hround)
    -- both the round and the rest keep their ends with the fuel of the two
    let more := max fuel fuel'
    have hle : fuel ≤ more + 1 := by omega
    have hround' : b.exec s (more + 1) t = .halted u := by
      rw [Block.exec_mono hle b (by simp [hrun]), hrun]
    have hrest' : Block.iterate (b.exec s (more + 1)) more u = e := by
      subst hrest
      exact Block.iterate_mono (fun v hv => Block.exec_mono (by omega) b hv) (by omega) he
    refine ⟨more + 1, ?_, he⟩
    rw [Block.iterate, if_neg (by rw [Tape.current, hhead]; exact hne), hround',
      Ending.halted_andThen, hrest']
  | @breaksOff t sf hne hround =>
    rw [← hhead, Tape.goto_self] at hround
    obtain ⟨he, fuel, hrun⟩ := (ends_iff rfl ht).mp hround
    refine ⟨fuel + 1, ?_, he⟩
    rw [Block.iterate, if_neg (by rw [Tape.current, hhead]; exact hne),
      Block.exec_mono (Nat.le_succ fuel) b (by simp [hrun]), hrun, Ending.offTape_andThen]

end Loop

/-- A piece in brackets, if it brings the head back to the cell that is tested. -/
theorem ends_loop {cell : Int} (hc : c.Balanced) (hback : ∀ u u', s.Admits u → u.head = cell →
      c.Ends s u (.halted u') → u'.head = cell) (ht : s.Admits t) (hhead : t.head = cell) :
    Ends s (.enter :: c ++ [.leave]) t e ↔ While cell (c.Ends s) t e := by
  obtain ⟨b, rfl⟩ := hc.exists_block
  have hexec : ∀ fuel, (Block.loop b .done).exec s fuel t = Block.iterate (b.exec s fuel) fuel t :=
    fun fuel => Ending.andThen_halted _
  have hloop : (Block.loop b .done).code = .enter :: b.code ++ [.leave] := rfl
  rw [ends_iff hloop ht]
  constructor
  · rintro ⟨he, fuel, hrun⟩
    rw [hexec] at hrun
    exact while_of_iterate hback ht hhead hrun he
  · intro h
    obtain ⟨fuel, hrun, he⟩ := iterate_of_while hback h ht hhead
    exact ⟨he, fuel, by rw [hexec]; exact hrun⟩

/-- The code of a plan that halts. -/
theorem ends_of_spells {p : Plan} {h' : Int} (hp : p.Spells t.head code h') (ht : s.Admits t)
    {fuel : Nat} {u : Tape} (hrun : p.exec s fuel t = .halted u) :
    code.Ends s t e ↔ e = .halted u := by
  have hblock : (p.block t.head).exec s fuel t = .halted u := by
    rw [p.exec_block hp.returns ht.head_on, hrun]
  rw [ends_iff (b := p.block t.head) hp.code_eq.symm ht]
  constructor
  · rintro ⟨he, fuel', hrun'⟩
    exact Block.exec_unique hrun' hblock he (by simp)
  · rintro rfl
    exact ⟨by simp, fuel, hblock⟩

theorem balanced_of_spells {p : Plan} {h h' : Int} (hp : p.Spells h code h') : code.Balanced := by
  rw [hp.code_eq]
  exact (p.block h).balanced_code

theorem balanced_go (h cell : Int) : ((Beat.go cell).code h).Balanced := by
  have hcode : (Plan.travel h cell .done).code = (Beat.go cell).code h := by
    simp [Plan.travel, Block.code, Beat.code]
  rw [← hcode]
  exact Block.balanced_code _

/-- The moves to a cell of the tape. -/
theorem ends_go {cell : Int} (hcell : s.holds cell) (ht : s.Admits t) :
    ((Beat.go cell).code t.head).Ends s t e ↔ e = .halted (t.goto cell) := by
  have hspells : (Plan.go cell .done).Spells t.head ((Beat.go cell).code t.head) cell :=
    ⟨trivial, by simp [Plan.code, Plan.block, Plan.travel, Block.code, Beat.code], rfl⟩
  have hrun : (Plan.go cell .done).exec s 0 t = .halted (t.goto cell) := Plan.exec_go hcell .done t
  exact ends_of_spells hspells ht hrun

end Code

/-! ## Machines -/

namespace Machine

/-- A machine that is about to run the code, whatever is in its cells: its tape is as long as it
takes it to be and holds values of its width, and its head is on it. -/
structure Primed (code : Code) (m : Machine) : Prop where
  program : Program.ofText code.text = .ok m.setup.program
  pc : m.pc = 0
  fresh : m.finished = false
  memory : ∃ cells, m.memory = some cells ∧ m.size = cells.size ∧
    ∀ v ∈ cells, v < m.setup.width.modulus
  fixed : ∀ n, m.setup.fixedSize = some n → m.size = n
  head_nonneg : 0 ≤ m.head
  head_lt : m.head < m.size

namespace Primed

variable {code : Code} {m : Machine}

theorem bounds (h : m.Primed code) (c : Int) : m.cellAt c < m.setup.width.modulus := by
  obtain ⟨cells, hmem, -, hlt⟩ := h.memory
  rw [cellAt_of_memory hmem]
  split
  · rw [Array.getD_eq_getD_getElem?]
    cases hget : cells[c.toNat]? with
    | none => exact m.setup.width.modulus_pos
    | some v => exact hlt v (Array.mem_of_getElem? hget)
  · exact m.setup.width.modulus_pos

theorem stands (h : m.Primed code) {s : Setting} (hwidth : s.width = m.setup.width)
    (hinput : s.input = m.setup.input) (hroom : m.Room s) : m.Stands s m.setup 0 m.tape := by
  obtain ⟨cells, hmem, hsize, -⟩ := h.memory
  exact ⟨⟨⟨⟨cells, hmem, hsize⟩, h.fixed, h.head_nonneg, h.head_lt, hwidth.symm, hinput.symm⟩, hroom⟩,
    rfl, h.pc, rfl⟩

theorem admits (h : m.Primed code) : m.setup.setting.Admits m.tape := by
  refine ⟨(Setting.holds_iff _ _).mpr ⟨h.head_nonneg, fun n hn => ?_⟩, h.bounds⟩
  rw [← h.fixed n hn]
  exact h.head_lt

/-- **A machine ends as its code does**, as long as it does not run out of memory. -/
theorem ending_iff (h : m.Primed code) (hmemory : m.Ample) {e : Ending} (he : e ≠ .spent) :
    (∃ n, ending (m.run n) = e) ↔ code.Ends m.setup.setting m.tape e := by
  have hroom : m.Room m.setup.setting := by
    have hlimit : m.setup.setting.limit = m.setup.fixedSize := rfl
    rw [Room, hlimit]
    cases m.setup.fixedSize with
    | none => exact .inr hmemory
    | some n => exact ⟨n, rfl, Nat.le_refl n⟩
  obtain ⟨b, hcode, hlinked⟩ := Program.exists_block_of_ofChars h.program
  rw [Program.filterMap_text] at hcode
  rw [Code.ends_iff hcode.symm h.admits, and_iff_right he,
    ← Machine.ending_iff hlinked (h.stands rfl rfl hroom) (fun _ _ _ => rfl) he]
  unfold run
  rw [h.fresh]
  rfl

end Primed

end Machine

end TapeScript
