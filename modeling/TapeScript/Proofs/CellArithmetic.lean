import Mathlib.Data.Int.ModEq
import TapeScript.Proofs.GadgetRuns
import TapeScript.Proofs.Plain
import TapeScript.Proofs.RunLengths

set_option autoImplicit false

/-! # Cells count modulo their width

Adding the modulus until a number is not negative and then dividing by it gives the one cell value
congruent to the number (`Width.eq_evaluate_iff`). A machine computes it too: each run of `+` or `-`
moves the cell under the head by its length (`Machine.execute_counting`), so a program of such runs
leaves there the value of the sum (`Machine.runFor_counting`), however its commands are grouped.
-/

namespace TapeScript

namespace Width

variable (w : Width) (n : Int)

/-- The rounds of the loop: it goes on exactly while the number is negative. -/
theorem lift_eq : ∃ rounds : Nat, w.lift n = n + rounds * w.modulus ∧ 0 ≤ w.lift n ∧
    ∀ j < rounds, n + j * w.modulus < 0 := by
  fun_induction lift w n with
  | case1 n hneg ih =>
    obtain ⟨rounds, hlift, hnonneg, hwhile⟩ := ih
    refine ⟨rounds + 1, ?_, hnonneg, fun j hj => ?_⟩
    · rw [hlift]
      push_cast
      ring
    · cases j with
      | zero => simpa using hneg
      | succ j =>
        have := hwhile j (by omega)
        push_cast
        linarith
  | case2 n hnonneg => exact ⟨0, by simp, by omega, by simp⟩

theorem evaluate_eq_wrap : w.evaluate n = w.wrap n := by
  obtain ⟨rounds, hlift, -, -⟩ := w.lift_eq n
  unfold evaluate wrap
  rw [hlift, Int.add_mul_emod_self_right]

theorem eq_evaluate_iff (v : Nat) :
    v = w.evaluate n ↔ v < 2 ^ w.bits ∧ (v : Int) ≡ n [ZMOD 2 ^ w.bits] := by
  have hmod : (2 ^ w.bits : Int) = (w.modulus : Nat) := by rw [modulus_eq]; norm_cast
  have hpos := w.modulus_pos
  have hnonneg := Int.emod_nonneg n (Int.natCast_ne_zero.mpr hpos.ne')
  rw [evaluate_eq_wrap, hmod, ← modulus_eq, Int.ModEq]
  constructor
  · rintro rfl
    have hlt := Int.emod_lt_of_pos n (Int.natCast_pos.mpr hpos)
    unfold wrap
    rw [Int.toNat_of_nonneg hnonneg, Int.emod_emod]
    exact ⟨by omega, rfl⟩
  · rintro ⟨hlt, hcongr⟩
    unfold wrap
    rw [← hcongr, Int.emod_eq_of_lt (by omega) (by omega), Int.toNat_natCast]

end Width

/-! ## What code counts -/

/-- The commands `+` of some code, less its commands `-`. -/
def Code.tally (code : Code) : Int := code.count .inc - code.count .dec

theorem Code.tally_append (code code' : Code) : tally (code ++ code') = tally code + tally code' := by
  unfold tally
  rw [List.count_append, List.count_append]
  push_cast
  ring

/-- The instruction only counts the cell under the head up or down. -/
def Instr.Counts (i : Instr) : Prop := i.cmd = .inc ∨ i.cmd = .dec

/-- The instructions are the commands of the code in groups, none of which is empty. -/
structure Program.Groups (p : Program) (code : Code) : Prop where
  expands : p.toList.flatMap Instr.expand = code
  cmd_mem : ∀ i ∈ p.toList, i.cmd ∈ i.expand

theorem Program.Represents.groups {p : Program} {text : List Char} (h : p.Represents text) :
    p.Groups (text.filterMap Cmd.ofChar?) where
  expands := h.expands
  cmd_mem := by
    intro i hi
    have hcount := h.counts i hi
    unfold Instr.expand
    cases hcmd : i.cmd <;> simp_all [Cmd.repeats] <;> omega

theorem Program.Groups.counts {p : Program} {code : Code} (h : p.Groups code)
    (hcode : ∀ cmd ∈ code, cmd = .inc ∨ cmd = .dec) : ∀ i ∈ p.toList, i.Counts := by
  intro i hi
  refine hcode i.cmd ?_
  rw [← h.expands]
  exact List.mem_flatMap.mpr ⟨i, hi, h.cmd_mem i hi⟩

theorem tally_commands (text : List Char) :
    Code.tally (text.filterMap Cmd.ofChar?) = text.count '+' - text.count '-' := by
  have hcount : ∀ cmd : Cmd, (text.filterMap Cmd.ofChar?).count cmd = text.count cmd.toChar := by
    intro cmd
    rw [List.count, List.countP_filterMap, List.count]
    congr 1
    funext c
    rw [Bool.eq_iff_iff, beq_iff_eq]
    constructor
    · intro h
      obtain ⟨cmd', hc, heq⟩ : ∃ cmd', Cmd.ofChar? c = some cmd' ∧ (cmd' == cmd) = true := by
        cases hc : Cmd.ofChar? c <;> simp_all
      rw [Plain.eq_toChar_of_ofChar? hc, beq_iff_eq.mp heq]
    · rintro rfl
      simp
  unfold Code.tally
  rw [hcount, hcount]
  rfl

namespace Machine

variable {m : Machine} {v : Nat} {i : Instr} {n : Int}

/-! ## One instruction -/

theorem updateCell_of_cell (h : m.cell m.head = .ok v) (f : Nat → Nat) :
    ∃ cells, m.updateCell f = .next { m with memory := some cells } ∧
      { m with memory := some cells }.cell m.head = .ok (f v) := by
  obtain ⟨setup, memory, size, head, pc, inputPos, output, timed, finished⟩ := m
  unfold cell at h
  cases memory with
  | none => cases h
  | some cells =>
    simp only at h
    cases hk : place? cells.size head with
    | none => rw [hk] at h; cases h
    | some k =>
      have hlt : k < cells.size := by
        unfold place? at hk
        split at hk
        · split at hk <;> cases hk
          omega
        · split at hk <;> cases hk
          omega
      rw [hk] at h
      cases h
      refine ⟨cells.modify k f, ?_, ?_⟩
      · unfold updateCell
        simp only [hk]
      · unfold cell
        simp [hk, hlt, Array.getElem_modify]

theorem execute_counting (h : m.cell m.head = .ok (m.setup.width.wrap n)) (hi : i.Counts) :
    ∃ cells, m.execute i = .next { m with memory := some cells } ∧
      { m with memory := some cells }.cell m.head
        = .ok (m.setup.width.wrap (n + Code.tally i.expand)) := by
  obtain ⟨f, hexecute, hvalue⟩ : ∃ f, m.execute i = m.updateCell f ∧
      f (m.setup.width.wrap n) = m.setup.width.wrap (n + Code.tally i.expand) := by
    unfold execute Instr.expand Code.tally
    rcases hi with hi | hi <;> rw [hi]
    · refine ⟨_, rfl, (m.setup.width.wrap_add_natCast n i.arg).symm.trans ?_⟩
      simp [Cmd.repeats, List.count_replicate]
    · refine ⟨_, rfl, (m.setup.width.wrap_sub_natCast n i.arg).symm.trans ?_⟩
      simp [Cmd.repeats, List.count_replicate, Int.sub_eq_add_neg]
  obtain ⟨cells, hupdate, hcell⟩ := updateCell_of_cell h f
  exact ⟨cells, hexecute.trans hupdate, hcell.trans (congrArg _ hvalue)⟩

/-! ## Whole programs -/

/-- What is left of a program of such instructions adds its tally to the cell under the head. -/
theorem runFor_counting (rest : List Instr) :
    ∀ (before : List Instr) (m : Machine) (n : Int) (budget : Nat),
    m.setup.program.toList = before ++ rest → m.pc = before.length → (∀ i ∈ rest, i.Counts) →
    m.cell m.head = .ok (m.setup.width.wrap n) → rest.length ≤ budget →
    ∃ m', m.runFor budget = (none, m') ∧ m'.head = m.head ∧
      m'.cell m.head = .ok (m.setup.width.wrap (n + Code.tally (rest.flatMap Instr.expand))) := by
  induction rest with
  | nil =>
    intro before m n budget hprogram hpc _ hcell _
    have hended : m.ended = true := by
      have hsize := congrArg List.length hprogram
      rw [Array.length_toList, List.append_nil] at hsize
      exact decide_eq_true (by omega)
    refine ⟨{ m with timed := true, finished := true }, ?_, rfl, ?_⟩
    · cases budget <;> rw [runFor, hended] <;> rfl
    · have hnone : n + Code.tally (([] : List Instr).flatMap Instr.expand) = n := by
        simp [Code.tally]
      rw [hnone]
      exact hcell
  | cons i rest ih =>
    intro before m n budget hprogram hpc hcounts hcell hbudget
    cases budget with
    | zero => cases hbudget
    | succ budget =>
      obtain ⟨cells, hexecute, hcell'⟩ := execute_counting hcell (hcounts i List.mem_cons_self)
      have hgoes : m.Goes { m with memory := some cells, pc := m.pc + 1 } := by
        have hi : (m.setup.program.toList.map Instr.essence)[before.length]? = some i.essence := by
          rw [hprogram]
          simp
        obtain ⟨hrun, pos, hstep⟩ := step_of_fetch hpc hi
        have hsame : m.execute ⟨i.essence.1, i.essence.2, pos⟩ = m.execute i := rfl
        rw [hsame, hexecute] at hstep
        exact ⟨hrun, hstep⟩
      obtain ⟨m', hrun, hhead, hlast⟩ := ih (before ++ [i])
        { m with memory := some cells, pc := m.pc + 1 } _ budget (by rw [hprogram]; simp)
        (by simp [hpc]) (fun j hj => hcounts j (List.mem_cons_of_mem i hj)) hcell'
        (Nat.le_of_succ_le_succ hbudget)
      refine ⟨m', hgoes.runFor_succ budget ▸ hrun, hhead, ?_⟩
      rw [List.flatMap_cons, Code.tally_append, ← Int.add_assoc]
      exact hlast

/-- **A machine computes the value of a sum.** The loop that brings a number into the range of a cell
makes as many rounds as the number needs, and its result is the one value of the width that is congruent
to the number. Let a text of `+`, `-` and comments be accepted, and a machine of any width stand at the
start of instructions that, written out, are the commands of the text, whatever the groups. Then its run
adds the commands `+` to the value under the head and takes the commands `-` away, as the loop does. -/
theorem sums_are_evaluated {text : String} {size : Option Int} {bits : Int} {input limit : String}
    {capacity : Nat} {built : Machine} (hbuild : build text size bits input limit capacity = .ok built)
    (hplain : ∀ cmd ∈ text.toList.filterMap Cmd.ofChar?, cmd = .inc ∨ cmd = .dec) :
    (∀ (w : Width) (n : Int), (∃ rounds : Nat, w.lift n = n + rounds * w.modulus ∧ 0 ≤ w.lift n ∧
        ∀ j < rounds, n + j * w.modulus < 0) ∧
      ∀ v : Nat, v = w.evaluate n ↔ v < 2 ^ w.bits ∧ (v : Int) ≡ n [ZMOD 2 ^ w.bits]) ∧
    built.setup.program.Groups (text.toList.filterMap Cmd.ofChar?) ∧
    ∀ (m : Machine) (v budget : Nat), m.setup.program.Groups (text.toList.filterMap Cmd.ofChar?) →
      m.pc = 0 → m.finished = false → m.cell m.head = .ok v → v < 2 ^ m.setup.width.bits →
      m.setup.program.size ≤ budget →
      ∃ m', m.run budget = (none, m') ∧ m'.head = m.head ∧ m'.cell m.head
        = .ok (m.setup.width.evaluate (v + text.toList.count '+' - text.toList.count '-')) := by
  refine ⟨fun w n => ⟨w.lift_eq n, w.eq_evaluate_iff n⟩, ?_, ?_⟩
  · obtain ⟨w, p, -, -, hp, -, rfl⟩ := build_eq_ok_iff.mp hbuild
    exact (Program.represents_of_ofChars hp).groups
  · intro m v budget hgroups hpc hfinished hcell hv hbudget
    rw [← Width.modulus_eq] at hv
    rw [← m.setup.width.wrap_of_lt hv] at hcell
    obtain ⟨m', hrun, hhead, hlast⟩ := runFor_counting m.setup.program.toList [] m v budget rfl hpc
      (hgroups.counts hplain) hcell hbudget
    refine ⟨m', ?_, hhead, ?_⟩
    · rw [run, hfinished]
      exact hrun
    · rw [hlast, hgroups.expands, tally_commands, Width.evaluate_eq_wrap, Int.add_sub_assoc]

/-- Below zero the count goes on from the greatest value, also in groups that could be joined. -/
theorem sums_are_evaluated_below_zero :
    (∃ built, build "-c--" none 8 "" "1" = .ok built) ∧
    (∀ cmd ∈ "-c--".toList.filterMap Cmd.ofChar?, cmd = .inc ∨ cmd = .dec) ∧
    ∃ m', Machine.run 2 { start ⟨#[⟨.dec, 1, 0⟩, ⟨.dec, 2, 2⟩], .w8, some 1, #[], "1", 2⟩ with
        memory := some #[1] } = (none, m') ∧ m'.cell 0 = .ok 254 := by
  have hcode : "-c--".toList.filterMap Cmd.ofChar? = [.dec, .dec, .dec] := by cbv
  have hplus : "-c--".toList.count '+' = 0 ∧ "-c--".toList.count '-' = 3 := by cbv
  have hplain : ∀ cmd ∈ "-c--".toList.filterMap Cmd.ofChar?, cmd = .inc ∨ cmd = .dec := by
    rw [hcode]
    decide
  obtain ⟨p, hp⟩ := Program.exists_ofChars_iff.mpr (show Brackets.Balanced "-c--".toList by
    rw [Brackets.Balanced, hcode]; rfl)
  obtain ⟨built, hbuild⟩ : ∃ built, build "-c--" none 8 "" "1" = .ok built :=
    ⟨_, build_eq_ok_iff.mpr ⟨.w8, p, by simp, rfl, hp, by decide, rfl⟩⟩
  obtain ⟨-, -, hruns⟩ := sums_are_evaluated hbuild hplain
  obtain ⟨m', hrun, -, hcell⟩ := hruns
    { start ⟨#[⟨.dec, 1, 0⟩, ⟨.dec, 2, 2⟩], .w8, some 1, #[], "1", 2⟩ with memory := some #[1] } 1 2
    (by rw [hcode]; exact ⟨rfl, by decide⟩) rfl rfl rfl (by decide) (by decide)
  refine ⟨⟨_, hbuild⟩, hplain, m', hrun, hcell.trans ?_⟩
  rw [hplus.1, hplus.2, Width.evaluate_eq_wrap]
  rfl

end Machine

end TapeScript
