import TapeScript.Proofs.MachineInvariant

set_option autoImplicit false

/-! # The length of the tape does not matter

Two machines with the same program and input, one of them on a longer tape or on one that grows, make
the same run step by step until the shorter tape is left (`Machine.Lockstep.step`). At that step the
head of the other goes to the same place off the shorter tape, whether it can stand there or not. So a
run that ends normally on some tape ends alike on every longer one, and a run leaves a tape exactly when
the run on a growing tape goes below zero or beyond the end of that tape
(`Machine.run_independent_of_memory`). A growing tape need only grow over the cells of the shorter one.
-/

namespace TapeScript

/-! ## Instructions -/

/-- Every instruction of a block is an operation or a bracket. -/
theorem Block.op_or_bracket_of_mem_linked {b : Block} {k : Nat} {i : Cmd × Nat}
    (hmem : i ∈ b.linked k) :
    (∃ op : Op, i = (op.cmd, op.count)) ∨ i.1 = .enter ∨ i.1 = .leave := by
  induction b generalizing k with
  | done => cases hmem
  | act op rest ih =>
    rw [linked, List.mem_cons] at hmem
    rcases hmem with rfl | hmem
    · exact .inl ⟨op, rfl⟩
    · exact ih hmem
  | loop body rest ihb ihr =>
    rw [linked, List.mem_append, List.mem_cons, List.mem_cons] at hmem
    rcases hmem with (rfl | hmem) | rfl | hmem
    · exact .inr (.inl rfl)
    · exact ihb hmem
    · exact .inr (.inr rfl)
    · exact ihr hmem

/-- The instructions of a program that was read are operations and brackets. -/
def Program.Regular (p : Program) : Prop :=
  ∀ i ∈ p.toList.map Instr.essence,
    (∃ op : Op, i = (op.cmd, op.count)) ∨ i.1 = .enter ∨ i.1 = .leave

theorem Program.regular_of_ofText {text : String} {p : Program} (h : Program.ofText text = .ok p) :
    p.Regular := by
  obtain ⟨b, -, hlinked⟩ := Program.exists_block_of_ofChars h
  intro i hi
  rw [hlinked] at hi
  exact Block.op_or_bracket_of_mem_linked hi

/-- An operation that leaves the tape is a move to a place off the tape. -/
theorem Op.exists_move_of_act {s : Setting} {op : Op} {t : Tape} (h : op.act s t = none) :
    ∃ d, s.holds (t.head + d) = false ∧
      ∀ (m : Machine) (pos : Nat), m.execute ⟨op.cmd, op.count, pos⟩ = m.move d := by
  cases op with
  | right n =>
    refine ⟨n, ?_, fun _ _ => rfl⟩
    simp only [Op.act] at h
    split at h
    · cases h
    · next hoff => exact Bool.eq_false_iff.mpr hoff
  | left n =>
    refine ⟨-n, ?_, fun _ _ => rfl⟩
    simp only [Op.act] at h
    split at h
    · cases h
    · next hoff => exact Bool.eq_false_iff.mpr hoff
  | inc n => cases h
  | dec n => cases h
  | put => cases h
  | get => cases h

namespace Machine

/-- The machine after an instruction, or the one that the instruction failed in. -/
def Result.machine : Result → Machine
  | .next m => m
  | .fault _ m => m

/-- The head is moved before anything is checked. -/
theorem head_move (m : Machine) (d : Int) : (m.move d).machine.head = m.head + d := by
  unfold move
  simp only
  split
  · rfl
  · split
    · rfl
    · split
      · rfl
      · unfold grow
        simp only
        split
        · rfl
        · split
          · rfl
          · split <;> rfl

/-! ## Two machines in step -/

/-- The two machines have the same program and are about to execute the same instruction on the same
tape, and the second has all cells of the first. -/
def Lockstep (σ σ' : Setup) (m m' : Machine) : Prop :=
  σ'.program = σ.program ∧ ∃ k t, m.Stands σ.setting σ k t ∧ m'.Stands σ.setting σ' k t

/-- The next instruction takes the machine off its tape. -/
def Leaves (m : Machine) : Prop :=
  m.ended = false ∧ ∃ f m1, m.step = .fault f m1 ∧ f.leavesTape = true

section Lockstep

variable {σ σ' : Setup} {m m' : Machine}

theorem Lockstep.tape_eq (h : Lockstep σ σ' m m') : m'.tape = m.tape := by
  obtain ⟨-, k, t, hm, hm'⟩ := h
  rw [hm.tape_eq, hm'.tape_eq]

/-- The head is on the tape of the first machine. -/
theorem Lockstep.holds (h : Lockstep σ σ' m m') : σ.setting.holds m'.head = true := by
  have hhead : m'.head = m.head := congrArg Tape.head h.tape_eq
  obtain ⟨-, k, t, hm, -⟩ := h
  have hsound := hm.ready.toSound
  refine (Setting.holds_iff _ _).mpr ⟨by rw [hhead]; exact hsound.head_nonneg, fun n hn => ?_⟩
  have hfixed : m.setup.fixedSize = some n := by
    rw [hm.setup_eq]
    exact hn
  rw [hhead, ← hsound.fixed n hfixed]
  exact hsound.head_lt

variable (hregular : σ.program.Regular)

include hregular

/-- **Machines in step stay in step until the first leaves its tape.** Then the head of the second goes
to a place that the first does not have. -/
theorem Lockstep.step (h : Lockstep σ σ' m m') :
    m.ended = true ∧ m'.ended = true ∨
    (∃ m1 m1', m.Goes m1 ∧ m'.Goes m1' ∧ Lockstep σ σ' m1 m1') ∨
    m.Leaves ∧ m'.ended = false ∧ σ.setting.holds m'.step.machine.head = false := by
  obtain ⟨hprogram, k, t, hm, hm'⟩ := h
  have hended : m.ended = decide (σ.program.size ≤ k) := by
    unfold ended
    rw [hm.setup_eq, hm.pc_eq]
    exact decide_eq_decide.mpr Int.ofNat_le
  have hended' : m'.ended = decide (σ.program.size ≤ k) := by
    unfold ended
    rw [hm'.setup_eq, hm'.pc_eq, hprogram]
    exact decide_eq_decide.mpr Int.ofNat_le
  by_cases hk : σ.program.size ≤ k
  · rw [decide_eq_true hk] at hended hended'
    exact .inl ⟨hended, hended'⟩
  have hlt : k < (σ.program.toList.map Instr.essence).length := by simpa using hk
  have hget : (σ.program.toList.map Instr.essence)[k]? =
      some (σ.program.toList.map Instr.essence)[k] := List.getElem?_eq_getElem hlt
  have hcases := hregular _ (List.getElem_mem hlt)
  generalize (σ.program.toList.map Instr.essence)[k] = i at hget hcases
  have hget' : (σ'.program.toList.map Instr.essence)[k]? = some i := by
    rw [hprogram]
    exact hget
  rcases hcases with ⟨op, rfl⟩ | hbracket
  · cases hact : op.act σ.setting t with
    | some t1 =>
      obtain ⟨m1, hgo, hm1⟩ := hm.step_op hget hact
      obtain ⟨m1', hgo', hm1'⟩ := hm'.step_op hget' hact
      exact .inr (.inl ⟨m1, m1', hgo, hgo', hprogram, k + 1, t1, hm1, hm1'⟩)
    | none =>
      obtain ⟨hrun, f, m1, hstep, hf, -⟩ := hm.step_off hget rfl hact
      obtain ⟨d, hoff, hmove⟩ := Op.exists_move_of_act hact
      obtain ⟨hrun', pos, hstep'⟩ := step_of_fetch hm'.pc_eq (by rw [hm'.setup_eq]; exact hget')
      refine .inr (.inr ⟨⟨hrun, f, m1, hstep, hf⟩, hrun', ?_⟩)
      -- whether or not the second can stand there, its head has been moved
      have hhead : m'.step.machine.head = (m'.move d).machine.head := by
        rw [hstep', hmove]
        cases m'.move d <;> rfl
      rw [hhead, head_move, show m'.head = t.head from congrArg Tape.head hm'.tape_eq]
      exact hoff
  · refine .inr (.inl ?_)
    obtain ⟨cmd, arg⟩ := i
    rcases hbracket with rfl | rfl
    · obtain ⟨m1, hgo, hm1⟩ := hm.step_test (.inl ⟨rfl, hget⟩)
      obtain ⟨m1', hgo', hm1'⟩ := hm'.step_test (.inl ⟨rfl, hget'⟩)
      exact ⟨m1, m1', hgo, hgo', hprogram, _, t, hm1, hm1'⟩
    · obtain ⟨m1, hgo, hm1⟩ := hm.step_test (.inr ⟨rfl, hget⟩)
      obtain ⟨m1', hgo', hm1'⟩ := hm'.step_test (.inr ⟨rfl, hget'⟩)
      exact ⟨m1, m1', hgo, hgo', hprogram, _, t, hm1, hm1'⟩

/-! ## Runs -/

omit hregular in
theorem Leaves.runFor_succ (h : m.Leaves) (n : Nat) :
    ∃ f r, m.runFor (n + 1) = (some f, r) ∧ f.leavesTape = true := by
  obtain ⟨hrun, f, m1, hstep, hf⟩ := h
  refine ⟨f, m1, ?_, hf⟩
  rw [Machine.runFor, hrun, hstep]
  rfl

omit hregular in
/-- A run of one step stops where the step leads. -/
theorem head_runFor_one (h : m.ended = false) : (m.runFor 1).2.head = m.step.machine.head := by
  rw [runFor, h]
  cases m.step with
  | fault f m1 => rfl
  | next m1 =>
    cases hend : m1.ended with
    | true =>
      simp only [runFor_of_ended hend]
      rfl
    | false =>
      simp only [runFor_zero_of_not_ended hend]
      rfl

/-- A run that ends normally on some tape ends alike on a longer one. -/
theorem Lockstep.ends {n : Nat} {r : Machine} (h : Lockstep σ σ' m m')
    (hrun : m.runFor n = (none, r)) : ∃ r', m'.runFor n = (none, r') ∧ r'.tape = r.tape := by
  induction n generalizing m m' with
  | zero =>
    cases hend : m.ended with
    | false =>
      rw [runFor_zero_of_not_ended hend] at hrun
      cases hrun
    | true =>
      rcases h.step hregular with ⟨-, hend'⟩ | ⟨m1, m1', hgo, -⟩ | ⟨hleaves, -⟩
      · rw [runFor_of_ended hend] at hrun
        cases hrun
        exact ⟨_, runFor_of_ended hend' 0, h.tape_eq⟩
      · rw [hgo.1] at hend
        cases hend
      · rw [hleaves.1] at hend
        cases hend
  | succ n ih =>
    rcases h.step hregular with ⟨hend, hend'⟩ | ⟨m1, m1', hgo, hgo', h1⟩ | ⟨hleaves, -⟩
    · rw [runFor_of_ended hend] at hrun
      cases hrun
      exact ⟨_, runFor_of_ended hend' (n + 1), h.tape_eq⟩
    · rw [hgo.runFor_succ] at hrun
      rw [hgo'.runFor_succ]
      exact ih h1 hrun
    · obtain ⟨f, r', hfault, -⟩ := hleaves.runFor_succ n
      rw [hfault] at hrun
      cases hrun

/-- A run that leaves the shorter tape goes off it on the longer one. -/
theorem Lockstep.goes_off {n : Nat} {f : RunFault} {r : Machine} (h : Lockstep σ σ' m m')
    (hrun : m.runFor n = (some f, r)) (hf : f.leavesTape = true) :
    ∃ k, σ.setting.holds (m'.runFor k).2.head = false := by
  induction n generalizing m m' with
  | zero =>
    cases hend : m.ended with
    | true =>
      rw [runFor_of_ended hend] at hrun
      cases hrun
    | false =>
      rw [runFor_zero_of_not_ended hend] at hrun
      cases hrun
      cases hf
  | succ n ih =>
    rcases h.step hregular with ⟨hend, -⟩ | ⟨m1, m1', hgo, hgo', h1⟩ | ⟨-, hend', hoff⟩
    · rw [runFor_of_ended hend] at hrun
      cases hrun
    · rw [hgo.runFor_succ] at hrun
      obtain ⟨k, hk⟩ := ih h1 hrun
      exact ⟨k + 1, by rw [hgo'.runFor_succ]; exact hk⟩
    · exact ⟨1, by rw [head_runFor_one hend']; exact hoff⟩

/-- A run that goes off the shorter tape leaves it there. -/
theorem Lockstep.leaves {k : Nat} (h : Lockstep σ σ' m m')
    (hoff : σ.setting.holds (m'.runFor k).2.head = false) :
    ∃ n f r, m.runFor n = (some f, r) ∧ f.leavesTape = true := by
  have hstays (r : Option RunFault × Machine) (hr : m'.runFor k = r) (hhead : r.2.head = m'.head) :
      False := by
    rw [hr, hhead, h.holds] at hoff
    cases hoff
  induction k generalizing m m' with
  | zero =>
    cases hend : m'.ended with
    | true => exact (hstays _ (runFor_of_ended hend 0) rfl).elim
    | false => exact (hstays _ (runFor_zero_of_not_ended hend) rfl).elim
  | succ k ih =>
    rcases h.step hregular with ⟨-, hend'⟩ | ⟨m1, m1', hgo, hgo', h1⟩ | ⟨hleaves, -⟩
    · exact (hstays _ (runFor_of_ended hend' (k + 1)) rfl).elim
    · rw [hgo'.runFor_succ] at hoff
      obtain ⟨n, f, r, hrun, hf⟩ := ih h1 hoff fun r hr hhead => by
        rw [hr, hhead, h1.holds] at hoff
        cases hoff
      exact ⟨n + 1, f, r, by rw [hgo.runFor_succ]; exact hrun, hf⟩
    · exact ⟨1, hleaves.runFor_succ 0⟩

/-- A machine that never leaves the shorter tape does not lack memory on the longer one. -/
theorem Lockstep.ample (h : Lockstep σ σ' m m')
    (hstays : ∀ n f r, m.runFor n = (some f, r) → f.leavesTape = false) : m'.Ample := by
  intro n
  induction n generalizing m m' with
  | zero =>
    intro f r hrun
    cases hend : m'.ended with
    | true => rw [runFor_of_ended hend] at hrun; cases hrun
    | false => rw [runFor_zero_of_not_ended hend] at hrun; cases hrun; rfl
  | succ n ih =>
    intro f r hrun
    rcases h.step hregular with ⟨-, hend'⟩ | ⟨m1, m1', hgo, hgo', h1⟩ | ⟨hleaves, -⟩
    · rw [runFor_of_ended hend'] at hrun
      cases hrun
    · rw [hgo'.runFor_succ] at hrun
      refine ih h1 (fun k g r' hk => hstays (k + 1) g r' ?_) f r hrun
      rw [hgo.runFor_succ]
      exact hk
    · obtain ⟨g, r', hfault, hg⟩ := hleaves.runFor_succ 0
      rw [hstays 1 g r' hfault] at hg
      cases hg

end Lockstep

/-! ## Growing tapes -/

section Growing

variable {m : Machine}

/-- The head stays above zero, and below zero nothing but that is reported. -/
def Result.Checked : Result → Prop
  | .next m => 0 ≤ m.head
  | .fault f m => f.leavesTape = true ∨ m.head < 0 → f = .belowZero ∧ m.head < 0

theorem checked_updateCell (h0 : 0 ≤ m.head) (g : Nat → Nat) : (m.updateCell g).Checked := by
  obtain ⟨setup, memory, size, head, pc, inputPos, output, timed, finished⟩ := m
  have hfault {f : RunFault} (hf : f.leavesTape = false) {memory : Option (Array Nat)} :
      (Result.fault f ⟨setup, memory, size, head, pc, inputPos, output, timed, finished⟩).Checked := by
    rintro (hleaves | hbelow)
    · rw [hf] at hleaves
      cases hleaves
    · exact absurd h0 (Int.not_le.mpr hbelow)
  unfold updateCell
  cases memory with
  | none => exact hfault rfl
  | some cells =>
    simp only
    split
    · exact hfault rfl
    · exact h0

theorem checked_cell (h0 : 0 ≤ m.head) {i : Int} {f : RunFault} (h : m.cell i = .error f) :
    (Result.fault f m).Checked := by
  rintro (hleaves | hbelow)
  · unfold cell at h
    split at h
    · cases h
      cases hleaves
    · split at h
      · cases h
        cases hleaves
      · cases h
  · exact absurd h0 (Int.not_le.mpr hbelow)

theorem checked_move (hgrows : m.setup.fixedSize = none) (d : Int) : (m.move d).Checked := by
  unfold move
  simp only [hgrows, Option.isSome_none, Bool.false_eq_true, if_false]
  split
  · next hbelow => exact fun _ => ⟨rfl, hbelow⟩
  · next h0 =>
    have hfault {f : RunFault} (hf : f.leavesTape = false) :
        (Result.fault f { m with head := m.head + d }).Checked := by
      rintro (hleaves | hbelow)
      · rw [hf] at hleaves
        cases hleaves
      · exact absurd hbelow h0
    split
    · exact Int.not_lt.mp h0
    · unfold grow
      simp only
      split
      · exact hfault rfl
      · split
        · exact hfault rfl
        · split
          · exact hfault rfl
          · exact Int.not_lt.mp h0

theorem checked_execute (hgrows : m.setup.fixedSize = none) (h0 : 0 ≤ m.head) (i : Instr) :
    (m.execute i).Checked := by
  unfold execute
  split
  · exact checked_move hgrows _
  · exact checked_move hgrows _
  · exact checked_updateCell h0 _
  · exact checked_updateCell h0 _
  · split
    · next hcell => exact checked_cell h0 hcell
    · exact h0
  · have hread : 0 ≤ m.readInput.2.head := by
      unfold readInput
      split <;> exact h0
    exact checked_updateCell hread _
  · split
    · next hcell => exact checked_cell h0 hcell
    · split <;> exact h0
  · split
    · next hcell => exact checked_cell h0 hcell
    · split <;> exact h0

theorem checked_step (hgrows : m.setup.fixedSize = none) (h0 : 0 ≤ m.head) : m.step.Checked := by
  have hnone : (Result.fault .noSuchCell m).Checked := by
    rintro (⟨⟨⟩⟩ | hbelow)
    exact absurd h0 (Int.not_le.mpr hbelow)
  unfold step
  split
  · exact hnone
  · split
    · exact hnone
    · next i _ =>
      have hexecute := checked_execute hgrows h0 i
      cases hexec : m.execute i <;> (rw [hexec] at hexecute; exact hexecute)

/-- **A growing tape is left only below zero**, and the head is below zero only then. -/
theorem runFor_growing (hgrows : m.setup.fixedSize = none) (h0 : 0 ≤ m.head) (n : Nat) :
    (∀ f, (m.runFor n).1 = some f → f.leavesTape = true → f = .belowZero) ∧
      ((m.runFor n).1 = some .belowZero ↔ (m.runFor n).2.head < 0) := by
  have hended {m : Machine} (h0 : 0 ≤ m.head) {k : Nat} (hend : m.ended = true) :
      (∀ f, (m.runFor k).1 = some f → f.leavesTape = true → f = .belowZero) ∧
        ((m.runFor k).1 = some .belowZero ↔ (m.runFor k).2.head < 0) := by
    rw [runFor_of_ended hend]
    exact ⟨by simp, by simpa using h0⟩
  induction n generalizing m with
  | zero =>
    cases hend : m.ended with
    | true => exact hended h0 hend
    | false =>
      rw [runFor_zero_of_not_ended hend]
      refine ⟨?_, by simpa using h0⟩
      rintro _ ⟨⟩ ⟨⟩
  | succ n ih =>
    cases hend : m.ended with
    | true => exact hended h0 hend
    | false =>
      have hchecked := checked_step hgrows h0
      cases hstep : m.step with
      | next m1 =>
        have hgo : m.Goes m1 := ⟨hend, hstep⟩
        rw [hgo.runFor_succ]
        rw [hstep] at hchecked
        exact ih (by rw [hgo.setup_eq]; exact hgrows) hchecked
      | fault f m1 =>
        rw [hstep] at hchecked
        have hrun : m.runFor (n + 1) = (some f, m1) := by
          rw [runFor, hend, hstep]
          rfl
        rw [hrun]
        refine ⟨?_, fun hf => ?_, fun hbelow => congrArg some (hchecked (.inr hbelow)).1⟩
        · rintro _ ⟨⟩ hleaves
          exact (hchecked (.inl hleaves)).1
        · obtain rfl : f = .belowZero := Option.some.inj hf
          exact (hchecked (.inl rfl)).2

end Growing

/-! ## Machines with the same program -/

/-- **The length of the tape does not change what a program does.** Let a machine be built on a tape of
fixed length. On any longer tape, and on a growing one that can grow over as many cells or never runs out
of memory, the program can be built as well, and where it ends normally on the given tape it does so
there, with the same output, head, input read and cells. On a growing tape a run leaves the tape only
below zero; and the run on the given tape leaves it exactly when the run on the growing tape does so or
takes the head to the length of the given tape or beyond. If it never leaves the given tape, the growing
one never runs out of memory. -/
theorem run_independent_of_memory {text : String} {n : Int} {bits : Int} {input limit : String}
    {capacity : Nat} {m : Machine} (hbuild : build text (some n) bits input limit capacity = .ok m) :
    (∀ size : Option Int, (∀ k ∈ size, n ≤ k) → Setup.Provides capacity size →
      ∃ m', build text size bits input limit capacity = .ok m' ∧
        (size.isSome = true ∨ Setup.Grows capacity n.toNat ∨ m'.Ample →
          ∀ steps r, m.run steps = (none, r) → ∃ r', m'.run steps = (none, r') ∧
            r'.output = r.output ∧ r'.head = r.head ∧ r'.inputPos = r.inputPos ∧
              ∀ i, r'.cellAt i = r.cellAt i)) ∧
    (Setup.Provides capacity none → ∃ m', build text none bits input limit capacity = .ok m' ∧
      (∀ steps f r, m'.run steps = (some f, r) → f.leavesTape = true → f = .belowZero) ∧
      (Setup.Grows capacity n.toNat ∨ m'.Ample →
        ((∃ steps f r, m.run steps = (some f, r) ∧ f.leavesTape = true) ↔
          (∃ steps r, m'.run steps = (some .belowZero, r)) ∨
            ∃ steps, n ≤ (m'.run steps).2.head) ∧
        ((∀ steps f r, m.run steps = (some f, r) → f.leavesTape = false) → m'.Ample))) := by
  obtain ⟨w, p, hpos, hw, hp, hfits, rfl⟩ := build_eq_ok_iff.mp hbuild
  have hregular : p.Regular := Program.regular_of_ofText hp
  have hn : 0 < n := hpos n rfl
  let σ (size : Option Int) : Setup :=
    ⟨p, w, size.map Int.toNat, input.toList.toArray, limit, capacity⟩
  have hstart {size : Option Int} (hle : ∀ k ∈ size, n ≤ k) : 0 < (σ size).startSize :=
    startSize_pos fun k hk => by
      have := hle k hk
      omega
  have hbuilds {size : Option Int} (hle : ∀ k ∈ size, n ≤ k) (hfits : Setup.Provides capacity size) :
      build text size bits input limit capacity = .ok (start (σ size)) := by
    refine build_eq_ok_iff.mpr ⟨w, p, fun k hk => ?_, hw, hp, hfits, rfl⟩
    have := hle k hk
    omega
  have hlockstep {size : Option Int} (hle : ∀ k ∈ size, n ≤ k)
      (hmemory : size.isSome = true ∨ Setup.Grows capacity n.toNat ∨ (start (σ size)).Ample) :
      Lockstep (σ (some n)) (σ size) (start (σ (some n))) (start (σ size)) := by
    have hself : ∀ k ∈ some n, n ≤ k := by
      rintro k ⟨⟩
      exact Int.le_refl n
    refine ⟨rfl, 0, Tape.blank, stands_setting (hstart hself) (ample_of_fixed rfl),
      stands_start (hstart hle) rfl rfl ?_⟩
    unfold Room
    cases size with
    | none =>
      rcases hmemory.resolve_left (by simp) with hgrows | hample
      · exact .inl ⟨_, rfl, hgrows⟩
      · exact .inr hample
    | some k =>
      have := hle k rfl
      exact ⟨_, rfl, by omega⟩
  have hnone : ∀ k ∈ (none : Option Int), n ≤ k := by simp
  have hgrowing := runFor_growing (m := start (σ none)) rfl (Int.le_refl 0)
  refine ⟨fun size hle hfits => ⟨_, hbuilds hle hfits, fun hmemory steps r hrun => ?_⟩,
    fun hfits => ⟨_, hbuilds hnone hfits, fun steps f r hrun => ?_, fun hmemory => ⟨⟨?_, ?_⟩, ?_⟩⟩⟩
  · obtain ⟨r', hrun', htape⟩ := (hlockstep hle hmemory).ends hregular hrun
    exact ⟨r', hrun', congrArg (fun t => t.output) htape, congrArg Tape.head htape,
      congrArg (fun t => t.inputPos) htape, fun i => congrArg (fun t => t.cells i) htape⟩
  · exact (hgrowing steps).1 f (congrArg Prod.fst hrun)
  · rintro ⟨steps, f, r, hrun, hf⟩
    obtain ⟨k, hoff⟩ := (hlockstep hnone (.inr hmemory)).goes_off hregular hrun hf
    by_cases hbelow : ((start (σ none)).runFor k).2.head < 0
    · exact .inl ⟨k, _, Prod.ext ((hgrowing k).2.mpr hbelow) rfl⟩
    · refine .inr ⟨k, ?_⟩
      by_contra hlt
      rw [Bool.eq_false_iff] at hoff
      refine hoff ((Setting.holds_iff _ _).mpr ⟨Int.not_lt.mp hbelow, ?_⟩)
      rintro _ ⟨⟩
      have hlt : ((start (σ none)).runFor k).2.head < n := Int.not_le.mp hlt
      omega
  · intro hgoes
    obtain ⟨k, hoff⟩ : ∃ k, (σ (some n)).setting.holds ((start (σ none)).runFor k).2.head = false := by
      simp only [Bool.eq_false_iff, Ne, Setting.holds_iff]
      rcases hgoes with ⟨k, r, hrun⟩ | ⟨k, hbeyond⟩
      · have hbelow := (hgrowing k).2.mp (congrArg Prod.fst hrun)
        exact ⟨k, fun h => Int.not_le.mpr hbelow h.1⟩
      · refine ⟨k, fun h => ?_⟩
        have hlt := h.2 n.toNat rfl
        have hbeyond : n ≤ ((start (σ none)).runFor k).2.head := hbeyond
        omega
    exact (hlockstep hnone (.inr hmemory)).leaves hregular hoff
  · exact (hlockstep hnone (.inr hmemory)).ample hregular

/-- A run that ends normally does not leave the tape, whatever time it is given. -/
theorem stays_of_ends {m : Machine} {n k : Nat} {f : RunFault} (hends : (m.run n).1 = none)
    (hfault : (m.run k).1 = some f) : f.leavesTape = false := by
  by_contra hleaves
  unfold run at hends hfault
  by_cases hfinished : m.finished = true
  · rw [if_pos hfinished] at hfault
    cases hfault
  rw [if_neg hfinished] at hends hfault
  have hobserved : (host m.setup.setting m.setup).Observed _ fun n m => ending (m.runFor n) :=
    observed_runFor _ rfl
  have hhalts := ending_eq_halted_iff.mpr ⟨hends, rfl⟩
  have hoff := ending_eq_offTape_iff.mpr ⟨f, hfault, by simpa using hleaves, rfl⟩
  have hlonger := hobserved.stable_add (n := n) (x := m) (by simp only [hhalts]; simp) k
  have hlonger' := hobserved.stable_add (n := k) (x := m) (by simp only [hoff]; simp) n
  rw [Nat.add_comm] at hlonger'
  cases hhalts.symm.trans (hlonger.symm.trans (hlonger'.trans hoff))

/-- A move over the cells a growing tape starts with; the cell behind them is counted up and written
out. -/
def farMove : List Char := List.replicate 1024 '>' ++ ['+', '.']

theorem ofText_farMove : Program.ofText (String.ofList farMove) =
    .ok #[⟨.right, 1024, 0⟩, ⟨.inc, 1, 1024⟩, ⟨.put, 1, 1025⟩] := by
  have hread : (Program.ofChars farMove).toOption =
      some #[⟨.right, 1024, 0⟩, ⟨.inc, 1, 1024⟩, ⟨.put, 1, 1025⟩] := by decide +kernel
  rw [Program.ofText, String.toList_ofList]
  cases h : Program.ofChars farMove with
  | error fault =>
    rw [h] at hread
    cases hread
  | ok p =>
    rw [h] at hread
    exact congrArg Except.ok (Option.some.inj hread)

/-- A growing tape grows, does not run out of memory, and shows what a tape of 1025 cells does; one of
1024 cells is left, since the head comes to its end. -/
theorem run_independent_of_memory_farMove : ∃ m₁ m₂ m₃,
    build (String.ofList farMove) (some 1025) 8 "" "1" = .ok m₁ ∧
    build (String.ofList farMove) (some 1024) 8 "" "1" = .ok m₂ ∧
    build (String.ofList farMove) none 8 "" "1" = .ok m₃ ∧ m₃.Ample ∧
    (∃ r, m₃.run 3 = (none, r) ∧ r.output = "\x01" ∧ r.head = 1024) ∧
    ∃ steps f r, m₂.run steps = (some f, r) ∧ f.leavesTape = true := by
  let σ (size : Option Int) : Setup := ⟨#[⟨.right, 1024, 0⟩, ⟨.inc, 1, 1024⟩, ⟨.put, 1, 1025⟩], .w8,
    size.map Int.toNat, "".toList.toArray, "1", Setup.usualCapacity⟩
  have hbuild (size : Option Int) (hpos : ∀ k ∈ size, 0 < k)
      (hfits : Setup.Provides Setup.usualCapacity size) :
      build (String.ofList farMove) size 8 "" "1" = .ok (start (σ size)) :=
    build_eq_ok_iff.mpr ⟨.w8, _, hpos, rfl, ofText_farMove, hfits, rfl⟩
  have hshort := hbuild (some 1024) (by rintro _ ⟨⟩; decide) (by decide)
  have hlong := hbuild (some 1025) (by rintro _ ⟨⟩; decide) (by decide)
  have hends : ((start (σ (some 1025))).run 3).1 = none := by decide +kernel
  have hpair (x : Option RunFault × Machine) (hx : x.1 = none) : x = (none, x.2) := Prod.ext hx rfl
  obtain ⟨hsame, hgrowing⟩ := run_independent_of_memory hlong
  obtain ⟨m, hm, hall⟩ := hsame none (by simp) (by decide)
  obtain ⟨r, hrun, houtput, hhead, -⟩ := hall (.inr (.inl (by decide))) 3 _ (hpair _ hends)
  obtain ⟨m', hm', -, hample⟩ := hgrowing (by decide)
  obtain ⟨m'', hm'', -, hleaves⟩ := (run_independent_of_memory hshort).2 (by decide)
  cases hm.symm.trans hm'
  cases hm.symm.trans hm''
  cases hm.symm.trans (hbuild none (by simp) (by decide))
  have hstays (steps : Nat) (f : RunFault) (r' : Machine)
      (hfault : (start (σ (some 1025))).run steps = (some f, r')) : f.leavesTape = false :=
    stays_of_ends hends (congrArg Prod.fst hfault)
  refine ⟨_, _, _, hlong, hshort, hm, (hample (.inl (by decide))).2 hstays,
    ⟨r, hrun, houtput.trans (by decide +kernel), hhead.trans (by decide +kernel)⟩, ?_⟩
  exact (hleaves (.inl (by decide))).1.mpr (.inr ⟨1, by decide +kernel⟩)

end Machine

end TapeScript
