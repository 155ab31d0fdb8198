import Mathlib.Logic.Relation
import TapeScript.Proofs.Interpreters

set_option autoImplicit false

/-! # What holds of a machine at any time

A machine moves its head before it looks where the head went, and a failed run leaves the head off
the tape. The machine is safe all the same: the head can stand off the tape only in front of the very
move that took it there (`Machine.Parked`), so the next run makes that move again, which takes the
head still further out. Every other instruction finds the head on the tape. This is kept by each
instruction (`Machine.Orderly.step`), by each run, and over any history of runs and resets
(`Machine.orderly_throughout`).
-/

namespace TapeScript

theorem RunFault.isShortage_of_leavesTape {f : RunFault} (h : f.leavesTape = true) :
    f.isShortage = false := by
  cases f with
  | cannotGrow => cases h
  | cannotGrowFurther => cases h
  | _ => rfl

/-! ## Jumps -/

/-- Brackets lead to instructions of the program. -/
def Program.JumpsInside (p : Program) : Prop :=
  ∀ i ∈ p, i.cmd = .enter ∨ i.cmd = .leave → i.arg < p.size

theorem Block.arg_lt_of_mem_linked {b : Block} {k : Nat} {i : Cmd × Nat} (hmem : i ∈ b.linked k)
    (hcmd : i.1 = .enter ∨ i.1 = .leave) : i.2 < k + b.size := by
  induction b generalizing k with
  | done => cases hmem
  | act op rest ih =>
    rw [linked, List.mem_cons] at hmem
    rcases hmem with rfl | hmem
    · rcases hcmd with hcmd | hcmd
      · exact absurd hcmd op.cmd_ne_enter
      · exact absurd hcmd op.cmd_ne_leave
    · have := ih hmem
      show i.2 < k + (rest.size + 1)
      omega
  | loop body rest ihb ihr =>
    show i.2 < k + (body.size + rest.size + 2)
    rw [linked, List.mem_append, List.mem_cons, List.mem_cons] at hmem
    rcases hmem with (rfl | hmem) | rfl | hmem
    · show k + 1 + body.size < _
      omega
    · have := ihb hmem
      omega
    · show k < _
      omega
    · have := ihr hmem
      omega

theorem Program.jumpsInside_of_ofText {text : String} {p : Program} (h : Program.ofText text = .ok p) :
    p.JumpsInside := by
  obtain ⟨b, -, hlinked⟩ := Program.exists_block_of_ofChars h
  intro i hi hcmd
  have hmem : i.essence ∈ b.linked 0 := by
    rw [← hlinked]
    exact List.mem_map_of_mem (Array.mem_toList_iff.mpr hi)
  have hlt := Block.arg_lt_of_mem_linked hmem hcmd
  have hsize : p.size = b.size := by
    rw [← Block.length_linked b 0, ← hlinked, List.length_map, Array.length_toList]
  show i.essence.2 < p.size
  omega

namespace Machine

/-! ## The invariant -/

/-- The instruction a machine is about to execute. -/
def current? (m : Machine) : Option Instr := m.setup.program[m.pc.toNat]?

/-- The head stands off the tape, in front of a move that leads further out. -/
def Parked (m : Machine) : Prop :=
  ∃ i, m.current? = some i ∧ (i.cmd = .left ∧ m.head < 0 ∨ i.cmd = .right ∧ m.size ≤ m.head)

/-- A machine in order, whether its last run failed or not. -/
structure Orderly (m : Machine) : Prop where
  memory : ∃ cells, m.memory = some cells ∧ m.size = cells.size ∧
    ∀ v ∈ cells, v < m.setup.width.modulus
  pc_nonneg : 0 ≤ m.pc
  pc_le : m.pc ≤ m.setup.program.size
  input : m.inputPos ≤ m.setup.input.size
  head : 0 ≤ m.head ∧ m.head < m.size ∨ m.Parked

variable {m m' : Machine}
variable {i : Instr} {cells : Array Nat}

/-- An instruction that is no move finds the head on the tape. -/
theorem Orderly.head_inside (h : m.Orderly) (hi : m.current? = some i) (hright : i.cmd ≠ .right)
    (hleft : i.cmd ≠ .left) : 0 ≤ m.head ∧ m.head < m.size := by
  rcases h.head with hinside | ⟨j, hj, hoff⟩
  · exact hinside
  · obtain rfl : i = j := Option.some.inj (hi.symm.trans hj)
    rcases hoff with ⟨hcmd, -⟩ | ⟨hcmd, -⟩
    · exact absurd hcmd hleft
    · exact absurd hcmd hright

/-- In front of a move to the right the head is not below the tape, -/
theorem Orderly.nonneg_of_right (h : m.Orderly) (hi : m.current? = some i) (hright : i.cmd = .right) :
    0 ≤ m.head := by
  rcases h.head with ⟨h0, -⟩ | ⟨j, hj, hoff⟩
  · exact h0
  · obtain rfl : i = j := Option.some.inj (hi.symm.trans hj)
    obtain ⟨cells, -, hsize, -⟩ := h.memory
    rcases hoff with ⟨hleft, -⟩ | ⟨-, hbeyond⟩
    · rw [hright] at hleft
      cases hleft
    · omega

/-- and in front of a move to the left it is not beyond the tape. -/
theorem Orderly.lt_of_left (h : m.Orderly) (hi : m.current? = some i) (hleft : i.cmd = .left) :
    m.head < m.size := by
  rcases h.head with ⟨-, hlt⟩ | ⟨j, hj, hoff⟩
  · exact hlt
  · obtain rfl : i = j := Option.some.inj (hi.symm.trans hj)
    obtain ⟨cells, -, hsize, -⟩ := h.memory
    rcases hoff with ⟨-, hbelow⟩ | ⟨hright, -⟩
    · omega
    · rw [hleft] at hright
      cases hright

theorem orderly_start {σ : Setup} (hpos : 0 < σ.startSize) : (start σ).Orderly := by
  refine ⟨⟨_, rfl, ?_, fun v hv => ?_⟩, Int.le_refl 0, Int.natCast_nonneg _, Nat.zero_le _, .inl ?_⟩
  · rw [Array.size_replicate]
    rfl
  · obtain ⟨-, rfl⟩ := Array.mem_replicate.mp hv
    exact σ.width.modulus_pos
  · exact ⟨Int.le_refl 0, Int.natCast_pos.mpr hpos⟩

/-! ## Single instructions -/

/-- The head is off the tape for good: the move in front of it can only lead further out, and the tape
does not grow. -/
def OffTape (m : Machine) : Prop :=
  ∃ i, m.current? = some i ∧ (i.cmd = .left ∧ m.head < 0 ∨
    i.cmd = .right ∧ m.size ≤ m.head ∧ m.setup.fixedSize.isSome = true)

/-- What an instruction may do to a machine in order. -/
def Result.Preserves (m : Machine) : Result → Prop
  | .next m' => m'.Orderly ∧ m'.setup = m.setup ∧ m.size ≤ m'.size ∧
      (∃ tail, m'.output = m.output ++ tail) ∧ m'.finished = m.finished
  | .fault f m' => m' = { m with head := m'.head } ∧ m'.Orderly ∧
      (f.isShortage = true ∨ f.leavesTape = true ∧ m'.OffTape)

theorem updateCell_eq (hmem : m.memory = some cells) (h0 : 0 ≤ m.head) (hlt : m.head < cells.size)
    (f : Nat → Nat) :
    m.updateCell f = .next { m with memory := some (cells.modify m.head.toNat f) } := by
  obtain ⟨setup, memory, size, head, pc, inputPos, output, timed, finished⟩ := m
  simp only at hmem
  subst hmem
  unfold updateCell
  simp only
  rw [place?_eq h0 hlt]

theorem cell_eq (hmem : m.memory = some cells) {i : Int} (h0 : 0 ≤ i) (hlt : i < cells.size) :
    m.cell i = .ok (cells.getD i.toNat 0) := by
  unfold cell
  rw [hmem]
  simp only
  rw [place?_eq h0 hlt]

/-- All that a move can do: the head is moved, and then the tape may grow or the move may fail. -/
theorem move_cases (hmem : m.memory = some cells) (hsize : m.size = cells.size) (d : Int) :
    m.move d = .next { m with head := m.head + d } ∧ 0 ≤ m.head + d ∧ m.head + d < m.size ∨
    (∃ fresh : Nat, ∃ newSize : Int, m.move d = .next { m with
        head := m.head + d
        memory := some (cells ++ Array.replicate fresh 0)
        size := newSize } ∧
      newSize = (cells.size + fresh : Nat) ∧ 0 ≤ m.head + d ∧ m.head + d < newSize) ∨
    ∃ f, m.move d = .fault f { m with head := m.head + d } ∧
      (f = .belowZero ∧ m.head + d < 0 ∨
        m.size ≤ m.head + d ∧ (f.isShortage = true ∨
          f = .beyondTape (m.head + d) m.size ∧ m.setup.fixedSize.isSome = true)) := by
  unfold move
  simp only
  by_cases h0 : m.head + d < 0
  · rw [if_pos h0]
    exact .inr (.inr ⟨_, rfl, .inl ⟨rfl, h0⟩⟩)
  by_cases hlt : m.head + d < m.size
  · rw [if_neg h0, if_pos hlt]
    exact .inl ⟨rfl, by omega, hlt⟩
  rw [if_neg h0, if_neg hlt]
  by_cases hfix : m.setup.fixedSize.isSome = true
  · rw [if_pos hfix]
    exact .inr (.inr ⟨_, rfl, .inr ⟨by omega, .inr ⟨rfl, hfix⟩⟩⟩)
  rw [if_neg hfix]
  unfold grow
  simp only [hmem]
  by_cases haddr : (Setup.addressBound : Int) ≤ grownSize (m.head + d) m.size
  · rw [if_pos haddr]
    exact .inr (.inr ⟨_, rfl, .inr ⟨by omega, .inl rfl⟩⟩)
  by_cases htape : (m.setup.capacity : Int) ≤ grownSize (m.head + d) m.size
  · rw [if_neg haddr, if_pos htape]
    exact .inr (.inr ⟨_, rfl, .inr ⟨by omega, .inl rfl⟩⟩)
  rw [if_neg haddr, if_neg htape]
  have hgrown : m.head + d < grownSize (m.head + d) m.size := by
    unfold grownSize
    omega
  refine .inr (.inl ⟨_, _, rfl, ?_, by omega, hgrown⟩)
  unfold replaced
  rw [if_neg (by omega)]
  omega

/-- A machine that goes on with the next instruction, its head on the tape. -/
theorem Orderly.advance (h : m.Orderly) (hpc : m.pc < m.setup.program.size) (hsetup : m'.setup = m.setup)
    (hmemory : ∃ cells, m'.memory = some cells ∧ m'.size = cells.size ∧
      ∀ v ∈ cells, v < m.setup.width.modulus)
    (hinput : m'.inputPos ≤ m.setup.input.size) (hpc' : m'.pc = m.pc ∨
      0 ≤ m'.pc ∧ m'.pc < m.setup.program.size) (hhead : 0 ≤ m'.head ∧ m'.head < m'.size) :
    { m' with pc := m'.pc + 1 }.Orderly := by
  have hnonneg := h.pc_nonneg
  refine ⟨?_, ?_, ?_, ?_, .inl hhead⟩
  · rw [hsetup]
    exact hmemory
  · show 0 ≤ m'.pc + 1
    omega
  · show m'.pc + 1 ≤ m'.setup.program.size
    rw [hsetup]
    omega
  · rw [hsetup]
    exact hinput

theorem Orderly.move (h : m.Orderly) (hpc : m.pc < m.setup.program.size) (hi : m.current? = some i)
    {d : Int} (hd : i.cmd = .right ∧ 0 ≤ d ∨ i.cmd = .left ∧ d ≤ 0) :
    (match m.move d with
      | .next m' => Result.next { m' with pc := m'.pc + 1 }
      | .fault f m' => .fault f m').Preserves m := by
  obtain ⟨cells, hmem, hsize, hcells⟩ := h.memory
  rcases move_cases hmem hsize d with ⟨hmove, hhead⟩ | ⟨fresh, newSize, hmove, hnew, hhead⟩ |
    ⟨f, hmove, hfault⟩
  · rw [hmove]
    exact ⟨h.advance hpc rfl h.memory h.input (.inl rfl) hhead, rfl, Int.le_refl _, ⟨"", by simp⟩, rfl⟩
  · rw [hmove]
    refine ⟨h.advance hpc rfl ⟨_, rfl, ?_, fun v hv => ?_⟩ h.input (.inl rfl) hhead, rfl, ?_,
      ⟨"", by simp⟩, rfl⟩
    · rw [Array.size_append, Array.size_replicate]
      exact hnew
    · rcases Array.mem_append.mp hv with hv | hv
      · exact hcells v hv
      · obtain ⟨-, rfl⟩ := Array.mem_replicate.mp hv
        exact m.setup.width.modulus_pos
    · show m.size ≤ newSize
      omega
  · rw [hmove]
    have horderly (hparked : { m with head := m.head + d }.Parked) :
        { m with head := m.head + d }.Orderly :=
      ⟨h.memory, h.pc_nonneg, h.pc_le, h.input, .inr hparked⟩
    -- a head that was off the tape already stands in front of this very move, so it drifts on
    rcases hd with ⟨hcmd, hd⟩ | ⟨hcmd, hd⟩
    · have h0 := h.nonneg_of_right hi hcmd
      obtain ⟨hbeyond, hfault⟩ : m.size ≤ m.head + d ∧ (f.isShortage = true ∨
          f = .beyondTape (m.head + d) m.size ∧ m.setup.fixedSize.isSome = true) := by
        rcases hfault with ⟨-, hbelow⟩ | hfault
        · omega
        · exact hfault
      refine ⟨rfl, horderly ⟨i, hi, .inr ⟨hcmd, hbeyond⟩⟩, ?_⟩
      rcases hfault with hshort | ⟨rfl, hfix⟩
      · exact .inl hshort
      · exact .inr ⟨rfl, i, hi, .inr ⟨hcmd, hbeyond, hfix⟩⟩
    · have hlt := h.lt_of_left hi hcmd
      obtain ⟨rfl, hbelow⟩ : f = .belowZero ∧ m.head + d < 0 := by
        rcases hfault with hfault | ⟨hbeyond, -⟩
        · exact hfault
        · omega
      exact ⟨rfl, horderly ⟨i, hi, .inl ⟨hcmd, hbelow⟩⟩, .inr ⟨rfl, i, hi, .inl ⟨hcmd, hbelow⟩⟩⟩

/-- Rewriting the cell under the head. -/
theorem Orderly.rewrite (h : m.Orderly) (hpc : m.pc < m.setup.program.size)
    (hhead : 0 ≤ m.head ∧ m.head < m.size) {pos : Nat} (hpos : pos ≤ m.setup.input.size)
    {f : Nat → Nat} (hf : ∀ v, f v < m.setup.width.modulus) :
    (match { m with inputPos := pos }.updateCell f with
      | .next m' => Result.next { m' with pc := m'.pc + 1 }
      | .fault g m' => .fault g m').Preserves m := by
  obtain ⟨cells, hmem, hsize, hcells⟩ := h.memory
  have hlt : m.head < cells.size := by omega
  rw [updateCell_eq (m := { m with inputPos := pos }) hmem hhead.1 hlt]
  refine ⟨h.advance hpc rfl ⟨_, rfl, ?_, fun v hv => ?_⟩ hpos (.inl rfl) hhead, rfl, Int.le_refl _,
    ⟨"", by simp⟩, rfl⟩
  · rw [Array.size_modify]
    exact hsize
  · obtain ⟨k, hk, rfl⟩ := Array.mem_iff_getElem.mp hv
    rw [Array.getElem_modify]
    split
    · exact hf _
    · exact hcells _ (Array.getElem_mem _)

/-- **Every instruction keeps a machine in order.** -/
theorem Orderly.step (h : m.Orderly) (hjumps : m.setup.program.JumpsInside)
    (hrun : m.ended = false) : m.step.Preserves m := by
  have hpc : m.pc < m.setup.program.size := by
    unfold ended at hrun
    have := of_decide_eq_false hrun
    omega
  have hpc0 := h.pc_nonneg
  have hk : m.pc.toNat < m.setup.program.size := by omega
  have hi : m.current? = some m.setup.program[m.pc.toNat] := Array.getElem?_eq_getElem hk
  have hi' : m.setup.program[m.pc.toNat]? = some m.setup.program[m.pc.toNat] := hi
  have hmem : m.setup.program[m.pc.toNat] ∈ m.setup.program := Array.getElem_mem hk
  have hstep : m.step = match m.execute m.setup.program[m.pc.toNat] with
      | .next m' => .next { m' with pc := m'.pc + 1 }
      | .fault f m' => .fault f m' := by
    unfold Machine.step
    rw [place?_eq hpc0 hpc]
    cases hexecute : m.execute m.setup.program[m.pc.toNat] with
    | next m' => simp only [hi', hexecute]
    | fault f m' => simp only [hi', hexecute]
  rw [hstep]
  generalize m.setup.program[m.pc.toNat] = i at hi hmem
  obtain ⟨cells, hcells, hsize, -⟩ := h.memory
  have hmod := m.setup.width.modulus_pos
  -- a bracket changes nothing but the program counter
  have hjump (pc : Int) (hhead : 0 ≤ m.head ∧ m.head < m.size)
      (hpc' : pc = m.pc ∨ 0 ≤ pc ∧ pc < m.setup.program.size) :
      (Result.next { m with pc := pc + 1 }).Preserves m := by
    let jumped : Machine := { m with pc := pc }
    have hjumped : jumped.setup = m.setup := rfl
    exact ⟨h.advance hpc hjumped h.memory h.input hpc' hhead, rfl, Int.le_refl _, ⟨"", by simp⟩, rfl⟩
  obtain ⟨cmd, arg, pos⟩ := i
  cases cmd with
  | right => exact h.move hpc hi (.inl ⟨rfl, Int.natCast_nonneg arg⟩)
  | left => exact h.move hpc hi (.inr ⟨rfl, by omega⟩)
  | inc | dec =>
    exact h.rewrite hpc (h.head_inside hi (by simp) (by simp)) h.input fun v => Nat.mod_lt _ hmod
  | put =>
    obtain ⟨h0, hlt⟩ := h.head_inside hi (by simp) (by simp)
    simp only [execute, cell_eq hcells h0 (by omega)]
    let written : Machine :=
      { m with output := m.output.push (outputChar (cells.getD m.head.toNat 0)) }
    have hwritten : written.setup = m.setup := rfl
    exact ⟨h.advance hpc hwritten h.memory h.input (.inl rfl) ⟨h0, hlt⟩, rfl, Int.le_refl _,
      ⟨_, String.push_eq_append _⟩, rfl⟩
  | get =>
    have hhead := h.head_inside hi (by simp) (by simp)
    simp only [execute, readInput]
    cases hread : m.setup.input[m.inputPos]? with
    | none => exact h.rewrite hpc hhead h.input fun v => Nat.mod_lt _ hmod
    | some c =>
      have hpos : m.inputPos < m.setup.input.size := (Array.getElem?_eq_some_iff.mp hread).1
      exact h.rewrite hpc hhead hpos fun v => Nat.mod_lt _ hmod
  | enter =>
    obtain ⟨h0, hlt⟩ := h.head_inside hi (by simp) (by simp)
    have harg := hjumps _ hmem (.inl rfl)
    simp only [execute, cell_eq hcells h0 (by omega)]
    split_ifs
    · exact hjump arg ⟨h0, hlt⟩ (.inr ⟨Int.natCast_nonneg arg, by simpa using harg⟩)
    · exact hjump m.pc ⟨h0, hlt⟩ (.inl rfl)
  | leave =>
    obtain ⟨h0, hlt⟩ := h.head_inside hi (by simp) (by simp)
    have harg := hjumps _ hmem (.inr rfl)
    simp only [execute, cell_eq hcells h0 (by omega)]
    split_ifs
    · exact hjump m.pc ⟨h0, hlt⟩ (.inl rfl)
    · exact hjump arg ⟨h0, hlt⟩ (.inr ⟨Int.natCast_nonneg arg, by simpa using harg⟩)

/-! ## Runs -/

/-- What a run may do to a machine in order, however it ends. -/
structure RunsInto (m : Machine) (fault : Option RunFault) (m' : Machine) : Prop where
  orderly : m'.Orderly
  setup : m'.setup = m.setup
  size : m.size ≤ m'.size
  output : ∃ tail, m'.output = m.output ++ tail
  fault : ∀ f ∈ fault, f = .timeLimit m.setup.limit ∨ f.isShortage = true ∨
    f.leavesTape = true ∧ m'.OffTape ∧ m'.finished = false

theorem Orderly.stop (h : m.Orderly) {fault : Option RunFault}
    (hfault : ∀ f ∈ fault, f = .timeLimit m.setup.limit) :
    m.RunsInto fault { m with timed := true, finished := true } :=
  ⟨⟨h.memory, h.pc_nonneg, h.pc_le, h.input, h.head⟩, rfl, Int.le_refl _, ⟨"", by simp⟩,
    fun f hf => .inl (hfault f hf)⟩

/-- **So does every run**, by induction on its budget. -/
theorem Orderly.runFor (h : m.Orderly) (hjumps : m.setup.program.JumpsInside)
    (hfinished : m.finished = false) (n : Nat) : m.RunsInto (m.runFor n).1 (m.runFor n).2 := by
  induction n generalizing m with
  | zero =>
    cases hend : m.ended with
    | true =>
      rw [runFor_of_ended hend]
      exact h.stop (by simp)
    | false =>
      rw [runFor_zero_of_not_ended hend]
      exact h.stop (by simp)
  | succ n ih =>
    cases hend : m.ended with
    | true =>
      rw [runFor_of_ended hend]
      exact h.stop (by simp)
    | false =>
      have hpreserves := h.step hjumps hend
      cases hstep : m.step with
      | next m1 =>
        rw [hstep] at hpreserves
        obtain ⟨h1, hsetup, hsize, ⟨tail1, htail1⟩, hfinished1⟩ := hpreserves
        have hrest := ih h1 (by rw [hsetup]; exact hjumps) (by rw [hfinished1]; exact hfinished)
        obtain ⟨tail2, htail2⟩ := hrest.output
        rw [Goes.runFor_succ ⟨hend, hstep⟩]
        refine ⟨hrest.orderly, hrest.setup.trans hsetup, le_trans hsize hrest.size,
          ⟨tail1 ++ tail2, ?_⟩, ?_⟩
        · rw [htail2, htail1, String.append_assoc]
        · rw [← hsetup]
          exact hrest.fault
      | fault f m1 =>
        rw [hstep] at hpreserves
        obtain ⟨heq, h1, hcases⟩ := hpreserves
        rw [Machine.runFor, hend, hstep]
        show m.RunsInto (some f) m1
        refine ⟨h1, by rw [heq], by rw [heq], ⟨"", by rw [heq]; simp⟩, ?_⟩
        rintro _ ⟨⟩
        refine .inr (hcases.imp_right fun hoff => ⟨hoff.1, hoff.2, ?_⟩)
        rw [heq]
        exact hfinished

theorem Orderly.run (h : m.Orderly) (hjumps : m.setup.program.JumpsInside) (n : Nat) :
    m.RunsInto (m.run n).1 (m.run n).2 := by
  unfold Machine.run
  cases hfinished : m.finished with
  | true => exact ⟨h, rfl, Int.le_refl _, ⟨"", by simp⟩, by simp⟩
  | false => exact h.runFor hjumps hfinished n

/-- Every machine that steps lead to is in order as well. -/
theorem Orderly.reaches (h : m.Orderly) (hjumps : m.setup.program.JumpsInside)
    (hgo : Relation.ReflTransGen Goes m m') :
    m'.Orderly ∧ m'.setup = m.setup ∧ m.size ≤ m'.size ∧ ∃ tail, m'.output = m.output ++ tail := by
  induction hgo with
  | refl => exact ⟨h, rfl, Int.le_refl _, "", by simp⟩
  | tail _ hstep ih =>
    obtain ⟨h1, hsetup1, hsize1, tail1, htail1⟩ := ih
    have hpreserves := h1.step (by rw [hsetup1]; exact hjumps) hstep.1
    rw [hstep.2] at hpreserves
    obtain ⟨h2, hsetup2, hsize2, ⟨tail2, htail2⟩, -⟩ := hpreserves
    refine ⟨h2, hsetup2.trans hsetup1, le_trans hsize1 hsize2, tail1 ++ tail2, ?_⟩
    rw [htail2, htail1, String.append_assoc]

/-! ## Runs after a failure -/

/-- A machine off its tape repeats the move in front of it, and fails again. -/
theorem OffTape.run (h : m.OffTape) (hpc : 0 ≤ m.pc) (hsize : 0 ≤ m.size)
    (hfinished : m.finished = false) (n : Nat) :
    ∃ f head, m.run (n + 1) = (some f, { m with head }) ∧ f.leavesTape = true ∧
      { m with head }.OffTape := by
  obtain ⟨i, hi, hoff⟩ := h
  obtain ⟨hk, hget⟩ := Array.getElem?_eq_some_iff.mp hi
  have hpc' : m.pc < m.setup.program.size := by omega
  have hend : m.ended = false := decide_eq_false (by omega)
  have hrun (f : RunFault) (m1 : Machine) (hexec : m.execute i = .fault f m1) :
      m.run (n + 1) = (some f, m1) := by
    have hstep : m.step = .fault f m1 := by
      unfold step
      rw [place?_eq hpc hpc']
      simp only [Array.getElem?_eq_getElem hk, hget, hexec]
    rw [Machine.run, hfinished, if_neg (by simp), Machine.runFor, hend, hstep]
    rfl
  rcases hoff with ⟨hcmd, hbelow⟩ | ⟨hcmd, hbeyond, hfix⟩
  · have hlow : m.head + -(i.arg : Int) < 0 := by omega
    refine ⟨.belowZero, m.head + -(i.arg : Int), hrun _ _ ?_, rfl, i, hi, .inl ⟨hcmd, hlow⟩⟩
    simp only [execute, hcmd, move]
    rw [if_pos hlow]
  · have hhigh : m.size ≤ m.head + i.arg := by omega
    refine ⟨.beyondTape (m.head + i.arg) m.size, m.head + i.arg, hrun _ _ ?_, rfl, i, hi,
      .inr ⟨hcmd, hhigh, hfix⟩⟩
    simp only [execute, hcmd, move]
    rw [if_neg (by omega), if_neg (by omega), if_pos hfix]

/-! ## Histories -/

/-- What can be asked of a machine from outside. -/
inductive Request where
  | run (budget : Nat)
  | reset

/-- The machine after a request. -/
def obey (m : Machine) : Request → Machine
  | .run budget => (m.run budget).2
  | .reset => m.reset

/-- The machine after requests one after the other. -/
def after (m : Machine) (requests : List Request) : Machine := requests.foldl obey m

theorem Orderly.obey (h : m.Orderly) (hjumps : m.setup.program.JumpsInside)
    (hpos : 0 < m.setup.startSize) (r : Request) :
    (m.obey r).Orderly ∧ (m.obey r).setup = m.setup := by
  cases r with
  | run budget =>
    have hruns := h.run hjumps budget
    exact ⟨hruns.orderly, hruns.setup⟩
  | reset => exact ⟨orderly_start hpos, rfl⟩

theorem Orderly.after (h : m.Orderly) (hjumps : m.setup.program.JumpsInside)
    (hpos : 0 < m.setup.startSize) (requests : List Request) :
    (m.after requests).Orderly ∧ (m.after requests).setup = m.setup := by
  induction requests generalizing m with
  | nil => exact ⟨h, rfl⟩
  | cons r rs ih =>
    obtain ⟨h1, hsetup⟩ := h.obey hjumps hpos r
    obtain ⟨h2, hsetup2⟩ := ih h1 (by rw [hsetup]; exact hjumps) (by rw [hsetup]; exact hpos)
    exact ⟨h2, hsetup2.trans hsetup⟩

/-- Runs after a failure all fail, and change nothing but the head. -/
theorem OffTape.after (h : m.OffTape) (hpc : 0 ≤ m.pc) (hsize : 0 ≤ m.size)
    (hfinished : m.finished = false) (budgets : List Nat) (hbudgets : ∀ n ∈ budgets, 0 < n) :
    ∃ head, m.after (budgets.map .run) = { m with head } ∧ { m with head }.OffTape := by
  induction budgets generalizing m with
  | nil => exact ⟨m.head, rfl, h⟩
  | cons n ns ih =>
    obtain ⟨hn, hns⟩ := List.forall_mem_cons.mp hbudgets
    obtain ⟨k, rfl⟩ := Nat.exists_eq_add_of_lt hn
    obtain ⟨f, head, hrun, -, hoff⟩ := h.run hpc hsize hfinished k
    obtain ⟨head', hafter, hoff'⟩ := ih hoff hpc hsize hfinished hns
    refine ⟨head', ?_, hoff'⟩
    show (m.run (0 + k + 1)).2.after (ns.map .run) = _
    rw [Nat.zero_add, hrun]
    exact hafter

theorem OffTape.not_inside (h : m.OffTape) : ¬ (0 ≤ m.head ∧ m.head < m.size) := by
  obtain ⟨i, -, ⟨-, hbelow⟩ | ⟨-, hbeyond, -⟩⟩ := h
  · omega
  · omega

/-- What can be seen of a machine in order: its tape has the length it is taken to have, all cells
hold numbers of their width, the program counter and the input position are within their bounds, and
an instruction that looks at the tape does so at a place that is there. -/
structure InOrder (m : Machine) : Prop where
  memory : ∃ cells, m.memory = some cells ∧ m.size = cells.size ∧
    ∀ v ∈ cells, v < 2 ^ m.setup.width.bits
  pc : 0 ≤ m.pc ∧ m.pc ≤ m.setup.program.size
  input : m.inputPos ≤ m.setup.input.size
  access : ∀ i, m.current? = some i → i.cmd ≠ .right → i.cmd ≠ .left →
    0 ≤ m.head ∧ m.head < m.size

theorem Orderly.inOrder (h : m.Orderly) : m.InOrder := by
  refine ⟨?_, ⟨h.pc_nonneg, h.pc_le⟩, h.input, fun i hi => h.head_inside hi⟩
  rw [← Width.modulus_eq]
  exact h.memory

/-- **A machine is in order at any time.** Whatever runs and resets were asked of it, failed runs
included, the machine is in order, and so it is at every step of a further run. A run never shortens
the tape and only appends to the output; it fails only by leaving the tape, for want of time, or for
want of memory for a growing tape. Once it has left the tape, the head is off the tape in front of the
move that took it there, and all further runs fail alike and change nothing but the head. -/
theorem orderly_throughout {text : String} {size : Option Int} {bits : Int} {input limit : String}
    {capacity : Nat} {m₀ : Machine} (hbuild : build text size bits input limit capacity = .ok m₀)
    (requests : List Request) :
    let m := m₀.after requests
    m.setup = m₀.setup ∧ m.InOrder ∧
    (∀ m', Relation.ReflTransGen Goes m m' →
      m'.InOrder ∧ m.size ≤ m'.size ∧ ∃ tail, m'.output = m.output ++ tail) ∧
    (∀ n, m.size ≤ (m.run n).2.size ∧ ∃ tail, (m.run n).2.output = m.output ++ tail) ∧
    (∀ n f m', m.run n = (some f, m') →
      f = .timeLimit limit ∨ f.isShortage = true ∨ f.leavesTape = true) ∧
    ∀ n f m', m.run n = (some f, m') → f.leavesTape = true →
      ¬ (0 ≤ m'.head ∧ m'.head < m'.size) ∧ m'.OffTape ∧
      ∀ budgets : List Nat, (∀ k ∈ budgets, 0 < k) →
        ∃ head, m'.after (budgets.map .run) = { m' with head } ∧
          ∀ k, 0 < k → ∃ f' head', { m' with head }.run k = (some f', { m' with head := head' }) ∧
            f'.leavesTape = true := by
  obtain ⟨w, p, hpos, -, hp, -, rfl⟩ := build_eq_ok_iff.mp hbuild
  let σ : Setup := ⟨p, w, size.map Int.toNat, input.toList.toArray, limit, capacity⟩
  have hjumps : σ.program.JumpsInside := Program.jumpsInside_of_ofText hp
  have hstart : 0 < σ.startSize := startSize_pos hpos
  obtain ⟨h, hsetup⟩ := (orderly_start hstart).after hjumps hstart requests
  generalize (start σ).after requests = m at h hsetup
  have hjumps : m.setup.program.JumpsInside := by
    rw [hsetup]
    exact hjumps
  refine ⟨hsetup, h.inOrder, fun m' hgo => ?_, fun n => ?_, fun n f m' hrun => ?_,
    fun n f m' hrun hleaves => ?_⟩
  · obtain ⟨h', -, hsize, houtput⟩ := h.reaches hjumps hgo
    exact ⟨h'.inOrder, hsize, houtput⟩
  · have hruns := h.run hjumps n
    exact ⟨hruns.size, hruns.output⟩
  · have hruns : m.RunsInto (some f) m' := by
      have hruns := h.run hjumps n
      rwa [hrun] at hruns
    rcases hruns.fault f rfl with htime | hshort | ⟨hleaves, -⟩
    · rw [hsetup] at htime
      exact .inl htime
    · exact .inr (.inl hshort)
    · exact .inr (.inr hleaves)
  · have hruns : m.RunsInto (some f) m' := by
      have hruns := h.run hjumps n
      rwa [hrun] at hruns
    obtain ⟨hoff, hfinished⟩ : m'.OffTape ∧ m'.finished = false := by
      rcases hruns.fault f rfl with rfl | hshort | ⟨-, hoff⟩
      · cases hleaves
      · rw [RunFault.isShortage_of_leavesTape hleaves] at hshort
        cases hshort
      · exact hoff
    have hpc := hruns.orderly.pc_nonneg
    have hsize : 0 ≤ m'.size := by
      obtain ⟨cells, -, hsize, -⟩ := hruns.orderly.memory
      omega
    refine ⟨hoff.not_inside, hoff, fun budgets hbudgets => ?_⟩
    obtain ⟨head, hafter, hoff'⟩ := hoff.after hpc hsize hfinished budgets hbudgets
    refine ⟨head, hafter, fun k hk => ?_⟩
    obtain ⟨j, rfl⟩ := Nat.exists_eq_add_of_lt hk
    obtain ⟨f', head', hrun', hleaves', -⟩ := hoff'.run hpc hsize hfinished j
    refine ⟨f', head', ?_, hleaves'⟩
    rw [Nat.zero_add]
    exact hrun'

/-- A head that goes below zero stays there, and two further runs change nothing else. -/
theorem orderly_throughout_below_zero :
    ∃ m₀ m', build "+<" (some 2) 8 "" "1" = .ok m₀ ∧ m₀.run 5 = (some .belowZero, m') ∧
      m'.head = -1 ∧ ∃ head, m'.after [.run 1, .run 7] = { m' with head } := by
  refine ⟨_, _, rfl, rfl, rfl, ?_⟩
  obtain ⟨-, -, -, -, -, hfails⟩ :=
    @orderly_throughout "+<" (some 2) 8 "" "1" Setup.usualCapacity _ rfl []
  obtain ⟨-, -, hafter⟩ := hfails 5 .belowZero _ rfl rfl
  obtain ⟨head, hagain, -⟩ := hafter [1, 7] (by decide)
  exact ⟨head, hagain⟩

end Machine

end TapeScript
