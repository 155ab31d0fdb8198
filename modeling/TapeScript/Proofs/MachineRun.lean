import TapeScript.Proofs.Host
import TapeScript.Proofs.Linking

set_option autoImplicit false

/-! # Machines run blocks

What a machine shows of its tape is a `Tape` (`Machine.tape`), and one instruction does to it what
the operation of a block does. A machine whose program is a block is therefore a host of the block
(`Machine.runs_of_at`), and its runs end as the block does (`Machine.ending_iff`): where the block
halts so does the machine, with the same tape, and where the block leaves the tape the machine
faults. Apart from that a run only ever stops for want of time (`Machine.fault_cases`).
-/

namespace TapeScript

/-- A growing tape could not be made longer. -/
def RunFault.isShortage : RunFault → Bool
  | .cannotGrow _ | .cannotGrowFurther _ => true
  | _ => false

/-- The head went off the tape. -/
def RunFault.leavesTape : RunFault → Bool
  | .belowZero | .beyondTape _ _ => true
  | _ => false

/-- How far one instruction moves the head. -/
def instrShift (i : Cmd × Nat) : Int :=
  match i.1 with
  | .right => i.2
  | .left => -(i.2 : Int)
  | _ => 0

namespace Machine

/-! ## The tape of a machine -/

/-- The value at a place; places that are not there hold zero. -/
def cellAt (m : Machine) (i : Int) : Nat :=
  match m.memory with
  | none => 0
  | some cells => if 0 ≤ i then cells.getD i.toNat 0 else 0

def surface (m : Machine) : Surface := ⟨m.cellAt, m.inputPos, m.output⟩

def tape (m : Machine) : Tape := ⟨m.surface, m.head⟩

/-- No run of the machine fails for lack of memory. -/
def Ample (m : Machine) : Prop :=
  ∀ n f m', m.runFor n = (some f, m') → f.isShortage = false

end Machine

namespace Setup

/-- From this length on a tape does not fit into memory or cannot be addressed. -/
def tapeBound (capacity : Nat) : Nat := min capacity addressBound

/-- A growing tape can be made long enough for a head below the bound: it never gets longer than
twice the bound, or 1024 cells more. -/
def Grows (capacity bound : Nat) : Prop :=
  2 * bound ≤ tapeBound capacity ∧ bound + 1024 ≤ tapeBound capacity

instance (capacity bound : Nat) : Decidable (Grows capacity bound) :=
  inferInstanceAs (Decidable (_ ∧ _))

/-- There is memory for the tape to start with. -/
def Provides (capacity : Nat) (size : Option Int) : Prop :=
  (size.map Int.toNat).getD growingStart < tapeBound capacity

instance (capacity : Nat) (size : Option Int) : Decidable (Provides capacity size) :=
  inferInstanceAs (Decidable (_ < _))

end Setup

namespace Machine

/-- The machine has the tape of the setting, or more: a fixed tape that is long enough, a growing
one that can be made long enough, or one that grows whenever asked to. -/
def Room (s : Setting) (m : Machine) : Prop :=
  match m.setup.fixedSize with
  | some n => ∃ bound, s.limit = some bound ∧ bound ≤ n
  | none => (∃ bound, s.limit = some bound ∧ Setup.Grows m.setup.capacity bound) ∨ m.Ample

/-- A machine in order: its tape is as long as it takes it to be, its head is on the tape, and its
cells and its input are those of the setting. -/
structure Sound (s : Setting) (m : Machine) : Prop where
  memory : ∃ cells, m.memory = some cells ∧ m.size = cells.size
  fixed : ∀ n, m.setup.fixedSize = some n → m.size = n
  head_nonneg : 0 ≤ m.head
  head_lt : m.head < m.size
  width : m.setup.width = s.width
  input : m.setup.input = s.input

/-- A machine in order that has room. -/
structure Ready (s : Setting) (m : Machine) : Prop extends Sound s m where
  room : m.Room s

theorem place?_eq {length : Nat} {i : Int} (h0 : 0 ≤ i) (h : i < length) :
    place? length i = some i.toNat := by
  unfold place?
  rw [if_pos h0, if_pos h]

variable {s : Setting} {m : Machine}
variable {m' : Machine}

theorem Sound.cell_head (h : m.Sound s) : m.cell m.head = .ok m.tape.current := by
  obtain ⟨cells, hmem, hsize⟩ := h.memory
  unfold cell
  rw [hmem]
  simp only
  rw [place?_eq h.head_nonneg (by rw [← hsize]; exact h.head_lt)]
  show _ = Except.ok (m.cellAt m.head)
  unfold cellAt
  rw [hmem]
  simp [h.head_nonneg]

/-- Reading the input as the setting does. -/
theorem Sound.readInput (h : m.Sound s) :
    m.readInput.1 % m.setup.width.modulus = (s.read m.inputPos).1 ∧
      m.readInput.2 = { m with inputPos := (s.read m.inputPos).2 } := by
  unfold Machine.readInput Setting.read inputAt
  rw [h.input, h.width]
  cases s.input[m.inputPos]? with
  | none => exact ⟨Nat.zero_mod _, rfl⟩
  | some c => exact ⟨rfl, rfl⟩

/-- What an instruction that is no jump keeps: the setup, and a machine in order. -/
structure Keeps (m m' : Machine) : Prop where
  setup : m'.setup = m.setup
  memory : ∃ cells, m'.memory = some cells ∧ m'.size = cells.size
  fixed : m.setup.fixedSize ≠ none → m'.size = m.size
  head_nonneg : 0 ≤ m'.head
  head_lt : m'.head < m'.size

theorem Ready.of_keeps (h : m.Ready s) (hk : m.Keeps m') (hroom : m'.Room s) : m'.Ready s := by
  refine ⟨⟨hk.memory, fun n hn => ?_, hk.head_nonneg, hk.head_lt, by rw [hk.setup]; exact h.width,
    by rw [hk.setup]; exact h.input⟩, hroom⟩
  rw [hk.setup] at hn
  rw [hk.fixed (by rw [hn]; simp)]
  exact h.fixed n hn

theorem cellAt_of_memory {cells : Array Nat} (hmem : m.memory = some cells) (i : Int) :
    m.cellAt i = if 0 ≤ i then cells.getD i.toNat 0 else 0 := by
  unfold cellAt
  rw [hmem]

/-- Changing the cell under the head. -/
theorem Sound.updateCell (h : m.Sound s) (f : Nat → Nat) :
    ∃ m', m.updateCell f = .next m' ∧ m.Keeps m' ∧ m'.pc = m.pc ∧
      m'.tape = m.tape.write m.head (f m.tape.current) := by
  obtain ⟨cells, hmem, hsize⟩ := h.memory
  have hlt : m.head < cells.size := by rw [← hsize]; exact h.head_lt
  have hk : m.head.toNat < cells.size := by have := h.head_nonneg; omega
  refine ⟨{ m with memory := some (cells.modify m.head.toNat f) }, ?_,
    ⟨rfl, ⟨_, rfl, ?_⟩, fun _ => rfl, h.head_nonneg, h.head_lt⟩, rfl, ?_⟩
  · obtain ⟨setup, memory, size, head, pc, inputPos, output, timed, finished⟩ := m
    simp only at hmem
    subst hmem
    unfold Machine.updateCell
    simp only
    rw [place?_eq h.head_nonneg hlt]
  · rw [Array.size_modify]
    exact hsize
  · have hcells : ∀ i, { m with memory := some (cells.modify m.head.toNat f) }.cellAt i
        = Function.update m.cellAt m.head (f (m.cellAt m.head)) i := by
      intro i
      rw [cellAt_of_memory rfl]
      by_cases hi : i = m.head
      · subst hi
        rw [Function.update_self, cellAt_of_memory hmem, if_pos h.head_nonneg, if_pos h.head_nonneg]
        simp [Array.getD, hk, Array.getElem_modify]
      · rw [Function.update_of_ne hi, cellAt_of_memory hmem]
        split
        · next h0 =>
            have hne : m.head.toNat ≠ i.toNat := by have := h.head_nonneg; omega
            by_cases hlen : i.toNat < cells.size
            · simp [Array.getD, hlen, Array.getElem_modify, hne]
            · simp [Array.getD, hlen]
        · rfl
    exact congrArg (fun c => Tape.mk ⟨c, m.inputPos, m.output⟩ m.head) (funext hcells)

/-- Cells that are not there hold zero anyway. -/
theorem getD_append_zeros (cells : Array Nat) (n k : Nat) :
    (cells ++ Array.replicate n 0).getD k 0 = cells.getD k 0 := by
  rw [Array.getD_eq_getD_getElem?, Array.getD_eq_getD_getElem?, Array.getElem?_append]
  split
  · rfl
  · next hk =>
      rw [Array.getElem?_replicate, Array.getElem?_eq_none (by omega)]
      split <;> rfl

/-- A growing tape that can be made long enough is: the cells stay as they are. -/
theorem grow_of_lt {cells : Array Nat} (hmem : m.memory = some cells) (hsize : m.size = cells.size)
    (hhead : m.size ≤ m.head) (hfit : grownSize m.head m.size < Setup.tapeBound m.setup.capacity) :
    ∃ m', m.grow = .next m' ∧ m'.setup = m.setup ∧ m'.pc = m.pc ∧ m'.head = m.head ∧
      (∃ cells', m'.memory = some cells' ∧ m'.size = cells'.size) ∧ m.head < m'.size ∧
      m'.tape = m.tape := by
  unfold Setup.tapeBound at hfit
  have hgrown : m.head < grownSize m.head m.size := by unfold grownSize; omega
  let fresh := (grownSize m.head m.size).toNat - replaced m.size (grownSize m.head m.size)
  refine ⟨{ m with
      memory := some (cells ++ Array.replicate fresh 0), size := grownSize m.head m.size },
    ?_, rfl, rfl, rfl, ⟨_, rfl, ?_⟩, hgrown, ?_⟩
  · unfold grow
    rw [if_neg (by omega), if_neg (by omega), hmem]
  · show grownSize m.head m.size = ((cells ++ Array.replicate fresh 0).size : Int)
    have hfresh : fresh = (grownSize m.head m.size).toNat - cells.size := by
      show _ - replaced _ _ = _
      unfold replaced
      rw [if_neg (by omega)]
      omega
    rw [Array.size_append, Array.size_replicate, hfresh]
    omega
  · refine congrArg (fun c => Tape.mk ⟨c, m.inputPos, m.output⟩ m.head) (funext fun i => ?_)
    rw [cellAt_of_memory rfl, cellAt_of_memory hmem]
    rw [getD_append_zeros]

/-- Moving the head to a place on the tape. A growing tape may need memory for it. -/
theorem Ready.move_on (h : m.Ready s) {d : Int} (hon : s.holds (m.head + d))
    (hshort : m.Ample → ∀ f m', m.move d = .fault f m' → f.isShortage = false) :
    ∃ m', m.move d = .next m' ∧ m.Keeps m' ∧ m'.pc = m.pc ∧ m'.tape = m.tape.goto (m.head + d) := by
  obtain ⟨h0, hlimit⟩ := (s.holds_iff _).mp hon
  obtain ⟨cells, hmem, hsize⟩ := h.memory
  unfold move at hshort ⊢
  simp only at hshort ⊢
  rw [if_neg (by omega)] at hshort ⊢
  by_cases hlt : m.head + d < m.size
  · rw [if_pos hlt]
    exact ⟨_, rfl, ⟨rfl, h.memory, fun _ => rfl, h0, hlt⟩, rfl, rfl⟩
  · rw [if_neg hlt] at hshort ⊢
    have hroom := h.room
    unfold Room at hroom
    cases hfix : m.setup.fixedSize with
    | some n =>
      -- a fixed tape is at least as long as the setting's
      rw [hfix] at hroom
      obtain ⟨bound, hl, hle⟩ := hroom
      have hn := h.fixed n hfix
      have := hlimit bound hl
      omega
    | none =>
      simp only [hfix, Option.isSome_none, Bool.false_eq_true, if_false] at hroom hshort ⊢
      have hfit : grownSize (m.head + d) m.size < Setup.tapeBound m.setup.capacity := by
        rcases hroom with ⟨bound, hl, h2, h1024⟩ | hample
        · have := hlimit bound hl
          unfold grownSize
          omega
        · by_contra hbig
          unfold Setup.tapeBound at hbig
          unfold grow at hshort
          simp only at hshort
          by_cases haddr : (Setup.addressBound : Int) ≤ grownSize (m.head + d) m.size
          · rw [if_pos haddr] at hshort
            cases hshort hample _ _ rfl
          · rw [if_neg haddr, if_pos (by omega)] at hshort
            cases hshort hample _ _ rfl
      obtain ⟨m', hgrow, hsetup, hpc, hhead, hmem', hlt', htape⟩ :=
        grow_of_lt (m := { m with head := m.head + d }) hmem hsize (by simp only; omega) hfit
      refine ⟨m', hgrow, ⟨hsetup, hmem', fun hne => absurd hfix hne, ?_, ?_⟩, hpc, htape⟩
      · rw [hhead]; exact h0
      · rw [hhead]; exact hlt'

/-- Moving the head off the tape: nothing but the head has changed. -/
theorem Ready.move_off (h : m.Ready s) (hexact : s.limit = m.setup.fixedSize) {d : Int}
    (hoff : s.holds (m.head + d) = false) :
    ∃ f m', m.move d = .fault f m' ∧ f.leavesTape = true ∧ m'.surface = m.surface := by
  have hnot : ¬ (0 ≤ m.head + d ∧ ∀ n, s.limit = some n → m.head + d < (n : Int)) := by
    rw [← s.holds_iff, hoff]
    simp
  unfold move
  simp only
  by_cases h0 : m.head + d < 0
  · rw [if_pos h0]
    exact ⟨_, _, rfl, rfl, rfl⟩
  · rw [if_neg h0]
    cases hl : s.limit with
    | none => exact absurd ⟨by omega, fun n hn => by rw [hl] at hn; cases hn⟩ hnot
    | some n =>
      have hfix : m.setup.fixedSize = some n := by rw [← hexact, hl]
      have hn := h.fixed n hfix
      have hge : ¬ m.head + d < m.size := by
        intro hlt
        refine hnot ⟨by omega, fun k hk => ?_⟩
        rw [hl] at hk
        cases hk
        omega
      rw [if_neg hge, hfix]
      exact ⟨_, _, rfl, rfl, rfl⟩

/-! ## Steps -/

/-- One instruction leads from the first machine to the second. -/
def Goes (m m' : Machine) : Prop := m.ended = false ∧ m.step = .next m'

theorem Goes.runFor_succ (h : m.Goes m') (n : Nat) : m.runFor (n + 1) = m'.runFor n := by
  rw [runFor, h.1, h.2]
  rfl

theorem Ample.of_goes (h : m.Ample) (hgo : m.Goes m') : m'.Ample := by
  intro n f m2 hn
  refine h (n + 1) f m2 ?_
  rw [hgo.runFor_succ]
  exact hn

/-- A step that fails for lack of memory is the end of a run that does. -/
theorem Ample.not_shortage (h : m.Ample) (hrun : m.ended = false) {f : RunFault}
    (hstep : m.step = .fault f m') : f.isShortage = false := by
  refine h 1 f m' ?_
  rw [runFor, hrun, hstep]
  rfl

theorem Room.of_goes (h : m.Room s) (hgo : m.Goes m') (hsetup : m'.setup = m.setup) :
    m'.Room s := by
  unfold Room at *
  rw [hsetup]
  cases hf : m.setup.fixedSize with
  | some n => simpa only [hf] using h
  | none =>
    simp only [hf] at h
    exact h.imp_right fun hample => hample.of_goes hgo

/-- One operation does to a machine what it does to its tape. -/
theorem Ready.execute_op (h : m.Ready s) (op : Op) (pos : Nat)
    (hshort : m.Ample → ∀ f m', m.execute ⟨op.cmd, op.count, pos⟩ = .fault f m' →
      f.isShortage = false) {t : Tape} (hact : op.act s m.tape = some t) :
    ∃ m', m.execute ⟨op.cmd, op.count, pos⟩ = .next m' ∧ m.Keeps m' ∧ m'.pc = m.pc ∧
      m'.tape = t := by
  have hmod : m.setup.width.modulus = s.width.modulus := by rw [h.width]
  cases op with
  | right n | left n =>
    simp only [Op.act] at hact
    split at hact
    · next hon => cases hact; exact h.move_on hon hshort
    · cases hact
  | inc n =>
    cases hact
    rw [← hmod]
    exact h.updateCell _
  | dec n =>
    cases hact
    rw [← hmod]
    exact h.updateCell _
  | put =>
    cases hact
    refine ⟨{ m with output := m.output.push (outputChar m.tape.current) }, ?_,
      ⟨rfl, h.memory, fun _ => rfl, h.head_nonneg, h.head_lt⟩, rfl, rfl⟩
    simp only [execute, Op.cmd, h.cell_head]
  | get =>
    cases hact
    obtain ⟨hvalue, hrest⟩ := h.readInput
    have hsound : Sound s { m with inputPos := (s.read m.inputPos).2 } :=
      ⟨h.memory, h.fixed, h.head_nonneg, h.head_lt, h.width, h.input⟩
    obtain ⟨m', hupd, hkeeps, hpc, htape⟩ := hsound.updateCell fun _ => (s.read m.inputPos).1
    refine ⟨m', ?_, ⟨hkeeps.setup, hkeeps.memory, hkeeps.fixed, hkeeps.head_nonneg,
      hkeeps.head_lt⟩, hpc, htape⟩
    show (m.readInput.2.updateCell fun _ =>
      m.readInput.1 % m.readInput.2.setup.width.modulus) = _
    rw [hrest]
    simp only [hvalue]
    exact hupd

/-- A step executes the instruction at the program counter. -/
theorem step_of_fetch {k : Nat} {i : Cmd × Nat} (hpc : m.pc = k)
    (hi : (m.setup.program.toList.map Instr.essence)[k]? = some i) :
    m.ended = false ∧ ∃ pos, m.step =
      match m.execute ⟨i.1, i.2, pos⟩ with
      | .next m' => .next { m' with pc := m'.pc + 1 }
      | .fault f m' => .fault f m' := by
  rw [List.getElem?_map, Array.getElem?_toList, Option.map_eq_some_iff] at hi
  obtain ⟨instr, hget, rfl⟩ := hi
  have hk : k < m.setup.program.size := (Array.getElem?_eq_some_iff.mp hget).1
  refine ⟨?_, instr.pos, ?_⟩
  · unfold ended
    rw [hpc]
    exact decide_eq_false (by omega)
  · unfold step
    rw [hpc, place?_eq (by omega) (by omega), Int.toNat_natCast]
    simp only [hget]
    rfl

/-- The machine is about to execute the instruction at an index, with the given tape. -/
structure Stands (s : Setting) (setup : Setup) (k : Nat) (t : Tape) (m : Machine) : Prop where
  ready : m.Ready s
  setup_eq : m.setup = setup
  pc_eq : m.pc = k
  tape_eq : m.tape = t

variable {setup : Setup} {k : Nat} {t : Tape}

/-- An instruction that is executed leads on to the one it leaves the program counter before. -/
theorem Stands.next (h : m.Stands s setup k t) (hgo : m.Goes { m' with pc := m'.pc + 1 })
    (hkeeps : m.Keeps m') {k' : Nat} (hpc : m'.pc + 1 = k') :
    { m' with pc := m'.pc + 1 }.Stands s setup k' m'.tape := by
  have hkeeps' : m.Keeps { m' with pc := m'.pc + 1 } :=
    ⟨hkeeps.setup, hkeeps.memory, hkeeps.fixed, hkeeps.head_nonneg, hkeeps.head_lt⟩
  refine ⟨h.ready.of_keeps hkeeps' ?_, ?_, hpc, rfl⟩
  · exact h.ready.room.of_goes hgo hkeeps.setup
  · rw [← h.setup_eq]
    exact hkeeps.setup

/-- A step that executes an operation. -/
theorem Stands.step_op (h : m.Stands s setup k t) {op : Op}
    (hi : (setup.program.toList.map Instr.essence)[k]? = some (op.cmd, op.count)) {t' : Tape}
    (hact : op.act s t = some t') :
    ∃ m', m.Goes m' ∧ m'.Stands s setup (k + 1) t' := by
  obtain ⟨hrun, pos, hstep⟩ := step_of_fetch h.pc_eq (by rw [h.setup_eq]; exact hi)
  have hshort : m.Ample → ∀ f m', m.execute ⟨op.cmd, op.count, pos⟩ = .fault f m' →
      f.isShortage = false := by
    intro hample f m' hf
    rw [hf] at hstep
    exact hample.not_shortage hrun hstep
  rw [← h.tape_eq] at hact
  obtain ⟨m', hexec, hkeeps, hpc, rfl⟩ := h.ready.execute_op op pos hshort hact
  rw [hexec] at hstep
  refine ⟨_, ⟨hrun, hstep⟩, h.next ⟨hrun, hstep⟩ hkeeps ?_⟩
  rw [hpc, h.pc_eq]
  rfl

/-- A step that leaves the tape. -/
theorem Stands.step_off (h : m.Stands s setup k t) {op : Op}
    (hi : (setup.program.toList.map Instr.essence)[k]? = some (op.cmd, op.count))
    (hexact : s.limit = setup.fixedSize) (hact : op.act s t = none) :
    m.ended = false ∧ ∃ f m', m.step = .fault f m' ∧ f.leavesTape = true ∧
      m'.surface = t.toSurface := by
  obtain ⟨hrun, pos, hstep⟩ := step_of_fetch h.pc_eq (by rw [h.setup_eq]; exact hi)
  rw [← h.setup_eq] at hexact
  rw [← h.tape_eq] at hact ⊢
  -- only the two moves can fail
  have hoff : ∀ d, s.holds (m.head + d) = false → m.execute ⟨op.cmd, op.count, pos⟩ = m.move d →
      m.ended = false ∧ ∃ f m', m.step = .fault f m' ∧ f.leavesTape = true ∧
        m'.surface = m.tape.toSurface := by
    intro d hd hexec
    obtain ⟨f, m', hmove, hf, hsurf⟩ := h.ready.move_off hexact hd
    rw [hexec, hmove] at hstep
    exact ⟨hrun, f, m', hstep, hf, hsurf⟩
  cases op with
  | right n =>
    refine hoff n ?_ rfl
    simp only [Op.act] at hact
    split at hact
    · cases hact
    · next hno => exact Bool.eq_false_iff.mpr hno
  | left n =>
    refine hoff (-n) ?_ rfl
    simp only [Op.act] at hact
    split at hact
    · cases hact
    · next hno => exact Bool.eq_false_iff.mpr hno
  | inc n => cases hact
  | dec n => cases hact
  | put => cases hact
  | get => cases hact

/-- The two brackets of a loop make the same test: both go on behind the closing one or at the
start of the body. -/
theorem Stands.step_test {i j : Nat} (h : m.Stands s setup i t)
    (hi : i = k ∧ (setup.program.toList.map Instr.essence)[k]? = some (.enter, j) ∨
      i = j ∧ (setup.program.toList.map Instr.essence)[j]? = some (.leave, k)) :
    ∃ m', m.Goes m' ∧ m'.Stands s setup (if t.current = 0 then j + 1 else k + 1) t := by
  have hcell := h.ready.cell_head
  rw [h.tape_eq] at hcell
  -- either bracket sets the program counter or leaves it
  have hgo : ∀ pc : Int, pc + 1 = ((if t.current = 0 then j + 1 else k + 1 : Nat) : Int) →
      m.Goes { m with pc := pc + 1 } →
      ∃ m', m.Goes m' ∧ m'.Stands s setup (if t.current = 0 then j + 1 else k + 1) t := by
    intro pc hpc hgo
    have hkeeps : m.Keeps { m with pc := pc } :=
      ⟨rfl, h.ready.memory, fun _ => rfl, h.ready.head_nonneg, h.ready.head_lt⟩
    have hnext := h.next hgo hkeeps hpc
    refine ⟨_, hgo, ?_⟩
    rw [← h.tape_eq]
    rw [← h.tape_eq] at hnext
    exact hnext
  rcases hi with ⟨rfl, hi⟩ | ⟨rfl, hi⟩
  · obtain ⟨hrun, pos, hstep⟩ := step_of_fetch h.pc_eq (by rw [h.setup_eq]; exact hi)
    simp only [execute, hcell] at hstep
    by_cases h0 : t.current = 0
    · rw [if_pos h0] at hstep
      exact hgo j (by rw [if_pos h0]; rfl) ⟨hrun, hstep⟩
    · rw [if_neg h0] at hstep
      exact hgo m.pc (by rw [if_neg h0, h.pc_eq]; rfl) ⟨hrun, hstep⟩
  · obtain ⟨hrun, pos, hstep⟩ := step_of_fetch h.pc_eq (by rw [h.setup_eq]; exact hi)
    simp only [execute, hcell] at hstep
    by_cases h0 : t.current = 0
    · rw [if_pos h0] at hstep
      exact hgo m.pc (by rw [if_pos h0, h.pc_eq]; rfl) ⟨hrun, hstep⟩
    · rw [if_neg h0] at hstep
      exact hgo k (by rw [if_neg h0]; rfl) ⟨hrun, hstep⟩

end Machine

namespace Block

/-- The block stands in the program at an index. -/
def At (b : Block) (k : Nat) (p : Program) : Prop :=
  ∃ before after, p.toList.map Instr.essence = before ++ b.linked k ++ after ∧ before.length = k

variable {p : Program} {k : Nat}

theorem At.act {op : Op} {rest : Block} (h : (Block.act op rest).At k p) :
    (p.toList.map Instr.essence)[k]? = some (op.cmd, op.count) ∧ rest.At (k + 1) p := by
  obtain ⟨before, after, hp, rfl⟩ := h
  refine ⟨by rw [hp, linked]; simp, before ++ [(op.cmd, op.count)], after, ?_, by simp⟩
  rw [hp, linked]
  simp

theorem At.loop {body rest : Block} (h : (Block.loop body rest).At k p) :
    (p.toList.map Instr.essence)[k]? = some (.enter, k + 1 + body.size) ∧ body.At (k + 1) p ∧
      (p.toList.map Instr.essence)[k + 1 + body.size]? = some (.leave, k) ∧
      rest.At (k + body.size + 2) p := by
  obtain ⟨before, after, hp, rfl⟩ := h
  refine ⟨by rw [hp, linked]; simp, ?_, ?_, ?_⟩
  · refine ⟨before ++ [(.enter, before.length + 1 + body.size)],
      (.leave, before.length) :: rest.linked (before.length + body.size + 2) ++ after, ?_, by simp⟩
    rw [hp, linked]
    simp
  · rw [hp, linked, List.append_assoc, List.getElem?_append_right (by omega)]
    have hsub : before.length + 1 + body.size - before.length = body.size + 1 := by omega
    rw [hsub, List.cons_append, List.cons_append, List.getElem?_cons_succ, List.append_assoc,
      List.getElem?_append_right (by simp)]
    simp
  · refine ⟨before ++ (.enter, before.length + 1 + body.size) ::
      body.linked (before.length + 1) ++ [(.leave, before.length)], after, ?_, ?_⟩
    · rw [hp, linked]
      simp
    · simp
      omega

end Block

namespace Machine

variable {s : Setting} {setup : Setup}
variable {k : Nat} {m m' : Machine}

/-- A machine as a host: places are indices into its program. -/
def host (s : Setting) (setup : Setup) : Host Machine where
  step := Goes
  off m sf := m.ended = false ∧
    ∃ f m', m.step = .fault f m' ∧ f.leavesTape = true ∧ m'.surface = sf
  stands := Stands s setup
  sameTape := s.limit = setup.fixedSize

/-- The brackets of a loop test the value under the head. -/
theorem tests_of_fetch {i j : Nat}
    (hi : i = k ∧ (setup.program.toList.map Instr.essence)[k]? = some (.enter, j) ∨
      i = j ∧ (setup.program.toList.map Instr.essence)[j]? = some (.leave, k)) :
    (host s setup).Tests i (k + 1) (j + 1) := by
  intro m t hm
  obtain ⟨m', hgo, hm'⟩ := Stands.step_test hm hi
  exact ⟨1, m', Nat.one_pos, .one hgo, hm'⟩

/-- A machine runs the blocks of its program. -/
theorem runs_of_at {b : Block} (h : b.At k setup.program) :
    (host s setup).Runs s k b (k + b.size) := by
  induction b generalizing k with
  | done => exact .done fun m t hm => ⟨0, m, .refl m, hm⟩
  | act op rest ih =>
    obtain ⟨hi, hrest⟩ := h.act
    have hruns := ih hrest
    rw [Nat.add_right_comm] at hruns
    refine .act (fun m t t' hm hact => ?_) (fun m t hm hact hsame => ?_) hruns
    · obtain ⟨m', hgo, hm'⟩ := Stands.step_op hm hi hact
      exact ⟨1, m', .one hgo, hm'⟩
    · exact ⟨0, m, .refl m, Stands.step_off hm hi hsame hact⟩
  | loop body rest ihb ihr =>
    obtain ⟨hopen, hbody, hclose, hrest⟩ := h.loop
    have hruns := ihr hrest
    have hk : k + body.size + 2 = k + 1 + body.size + 1 := by omega
    have hend : k + body.size + 2 + rest.size = k + (body.size + rest.size + 2) := by omega
    rw [hend, hk] at hruns
    exact .loop (tests_of_fetch (.inl ⟨rfl, hopen⟩)) (ihb hbody)
      (tests_of_fetch (.inr ⟨rfl, hclose⟩)) hruns

/-! ## Runs -/

/-- How a run ends, as far as blocks can tell. -/
def ending (r : Option RunFault × Machine) : Ending :=
  match r.1 with
  | none => .halted r.2.tape
  | some f => if f.leavesTape then .offTape r.2.surface else .spent

theorem runFor_of_ended (h : m.ended = true) (n : Nat) :
    m.runFor n = (none, { m with timed := true, finished := true }) := by
  cases n <;> rw [runFor, if_pos h]

theorem runFor_zero_of_not_ended (h : m.ended = false) :
    m.runFor 0 =
      (some (.timeLimit m.setup.limit), { m with timed := true, finished := true }) := by
  rw [runFor, h]
  rfl

/-- A run that was not stopped for want of time is not changed by more of it. -/
theorem runFor_stable {n : Nat} (h : ∀ limit, (m.runFor n).1 ≠ some (.timeLimit limit)) :
    m.runFor (n + 1) = m.runFor n := by
  induction n generalizing m with
  | zero =>
    cases hend : m.ended with
    | true => rw [runFor_of_ended hend, runFor_of_ended hend]
    | false =>
      rw [runFor_zero_of_not_ended hend] at h
      exact absurd rfl (h _)
  | succ n ih =>
    cases hend : m.ended with
    | true => rw [runFor_of_ended hend, runFor_of_ended hend]
    | false =>
      cases hstep : m.step with
      | next m' =>
        have hgo : m.Goes m' := ⟨hend, hstep⟩
        rw [hgo.runFor_succ] at h
        rw [hgo.runFor_succ, hgo.runFor_succ, ih h]
      | fault f m' => rw [runFor, runFor, hend, hstep]

/-- The runs of a machine evaluate its host. -/
theorem observed_runFor (last : Nat) (hlast : setup.program.size = last) :
    (host s setup).Observed last fun n m => ending (m.runFor n) where
  step := fun n m m' hgo => by rw [Goes.runFor_succ hgo]
  off := by
    rintro n m sf ⟨hrun, f, m', hstep, hf, hsf⟩
    rw [runFor, hrun, hstep]
    show ending (some f, m') = _
    unfold ending
    rw [hsf]
    simp only [hf, if_true]
  halted := by
    intro n m t hm
    have hend : m.ended = true := by
      unfold ended
      rw [hm.setup_eq, hm.pc_eq, hlast]
      exact decide_eq_true (Int.le_refl _)
    rw [runFor_of_ended hend]
    show Ending.halted m.tape = _
    rw [hm.tape_eq]
  short := by
    rintro m m' ⟨hrun, -⟩
    rw [runFor_zero_of_not_ended hrun]
    rfl
  stable := by
    intro n m hn
    rw [runFor_stable]
    intro limit hl
    apply hn
    unfold ending
    rw [hl]
    rfl

/-- What an instruction that moves the head by `d` and does not jump can do: the setup stays, and
only a growing tape lacks memory. -/
def Result.Keeps (m : Machine) (d : Int) : Result → Prop
  | .next m' => m'.setup = m.setup ∧ m'.head = m.head + d ∧ m'.pc = m.pc
  | .fault f _ => f.isShortage = true → m.setup.fixedSize = none

theorem updateCell_keeps (m : Machine) (f : Nat → Nat) : (m.updateCell f).Keeps m 0 := by
  obtain ⟨setup, memory, size, head, pc, inputPos, output, timed, finished⟩ := m
  unfold updateCell
  cases memory with
  | none => exact fun h => nomatch h
  | some cells =>
    simp only
    split
    · exact fun h => nomatch h
    · exact ⟨rfl, (Int.add_zero head).symm, rfl⟩

theorem move_keeps (m : Machine) (d : Int) : (m.move d).Keeps m d := by
  unfold move
  simp only
  split
  · exact fun h => nomatch h
  · split
    · exact ⟨rfl, rfl, rfl⟩
    · split
      · exact fun h => nomatch h
      · next hfix =>
          have hnone : m.setup.fixedSize = none := by simpa using hfix
          unfold grow
          simp only
          split
          · exact fun _ => hnone
          · split
            · exact fun _ => hnone
            · split
              · exact fun h => nomatch h
              · exact ⟨rfl, rfl, rfl⟩

theorem cell_fault {i : Int} {f : RunFault} (h : m.cell i = .error f) : f.isShortage = false := by
  unfold cell at h
  split at h
  · cases h; rfl
  · split at h
    · cases h; rfl
    · cases h

/-- What any instruction can do: one that is no bracket does not jump, and a bracket stays or goes
to its partner. -/
def Result.Executes (m : Machine) (i : Instr) : Result → Prop
  | .next m' => m'.setup = m.setup ∧ m'.head = m.head + instrShift i.essence ∧
      (m'.pc = m.pc ∨ (i.cmd = .enter ∨ i.cmd = .leave) ∧ m'.pc = i.arg)
  | .fault f _ => f.isShortage = true → m.setup.fixedSize = none

theorem Result.Keeps.executes {d : Int} {r : Result} (h : r.Keeps m d) {i : Instr}
    (hd : instrShift i.essence = d) : r.Executes m i := by
  cases r with
  | next m' =>
    obtain ⟨hsetup, hhead, hpc⟩ := h
    exact ⟨hsetup, by rw [hd]; exact hhead, .inl hpc⟩
  | fault f m' => exact h

theorem execute_spec (m : Machine) (i : Instr) : (m.execute i).Executes m i := by
  obtain ⟨cmd, arg, pos⟩ := i
  have hcell : ∀ {f m'}, m.cell m.head = .error f → (Result.fault f m').Executes m ⟨cmd, arg, pos⟩ := by
    intro f m' hf hshort
    rw [cell_fault hf] at hshort
    cases hshort
  cases cmd with
  | right => exact (move_keeps m arg).executes rfl
  | left => exact (move_keeps m (-(arg : Int))).executes rfl
  | inc => exact (updateCell_keeps m _).executes rfl
  | dec => exact (updateCell_keeps m _).executes rfl
  | put =>
    simp only [execute]
    split
    · next hf => exact hcell hf
    · exact ⟨rfl, (Int.add_zero _).symm, .inl rfl⟩
  | get =>
    obtain ⟨hsetup, hhead, hpc⟩ : m.readInput.2.setup = m.setup ∧ m.readInput.2.head = m.head ∧
        m.readInput.2.pc = m.pc := by
      unfold readInput
      split <;> exact ⟨rfl, rfl, rfl⟩
    have hkeeps : (m.readInput.2.updateCell fun _ =>
        m.readInput.1 % m.readInput.2.setup.width.modulus).Keeps m 0 := by
      have hkeeps := updateCell_keeps m.readInput.2 fun _ =>
        m.readInput.1 % m.readInput.2.setup.width.modulus
      unfold Result.Keeps at hkeeps ⊢
      rw [hsetup, hhead, hpc] at hkeeps
      rw [hsetup]
      exact hkeeps
    exact hkeeps.executes rfl
  | enter =>
    simp only [execute]
    split
    · next hf => exact hcell hf
    · next v _ =>
        by_cases hv : v = 0
        · rw [if_pos hv]
          exact ⟨rfl, (Int.add_zero _).symm, .inr ⟨.inl rfl, rfl⟩⟩
        · rw [if_neg hv]
          exact ⟨rfl, (Int.add_zero _).symm, .inl rfl⟩
  | leave =>
    simp only [execute]
    split
    · next hf => exact hcell hf
    · next v _ =>
        by_cases hv : v = 0
        · rw [if_pos hv]
          exact ⟨rfl, (Int.add_zero _).symm, .inl rfl⟩
        · rw [if_neg hv]
          exact ⟨rfl, (Int.add_zero _).symm, .inr ⟨.inr rfl, rfl⟩⟩

/-- A step executes an instruction of the program. -/
theorem Goes.spec (h : m.Goes m') :
    ∃ k i m1, place? m.setup.program.size m.pc = some k ∧ m.setup.program[k]? = some i ∧
      (Result.next m1).Executes m i ∧ m' = { m1 with pc := m1.pc + 1 } := by
  obtain ⟨-, hstep⟩ := h
  unfold step at hstep
  split at hstep
  · cases hstep
  · next k hk =>
      split at hstep
      · cases hstep
      · next i hi =>
          have hspec := execute_spec m i
          cases hexec : m.execute i with
          | next m1 =>
            rw [hexec] at hstep hspec
            cases hstep
            exact ⟨k, i, m1, hk, hi, hspec, rfl⟩
          | fault f m1 => rw [hexec] at hstep; cases hstep

/-- Only a growing tape lacks memory. -/
theorem fixedSize_of_shortage {f : RunFault} (h : m.step = .fault f m') (hf : f.isShortage = true) :
    m.setup.fixedSize = none := by
  unfold step at h
  split at h
  · cases h; cases hf
  · split at h
    · cases h; cases hf
    · next i _ =>
        have hspec := execute_spec m i
        cases hexec : m.execute i with
        | next m1 => rw [hexec] at h; cases h
        | fault f1 m1 =>
          rw [hexec] at h hspec
          cases h
          exact hspec hf

theorem Goes.setup_eq (h : m.Goes m') : m'.setup = m.setup := by
  obtain ⟨k, i, m1, -, -, ⟨hsetup, -, -⟩, rfl⟩ := h.spec
  exact hsetup

theorem setup_of_steps (h : (host s setup).Steps k m m') : m'.setup = m.setup := by
  induction h with
  | refl m => rfl
  | step hgo _ ih => rw [ih, Goes.setup_eq hgo]

/-- A run passes every machine that steps lead to. -/
theorem runFor_add (h : (host s setup).Steps k m m') (n : Nat) :
    m.runFor (k + n) = m'.runFor n := by
  induction h with
  | refl m => rw [Nat.zero_add]
  | step hgo _ ih => rw [Nat.add_right_comm, Goes.runFor_succ hgo, ih]

/-- A run that could make more steps than it has time for is stopped. -/
theorem runFor_of_lt {n : Nat} (h : (host s setup).Steps k m m') (hn : n < k) :
    (m.runFor n).1 = some (.timeLimit m.setup.limit) := by
  induction h generalizing n with
  | refl m => omega
  | step hgo _ ih =>
    cases n with
    | zero => rw [runFor_zero_of_not_ended hgo.1]
    | succ n => rw [Goes.runFor_succ hgo, ih (by omega), Goes.setup_eq hgo]

section Whole

variable {m : Machine} {b : Block} {t : Tape}

/-- A program that consists of a block. -/
theorem runs_of_linked (hb : setup.program.toList.map Instr.essence = b.linked 0) :
    (host s setup).Runs s 0 b setup.program.size := by
  have hsize : setup.program.size = 0 + b.size := by
    rw [Nat.zero_add, ← Block.length_linked b 0, ← hb, List.length_map, Array.length_toList]
  rw [hsize]
  exact runs_of_at ⟨[], [], by rw [hb]; simp, rfl⟩

/-- **A machine ends as its program does.** -/
theorem ending_iff (hb : setup.program.toList.map Instr.essence = b.linked 0)
    (hm : m.Stands s setup 0 t)
    (hoff : ∀ fuel sf, b.exec s fuel t = .offTape sf → s.limit = setup.fixedSize) {e : Ending}
    (he : e ≠ .spent) : (∃ n, ending (m.runFor n) = e) ↔ ∃ fuel, b.exec s fuel t = e :=
  (observed_runFor _ rfl).eval_iff (runs_of_linked hb) hm hoff he

/-- A run that does not come to its end leaves the tape or is stopped for want of time. -/
theorem fault_cases (hb : setup.program.toList.map Instr.essence = b.linked 0)
    (hm : m.Stands s setup 0 t)
    (hoff : ∀ fuel sf, b.exec s fuel t = .offTape sf → s.limit = setup.fixedSize) {n : Nat}
    {f : RunFault} (h : (m.runFor n).1 = some f) :
    f = .timeLimit setup.limit ∨
      f.leavesTape = true ∧ ∃ fuel sf, b.exec s fuel t = .offTape sf := by
  have htime : ∀ {k m'}, (host s setup).Steps k m m' → n < k → f = .timeLimit setup.limit := by
    intro k m' hs hn
    rw [runFor_of_lt hs hn, hm.setup_eq] at h
    exact (Option.some.inj h).symm
  have hf := (runs_of_linked (s := s) hb).follows (n + 1) hm
  cases he : b.exec s (n + 1) t with
  | spent =>
    rw [he] at hf
    obtain ⟨k, m', hk, hs⟩ := hf
    exact .inl (htime hs hk)
  | halted t' =>
    rw [he] at hf
    obtain ⟨k, m', hs, hm'⟩ := hf
    by_cases hn : n < k
    · exact .inl (htime hs hn)
    · have hend : m'.ended = true := by
        unfold ended
        rw [hm'.setup_eq, hm'.pc_eq]
        exact decide_eq_true (Int.le_refl _)
      obtain ⟨j, rfl⟩ := Nat.exists_eq_add_of_le (Nat.le_of_not_lt hn)
      rw [runFor_add hs, runFor_of_ended hend] at h
      cases h
  | offTape sf =>
    have hsame := hoff (n + 1) sf he
    rw [he] at hf
    obtain ⟨k, m', hs, hrun, f', m'', hstep, hleaves, -⟩ := hf hsame
    by_cases hn : n < k
    · exact .inl (htime hs hn)
    · obtain ⟨j, rfl⟩ := Nat.exists_eq_add_of_le (Nat.le_of_not_lt hn)
      rw [runFor_add hs] at h
      cases j with
      | zero =>
        rw [runFor_zero_of_not_ended hrun, setup_of_steps hs, hm.setup_eq] at h
        exact .inl (Option.some.inj h).symm
      | succ j =>
        rw [runFor, hrun, hstep] at h
        cases h
        exact .inr ⟨hleaves, _, _, he⟩

end Whole

/-! ## Building -/

/-- When a machine can be built, and which one it is. -/
theorem build_eq_ok_iff {text : String} {size : Option Int} {bits : Int} {input limit : String}
    {capacity : Nat} :
    build text size bits input limit capacity = .ok m ↔
      ∃ w p, (∀ n ∈ size, 0 < n) ∧ Width.ofBits? bits = some w ∧ Program.ofText text = .ok p ∧
        Setup.Provides capacity size ∧
        m = start ⟨p, w, size.map Int.toNat, input.toList.toArray, limit, capacity⟩ := by
  have hpos : (∀ n ∈ size, 0 < n) ↔ size.any (· ≤ 0) = false := by
    cases size <;> simp
  rw [hpos]
  unfold build Setup.Provides Setup.tapeBound
  cases size.any (· ≤ 0) with
  | true => simp [bind, Except.bind, throw, throwThe, MonadExceptOf.throw]
  | false =>
    cases Width.ofBits? bits with
    | none => simp [throw, throwThe, MonadExceptOf.throw]
    | some w =>
      cases Program.ofText text with
      | error f => simp [bind, Except.bind, Except.mapError]
      | ok p =>
        have hstart : ∀ σ : Setup, σ.fixedSize = size.map Int.toNat →
            σ.startSize = (size.map Int.toNat).getD Setup.growingStart := by
          intro σ hσ
          rw [Setup.startSize, hσ]
        simp only [Bool.false_eq_true, if_false, bind, Except.bind, Except.mapError, pure,
          Except.pure, throw, throwThe, MonadExceptOf.throw, hstart]
        by_cases haddr : Setup.addressBound ≤ (size.map Int.toNat).getD Setup.growingStart
        · simp only [if_pos haddr]
          simp
          omega
        · by_cases htape : capacity ≤ (size.map Int.toNat).getD Setup.growingStart
          · simp only [if_neg haddr, if_pos htape]
            simp
            omega
          · simp only [if_neg haddr, if_neg htape]
            simp [Nat.lt_of_not_le haddr, Nat.lt_of_not_le htape, eq_comm]

/-- A machine that has just been built is in order. -/
theorem stands_start (hpos : 0 < setup.startSize) (hwidth : setup.width = s.width)
    (hinput : setup.input = s.input) (hroom : (start setup).Room s) :
    (start setup).Stands s setup 0 Tape.blank := by
  refine ⟨⟨⟨⟨_, rfl, ?_⟩, ?_, Int.le_refl 0, ?_, hwidth, hinput⟩, hroom⟩, rfl, rfl, ?_⟩
  · rw [Array.size_replicate]
    rfl
  · intro n hn
    show ((setup.startSize : Nat) : Int) = n
    unfold Setup.startSize
    rw [show setup.fixedSize = some n from hn]
    rfl
  · show (0 : Int) < setup.startSize
    omega
  · refine congrArg (fun c => Tape.mk ⟨c, 0, ""⟩ 0) (funext fun i => ?_)
    rw [cellAt_of_memory rfl, Array.getD_eq_getD_getElem?, Array.getElem?_replicate]
    split
    · split <;> rfl
    · rfl

end Machine

end TapeScript
