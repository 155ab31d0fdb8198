import TapeScript.Proofs.Plain

set_option autoImplicit false

/-! # The machine and the plain interpreter

A machine runs a program in which runs of equal commands are counted and brackets are linked. Here
it is compared with the plain interpreter of `Plain.run`, which knows none of this: both end in the
same way, with the same tape, whenever memory suffices (`Machine.run_agrees_with_plain`).

A machine does not see the characters that are no commands. Two texts with the same commands give
programs that differ only in the places their instructions remember (`Program.essence_eq_of_commands`),
and machines that differ only there make the same steps (`Machine.runFor_rebase`).
-/

namespace TapeScript

/-! ## Programs without their places -/

namespace Program

theorem map_essence_addCommand {c c' : Nat × Cmd} (hc : c.2 = c'.2) {g g' : List Instr}
    (hg : g.map Instr.essence = g'.map Instr.essence) :
    (addCommand c g).map Instr.essence = (addCommand c' g').map Instr.essence := by
  unfold addCommand
  cases g with
  | nil =>
    rw [List.map_nil, eq_comm, List.map_eq_nil_iff] at hg
    subst hg
    simp [Instr.essence, hc]
  | cons i is =>
    rw [List.map_cons] at hg
    obtain ⟨j, js, rfl, hj, hjs⟩ := List.map_eq_cons_iff.mp hg.symm
    have hcmd : j.cmd = i.cmd := congrArg Prod.fst hj
    have harg : j.arg = i.arg := congrArg Prod.snd hj
    simp only [hc, hcmd]
    split
    · simp [Instr.essence, harg, hjs]
    · simp [Instr.essence, harg, hcmd, hjs]

/-- Grouping does not look at places. -/
theorem map_essence_group {cs cs' : List (Nat × Cmd)} (h : cs.map Prod.snd = cs'.map Prod.snd) :
    (group cs).map Instr.essence = (group cs').map Instr.essence := by
  induction cs generalizing cs' with
  | nil =>
    rw [List.map_nil, eq_comm, List.map_eq_nil_iff] at h
    subst h
    rfl
  | cons c cs ih =>
    rw [List.map_cons] at h
    obtain ⟨c', cs', rfl, hc, hcs⟩ := List.map_eq_cons_iff.mp h.symm
    exact map_essence_addCommand hc.symm (ih hcs.symm)

/-- Texts with the same commands are read alike. -/
theorem essence_eq_of_commands {text text' : List Char} {p : Program}
    (h : text'.filterMap Cmd.ofChar? = text.filterMap Cmd.ofChar?) (hp : ofChars text = .ok p) :
    ∃ p', ofChars text' = .ok p' ∧ p'.toList.map Instr.essence = p.toList.map Instr.essence := by
  obtain ⟨b, hmap, hessence⟩ := exists_block_of_link (fun i hi => arg_of_mem_group hi) hp
  have hgroup : (group (commands text')).map Instr.essence = b.unlinked := by
    rw [← hmap]
    apply map_essence_group
    rw [map_snd_commands, map_snd_commands, h]
  obtain ⟨l, hrun, hpend, hdone⟩ := foldlM_add_block b {} hgroup
  refine ⟨l.done, ?_, ?_⟩
  · unfold ofChars link
    rw [hrun]
    show l.finish = _
    unfold Linking.finish
    rw [hpend]
  · rw [hdone, hessence]
    rfl

end Program

/-! ## Machines with another setup -/

namespace Machine

/-- The same result with another setup. -/
def Result.rebase (σ : Setup) : Result → Result
  | .next m => .next { m with setup := σ }
  | .fault f m => .fault f { m with setup := σ }

/-- Setups that differ at most in the places the instructions remember. -/
structure SameProgram (σ σ' : Setup) : Prop where
  program : σ'.program.toList.map Instr.essence = σ.program.toList.map Instr.essence
  width : σ'.width = σ.width
  fixedSize : σ'.fixedSize = σ.fixedSize
  input : σ'.input = σ.input
  limit : σ'.limit = σ.limit
  capacity : σ'.capacity = σ.capacity

variable {m : Machine} {σ : Setup}

theorem updateCell_rebase (f : Nat → Nat) :
    { m with setup := σ }.updateCell f = (m.updateCell f).rebase σ := by
  obtain ⟨setup, memory, size, head, pc, inputPos, output, timed, finished⟩ := m
  unfold updateCell
  cases memory with
  | none => rfl
  | some cells =>
    simp only
    cases place? cells.size head <;> rfl

theorem move_rebase (h : SameProgram m.setup σ) (d : Int) :
    { m with setup := σ }.move d = (m.move d).rebase σ := by
  unfold move
  simp only [h.fixedSize]
  split
  · rfl
  · split
    · rfl
    · split
      · rfl
      · unfold grow
        simp only [h.capacity]
        split
        · rfl
        · split
          · rfl
          · cases m.memory <;> rfl

/-- What an instruction does depends neither on the program nor on the instruction's place. -/
theorem execute_rebase (h : SameProgram m.setup σ) {i j : Instr} (hij : j.essence = i.essence) :
    { m with setup := σ }.execute j = (m.execute i).rebase σ := by
  obtain ⟨cmd, arg, pos⟩ := i
  obtain ⟨cmd', arg', pos'⟩ := j
  simp only [Instr.essence, Prod.mk.injEq] at hij
  obtain ⟨rfl, rfl⟩ := hij
  have hcell : { m with setup := σ }.cell m.head = m.cell m.head := rfl
  cases cmd' with
  | right => exact move_rebase h _
  | left => exact move_rebase h _
  | inc => simp only [execute, h.width]; exact updateCell_rebase _
  | dec => simp only [execute, h.width]; exact updateCell_rebase _
  | put =>
    simp only [execute, hcell]
    cases m.cell m.head <;> rfl
  | get =>
    simp only [execute, readInput, h.input]
    cases m.setup.input[m.inputPos]? with
    | none => simp only [h.width]; exact updateCell_rebase _
    | some c =>
      simp only [h.width]
      exact updateCell_rebase (m := { m with inputPos := m.inputPos + 1 }) _
  | enter | leave =>
    simp only [execute, hcell]
    cases m.cell m.head with
    | error f => rfl
    | ok v => simp only [Result.rebase]; split <;> rfl

theorem size_of_sameProgram {σ' : Setup} (h : SameProgram σ σ') :
    σ'.program.size = σ.program.size := by
  have := congrArg List.length h.program
  simpa using this

theorem step_rebase (h : SameProgram m.setup σ) :
    { m with setup := σ }.step = m.step.rebase σ := by
  have hsize := size_of_sameProgram h
  unfold step
  simp only [hsize]
  cases place? m.setup.program.size m.pc with
  | none => rfl
  | some k =>
    have hget := congrArg (fun l => l[k]?) h.program
    simp only [List.getElem?_map, Array.getElem?_toList] at hget
    simp only
    cases hi : m.setup.program[k]? with
    | none =>
      rw [hi, Option.map_none, Option.map_eq_none_iff] at hget
      rw [hget]
      rfl
    | some i =>
      rw [hi, Option.map_some, Option.map_eq_some_iff] at hget
      obtain ⟨j, hj, hess⟩ := hget
      rw [hj]
      simp only [execute_rebase h hess]
      cases m.execute i <;> rfl

/-- Machines that differ only in the places of their instructions make the same run. -/
theorem runFor_rebase (h : SameProgram m.setup σ) (n : Nat) :
    { m with setup := σ }.runFor n = ((m.runFor n).1, { (m.runFor n).2 with setup := σ }) := by
  have hended : ∀ {m : Machine}, SameProgram m.setup σ →
      { m with setup := σ }.ended = m.ended := by
    intro m h
    unfold ended
    rw [size_of_sameProgram h]
  induction n generalizing m with
  | zero =>
    cases hend : m.ended with
    | true => rw [runFor_of_ended hend, runFor_of_ended (by rw [hended h, hend])]
    | false =>
      rw [runFor_zero_of_not_ended hend, runFor_zero_of_not_ended (by rw [hended h, hend])]
      simp only [h.limit]
  | succ n ih =>
    cases hend : m.ended with
    | true => rw [runFor_of_ended hend, runFor_of_ended (by rw [hended h, hend])]
    | false =>
      have hend' : { m with setup := σ }.ended = false := by rw [hended h, hend]
      have hstep' := step_rebase h
      cases hstep : m.step with
      | next m' =>
        rw [hstep] at hstep'
        have hgo : m.Goes m' := ⟨hend, hstep⟩
        have hgo' : { m with setup := σ }.Goes { m' with setup := σ } := ⟨hend', hstep'⟩
        rw [hgo.runFor_succ, hgo'.runFor_succ]
        exact ih (by rw [hgo.setup_eq]; exact h)
      | fault f m' =>
        rw [hstep] at hstep'
        rw [runFor, runFor, hend, hend', hstep, hstep']
        rfl

/-! ## The two interpreters -/

theorem ending_eq_halted_iff {r : Option RunFault × Machine} {t : Tape} :
    ending r = .halted t ↔ r.1 = none ∧ r.2.tape = t := by
  unfold ending
  cases r.1 with
  | none => simp
  | some f => by_cases hf : f.leavesTape <;> simp [hf]

theorem ending_eq_offTape_iff {r : Option RunFault × Machine} {sf : Surface} :
    ending r = .offTape sf ↔ ∃ f, r.1 = some f ∧ f.leavesTape = true ∧ r.2.surface = sf := by
  unfold ending
  cases r.1 with
  | none => simp
  | some f => by_cases hf : f.leavesTape <;> simp [hf]

end Machine

/-- The cells, the tape and the input of a setup. -/
def Setup.setting (σ : Setup) : Setting := ⟨σ.width, σ.fixedSize, σ.input⟩

namespace Machine

section Started

variable {σ : Setup} {text : List Char}

/-- A machine that was just built stands at the start of its program, on a tape of its own length. -/
theorem stands_setting (hpos : 0 < σ.startSize) (hample : (start σ).Ample) :
    (start σ).Stands σ.setting σ 0 Tape.blank := by
  refine stands_start hpos rfl rfl ?_
  unfold Room
  have hfix : (start σ).setup.fixedSize = σ.setting.limit := rfl
  rw [hfix]
  cases σ.setting.limit with
  | none => exact .inr hample
  | some n => exact ⟨n, rfl, Nat.le_refl n⟩

theorem admits_setting (hpos : 0 < σ.startSize) : σ.setting.Admits Tape.blank := by
  refine .blank ((Setting.holds_iff _ _).mpr ⟨Int.le_refl 0, fun n hn => ?_⟩)
  have hn : σ.fixedSize = some n := hn
  rw [Setup.startSize, hn] at hpos
  exact Int.natCast_pos.mpr hpos

/-- The endings of a machine are those of the plain interpreter on its text. -/
theorem ending_iff_plain (hp : Program.ofChars text = .ok σ.program) (hpos : 0 < σ.startSize)
    (hample : (start σ).Ample) {e : Ending} (he : e ≠ .spent) :
    (∃ n, ending ((start σ).run n) = e) ↔
      ∃ n, Plain.run σ.setting text n ⟨0, Tape.blank⟩ = e := by
  obtain ⟨b, hcode, hlinked⟩ := Program.exists_block_of_ofChars hp
  rw [Plain.run_iff hcode (admits_setting hpos) he]
  exact ending_iff hlinked (stands_setting hpos hample) (fun _ _ _ => rfl) he

/-- A run that fails has left the tape, as the plain interpreter does, or has no time left. -/
theorem fault_cases_plain (hp : Program.ofChars text = .ok σ.program) (hpos : 0 < σ.startSize)
    (hample : (start σ).Ample) {n : Nat} {f : RunFault} (h : ((start σ).run n).1 = some f) :
    f = .timeLimit σ.limit ∨
      f.leavesTape = true ∧ ∃ n sf, Plain.run σ.setting text n ⟨0, Tape.blank⟩ = .offTape sf := by
  obtain ⟨b, hcode, hlinked⟩ := Program.exists_block_of_ofChars hp
  rcases fault_cases hlinked (stands_setting hpos hample) (fun _ _ _ => rfl) h with h | h
  · exact .inl h
  · obtain ⟨hleaves, fuel, sf, hexec⟩ := h
    obtain ⟨k, hk⟩ := (Plain.run_iff hcode (admits_setting hpos) (by simp)).mpr ⟨fuel, hexec⟩
    exact .inr ⟨hleaves, k, sf, hk⟩

/-- A machine runs on for ever exactly when the plain interpreter does. -/
theorem forever_iff_plain (hp : Program.ofChars text = .ok σ.program) (hpos : 0 < σ.startSize)
    (hample : (start σ).Ample) :
    (∀ n, ((start σ).run n).1 = some (.timeLimit σ.limit)) ↔
      ∀ n, Plain.run σ.setting text n ⟨0, Tape.blank⟩ = .spent := by
  constructor
  · intro h n
    by_contra hne
    obtain ⟨k, hk⟩ := (ending_iff_plain hp hpos hample hne).mpr ⟨n, rfl⟩
    apply hne
    rw [← hk, ending, h k]
    rfl
  · intro h n
    cases hrun : ((start σ).run n).1 with
    | none =>
      have hend := ending_eq_halted_iff.mpr ⟨hrun, rfl⟩
      obtain ⟨k, hk⟩ := (ending_iff_plain hp hpos hample (by simp)).mp ⟨n, hend⟩
      rw [h k] at hk
      cases hk
    | some f =>
      rcases fault_cases_plain hp hpos hample hrun with rfl | ⟨-, k, sf, hk⟩
      · rfl
      · rw [h k] at hk
        cases hk

end Started

/-- Only a growing tape can lack memory. -/
theorem ample_of_fixed {m : Machine} {k : Nat} (h : m.setup.fixedSize = some k) : m.Ample := by
  intro n
  induction n generalizing m with
  | zero =>
    intro f m' hrun
    cases hend : m.ended with
    | true => rw [runFor_of_ended hend] at hrun; cases hrun
    | false => rw [runFor_zero_of_not_ended hend] at hrun; cases hrun; rfl
  | succ n ih =>
    intro f m' hrun
    cases hend : m.ended with
    | true => rw [runFor_of_ended hend] at hrun; cases hrun
    | false =>
      cases hstep : m.step with
      | next m1 =>
        have hgo : m.Goes m1 := ⟨hend, hstep⟩
        rw [hgo.runFor_succ] at hrun
        exact ih (by rw [hgo.setup_eq]; exact h) f m' hrun
      | fault f1 m1 =>
        rw [runFor, hend, hstep] at hrun
        cases hrun
        by_contra hshort
        have hnone := fixedSize_of_shortage hstep (Bool.eq_true_of_not_eq_false hshort)
        rw [h] at hnone
        cases hnone

theorem startSize_pos {size : Option Int} (hpos : ∀ n ∈ size, 0 < n) :
    0 < (size.map Int.toNat).getD Setup.growingStart := by
  cases size with
  | none => decide
  | some n =>
    have := hpos n rfl
    show 0 < n.toNat
    omega

/-- **The optimised machine is the plain interpreter.** Let a machine be built that does not run
out of memory. It ends normally exactly when the plain interpreter does, with the same output, the
same head, as much input read and the same value in every cell. It leaves the tape exactly when
the plain interpreter does, again with the same output, input and cells. It runs on for ever
exactly when the plain interpreter does, and fails in no other way. And any text with the same
commands makes the same run. -/
theorem run_agrees_with_plain {text : String} {size : Option Int} {bits : Int}
    {input limit : String} {capacity : Nat} {m : Machine}
    (hbuild : build text size bits input limit capacity = .ok m) (hmemory : m.Ample) :
    ∃ w, Width.ofBits? bits = some w ∧
      let plain := fun n =>
        Plain.run ⟨w, size.map Int.toNat, input.toList.toArray⟩ text.toList n ⟨0, Tape.blank⟩
      (∀ t, (∃ n m', m.run n = (none, m') ∧ m'.tape = t) ↔ ∃ n, plain n = .halted t) ∧
      (∀ sf, (∃ n f m', m.run n = (some f, m') ∧ f.leavesTape = true ∧ m'.surface = sf) ↔
        ∃ n, plain n = .offTape sf) ∧
      ((∀ n, (m.run n).1 = some (.timeLimit limit)) ↔ ∀ n, plain n = .spent) ∧
      (∀ n f, (m.run n).1 = some f → f = .timeLimit limit ∨ f.leavesTape = true) ∧
      ∀ text' : String,
        text'.toList.filterMap Cmd.ofChar? = text.toList.filterMap Cmd.ofChar? →
        ∃ m₂, build text' size bits input limit capacity = .ok m₂ ∧
          ∀ n, m₂.run n = ((m.run n).1, { (m.run n).2 with setup := m₂.setup }) := by
  obtain ⟨w, p, hpos, hw, hp, hfits, rfl⟩ := build_eq_ok_iff.mp hbuild
  let σ : Setup := ⟨p, w, size.map Int.toNat, input.toList.toArray, limit, capacity⟩
  have hprogram : Program.ofChars text.toList = .ok σ.program := hp
  have hstart : 0 < σ.startSize := startSize_pos hpos
  refine ⟨w, hw, fun t => ?_, fun sf => ?_, forever_iff_plain hprogram hstart hmemory,
    fun n f hf => ?_, fun text' htext => ?_⟩
  · refine Iff.trans ?_ (ending_iff_plain hprogram hstart hmemory (by simp))
    refine exists_congr fun n => ?_
    rw [ending_eq_halted_iff]
    constructor
    · rintro ⟨m', hrun, htape⟩
      rw [hrun]
      exact ⟨rfl, htape⟩
    · rintro ⟨hnone, htape⟩
      exact ⟨_, Prod.ext hnone rfl, htape⟩
  · refine Iff.trans ?_ (ending_iff_plain hprogram hstart hmemory (by simp))
    refine exists_congr fun n => ?_
    rw [ending_eq_offTape_iff]
    refine exists_congr fun f => ?_
    constructor
    · rintro ⟨m', hrun, hrest⟩
      rw [hrun]
      exact ⟨rfl, hrest⟩
    · rintro ⟨hsome, hrest⟩
      exact ⟨_, Prod.ext hsome rfl, hrest⟩
  · exact (fault_cases_plain hprogram hstart hmemory hf).imp id And.left
  · obtain ⟨p', hp', hessence⟩ := Program.essence_eq_of_commands htext hp
    have hsame : SameProgram (start σ).setup { σ with program := p' } :=
      ⟨hessence, rfl, rfl, rfl, rfl, rfl⟩
    exact ⟨start { σ with program := p' },
      build_eq_ok_iff.mpr ⟨w, p', hpos, hw, hp', hfits, rfl⟩, runFor_rebase hsame⟩

/-- A loop that reads and writes, on two cells: the machine ends as the plain interpreter does. -/
theorem run_agrees_with_plain_echo :
    ∃ m, build "+[>,.<-] echo" (some 2) 8 "ab" "1" = .ok m ∧ m.Ample ∧
      ∃ n m', m.run n = (none, m') ∧ m'.output = "a" ∧ m'.head = 0 ∧ m'.inputPos = 1 := by
  refine ⟨_, rfl, ample_of_fixed rfl, ?_⟩
  obtain ⟨w, hw, hhalts, -⟩ :=
    @run_agrees_with_plain "+[>,.<-] echo" (some 2) 8 "ab" "1" Setup.usualCapacity _ rfl
      (ample_of_fixed rfl)
  cases hw
  obtain ⟨n, m', hrun, htape⟩ := (hhalts _).mpr ⟨20, rfl⟩
  refine ⟨n, m', hrun, ?_, ?_, ?_⟩
  · exact congrArg (fun t => t.output) htape
  · exact congrArg Tape.head htape
  · exact congrArg (fun t => t.inputPos) htape

end Machine

end TapeScript
