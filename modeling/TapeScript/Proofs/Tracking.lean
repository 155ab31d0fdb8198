import TapeScript.Proofs.GadgetPlans
import TapeScript.Proofs.MachineRun
import Mathlib.Logic.Relation

set_option autoImplicit false

/-! # Where the head of a machine is

What a loop does cannot be told from its code, but how far it moves the head often can. In a block
that is level (`Block.Level`) no round of any loop moves it, so that wherever a run has got to, the
head is where the instructions before the program counter take it when they are read once, one
after the other (`Machine.OnTrack`). How far that is can be told from the code as well, since every
instruction remembers its place in it (`Program.shiftBefore_eq`).
-/

namespace TapeScript

namespace Block

/-! ## Level blocks -/

/-- How far a block moves the head, if no loop does. -/
def shift : Block → Int
  | .done => 0
  | .act op rest => op.shift + rest.shift
  | .loop _ rest => rest.shift

/-- No loop moves the head. -/
def Level : Block → Prop
  | .done => True
  | .act _ rest => rest.Level
  | .loop body rest => body.Level ∧ body.shift = 0 ∧ rest.Level

end Block

/-- The block of a plan that returns is level and moves the head to where the plan leaves it. -/
theorem Plan.level_block {h : Int} {p : Plan} (hret : p.Returns h) :
    (p.block h).Level ∧ h + (p.block h).shift = p.head h := by
  induction p generalizing h with
  | done => exact ⟨trivial, Int.add_zero h⟩
  | go cell rest ih =>
    obtain ⟨hlevel, hshift⟩ := ih hret
    refine ⟨hlevel, ?_⟩
    rw [head, ← hshift]
    simp only [block, travel, Block.shift, Op.shift]
    omega
  | act op rest ih =>
    obtain ⟨hlevel, hshift⟩ := ih hret
    refine ⟨hlevel, ?_⟩
    rw [head, ← hshift]
    simp only [block, Block.shift]
    omega
  | loop body rest ihb ihr =>
    obtain ⟨hbody, hback, hrest⟩ := hret
    obtain ⟨hlevelb, hshiftb⟩ := ihb hbody
    obtain ⟨hlevelr, hshiftr⟩ := ihr hrest
    exact ⟨⟨hlevelb, by omega, hlevelr⟩, hshiftr⟩

/-! ## Shifts in a program -/

theorem instrShift_op (op : Op) : instrShift (op.cmd, op.count) = op.shift := by
  cases op <;> rfl

/-- How far the instructions before an index move the head, taken one after the other. -/
def shiftBefore (is : List (Cmd × Nat)) (k : Nat) : Int := ((is.take k).map instrShift).sum

theorem shiftBefore_succ {is : List (Cmd × Nat)} {k : Nat} {i : Cmd × Nat} (h : is[k]? = some i) :
    shiftBefore is (k + 1) = shiftBefore is k + instrShift i := by
  unfold shiftBefore
  rw [List.take_add_one, h]
  simp

namespace Block

variable {p : Program} {k : Nat}

/-- A block moves the head by its shift. -/
theorem shiftBefore_size {b : Block} (h : b.At k p) (hlevel : b.Level) :
    shiftBefore (p.toList.map Instr.essence) (k + b.size)
      = shiftBefore (p.toList.map Instr.essence) k + b.shift := by
  induction b generalizing k with
  | done => simp [size, shift]
  | act op rest ih =>
    obtain ⟨hi, hrest⟩ := h.act
    have hend : k + (Block.act op rest).size = k + 1 + rest.size := by rw [size]; omega
    rw [hend, ih hrest hlevel, shiftBefore_succ hi, instrShift_op, shift]
    omega
  | loop body rest ihb ihr =>
    obtain ⟨hlevelb, hzero, hlevelr⟩ := hlevel
    obtain ⟨hopen, hbody, hclose, hrest⟩ := h.loop
    have hend : k + (Block.loop body rest).size = k + body.size + 2 + rest.size := by
      rw [size]; omega
    have hmid : k + body.size + 2 = k + 1 + body.size + 1 := by omega
    rw [hend, ihr hrest hlevelr, hmid, shiftBefore_succ hclose, ihb hbody hlevelb,
      shiftBefore_succ hopen, hzero, shift]
    simp [instrShift]

/-- Behind either bracket of a loop the head is where it was before it, and so is it behind the
partner. -/
theorem shiftBefore_partner {b : Block} (h : b.At k p) (hlevel : b.Level) {i : Nat}
    (hlow : k ≤ i) (hhigh : i < k + b.size) {c : Cmd} {j : Nat}
    (hi : (p.toList.map Instr.essence)[i]? = some (c, j)) (hc : c = .enter ∨ c = .leave) :
    shiftBefore (p.toList.map Instr.essence) (j + 1)
      = shiftBefore (p.toList.map Instr.essence) i := by
  induction b generalizing k with
  | done => rw [size] at hhigh; omega
  | act op rest ih =>
    obtain ⟨hop, hrest⟩ := h.act
    rw [size] at hhigh
    by_cases hik : i = k
    · subst hik
      rw [hop] at hi
      cases hi
      rcases hc with hc | hc
      · exact absurd hc op.cmd_ne_enter
      · exact absurd hc op.cmd_ne_leave
    · exact ih hrest hlevel (by omega) (by omega)
  | loop body rest ihb ihr =>
    obtain ⟨hlevelb, hzero, hlevelr⟩ := hlevel
    obtain ⟨hopen, hbody, hclose, hrest⟩ := h.loop
    have hstart := shiftBefore_succ hopen
    have hbodyend := shiftBefore_size hbody hlevelb
    have hlast := shiftBefore_succ hclose
    simp only [instrShift, Int.add_zero] at hstart hlast
    rw [hzero] at hbodyend
    rw [size] at hhigh
    -- the opening bracket, the body, the closing bracket, or what follows
    by_cases h1 : i = k
    · subst h1
      rw [hopen] at hi
      cases hi
      omega
    · by_cases h2 : i < k + 1 + body.size
      · exact ihb hbody hlevelb (by omega) h2
      · by_cases h3 : i = k + 1 + body.size
        · subst h3
          rw [hclose] at hi
          cases hi
          omega
        · exact ihr hrest hlevelr (by omega) (by omega)

end Block

/-! ## Machines on track -/

namespace Machine

/-- The head is where the instructions before the program counter move it to, taken one after the
other from the given place. -/
def OnTrack (start : Int) (m : Machine) : Prop :=
  ∃ k : Nat, m.pc = k ∧
    m.head = start + shiftBefore (m.setup.program.toList.map Instr.essence) k

variable {start : Int} {m m' : Machine} {b : Block}

theorem place?_natCast {length k k' : Nat} (h : place? length (k : Int) = some k') :
    k' = k ∧ k < length := by
  unfold place? at h
  rw [if_pos (by omega)] at h
  split at h
  · cases h
    omega
  · cases h

/-- One step keeps a machine with a level program on track: a jump goes where the head would also
be without it. -/
theorem OnTrack.goes (h : m.OnTrack start) (hb : b.At 0 m.setup.program)
    (hsize : m.setup.program.size = b.size) (hlevel : b.Level) (hgo : m.Goes m') :
    m'.OnTrack start := by
  obtain ⟨k, hpc, hhead⟩ := h
  obtain ⟨k', i, m1, hplace, hi, ⟨hsetup, hmoved, hjump⟩, rfl⟩ := hgo.spec
  rw [hpc] at hplace
  obtain ⟨rfl, hlt⟩ := place?_natCast hplace
  have hess : (m.setup.program.toList.map Instr.essence)[k']? = some i.essence := by
    rw [List.getElem?_map, Array.getElem?_toList, hi]
    rfl
  rcases hjump with hstay | ⟨hbracket, hpartner⟩
  · refine ⟨k' + 1, by rw [hstay, hpc]; rfl, ?_⟩
    rw [hsetup, shiftBefore_succ hess, hmoved, hhead]
    omega
  · refine ⟨i.arg + 1, by rw [hpartner]; rfl, ?_⟩
    have hstill : instrShift i.essence = 0 := by
      rcases hbracket with hc | hc <;> simp [instrShift, Instr.essence, hc]
    have hsame := Block.shiftBefore_partner hb hlevel (Nat.zero_le k')
      (by rw [Nat.zero_add, ← hsize]; exact hlt) hess hbracket
    rw [hsetup, hsame, hmoved, hstill, hhead, Int.add_zero]

/-- So does a run. -/
theorem OnTrack.reaches (h : m.OnTrack start) (hb : b.At 0 m.setup.program)
    (hsize : m.setup.program.size = b.size) (hlevel : b.Level)
    (hgo : Relation.ReflTransGen Goes m m') :
    m'.OnTrack start ∧ m'.setup = m.setup := by
  induction hgo with
  | refl => exact ⟨h, rfl⟩
  | tail _ hstep ih =>
    obtain ⟨htrack, hsetup⟩ := ih
    rw [← hsetup] at hb hsize ⊢
    exact ⟨htrack.goes hb hsize hlevel hstep, hstep.setup_eq⟩

/-- A run that ends normally has reached the end of the program. -/
theorem reaches_of_runFor {n : Nat} (h : m.runFor n = (none, m')) :
    ∃ m1, Relation.ReflTransGen Goes m m1 ∧ m1.ended = true ∧ m'.head = m1.head := by
  induction n generalizing m with
  | zero =>
    cases hend : m.ended with
    | true =>
      rw [runFor_of_ended hend] at h
      cases h
      exact ⟨m, .refl, hend, rfl⟩
    | false => rw [runFor_zero_of_not_ended hend] at h; cases h
  | succ n ih =>
    cases hend : m.ended with
    | true =>
      rw [runFor_of_ended hend] at h
      cases h
      exact ⟨m, .refl, hend, rfl⟩
    | false =>
      cases hstep : m.step with
      | fault f m1 => rw [runFor, hend, hstep] at h; cases h
      | next m1 =>
        have hgo : m.Goes m1 := ⟨hend, hstep⟩
        rw [hgo.runFor_succ] at h
        obtain ⟨m2, hreach, hrest⟩ := ih h
        exact ⟨m2, .head hgo hreach, hrest⟩

/-- A level program that ends has moved the head by its shift. -/
theorem head_of_ended (h : m.OnTrack start) (hb : b.At 0 m.setup.program)
    (hsize : m.setup.program.size = b.size) (hlevel : b.Level) (hend : m.ended = true) :
    m.head = start + b.shift := by
  obtain ⟨k, hpc, hhead⟩ := h
  have hk : m.setup.program.size ≤ k := by
    unfold ended at hend
    rw [hpc] at hend
    have := of_decide_eq_true hend
    omega
  have htotal := Block.shiftBefore_size hb hlevel
  rw [hhead]
  unfold shiftBefore at htotal ⊢
  rw [List.take_of_length_le (by simp; omega)] at htotal ⊢
  simpa using htotal

end Machine

/-! ## Places in emitted code -/

/-- How far code moves the head, taken one command after the other. -/
def Code.shift (code : Code) : Int := (code.map fun c => instrShift (c, 1)).sum

theorem Code.shift_append (c d : Code) : (c ++ d).shift = c.shift + d.shift := by
  simp [Code.shift]

theorem Code.shift_replicate (n : Nat) (c : Cmd) :
    Code.shift (List.replicate n c) = instrShift (c, n) := by
  cases c <;> simp [Code.shift, instrShift]

namespace Program

/-- The instructions stand one behind the other, from the given place on. -/
def Placed : Nat → List Instr → Prop
  | _, [] => True
  | n, i :: is => i.pos = n ∧ Placed (n + i.arg) is

/-- The commands of emitted code: every character is one. -/
theorem commands_code (code : Code) (n : Nat) :
    ((code.map Cmd.toChar).zipIdx n).filterMap
        (fun (c, i) => (Cmd.ofChar? c).map fun cmd => (i, cmd))
      = (code.zipIdx n).map Prod.swap := by
  induction code generalizing n with
  | nil => rfl
  | cons c cs ih =>
    rw [List.map_cons, List.zipIdx_cons, List.zipIdx_cons, List.map_cons, ← ih]
    simp

theorem placed_group (code : Code) (n : Nat) :
    Placed n (group ((code.zipIdx n).map Prod.swap)) := by
  induction code generalizing n with
  | nil => trivial
  | cons c cs ih =>
    have hrest := ih (n + 1)
    rw [List.zipIdx_cons, List.map_cons, group, List.foldr_cons, ← group]
    unfold addCommand
    cases hg : group ((cs.zipIdx (n + 1)).map Prod.swap) with
    | nil => exact ⟨rfl, trivial⟩
    | cons next rest =>
      rw [hg] at hrest
      simp only
      split
      · refine ⟨rfl, ?_⟩
        have hplace : n + (next.arg + 1) = n + 1 + next.arg := by omega
        show Placed (n + (next.arg + 1)) rest
        rw [hplace]
        exact hrest.2
      · exact ⟨rfl, hrest⟩

/-- The instructions before one that stands in its place are as many commands as its place says. -/
theorem Placed.pos_eq {n k : Nat} {is : List Instr} (h : Placed n is) {i : Instr}
    (hi : is[k]? = some i) : i.pos = n + ((is.take k).map Instr.arg).sum := by
  induction is generalizing n k with
  | nil => cases hi
  | cons j js ih =>
    obtain ⟨hpos, hrest⟩ := h
    cases k with
    | zero => cases hi; simpa using hpos
    | succ k =>
      rw [List.getElem?_cons_succ] at hi
      rw [ih hrest hi]
      simp only [List.take_succ_cons, List.map_cons, List.sum_cons]
      omega

end Program

/-- Linking a block does not change how far its instructions move the head. -/
theorem Block.map_instrShift_linked (b : Block) (k : Nat) :
    (b.linked k).map instrShift = b.unlinked.map instrShift := by
  induction b generalizing k with
  | done => rfl
  | act op rest ih => simp [linked, unlinked, ih]
  | loop body rest ihb ihr => simp [linked, unlinked, ihb, ihr, instrShift]

namespace Program

variable {code : Code} {p : Program} {k : Nat} {i : Instr}

theorem shift_flatMap (is : List Instr) :
    Code.shift (is.flatMap fun i => List.replicate i.arg i.cmd)
      = (is.map fun i => instrShift i.essence).sum := by
  induction is with
  | nil => rfl
  | cons i is ih =>
    rw [List.flatMap_cons, Code.shift_append, ih, Code.shift_replicate, List.map_cons,
      List.sum_cons]
    rfl

/-- The runs a program is made of: they stand one behind the other and make up its code. -/
theorem exists_runs (h : ofText code.text = .ok p) :
    ∃ g : List Instr, Placed 0 g ∧ (∀ i ∈ g, i.cmd.repeats = false → i.arg = 1) ∧
      (g.flatMap fun i => List.replicate i.arg i.cmd) = code ∧
      p.toList.map (fun i => (i.cmd, i.pos)) = g.map (fun i => (i.cmd, i.pos)) ∧
      (p.toList.map Instr.essence).map instrShift = (g.map Instr.essence).map instrShift := by
  have htext : code.text.toList = code.map Cmd.toChar := String.toList_ofList
  have hcommands : commands (code.map Cmd.toChar) = (code.zipIdx 0).map Prod.swap :=
    commands_code code 0
  unfold ofText ofChars at h
  rw [htext, hcommands] at h
  have hone : ∀ i ∈ group ((code.zipIdx 0).map Prod.swap), i.cmd.repeats = false → i.arg = 1 :=
    fun i hi => arg_of_mem_group hi
  obtain ⟨b, hunlinked, hlinked⟩ := exists_block_of_link hone h
  refine ⟨_, placed_group code 0, hone, ?_, ?_, ?_⟩
  · rw [flatMap_group, List.map_map]
    simp [Function.comp_def]
  · unfold link at h
    cases hf : (group ((code.zipIdx 0).map Prod.swap)).foldlM Linking.add {} with
    | error f => rw [hf] at h; cases h
    | ok l =>
      rw [hf] at h
      have hfin : l.finish = .ok p := h
      unfold Linking.finish at hfin
      split at hfin
      · cases hfin
        simpa using map_place_link hf
      · cases hfin
  · rw [hlinked, hunlinked, Block.map_instrShift_linked]

/-- The code up to the place of an instruction is that of the runs before it. -/
theorem exists_run_at (h : ofText code.text = .ok p) (hi : p[k]? = some i) :
    ∃ before arg after, code = before ++ List.replicate arg i.cmd ++ after ∧
      before.length = i.pos ∧ (i.cmd.repeats = false → arg = 1) ∧
      Code.shift before = shiftBefore (p.toList.map Instr.essence) k := by
  obtain ⟨g, hplaced, hone, hcode, hplace, hshifts⟩ := exists_runs h
  obtain ⟨i0, hi0, hsame⟩ : ∃ i0, g[k]? = some i0 ∧ (i0.cmd, i0.pos) = (i.cmd, i.pos) := by
    have hget := congrArg (fun l => l[k]?) hplace
    simp only [List.getElem?_map, Array.getElem?_toList, hi, Option.map_some] at hget
    exact Option.map_eq_some_iff.mp hget.symm
  have hcmd : i0.cmd = i.cmd := congrArg Prod.fst hsame
  have hpos : i0.pos = i.pos := congrArg Prod.snd hsame
  have hsplit : g = g.take k ++ i0 :: g.drop (k + 1) := by
    conv_lhs => rw [← List.take_append_drop k g, List.drop_eq_getElem?_toList_append, hi0]
    rfl
  refine ⟨(g.take k).flatMap fun i => List.replicate i.arg i.cmd, i0.arg,
    (g.drop (k + 1)).flatMap fun i => List.replicate i.arg i.cmd, ?_, ?_, ?_, ?_⟩
  · rw [← hcode, ← hcmd]
    conv_lhs => rw [hsplit, List.flatMap_append, List.flatMap_cons]
    rw [List.append_assoc]
  · rw [← hpos, hplaced.pos_eq hi0]
    simp [List.length_flatMap]
  · rw [← hcmd]
    exact hone i0 (List.mem_of_getElem? hi0)
  · have hshift : shiftBefore (p.toList.map Instr.essence) k
        = ((g.take k).map fun i => instrShift i.essence).sum := by
      unfold shiftBefore
      rw [List.map_take, hshifts, List.map_map, ← List.map_take]
      rfl
    rw [hshift, shift_flatMap]

/-- Before an instruction the program has moved the head as far as the code before the
instruction's place. -/
theorem shiftBefore_eq (h : ofText code.text = .ok p) (hi : p[k]? = some i) :
    shiftBefore (p.toList.map Instr.essence) k = Code.shift (code.take i.pos) := by
  obtain ⟨before, arg, after, rfl, hlen, -, hshift⟩ := exists_run_at h hi
  rw [← hshift, ← hlen, List.append_assoc, List.take_left]

/-- A bracket stands in the code at the place its instruction remembers. -/
theorem bracket_at_pos (h : ofText code.text = .ok p) (hi : p[k]? = some i)
    (hc : i.cmd = .enter ∨ i.cmd = .leave) : code[i.pos]? = some i.cmd := by
  obtain ⟨before, arg, after, rfl, hlen, hone, -⟩ := exists_run_at h hi
  have harg : arg = 1 := hone (by rcases hc with hc | hc <;> rw [hc] <;> rfl)
  rw [harg, ← hlen]
  simp

end Program

end TapeScript
