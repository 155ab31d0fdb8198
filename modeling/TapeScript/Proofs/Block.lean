import TapeScript.Tape.Machine
import Mathlib.Tactic

set_option autoImplicit false

/-! # Blocks of tape code

Bracketed code with its structure made explicit. A `Block` is a sequence of operations and loops,
`Block.code` the commands it stands for, and `Block.exec` what running it does to a tape: it halts,
leaves the tape, or spends its fuel. Fuel bounds the rounds of every single loop, so that the
meaning of a block is defined by recursion on its structure alone.

Operations carry a repetition count. `Block.units` splits every operation into single ones, which
changes neither the code (`Block.code_units`) nor the meaning (`Block.exec_units`), and two blocks
with the same code have the same units (`Block.units_eq_of_code_eq`). A block is therefore
determined by its code as far as its meaning goes.
-/

namespace TapeScript

/-! ## Tapes -/

/-- What a run shows apart from the place of the head: the cells, how much input was read, and the
output. -/
structure Surface where
  cells : Int → Nat
  inputPos : Nat
  output : String

/-- A surface with the head standing on it. -/
structure Tape extends Surface where
  head : Int

/-- What does not change during a run: the width of the cells, the length of the tape (endless if
there is none), and the input. -/
structure Setting where
  width : Width
  limit : Option Nat
  input : Array Char

theorem Width.modulus_pos (w : Width) : 0 < w.modulus := by
  cases w <;> decide

/-- The value of the input character at a position, which is zero behind the last one, and the
position behind it. -/
def inputAt (w : Width) (input : Array Char) (pos : Nat) : Nat × Nat :=
  match input[pos]? with
  | some c => (c.toNat % w.modulus, pos + 1)
  | none => (0, pos)

namespace Setting

/-- Whether a place is on the tape. -/
def holds (s : Setting) (i : Int) : Bool :=
  decide (0 ≤ i) && s.limit.all fun n => decide (i < (n : Int))

def read (s : Setting) (pos : Nat) : Nat × Nat := inputAt s.width s.input pos

theorem holds_iff (s : Setting) (i : Int) :
    s.holds i = true ↔ 0 ≤ i ∧ ∀ n, s.limit = some n → i < (n : Int) := by
  unfold holds
  cases s.limit with
  | none => simp
  | some n => simp

theorem read_lt (s : Setting) (pos : Nat) : (s.read pos).1 < s.width.modulus := by
  unfold read inputAt
  split
  · exact Nat.mod_lt _ s.width.modulus_pos
  · exact s.width.modulus_pos

/-- The tape has no gaps: what lies between two places on it is on it. -/
theorem holds_of_between {s : Setting} {i j k : Int} (hi : s.holds i) (hk : s.holds k)
    (hij : min i k ≤ j) (hjk : j ≤ max i k) : s.holds j := by
  rw [holds_iff] at *
  refine ⟨by omega, fun n hn => ?_⟩
  have h1 := hi.2 n hn
  have h2 := hk.2 n hn
  omega

end Setting

namespace Tape

/-- The tape before a run. -/
def blank : Tape := ⟨⟨fun _ => 0, 0, ""⟩, 0⟩

/-- The value under the head. -/
def current (t : Tape) : Nat := t.cells t.head

def goto (t : Tape) (i : Int) : Tape := { t with head := i }

def write (t : Tape) (i : Int) (v : Nat) : Tape := { t with cells := Function.update t.cells i v }

@[simp] theorem goto_head (t : Tape) (i : Int) : (t.goto i).head = i := rfl

@[simp] theorem goto_cells (t : Tape) (i : Int) : (t.goto i).cells = t.cells := rfl

@[simp] theorem goto_inputPos (t : Tape) (i : Int) : (t.goto i).inputPos = t.inputPos := rfl

@[simp] theorem goto_output (t : Tape) (i : Int) : (t.goto i).output = t.output := rfl

@[simp] theorem goto_goto (t : Tape) (i j : Int) : (t.goto i).goto j = t.goto j := rfl

@[simp] theorem goto_self (t : Tape) : t.goto t.head = t := rfl

@[simp] theorem write_head (t : Tape) (i : Int) (v : Nat) : (t.write i v).head = t.head := rfl

@[simp] theorem write_inputPos (t : Tape) (i : Int) (v : Nat) :
    (t.write i v).inputPos = t.inputPos := rfl

@[simp] theorem write_output (t : Tape) (i : Int) (v : Nat) : (t.write i v).output = t.output := rfl

@[simp] theorem write_cells (t : Tape) (i : Int) (v : Nat) :
    (t.write i v).cells = Function.update t.cells i v := rfl

@[simp] theorem write_write (t : Tape) (i : Int) (v w : Nat) :
    (t.write i v).write i w = t.write i w := by
  simp [write]

@[simp] theorem write_current (t : Tape) : t.write t.head t.current = t := by
  simp [write, current]

/-- Writing does not depend on where the head stands. -/
@[simp] theorem write_goto (t : Tape) (i j : Int) (v : Nat) :
    (t.goto j).write i v = (t.write i v).goto j := rfl

end Tape

/-- A tape as a run meets it: the head is on it, and every cell holds a value of its width. -/
structure Setting.Admits (s : Setting) (t : Tape) : Prop where
  head_on : s.holds t.head
  cells_lt : ∀ i, t.cells i < s.width.modulus

namespace Setting.Admits

variable {s : Setting} {t : Tape}

theorem write (h : s.Admits t) {i : Int} {v : Nat} (hv : v < s.width.modulus) :
    s.Admits (t.write i v) := by
  refine ⟨h.head_on, fun j => ?_⟩
  rw [Tape.write_cells]
  by_cases hj : j = i
  · rw [hj, Function.update_self]; exact hv
  · rw [Function.update_of_ne hj]; exact h.cells_lt j

theorem goto (h : s.Admits t) {i : Int} (hi : s.holds i) :
    s.Admits (t.goto i) := ⟨hi, h.cells_lt⟩

theorem blank (h : s.holds 0) : s.Admits Tape.blank :=
  ⟨h, fun _ => s.width.modulus_pos⟩

theorem current_lt (h : s.Admits t) : t.current < s.width.modulus :=
  h.cells_lt t.head

end Setting.Admits

/-! ## Operations -/

/-- A command that is no bracket, with the number of times it is repeated; reading and writing
stand alone. -/
inductive Op where
  | right (n : Nat)
  | left (n : Nat)
  | inc (n : Nat)
  | dec (n : Nat)
  | put
  | get
  deriving DecidableEq

namespace Op

variable {op : Op}

def cmd : Op → Cmd
  | .right _ => .right
  | .left _ => .left
  | .inc _ => .inc
  | .dec _ => .dec
  | .put => .put
  | .get => .get

def count : Op → Nat
  | .right n | .left n | .inc n | .dec n => n
  | .put | .get => 1

def code (op : Op) : Code := List.replicate op.count op.cmd

/-- How far the head is moved. -/
def shift : Op → Int
  | .right n => n
  | .left n => -(n : Int)
  | .inc _ | .dec _ | .put | .get => 0

/-- The tape after an operation, unless the head left it. -/
def act (s : Setting) (op : Op) (t : Tape) : Option Tape :=
  match op with
  | .right n => if s.holds (t.head + n) then some (t.goto (t.head + n)) else none
  | .left n => if s.holds (t.head - n) then some (t.goto (t.head - n)) else none
  | .inc n => some (t.write t.head ((t.current + n) % s.width.modulus))
  | .dec n =>
    some (t.write t.head
      ((t.current + (s.width.modulus - n % s.width.modulus)) % s.width.modulus))
  | .put => some { t with output := t.output.push (Machine.outputChar t.current) }
  | .get =>
    some { t.write t.head (s.read t.inputPos).1 with inputPos := (s.read t.inputPos).2 }

/-- The same operation in single steps. -/
def units : Op → List Op
  | .right n => List.replicate n (.right 1)
  | .left n => List.replicate n (.left 1)
  | .inc n => List.replicate n (.inc 1)
  | .dec n => List.replicate n (.dec 1)
  | .put => [.put]
  | .get => [.get]

/-- The operations that are not repeated. -/
def IsUnit (op : Op) : Prop := op.count = 1

theorem isUnit_of_mem_units {u : Op} (h : u ∈ op.units) : u.IsUnit := by
  cases op <;> simp only [units, List.mem_replicate, List.mem_singleton] at h
  all_goals first | rw [h.2] | rw [h]
  all_goals rfl

theorem cmd_of_mem_units {u : Op} (h : u ∈ op.units) : u.cmd = op.cmd := by
  cases op <;> simp only [units, List.mem_replicate, List.mem_singleton] at h
  all_goals first | rw [h.2] | rw [h]
  all_goals rfl

theorem length_units (op : Op) : op.units.length = op.count := by
  cases op <;> simp [units, count]

/-- Operations that are not repeated are told apart by their commands. -/
theorem eq_of_cmd_eq {o1 o2 : Op} (h1 : o1.IsUnit) (h2 : o2.IsUnit) (h : o1.cmd = o2.cmd) :
    o1 = o2 := by
  cases o1 <;> cases o2 <;> simp_all [cmd, IsUnit, count]

theorem code_of_isUnit (h : op.IsUnit) : op.code = [op.cmd] := by
  unfold code
  rw [show op.count = 1 from h]
  rfl

theorem cmd_ne_enter (op : Op) : op.cmd ≠ .enter := by
  cases op <;> simp [cmd]

theorem cmd_ne_leave (op : Op) : op.cmd ≠ .leave := by
  cases op <;> simp [cmd]

/-- An operation that succeeds keeps the head on the tape and the cells below the modulus. -/
theorem admits_of_act {s : Setting} {t t' : Tape} (ht : s.Admits t) (h : op.act s t = some t') :
    s.Admits t' := by
  cases op with
  | right n | left n =>
    simp only [act] at h
    split at h
    · next hn => cases h; exact ⟨hn, ht.cells_lt⟩
    · cases h
  | inc n => cases h; exact ht.write (Nat.mod_lt _ s.width.modulus_pos)
  | dec n => cases h; exact ht.write (Nat.mod_lt _ s.width.modulus_pos)
  | put => cases h; exact ⟨ht.head_on, ht.cells_lt⟩
  | get =>
    cases h
    have hw := ht.write (i := t.head) (s.read_lt t.inputPos)
    exact ⟨hw.head_on, hw.cells_lt⟩

/-- An operation moves the head by its shift. -/
theorem head_of_act {s : Setting} {t t' : Tape} (h : op.act s t = some t') :
    t'.head = t.head + op.shift := by
  cases op with
  | right n =>
    simp only [act] at h
    split at h
    · cases h; rfl
    · cases h
  | left n =>
    simp only [act] at h
    split at h
    · cases h; simp [shift]; omega
    · cases h
  | inc n => cases h; simp [shift]
  | dec n => cases h; simp [shift]
  | put => cases h; simp [shift]
  | get => cases h; simp [shift]

end Op

/-! ## Blocks -/

/-- Operations and loops in sequence. -/
inductive Block where
  | done
  | act (op : Op) (rest : Block)
  | loop (body rest : Block)
  deriving DecidableEq

/-- How running a block ends: it halts, its head leaves the tape, or a loop spends the fuel. Where
the head stands after it left the tape is not told. -/
inductive Ending where
  | halted (t : Tape)
  | offTape (s : Surface)
  | spent

namespace Ending

/-- Goes on after a run that halted. -/
def andThen (e : Ending) (next : Tape → Ending) : Ending :=
  match e with
  | .halted t => next t
  | .offTape s => .offTape s
  | .spent => .spent

@[simp] theorem halted_andThen (t : Tape) (next : Tape → Ending) :
    (Ending.halted t).andThen next = next t := rfl

@[simp] theorem offTape_andThen (s : Surface) (next : Tape → Ending) :
    (Ending.offTape s).andThen next = .offTape s := rfl

@[simp] theorem spent_andThen (next : Tape → Ending) : Ending.spent.andThen next = .spent := rfl

theorem andThen_assoc (e : Ending) (f g : Tape → Ending) :
    (e.andThen f).andThen g = e.andThen fun t => (f t).andThen g := by
  cases e <;> rfl

@[simp] theorem andThen_halted (e : Ending) : e.andThen .halted = e := by
  cases e <;> rfl

end Ending

namespace Block

variable {fuel : Nat} {t : Tape} {s : Setting} {b b1 b2 : Block}

/-- Repeats a body while the value under the head is not zero, testing it at most as often as the
fuel allows. -/
def iterate (body : Tape → Ending) : Nat → Tape → Ending
  | 0, _ => .spent
  | fuel + 1, t => if t.current = 0 then .halted t else (body t).andThen (iterate body fuel)

/-- Runs a block; every loop in it may make as many tests as there is fuel. -/
def exec (s : Setting) (fuel : Nat) : Block → Tape → Ending
  | .done, t => .halted t
  | .act op rest, t =>
    match op.act s t with
    | some t' => rest.exec s fuel t'
    | none => .offTape t.toSurface
  | .loop body rest, t => (iterate (body.exec s fuel) fuel t).andThen (rest.exec s fuel)

/-- The commands of a block. -/
def code : Block → Code
  | .done => []
  | .act op rest => op.code ++ rest.code
  | .loop body rest => .enter :: body.code ++ .leave :: rest.code

/-- One block after the other. -/
def append : Block → Block → Block
  | .done, c => c
  | .act op rest, c => .act op (rest.append c)
  | .loop body rest, c => .loop body (rest.append c)

instance : Append Block := ⟨append⟩

@[simp] theorem done_append (c : Block) : Block.done ++ c = c := rfl

@[simp] theorem act_append (op : Op) (b c : Block) : Block.act op b ++ c = .act op (b ++ c) := rfl

@[simp] theorem loop_append (body b c : Block) : Block.loop body b ++ c = .loop body (b ++ c) := rfl

@[simp] theorem code_append (b c : Block) : (b ++ c).code = b.code ++ c.code := by
  induction b with
  | done => rfl
  | act op rest ih => simp [code, ih]
  | loop body rest _ ih => simp [code, ih]

theorem exec_append (s : Setting) (fuel : Nat) (b c : Block) (t : Tape) :
    (b ++ c).exec s fuel t = (b.exec s fuel t).andThen (c.exec s fuel) := by
  induction b generalizing t with
  | done => rfl
  | act op rest ih =>
    simp only [act_append, exec]
    cases op.act s t with
    | none => rfl
    | some t' => exact ih t'
  | loop body rest _ ih =>
    simp only [loop_append, exec, Ending.andThen_assoc]
    congr 1
    funext t'
    exact ih t'

/-! ## Induction over the rounds of a loop -/

/-- What every round of a loop keeps holds when the loop halts, which it does on a zero. -/
theorem of_iterate_halted {body : Tape → Ending} (P : Tape → Prop)
    (hround : ∀ t t', P t → body t = .halted t' → P t') {t' : Tape} (ht : P t)
    (h : iterate body fuel t = .halted t') : P t' ∧ t'.current = 0 := by
  induction fuel generalizing t with
  | zero => cases h
  | succ fuel ih =>
    rw [iterate] at h
    split at h
    · next h0 => cases h; exact ⟨ht, h0⟩
    · cases hb : body t with
      | halted t1 => rw [hb] at h; exact ih (hround t t1 ht hb) h
      | offTape s => rw [hb] at h; cases h
      | spent => rw [hb] at h; cases h

/-- Two bodies that agree wherever the loop gets to make the same loop. -/
theorem iterate_congr {b1 b2 : Tape → Ending} (P : Tape → Prop)
    (heq : ∀ t, P t → b1 t = b2 t) (hround : ∀ t t', P t → b1 t = .halted t' → P t') :
    ∀ (fuel : Nat) (t : Tape), P t → iterate b1 fuel t = iterate b2 fuel t := by
  intro fuel
  induction fuel with
  | zero => intro t _; rfl
  | succ fuel ih =>
    intro t ht
    simp only [iterate]
    rw [← heq t ht]
    cases hb : b1 t with
    | halted t' => simp only [Ending.halted_andThen, ih t' (hround t t' ht hb)]
    | offTape s => rfl
    | spent => rfl

/-! ## Tapes during a run -/

theorem admits_of_exec (b : Block) {t' : Tape} (ht : s.Admits t) (h : b.exec s fuel t = .halted t') :
    s.Admits t' := by
  induction b generalizing t t' with
  | done => cases h; exact ht
  | act op rest ih =>
    rw [exec] at h
    cases hop : op.act s t with
    | none => rw [hop] at h; cases h
    | some t1 =>
      rw [hop] at h
      exact ih (Op.admits_of_act ht hop) h
  | loop body rest ihb ihr =>
    rw [exec] at h
    cases hl : iterate (body.exec s fuel) fuel t with
    | halted t1 =>
      rw [hl] at h
      exact ihr (of_iterate_halted s.Admits (fun _ _ ha hb => ihb ha hb) ht hl).1 h
    | offTape sf => rw [hl] at h; cases h
    | spent => rw [hl] at h; cases h

/-! ## Single steps -/

/-- Operations in front of a block. -/
def prepend (ops : List Op) (b : Block) : Block := ops.foldr .act b

@[simp] theorem prepend_nil (b : Block) : prepend [] b = b := rfl

@[simp] theorem prepend_cons (op : Op) (ops : List Op) (b : Block) :
    prepend (op :: ops) b = .act op (prepend ops b) := rfl

/-- The same block in single steps. -/
def units : Block → Block
  | .done => .done
  | .act op rest => prepend op.units rest.units
  | .loop body rest => .loop body.units rest.units

/-- Blocks in which no operation is repeated. -/
def IsUnit : Block → Prop
  | .done => True
  | .act op rest => op.IsUnit ∧ rest.IsUnit
  | .loop body rest => body.IsUnit ∧ rest.IsUnit

theorem isUnit_prepend {ops : List Op} (hops : ∀ u ∈ ops, u.IsUnit) (hb : b.IsUnit) :
    (prepend ops b).IsUnit := by
  induction ops with
  | nil => exact hb
  | cons op ops ih =>
    exact ⟨hops op (by simp), ih fun u hu => hops u (by simp [hu])⟩

theorem isUnit_units (b : Block) : b.units.IsUnit := by
  induction b with
  | done => trivial
  | act op rest ih => exact isUnit_prepend (fun u hu => Op.isUnit_of_mem_units hu) ih
  | loop body rest ihb ihr => exact ⟨ihb, ihr⟩

theorem code_prepend_units {c : Cmd} {ops : List Op} (hops : ∀ u ∈ ops, u.IsUnit ∧ u.cmd = c) :
    (prepend ops b).code = List.replicate ops.length c ++ b.code := by
  induction ops with
  | nil => rfl
  | cons op ops ih =>
    obtain ⟨hu, hc⟩ := hops op (by simp)
    rw [prepend_cons, code, Op.code_of_isUnit hu, ih fun u hu => hops u (by simp [hu]), hc,
      List.length_cons, List.replicate_succ]
    rfl

theorem code_units (b : Block) : b.units.code = b.code := by
  induction b with
  | done => rfl
  | act op rest ih =>
    rw [units, code_prepend_units
      (fun u hu => ⟨Op.isUnit_of_mem_units hu, Op.cmd_of_mem_units hu⟩), Op.length_units, ih]
    rfl
  | loop body rest ihb ihr => rw [units, code, code, ihb, ihr]

/-! ## Meaning in single steps -/

/-- Blocks that agree on admitted tapes agree behind an operation. -/
theorem exec_act_congr {c : Block} (h : ∀ t, s.Admits t → b.exec s fuel t = c.exec s fuel t)
    (op : Op) (ht : s.Admits t) :
    (Block.act op b).exec s fuel t = (Block.act op c).exec s fuel t := by
  simp only [exec]
  cases hop : op.act s t with
  | none => rfl
  | some t' => exact h t' (Op.admits_of_act ht hop)

/-- A family of operations in which one more is one and then the others can be split into single
steps. -/
theorem exec_replicate {f : Nat → Op}
    (hzero : ∀ b t, s.Admits t → (Block.act (f 0) b).exec s fuel t = b.exec s fuel t)
    (hsucc : ∀ n b t, s.Admits t →
      (Block.act (f 1) (.act (f n) b)).exec s fuel t = (Block.act (f (n + 1)) b).exec s fuel t)
    (n : Nat) (b : Block) (ht : s.Admits t) :
    (prepend (List.replicate n (f 1)) b).exec s fuel t = (Block.act (f n) b).exec s fuel t := by
  induction n generalizing t with
  | zero => exact (hzero b t ht).symm
  | succ n ih =>
    rw [List.replicate_succ, prepend_cons, ← hsucc n b t ht]
    exact exec_act_congr (fun t' ht' => ih ht') (f 1) ht

/-- A move is its first step and then the others: a first step that leaves the tape is no part of a
move that stays on it. -/
theorem exec_right_succ (n : Nat) (b : Block) (t : Tape) (ht : s.Admits t) :
    (Block.act (.right 1) (.act (.right n) b)).exec s fuel t
      = (Block.act (.right (n + 1)) b).exec s fuel t := by
  have hadd : t.head + (1 : Nat) + (n : Int) = t.head + ((n + 1 : Nat) : Int) := by
    push_cast; omega
  simp only [exec, Op.act]
  by_cases h1 : s.holds (t.head + (1 : Nat))
  · simp only [if_pos h1, Tape.goto_head, hadd]
    by_cases h2 : s.holds (t.head + ((n + 1 : Nat) : Int))
    · simp only [if_pos h2, Tape.goto_goto]
    · simp only [if_neg h2]
      rfl
  · have h2 : ¬ s.holds (t.head + ((n + 1 : Nat) : Int)) := fun h =>
      h1 (Setting.holds_of_between ht.head_on h (by push_cast; omega) (by push_cast; omega))
    simp only [if_neg h1, if_neg h2]

theorem exec_left_succ (n : Nat) (b : Block) (t : Tape) (ht : s.Admits t) :
    (Block.act (.left 1) (.act (.left n) b)).exec s fuel t
      = (Block.act (.left (n + 1)) b).exec s fuel t := by
  have hsub : t.head - (1 : Nat) - (n : Int) = t.head - ((n + 1 : Nat) : Int) := by
    push_cast; omega
  simp only [exec, Op.act]
  by_cases h1 : s.holds (t.head - (1 : Nat))
  · simp only [if_pos h1, Tape.goto_head, hsub]
    by_cases h2 : s.holds (t.head - ((n + 1 : Nat) : Int))
    · simp only [if_pos h2, Tape.goto_goto]
    · simp only [if_neg h2]
      rfl
  · have h2 : ¬ s.holds (t.head - ((n + 1 : Nat) : Int)) := fun h =>
      h1 (Setting.holds_of_between ht.head_on h (by push_cast; omega) (by push_cast; omega))
    simp only [if_neg h1, if_neg h2]

theorem exec_inc_succ (n : Nat) (b : Block) (t : Tape) :
    (Block.act (.inc 1) (.act (.inc n) b)).exec s fuel t
      = (Block.act (.inc (n + 1)) b).exec s fuel t := by
  simp only [exec, Op.act, Tape.current, Tape.write_head, Tape.write_cells, Function.update_self,
    Nat.mod_add_mod]
  rw [Tape.write_write, Nat.add_assoc, Nat.add_comm 1 n]

theorem exec_dec_succ (n : Nat) (b : Block) (t : Tape) :
    (Block.act (.dec 1) (.act (.dec n) b)).exec s fuel t
      = (Block.act (.dec (n + 1)) b).exec s fuel t := by
  simp only [exec, Op.act, Tape.current, Tape.write_head, Tape.write_cells, Function.update_self,
    Nat.mod_add_mod]
  rw [Tape.write_write]
  congr 2
  have hM := s.width.modulus_pos
  have h1 := Nat.mod_lt 1 hM
  have hn := Nat.mod_lt n hM
  have hs := Nat.mod_lt (n + 1) hM
  -- both sides are congruent to the value less `n + 1`
  generalize hx : n % s.width.modulus = x at *
  generalize hy : 1 % s.width.modulus = y at *
  have hc : (n + 1) % s.width.modulus = (x + y) % s.width.modulus := by
    rw [Nat.add_mod, hx, hy]
  by_cases hlt : x + y < s.width.modulus
  · rw [hc, Nat.mod_eq_of_lt hlt,
      show t.cells t.head + (s.width.modulus - y) + (s.width.modulus - x)
        = t.cells t.head + (s.width.modulus - (x + y)) + s.width.modulus by omega,
      Nat.add_mod_right]
  · have hsub : (x + y) % s.width.modulus = x + y - s.width.modulus := by
      rw [Nat.mod_eq_sub_mod (by omega), Nat.mod_eq_of_lt (by omega)]
    rw [hc, hsub]
    congr 1
    omega

theorem exec_inc_zero (b : Block) (t : Tape) (ht : s.Admits t) :
    (Block.act (.inc 0) b).exec s fuel t = b.exec s fuel t := by
  simp only [exec, Op.act, Nat.add_zero, Nat.mod_eq_of_lt ht.current_lt]
  rw [Tape.write_current]

theorem exec_dec_zero (b : Block) (t : Tape) (ht : s.Admits t) :
    (Block.act (.dec 0) b).exec s fuel t = b.exec s fuel t := by
  simp only [exec, Op.act, Nat.zero_mod, Nat.sub_zero, Nat.add_mod_right,
    Nat.mod_eq_of_lt ht.current_lt]
  rw [Tape.write_current]

theorem exec_prepend_units (op : Op) (b : Block) (ht : s.Admits t) :
    (prepend op.units b).exec s fuel t = (Block.act op b).exec s fuel t := by
  cases op with
  | right n =>
    refine exec_replicate (fun b t ht => ?_) exec_right_succ n b ht
    simp [exec, Op.act, ht.head_on]
  | left n =>
    refine exec_replicate (fun b t ht => ?_) exec_left_succ n b ht
    simp [exec, Op.act, ht.head_on]
  | inc n => exact exec_replicate exec_inc_zero (fun n b t _ => exec_inc_succ n b t) n b ht
  | dec n => exact exec_replicate exec_dec_zero (fun n b t _ => exec_dec_succ n b t) n b ht
  | put => rfl
  | get => rfl

/-- Single steps do what the block does. -/
theorem exec_units (b : Block) (ht : s.Admits t) : b.units.exec s fuel t = b.exec s fuel t := by
  induction b generalizing t with
  | done => rfl
  | act op rest ih =>
    rw [units, exec_prepend_units op rest.units ht]
    exact exec_act_congr (fun t' ht' => ih ht') op ht
  | loop body rest ihb ihr =>
    have hround : ∀ t t', s.Admits t → body.units.exec s fuel t = .halted t' → s.Admits t' :=
      fun _ _ ha hb => admits_of_exec body.units ha hb
    rw [units, exec, exec, iterate_congr s.Admits (fun t' ht' => ihb ht') hround fuel t ht]
    cases hl : iterate (body.exec s fuel) fuel t with
    | halted t1 =>
      exact ihr (of_iterate_halted s.Admits (fun _ _ ha hb => admits_of_exec body ha hb) ht hl).1
    | offTape sf => rfl
    | spent => rfl

/-! ## Reading code back -/

/-- The code ends here, or a bracket closes here that was not opened in it. -/
def Closed (code : Code) : Prop := code = [] ∨ ∃ rest, code = .leave :: rest

/-- A block without repetitions can be read off its code. -/
theorem eq_of_code_append (h1 : b1.IsUnit) (h2 : b2.IsUnit) {r1 r2 : Code} (hr1 : Closed r1)
    (hr2 : Closed r2) (h : b1.code ++ r1 = b2.code ++ r2) : b1 = b2 ∧ r1 = r2 := by
  induction b1 generalizing b2 r1 r2 with
  | done =>
    cases b2 with
    | done => exact ⟨rfl, h⟩
    | act op rest =>
      rw [code, code, Op.code_of_isUnit h2.1] at h
      rcases hr1 with rfl | ⟨r, rfl⟩
      · cases h
      · exact absurd (List.cons.inj h).1.symm op.cmd_ne_leave
    | loop body rest =>
      rw [code, code] at h
      rcases hr1 with rfl | ⟨r, rfl⟩
      · cases h
      · cases h
  | act op rest ih =>
    rw [code, Op.code_of_isUnit h1.1] at h
    cases b2 with
    | done =>
      rcases hr2 with rfl | ⟨r, rfl⟩
      · cases h
      · exact absurd (List.cons.inj h).1 op.cmd_ne_leave
    | act op2 rest2 =>
      rw [code, Op.code_of_isUnit h2.1] at h
      obtain ⟨hc, htail⟩ := List.cons.inj h
      obtain ⟨hb, hr⟩ := ih h1.2 h2.2 hr1 hr2 htail
      rw [Op.eq_of_cmd_eq h1.1 h2.1 hc, hb]
      exact ⟨rfl, hr⟩
    | loop body2 rest2 => exact absurd (List.cons.inj h).1 op.cmd_ne_enter
  | loop body rest ihb ihr =>
    rw [code] at h
    cases b2 with
    | done =>
      rcases hr2 with rfl | ⟨r, rfl⟩
      · cases h
      · cases h
    | act op2 rest2 =>
      rw [code, Op.code_of_isUnit h2.1] at h
      exact absurd (List.cons.inj h).1.symm op2.cmd_ne_enter
    | loop body2 rest2 =>
      rw [code] at h
      simp only [List.cons_append, List.append_assoc, List.cons.injEq, true_and] at h
      -- the body ends at the first bracket that closes nothing in it
      obtain ⟨hb, htail⟩ := ihb h1.1 h2.1 (.inr ⟨_, rfl⟩) (.inr ⟨_, rfl⟩) h
      obtain ⟨hr, hrest⟩ := ihr h1.2 h2.2 hr1 hr2 (List.cons.inj htail).2
      rw [hb, hr]
      exact ⟨rfl, hrest⟩

theorem units_eq_of_code_eq (h : b1.code = b2.code) : b1.units = b2.units := by
  refine (eq_of_code_append (isUnit_units b1) (isUnit_units b2) (.inl rfl) (.inl rfl) ?_).1
  rw [code_units, code_units, h]

/-- Blocks with the same code mean the same. -/
theorem exec_eq_of_code_eq (h : b1.code = b2.code) (ht : s.Admits t) :
    b1.exec s fuel t = b2.exec s fuel t := by
  rw [← exec_units b1 ht, ← exec_units b2 ht, units_eq_of_code_eq h]

end Block

end TapeScript
