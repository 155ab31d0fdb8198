import TapeScript.Proofs.Evaluation
import TapeScript.Proofs.GadgetPlans

set_option autoImplicit false

/-! # What the gadgets do

The plan of each gadget is run on a tape that holds its cells. All loops of the gadgets count a cell
down, and a cell holds less than the modulus, so that they end whenever every loop may make as many
tests as there are values (`Plan.Enough`). What a gadget does is then told by the cell it stores to
and by the cells it leaves alone (`Plan.Computes`).
-/

namespace TapeScript

theorem Width.one_lt_modulus (w : Width) : 1 < w.modulus := by
  cases w <;> decide

@[simp] theorem Width.one_mod_modulus (w : Width) : 1 % w.modulus = 1 :=
  Nat.mod_eq_of_lt w.one_lt_modulus

namespace Tape

/-- Tapes that show the same are the same. -/
theorem ext_cells {t u : Tape} (hpos : t.inputPos = u.inputPos) (hout : t.output = u.output)
    (hhead : t.head = u.head) (hcells : ∀ c, t.cells c = u.cells c) : t = u := by
  obtain ⟨⟨cells, pos, out⟩, head⟩ := t
  obtain ⟨⟨cells', pos', out'⟩, head'⟩ := u
  cases hpos
  cases hout
  cases hhead
  cases funext hcells
  rfl

@[simp] theorem write_self (t : Tape) (i : Int) : t.write i (t.cells i) = t := by
  simp [write]

theorem current_goto (t : Tape) (i : Int) : (t.goto i).current = t.cells i := rfl

/-- The second tape differs from the first at most in the listed cells, apart from the place of the
head. -/
structure SameOff (S : List Int) (t u : Tape) : Prop where
  inputPos : u.inputPos = t.inputPos
  output : u.output = t.output
  cells : ∀ c, c ∉ S → u.cells c = t.cells c

namespace SameOff

variable {S T : List Int} {t u v : Tape}

theorem refl (S : List Int) (t : Tape) : SameOff S t t := ⟨rfl, rfl, fun _ _ => rfl⟩

theorem trans (h1 : SameOff S t u) (h2 : SameOff S u v) : SameOff S t v :=
  ⟨h2.inputPos.trans h1.inputPos, h2.output.trans h1.output,
    fun c hc => (h2.cells c hc).trans (h1.cells c hc)⟩

theorem mono (h : SameOff S t u) (hsub : S ⊆ T) : SameOff T t u :=
  ⟨h.inputPos, h.output, fun c hc => h.cells c fun hmem => hc (hsub hmem)⟩

theorem write {i : Int} (h : SameOff S t u) (hi : i ∈ S) (v : Nat) : SameOff S t (u.write i v) := by
  refine ⟨h.inputPos, h.output, fun c hc => ?_⟩
  have hne : c ≠ i := fun heq => hc (heq ▸ hi)
  rw [write_cells, Function.update_of_ne hne]
  exact h.cells c hc

theorem goto (h : SameOff S t u) (i : Int) : SameOff S t (u.goto i) :=
  ⟨h.inputPos, h.output, h.cells⟩

end SameOff

end Tape

/-- All cells hold values of their width. -/
def Setting.Bounds (s : Setting) (t : Tape) : Prop := ∀ c, t.cells c < s.width.modulus

namespace Setting.Bounds

variable {s : Setting} {t : Tape}

theorem write (h : s.Bounds t) {v : Nat} (hv : v < s.width.modulus) (i : Int) :
    s.Bounds (t.write i v) := by
  intro c
  rw [Tape.write_cells]
  by_cases hc : c = i
  · rw [hc, Function.update_self]; exact hv
  · rw [Function.update_of_ne hc]; exact h c

theorem zero (h : s.Bounds t) (i : Int) : s.Bounds (t.write i 0) := h.write s.width.modulus_pos i

theorem one (h : s.Bounds t) (i : Int) : s.Bounds (t.write i 1) := h.write s.width.one_lt_modulus i

theorem goto (h : s.Bounds t) (i : Int) : s.Bounds (t.goto i) := h

end Setting.Bounds

/-- The tape has the cells, which are distinct. -/
def Setting.Provides (s : Setting) (cells : List Int) : Prop :=
  cells.Nodup ∧ ∀ c ∈ cells, s.holds c

@[grind =] theorem Setting.provides_cons {s : Setting} {c : Int} {cells : List Int} :
    s.Provides (c :: cells) ↔ c ∉ cells ∧ s.holds c ∧ s.Provides cells := by
  simp only [Provides, List.nodup_cons, List.forall_mem_cons]
  tauto

@[grind .] theorem Setting.provides_nil (s : Setting) : s.Provides [] := by
  simp [Provides]

theorem Setting.Provides.sub {s : Setting} {cells cells' : List Int} (h : s.Provides cells)
    (hd : cells'.Nodup) (hsub : cells' ⊆ cells) : s.Provides cells' :=
  ⟨hd, fun c hc => h.2 c (hsub hc)⟩

theorem Setting.Provides.swap {s : Setting} {a b : Int} {cells : List Int}
    (h : s.Provides (a :: b :: cells)) : s.Provides (b :: a :: cells) := by
  grind

namespace Plan

variable {s : Setting} {fuel : Nat} {t : Tape}
variable {cell src dest temp temp1 temp2 : Int}

theorem bounds_of_exec (p : Plan) {t' : Tape} (ht : s.Bounds t)
    (h : p.exec s fuel t = .halted t') : s.Bounds t' := by
  induction p generalizing t t' with
  | done => cases h; exact ht
  | go cell rest ih =>
    rw [exec] at h
    split at h
    · exact ih (ht.goto cell) h
    · cases h
  | act op rest ih =>
    rw [exec] at h
    cases hop : op.act s t with
    | none => rw [hop] at h; cases h
    | some t1 =>
      rw [hop] at h
      refine ih ?_ h
      cases op with
      | right n => simp only [Op.act] at hop; split at hop <;> cases hop; exact ht
      | left n => simp only [Op.act] at hop; split at hop <;> cases hop; exact ht
      | inc n => cases hop; exact ht.write (Nat.mod_lt _ s.width.modulus_pos) _
      | dec n => cases hop; exact ht.write (Nat.mod_lt _ s.width.modulus_pos) _
      | put => cases hop; exact ht
      | get => cases hop; exact ht.write (s.read_lt t.inputPos) _
  | loop body rest ihb ihr =>
    rw [exec] at h
    cases hl : Block.iterate (body.exec s fuel) fuel t with
    | halted t1 =>
      rw [hl] at h
      exact ihr (Block.of_iterate_halted s.Bounds (fun _ _ ha hb => ihb ha hb) ht hl).1 h
    | offTape sf => rw [hl] at h; cases h
    | spent => rw [hl] at h; cases h

/-! ## Steps of a plan -/

theorem exec_go (hc : s.holds cell) (rest : Plan) (t : Tape) :
    (Plan.go cell rest).exec s fuel t = rest.exec s fuel (t.goto cell) := by
  rw [exec, if_pos hc]

theorem exec_inc (n : Nat) (rest : Plan) (t : Tape) : (Plan.act (.inc n) rest).exec s fuel t
    = rest.exec s fuel (t.write t.head ((t.current + n) % s.width.modulus)) := rfl

/-- Counting down a cell that is not zero. -/
theorem exec_dec {k : Nat} (rest : Plan) (hk : t.current = k + 1) (hlt : k + 1 < s.width.modulus) :
    (Plan.act (.dec 1) rest).exec s fuel t = rest.exec s fuel (t.write t.head k) := by
  have hval : (t.current + (s.width.modulus - 1 % s.width.modulus)) % s.width.modulus = k := by
    have hpos := s.width.modulus_pos
    rw [s.width.one_mod_modulus, hk, show k + 1 + (s.width.modulus - 1) = k + s.width.modulus by omega,
      Nat.add_mod_right, Nat.mod_eq_of_lt (by omega)]
  rw [exec, Op.act, hval]

/-- A loop at a cell goes back to it after every round. -/
theorem exec_loopAt (hc : s.holds cell) (body : Plan) (t : Tape) :
    (loopAt cell body).exec s fuel t
      = Block.iterate (fun t => (body.exec s fuel t).andThen fun t' => .halted (t'.goto cell)) fuel
          (t.goto cell) := by
  have hround : (body ++ Plan.go cell .done).exec s fuel
      = fun t => (body.exec s fuel t).andThen fun t' => .halted (t'.goto cell) := by
    funext a
    rw [exec_append]
    congr 1
    funext t'
    exact exec_go hc .done t'
  rw [loopAt, exec_go hc, exec, hround]
  exact Ending.andThen_halted _

/-! ## Counting loops -/

/-- A loop whose rounds take a tape with the counter at `k + 1` to the one with the counter at `k`
runs the counter down to zero. -/
theorem iterate_countdown {body : Tape → Ending} (f : Nat → Tape) {a : Nat}
    (hcurrent : ∀ k, k ≤ a → (f k).current = k)
    (hround : ∀ k, k < a → body (f (k + 1)) = .halted (f k)) {n : Nat} (hn : a < n) :
    Block.iterate body n (f a) = .halted (f 0) := by
  induction a generalizing n with
  | zero =>
    obtain ⟨n, rfl⟩ : ∃ n', n = n' + 1 := ⟨n - 1, by omega⟩
    rw [Block.iterate, if_pos (hcurrent 0 (Nat.le_refl 0))]
  | succ a ih =>
    obtain ⟨n, rfl⟩ : ∃ n', n = n' + 1 := ⟨n - 1, by omega⟩
    have hne : (f (a + 1)).current ≠ 0 := by rw [hcurrent (a + 1) (Nat.le_refl _)]; omega
    rw [Block.iterate, if_neg hne, hround a (Nat.lt_succ_self a), Ending.halted_andThen]
    exact ih (fun k hk => hcurrent k (by omega)) (fun k hk => hround k (by omega)) (by omega)

/-- Every loop may make as many tests as a cell has values. -/
def Enough (s : Setting) (fuel : Nat) : Prop := s.width.modulus ≤ fuel

theorem Enough.exists_add_two (h : Enough s fuel) : ∃ n, fuel = n + 2 := by
  have hlt := s.width.one_lt_modulus
  unfold Enough at h
  exact ⟨fuel - 2, by omega⟩

section Parts

variable (hfuel : Enough s fuel) (ht : s.Bounds t)

include hfuel ht

theorem exec_clear (hc : s.holds cell) :
    (clear cell).exec s fuel t = .halted ((t.write cell 0).goto cell) := by
  have hlt := ht cell
  have hstart : t.goto cell = (t.write cell (t.cells cell)).goto cell := by rw [Tape.write_self]
  rw [clear, exec_go hc, exec, hstart,
    iterate_countdown (fun k => (t.write cell k).goto cell) (a := t.cells cell)
      (fun k _ => by simp [Tape.current]) ?_ (Nat.lt_of_lt_of_le hlt hfuel)]
  · rfl
  · intro k hk
    rw [exec_dec (k := k) .done (by simp [Tape.current]) (by omega)]
    simp [exec]

theorem exec_setCell (hc : s.holds cell) (value : Nat) :
    (setCell cell value).exec s fuel t
      = .halted ((t.write cell (value % s.width.modulus)).goto cell) := by
  rw [setCell, exec_append, exec_clear hfuel ht hc, Ending.halted_andThen, exec_go hc, exec_inc]
  simp [exec, Tape.current]

theorem exec_setOne (hc : s.holds cell) :
    (setCell cell 1).exec s fuel t = .halted ((t.write cell 1).goto cell) := by
  rw [exec_setCell hfuel ht hc, s.width.one_mod_modulus]

/-! ## Copies -/

/-- The first loop of a copy: the source is emptied into both other cells. -/
theorem exec_spread (hc : s.Provides [src, dest, temp]) (hzero : t.cells dest = 0) (hzero' : t.cells temp = 0) :
    (loopAt src (.act (.dec 1) (.go dest (.act (.inc 1) (.go temp (.act (.inc 1) .done)))))).exec
        s fuel t
      = .halted ((((t.write dest (t.cells src)).write temp (t.cells src)).write src 0).goto src) := by
  have hlt := ht src
  obtain ⟨hsd, hst, hdt, hsrc, hdest, htemp⟩ : src ≠ dest ∧ src ≠ temp ∧ dest ≠ temp ∧
      s.holds src ∧ s.holds dest ∧ s.holds temp := by grind
  let f : Nat → Tape := fun k =>
    (((t.write dest (t.cells src - k)).write temp (t.cells src - k)).write src k).goto src
  have hstart : t.goto src = f (t.cells src) := by
    refine Tape.ext_cells rfl rfl rfl fun c => ?_
    simp only [f, Tape.goto_cells, Tape.write_cells, Function.update_apply, Nat.sub_self]
    split_ifs <;> simp_all
  have hend : f 0 = (((t.write dest (t.cells src)).write temp (t.cells src)).write src 0).goto src :=
    rfl
  rw [exec_loopAt hsrc, hstart, ← hend]
  refine iterate_countdown f (fun k _ => by simp [f, Tape.current]) (fun k hk => ?_)
    (Nat.lt_of_lt_of_le hlt hfuel)
  rw [exec_dec (k := k) _ (by simp [f, Tape.current]) (by omega), exec_go hdest, exec_inc,
    exec_go htemp, exec_inc, exec, Ending.halted_andThen]
  congr 1
  have hnext : (t.cells src - (k + 1) + 1) % s.width.modulus = t.cells src - k := by
    rw [Nat.mod_eq_of_lt (by omega)]
    omega
  refine Tape.ext_cells rfl rfl rfl fun c => ?_
  simp only [f, Tape.current, Tape.goto_cells, Tape.goto_head, Tape.write_cells,
    Tape.write_goto, Function.update_apply]
  split_ifs <;> simp_all

omit ht in
/-- The second loop of a copy: the source is refilled. -/
theorem exec_refill {a : Nat} (ha : a < s.width.modulus) (hne : src ≠ temp)
    (hsrc : s.holds src) (htemp : s.holds temp) (hzero : t.cells src = 0) (hfull : t.cells temp = a) :
    (loopAt temp (.act (.dec 1) (.go src (.act (.inc 1) .done)))).exec s fuel t
      = .halted (((t.write src a).write temp 0).goto temp) := by
  let f : Nat → Tape := fun k => ((t.write src (a - k)).write temp k).goto temp
  have hstart : t.goto temp = f a := by
    refine Tape.ext_cells rfl rfl rfl fun c => ?_
    simp only [f, Tape.goto_cells, Tape.write_cells, Function.update_apply, Nat.sub_self]
    split_ifs <;> simp_all
  have hend : f 0 = ((t.write src a).write temp 0).goto temp := rfl
  rw [exec_loopAt htemp, hstart, ← hend]
  refine iterate_countdown f (fun k _ => by simp [f, Tape.current]) (fun k hk => ?_)
    (Nat.lt_of_lt_of_le ha hfuel)
  rw [exec_dec (k := k) _ (by simp [f, Tape.current]) (by omega), exec_go hsrc, exec_inc, exec,
    Ending.halted_andThen]
  congr 1
  have hnext : (a - (k + 1) + 1) % s.width.modulus = a - k := by
    rw [Nat.mod_eq_of_lt (by omega)]
    omega
  refine Tape.ext_cells rfl rfl rfl fun c => ?_
  simp only [f, Tape.current, Tape.goto_cells, Tape.goto_head, Tape.write_cells,
    Tape.write_goto, Function.update_apply]
  split_ifs <;> simp_all

theorem exec_copy (hc : s.Provides [src, dest, temp]) : (copy src dest temp).exec s fuel t
    = .halted (((t.write dest (t.cells src)).write temp 0).goto temp) := by
  obtain ⟨hsd, hst, hdt, hsrc, hdest, htemp⟩ : src ≠ dest ∧ src ≠ temp ∧ dest ≠ temp ∧
      s.holds src ∧ s.holds dest ∧ s.holds temp := by grind
  have ht1 := (ht.zero dest).goto dest
  have ht2 := (ht1.zero temp).goto temp
  rw [copy, exec_append, exec_append, exec_append, exec_clear hfuel ht hdest,
    Ending.halted_andThen, exec_clear hfuel ht1 htemp, Ending.halted_andThen,
    exec_spread hfuel ht2 hc (by simp [hdt]) (by simp), Ending.halted_andThen,
    exec_refill hfuel (ht src) hst hsrc htemp (by simp) (by simp [hst, hsd, hst.symm])]
  congr 1
  refine Tape.ext_cells rfl rfl rfl fun c => ?_
  simp only [Tape.goto_cells, Tape.write_cells, Tape.write_goto, Function.update_apply]
  split_ifs <;> simp_all

/-! ## Decisions -/

/-- What a branch does in the end, whichever side was taken. -/
def tidy (temp1 temp2 : Int) (t : Tape) : Ending :=
  .halted (((t.write temp1 0).write temp2 0).goto temp1)

/-- One side of a decision: it is run once, since both scratch cells are zero behind it. -/
theorem exec_once (h1 : s.holds temp1) (h2 : s.holds temp2) (hcell : cell = temp1 ∨ cell = temp2)
    (hne : t.cells cell ≠ 0) (body : Plan) :
    (loopAt cell (once body temp1 temp2)).exec s fuel t
      = (body.exec s fuel (t.goto cell)).andThen fun t' =>
          .halted (((t'.write temp1 0).write temp2 0).goto cell) := by
  have hc : s.holds cell := by rcases hcell with rfl | rfl <;> assumption
  obtain ⟨n, rfl⟩ := hfuel.exists_add_two
  rw [exec_loopAt hc, Block.iterate, if_neg (by exact hne), once, exec_append, exec_append,
    Ending.andThen_assoc, Ending.andThen_assoc, Ending.andThen_assoc]
  cases hb : body.exec s (n + 2) (t.goto cell) with
  | offTape sf => rfl
  | spent => rfl
  | halted t' =>
    have ht' := bounds_of_exec body (ht.goto cell) hb
    simp only [Ending.halted_andThen]
    rw [exec_clear hfuel ht' h1]
    simp only [Ending.halted_andThen]
    rw [exec_clear hfuel ((ht'.zero temp1).goto temp1) h2]
    simp only [Ending.halted_andThen, Tape.write_goto, Tape.goto_goto]
    have hzero : (((t'.write temp1 0).write temp2 0).goto cell).current = 0 := by
      simp only [Tape.current, Tape.goto_cells, Tape.goto_head, Tape.write_cells,
        Function.update_apply]
      rcases hcell with rfl | rfl <;> simp
    rw [Block.iterate, if_pos hzero]

/-- **A branch runs one of its sides**, and then clears its scratch cells. -/
theorem exec_branch (hc : s.Provides [cell, temp1, temp2]) (body otherwise : Plan) :
    (branch cell body otherwise temp1 temp2).exec s fuel t =
      if t.cells cell = 0 then
        (otherwise.exec s fuel (((t.write temp2 0).write temp1 1).goto temp1)).andThen
          (tidy temp1 temp2)
      else
        (body.exec s fuel (((t.write temp2 (t.cells cell)).write temp1 1).goto temp2)).andThen
          (tidy temp1 temp2) := by
  obtain ⟨h12, h1, h2⟩ : temp1 ≠ temp2 ∧ s.holds temp1 ∧ s.holds temp2 := by grind
  have hcopied := ht.write (ht cell) temp2
  -- the first side is decided by the copy of the cell, the second by whether the first was taken
  have hset : (copy cell temp2 temp1 ++ setCell temp1 1).exec s fuel t
      = .halted (((t.write temp2 (t.cells cell)).write temp1 1).goto temp1) := by
    rw [exec_append, exec_copy hfuel ht (by grind), Ending.halted_andThen,
      exec_setOne hfuel ((hcopied.zero temp1).goto temp1) h1]
    simp
  have hbounds := (hcopied.one temp1).goto temp1
  rw [branch, exec_append, exec_append, hset, Ending.halted_andThen]
  obtain ⟨n, hn⟩ := hfuel.exists_add_two
  by_cases hzero : t.cells cell = 0
  · rw [if_pos hzero]
    have hskip : (loopAt temp2 (once body temp1 temp2)).exec s fuel
        (((t.write temp2 (t.cells cell)).write temp1 1).goto temp1)
          = .halted (((t.write temp2 0).write temp1 1).goto temp2) := by
      rw [exec_loopAt h2, hn, Block.iterate, if_pos, hzero]
      · rfl
      · simp [Tape.current, h12.symm, hzero]
    rw [hskip, Ending.halted_andThen,
      exec_once hfuel (((ht.zero temp2).one temp1).goto temp2) h1 h2 (.inl rfl) (by simp)]
    rfl
  · rw [if_neg hzero, exec_once hfuel hbounds h1 h2 (.inr rfl) (by simp [h12.symm, hzero]),
      Ending.andThen_assoc]
    congr 1
    funext t'
    -- the second side is skipped
    rw [Ending.halted_andThen, exec_loopAt h1, hn, Block.iterate, if_pos]
    · rfl
    · simp [Tape.current, h12]

end Parts

end Plan

/-! ## Arithmetic -/

namespace Width

variable (w : Width)

theorem wrap_natCast (n : Nat) : w.wrap n = n % w.modulus := by
  unfold wrap
  rw [← Int.natCast_mod, Int.toNat_natCast]

theorem wrap_lt (n : Int) : w.wrap n < w.modulus := by
  have hpos := w.modulus_pos
  have hlt := Int.emod_lt_of_pos n (Int.natCast_pos.mpr hpos)
  unfold wrap
  omega

theorem wrap_of_lt {n : Nat} (h : n < w.modulus) : w.wrap n = n := by
  rw [wrap_natCast, Nat.mod_eq_of_lt h]

theorem wrap_add_natCast (n : Int) (k : Nat) : w.wrap (n + k) = (w.wrap n + k) % w.modulus := by
  have hpos := w.modulus_pos
  have hnonneg := Int.emod_nonneg n (Int.natCast_ne_zero.mpr hpos.ne')
  have hcast : ((w.wrap n + k : Nat) : Int) = n % w.modulus + k := by
    unfold wrap
    omega
  rw [← wrap_natCast, hcast]
  unfold wrap
  rw [Int.emod_add_emod]

/-- Taking away a number adds what its remainder lacks to the modulus. -/
theorem wrap_sub_natCast (n : Int) (k : Nat) :
    w.wrap (n - k) = (w.wrap n + (w.modulus - k % w.modulus)) % w.modulus := by
  have hlt := Nat.mod_lt k w.modulus_pos
  have hdiv := Int.emod_add_mul_ediv k w.modulus
  have hcast : n - k = n + ((w.modulus - k % w.modulus : Nat) : Int)
      + (-1 - (k : Int) / w.modulus) * w.modulus := by
    push_cast [hlt.le]
    linarith
  rw [← wrap_add_natCast, hcast]
  unfold wrap
  rw [Int.add_mul_emod_self_right]

/-- A difference of two values is zero only if they are equal. -/
theorem wrap_sub_eq_zero {a b : Nat} (ha : a < w.modulus) (hb : b < w.modulus) :
    w.wrap ((a : Int) - b) = 0 ↔ a = b := by
  have hpos := w.modulus_pos
  constructor
  · intro h
    have hnonneg := Int.emod_nonneg ((a : Int) - b) (Int.natCast_ne_zero.mpr hpos.ne')
    have hdvd : (w.modulus : Int) ∣ (a : Int) - b := by
      apply Int.dvd_of_emod_eq_zero
      unfold wrap at h
      omega
    obtain ⟨k, hk⟩ := hdvd
    have hsmall : k = 0 := by
      by_contra hne
      rcases Int.lt_or_gt_of_ne hne with hlt | hgt
      · nlinarith
      · nlinarith
    rw [hsmall, Int.mul_zero] at hk
    omega
  · rintro rfl
    rw [Int.sub_self]
    rfl

end Width

/-- The operation adds a number to the cell at the head, as far as its width goes. -/
def Op.Adds (s : Setting) (op : Op) (δ : Int) : Prop := ∀ (t : Tape) (n : Int),
  t.current = s.width.wrap n → op.act s t = some (t.write t.head (s.width.wrap (n + δ)))

theorem Op.adds_inc_one (s : Setting) : (Op.inc 1).Adds s 1 := by
  intro t n h
  rw [act, h, ← s.width.wrap_add_natCast]
  rfl

theorem Op.adds_dec_one (s : Setting) : (Op.dec 1).Adds s (-1) := by
  intro t n h
  rw [act, h, ← s.width.wrap_sub_natCast]
  rfl

namespace Plan

variable {s : Setting} {fuel : Nat} {t : Tape}
variable {dest src src1 src2 temp1 temp2 temp3 temp4 : Int} {v : Nat}

/-- The plan stores a value in a cell and changes no others but the listed ones. -/
def Computes (s : Setting) (fuel : Nat) (p : Plan) (t : Tape) (dest : Int) (v : Nat)
    (scratch : List Int) : Prop :=
  ∃ t', p.exec s fuel t = .halted t' ∧ t'.cells dest = v ∧ t.SameOff (dest :: scratch) t'

theorem Computes.mono {p : Plan} {scratch scratch' : List Int}
    (h : Computes s fuel p t dest v scratch) (hsub : scratch ⊆ scratch') :
    Computes s fuel p t dest v scratch' := by
  obtain ⟨t', hrun, hset, hsame⟩ := h
  exact ⟨t', hrun, hset, hsame.mono (List.cons_subset_cons _ hsub)⟩

section Runs

variable (hfuel : Enough s fuel) (ht : s.Bounds t)

include hfuel ht

/-- A counter says how often an operation is applied to a cell. -/
theorem exec_repeat {op : Op} {δ : Int} (hop : op.Adds s δ) {counter : Int}
    (hc : s.Provides [dest, counter]) :
    (Plan.go counter (.loop (.go dest (.act op (.go counter (.act (.dec 1) .done)))) .done)).exec
        s fuel t
      = .halted (((t.write dest (s.width.wrap (t.cells dest + t.cells counter * δ))).write counter
          0).goto counter) := by
  obtain ⟨hne, hdest, hcounter⟩ : dest ≠ counter ∧ s.holds dest ∧ s.holds counter := by grind
  have hlt := ht counter
  have hself := s.width.wrap_of_lt (ht dest)
  let f : Nat → Tape := fun k => ((t.write dest (s.width.wrap
    (t.cells dest + (t.cells counter - k : Int) * δ))).write counter k).goto counter
  have hstart : t.goto counter = f (t.cells counter) := by
    refine Tape.ext_cells rfl rfl rfl fun c => ?_
    simp only [f, Tape.goto_cells, Tape.write_cells, Function.update_apply, Int.sub_self,
      Int.zero_mul, Int.add_zero]
    split_ifs <;> simp_all
  have hend : f 0 = ((t.write dest (s.width.wrap (t.cells dest + t.cells counter * δ))).write
      counter 0).goto counter := by simp [f]
  rw [exec_go hcounter, exec, hstart, ← hend, iterate_countdown f
    (fun k _ => by simp [f, Tape.current]) (fun k hk => ?_) (Nat.lt_of_lt_of_le hlt hfuel)]
  · rfl
  · have hnext : t.cells dest + (t.cells counter - (k + 1 : Nat) : Int) * δ + δ
        = t.cells dest + (t.cells counter - k) * δ := by
      push_cast
      ring
    rw [exec_go hdest, exec, hop _ (t.cells dest + (t.cells counter - (k + 1 : Nat) : Int) * δ)
      (by simp [f, Tape.current, hne]), hnext]
    simp only
    rw [exec_go hcounter, exec_dec (k := k) _ (by simp [f, Tape.current, hne.symm]) (by omega), exec]
    congr 1
    refine Tape.ext_cells rfl rfl rfl fun c => ?_
    simp only [f, Tape.goto_cells, Tape.goto_head, Tape.write_cells, Tape.write_goto,
      Function.update_apply]
    split_ifs <;> simp_all

/-- Copies of both operands are made, and the second one says how often the operation is applied to
the first. -/
theorem exec_combine {op : Op} {δ : Int} (hop : op.Adds s δ)
    (hc : s.Provides [src1, src2, dest, temp1, temp2]) :
    (combine op src1 src2 dest temp1 temp2).exec s fuel t =
      .halted ((((t.write dest (s.width.wrap (t.cells src1 + t.cells src2 * δ))).write temp1 0).write
        temp2 0).goto temp2) := by
  obtain ⟨hs1, hs2, hs3, hdt1, hdt2, htt⟩ : src1 ≠ dest ∧ src2 ≠ dest ∧ src2 ≠ temp1 ∧
      dest ≠ temp1 ∧ dest ≠ temp2 ∧ temp1 ≠ temp2 := by grind
  have hb1 := (ht.zero dest).goto dest
  have hb2 := ((hb1.write (hb1 src1) dest).zero temp1).goto temp1
  have hb3 := ((hb2.write (hb2 src2) temp2).zero temp1).goto temp1
  rw [combine, exec_append, exec_append, exec_append, exec_clear hfuel ht (by grind),
    Ending.halted_andThen, exec_copy hfuel hb1 (by grind), Ending.halted_andThen,
    exec_copy hfuel hb2 (by grind), Ending.halted_andThen, exec_repeat hfuel hb3 hop (by grind)]
  congr 1
  refine Tape.ext_cells rfl rfl rfl fun c => ?_
  simp only [Tape.goto_cells, Tape.write_cells, Tape.write_goto, Function.update_apply]
  split_ifs <;> simp_all

theorem computes_combine {op : Op} {δ : Int} (hop : op.Adds s δ)
    (hc : s.Provides [src1, src2, dest, temp1, temp2]) :
    Computes s fuel (combine op src1 src2 dest temp1 temp2) t dest
      (s.width.wrap (t.cells src1 + t.cells src2 * δ)) [temp1, temp2] := by
  obtain ⟨hdt1, hdt2⟩ : dest ≠ temp1 ∧ dest ≠ temp2 := by grind
  refine ⟨_, exec_combine hfuel ht hop hc, by simp [hdt1, hdt2], ?_⟩
  exact ((((Tape.SameOff.refl _ t).write (by simp) _).write (by simp) 0).write (by simp) 0).goto
    temp2

theorem computes_add (hc : s.Provides [src1, src2, dest, temp1, temp2]) :
    Computes s fuel (combine (.inc 1) src1 src2 dest temp1 temp2) t dest
      (s.width.wrap (t.cells src1 + t.cells src2)) [temp1, temp2] := by
  simpa using computes_combine hfuel ht (Op.adds_inc_one s) hc

theorem computes_subtract (hc : s.Provides [src1, src2, dest, temp1, temp2]) :
    Computes s fuel (combine (.dec 1) src1 src2 dest temp1 temp2) t dest
      (s.width.wrap (t.cells src1 - t.cells src2)) [temp1, temp2] := by
  simpa [Int.sub_eq_add_neg] using computes_combine hfuel ht (Op.adds_dec_one s) hc

/-! ## Comparison -/

/-- A loop that starts by clearing its own cell makes at most one round. -/
theorem exec_flag {cell : Int} (hc : s.holds cell) (hne : cell ≠ dest) {q : Plan}
    (hq : ∀ u, s.Bounds u → q.exec s fuel u = .halted ((u.write dest v).goto dest)) :
    (loopAt cell (clear cell ++ q)).exec s fuel t = .halted
      (if t.cells cell = 0 then t.goto cell else ((t.write cell 0).write dest v).goto cell) := by
  obtain ⟨n, rfl⟩ := hfuel.exists_add_two
  rw [exec_loopAt hc, Block.iterate, Tape.current_goto]
  by_cases hzero : t.cells cell = 0
  · rw [if_pos hzero, if_pos hzero]
  · rw [if_neg hzero, if_neg hzero, exec_append, exec_clear hfuel (ht.goto cell) hc]
    simp only [Ending.halted_andThen]
    rw [hq _ (((ht.goto cell).zero cell).goto cell)]
    simp only [Ending.halted_andThen]
    rw [Block.iterate, if_pos (by simp [Tape.current, hne])]
    simp

omit ht in
/-- A result that is set first and then corrected if a flag is set. -/
theorem Computes.of_flag {p q : Plan} {u : Tape} {cell : Int} {scratch : List Int}
    (hp : p.exec s fuel t = .halted u) (hu : s.Bounds u) (hsame : t.SameOff (dest :: scratch) u)
    (hc : s.holds cell) (hne : cell ≠ dest) (hmem : cell ∈ scratch)
    (hq : ∀ u, s.Bounds u → q.exec s fuel u = .halted ((u.write dest v).goto dest)) :
    Computes s fuel (p ++ loopAt cell (clear cell ++ q)) t dest
      (if u.cells cell = 0 then u.cells dest else v) scratch := by
  refine ⟨_, by rw [exec_append, hp, Ending.halted_andThen, exec_flag hfuel hu hc hne hq], ?_⟩
  by_cases hzero : u.cells cell = 0
  · rw [if_pos hzero, if_pos hzero]
    exact ⟨rfl, hsame.goto cell⟩
  · rw [if_neg hzero, if_neg hzero]
    refine ⟨by simp, ?_⟩
    exact ((hsame.write (List.mem_cons_of_mem _ hmem) 0).write List.mem_cons_self v).goto cell

/-- Both tests for equality set the result behind a difference, and correct it if there is one. -/
theorem computes_test (hc : s.Provides [src1, src2, dest, temp1, temp2]) {q q' : Plan} {v' : Nat}
    (hv : v < s.width.modulus)
    (hq : ∀ u, s.Bounds u → q.exec s fuel u = .halted ((u.write dest v).goto dest))
    (hq' : ∀ u, s.Bounds u → q'.exec s fuel u = .halted ((u.write dest v').goto dest)) :
    Computes s fuel (combine (.dec 1) src1 src2 temp1 dest temp2 ++ q ++
        loopAt temp1 (clear temp1 ++ q')) t dest
      (if t.cells src1 = t.cells src2 then v else v') [temp1, temp2] := by
  obtain ⟨hdt, htt, h1⟩ : temp1 ≠ dest ∧ temp1 ≠ temp2 ∧ s.holds temp1 := by grind
  have hdiff := s.width.wrap_lt (t.cells src1 + t.cells src2 * -1)
  have hb := (((ht.write hdiff temp1).zero dest).zero temp2).goto temp2
  have hrun : (combine (.dec 1) src1 src2 temp1 dest temp2 ++ q).exec s fuel t
      = .halted ((((((t.write temp1 (s.width.wrap (t.cells src1 + t.cells src2 * -1))).write dest
          0).write temp2 0).goto temp2).write dest v).goto dest) := by
    rw [exec_append, exec_combine hfuel ht (Op.adds_dec_one s) (by grind), Ending.halted_andThen,
      hq _ hb]
  have hsame := ((((((Tape.SameOff.refl [dest, temp1, temp2] t).write (i := temp1) (by simp)
    (s.width.wrap (t.cells src1 + t.cells src2 * -1))).write (i := dest) (by simp) 0).write
    (i := temp2) (by simp) 0).goto temp2).write (i := dest) (by simp) v).goto dest
  have h := Computes.of_flag hfuel hrun ((hb.write hv dest).goto dest) hsame h1 hdt (by simp) hq'
  simpa [hdt, htt, ← Int.sub_eq_add_neg, s.width.wrap_sub_eq_zero (ht src1) (ht src2)] using h

theorem computes_equal (hc : s.Provides [src1, src2, dest, temp1, temp2]) :
    Computes s fuel (equal src1 src2 dest temp1 temp2) t dest
      (truth (t.cells src1 = t.cells src2)) [temp1, temp2] :=
  computes_test hfuel ht hc s.width.one_lt_modulus
    (fun _ hu => exec_setOne hfuel hu (by grind)) fun _ hu => exec_clear hfuel hu (by grind)

theorem computes_notEqual (hc : s.Provides [src1, src2, dest, temp1, temp2]) :
    Computes s fuel (notEqual src1 src2 dest temp1 temp2) t dest
      (truth (t.cells src1 ≠ t.cells src2)) [temp1, temp2] := by
  have h := computes_test hfuel ht hc s.width.modulus_pos
    (fun _ hu => exec_clear hfuel hu (by grind)) fun _ hu => exec_setOne hfuel hu (by grind)
  simpa only [truth, ne_eq, ite_not, notEqual] using h

theorem computes_negate (hc : s.Provides [src, dest, temp1, temp2]) :
    Computes s fuel (negate src dest temp1 temp2) t dest (truth (t.cells src = 0))
      [temp1, temp2] := by
  obtain ⟨hdt, htt, hdest, h1⟩ : temp1 ≠ dest ∧ temp1 ≠ temp2 ∧ s.holds dest ∧ s.holds temp1 := by
    grind
  have hb := ((ht.write (ht src) temp1).zero temp2).goto temp2
  have hrun : (copy src temp1 temp2 ++ setCell dest 1).exec s fuel t
      = .halted (((((t.write temp1 (t.cells src)).write temp2 0).goto temp2).write dest 1).goto
          dest) := by
    rw [exec_append, exec_copy hfuel ht (by grind), Ending.halted_andThen, exec_setOne hfuel hb hdest]
  have hsame := (((((Tape.SameOff.refl [dest, temp1, temp2] t).write (i := temp1) (by simp)
    (t.cells src)).write (i := temp2) (by simp) 0).goto temp2).write (i := dest) (by simp) 1).goto
    dest
  have h := Computes.of_flag hfuel hrun ((hb.one dest).goto dest) hsame h1 hdt (by simp)
    fun u hu => exec_clear hfuel hu hdest
  simpa [truth, hdt, htt, negate] using h

/-- A round that finds the second cell at zero is the last one, and the first cell was greater. -/
theorem exec_countBoth_won (hc : s.Provides [dest, temp1, temp2, temp3, temp4])
    (hzero : t.cells temp2 = 0) :
    ∃ u, (countBoth dest temp1 temp2 temp3 temp4).exec s fuel t = .halted u ∧
      t.SameOff [dest, temp1, temp2, temp3, temp4] u ∧ u.cells temp1 = 0 ∧ u.cells dest = 1 := by
  obtain ⟨h1, h2, h3, h4, h5, h6⟩ : temp1 ≠ dest ∧ temp1 ≠ temp3 ∧ temp1 ≠ temp4 ∧ dest ≠ temp3 ∧
      dest ≠ temp4 ∧ temp3 ≠ temp4 := by grind
  have hb1 := ((ht.zero temp4).one temp3).goto temp3
  have hb2 := (hb1.zero temp1).goto temp1
  have hb3 := ((((hb2.one dest).goto dest).zero temp3).zero temp4).goto temp3
  rw [countBoth, exec_append, exec_branch hfuel ht (by grind), if_pos hzero, exec_append,
    exec_clear hfuel hb1 (by grind), Ending.halted_andThen, exec_setOne hfuel hb2 (by grind),
    Ending.halted_andThen, tidy, Ending.halted_andThen, exec_branch hfuel hb3 (by grind),
    if_pos (by simp [h1, h2, h3]), exec, Ending.halted_andThen, tidy]
  refine ⟨_, rfl, ⟨rfl, rfl, fun c hc => ?_⟩, ?_, ?_⟩
  · simp_all
  · simp [h1, h2, h3]
  · simp [h4, h5]

/-- Otherwise it takes one from both. -/
theorem exec_countBoth_down (dest : Int) (hc : s.Provides [temp1, temp2, temp3, temp4]) {x y : Nat}
    (hx : t.cells temp1 = x + 1) (hy : t.cells temp2 = y + 1) :
    ∃ u, (countBoth dest temp1 temp2 temp3 temp4).exec s fuel t = .halted u ∧
      t.SameOff [temp1, temp2, temp3, temp4] u ∧ u.cells temp1 = x ∧ u.cells temp2 = y := by
  obtain ⟨h1, h2, h3, h4, h5, h6⟩ : temp1 ≠ temp2 ∧ temp1 ≠ temp3 ∧ temp1 ≠ temp4 ∧
      temp2 ≠ temp3 ∧ temp2 ≠ temp4 ∧ temp3 ≠ temp4 := by grind
  have hxlt : x + 1 < s.width.modulus := hx ▸ ht temp1
  have hylt : y + 1 < s.width.modulus := hy ▸ ht temp2
  have hb1 := ((ht.write (ht temp2) temp4).one temp3).goto temp4
  have hb2 := ((hb1.zero temp3).zero temp4).goto temp3
  rw [countBoth, exec_append, exec_branch hfuel ht (by grind), if_neg (by omega), exec,
    Ending.halted_andThen, tidy, Ending.halted_andThen, exec_branch hfuel hb2 (by grind),
    if_neg (by simp [h2, h3, hx]), exec_go (by grind),
    exec_dec (k := x) _ (by simp [Tape.current, h2, h3, hx]) hxlt, exec_go (by grind),
    exec_dec (k := y) _ (by simp [Tape.current, h1.symm, h4, h5, hy]) hylt, exec,
    Ending.halted_andThen, tidy]
  refine ⟨_, rfl, ⟨rfl, rfl, fun c hc => ?_⟩, ?_, ?_⟩
  · simp_all
  · simp [h1, h2, h3]
  · simp [h4, h5]

/-- Counting both cells down tells which one was greater. -/
theorem iterate_countBoth (hc : s.Provides [dest, temp1, temp2, temp3, temp4]) {n : Nat}
    (hn : t.cells temp1 < n) :
    ∃ u, Block.iterate (fun t => ((countBoth dest temp1 temp2 temp3 temp4).exec s fuel t).andThen
        fun t' => .halted (t'.goto temp1)) n (t.goto temp1) = .halted u ∧
      t.SameOff [dest, temp1, temp2, temp3, temp4] u ∧
      u.cells dest = if t.cells temp2 < t.cells temp1 then 1 else t.cells dest := by
  induction n generalizing t with
  | zero => omega
  | succ n ih =>
    rw [Block.iterate, Tape.current_goto]
    cases hx : t.cells temp1 with
    | zero =>
      rw [if_pos rfl, if_neg (by omega)]
      exact ⟨_, rfl, (Tape.SameOff.refl _ t).goto temp1, rfl⟩
    | succ x =>
      rw [if_neg (by omega)]
      cases hy : t.cells temp2 with
      | zero =>
        obtain ⟨u, hround, hsame, hzero, hset⟩ := exec_countBoth_won hfuel (ht.goto temp1) hc hy
        have hn' : 0 < n := by omega
        obtain ⟨n, rfl⟩ : ∃ n', n = n' + 1 := ⟨n - 1, by omega⟩
        rw [hround]
        simp only [Ending.halted_andThen]
        rw [Block.iterate, if_pos (by exact hzero), if_pos (by omega)]
        exact ⟨_, rfl, ⟨hsame.inputPos, hsame.output, hsame.cells⟩, hset⟩
      | succ y =>
        obtain ⟨u, hround, hsame, hxu, hyu⟩ :=
          exec_countBoth_down hfuel (ht.goto temp1) dest (Setting.provides_cons.mp hc).2.2 hx hy
        have hbounds := bounds_of_exec _ (ht.goto temp1) hround
        obtain ⟨u', hrest, hsame', hset⟩ := ih hbounds (by omega)
        have hkept : u.cells dest = t.cells dest := hsame.cells dest (by grind)
        rw [hround]
        simp only [Ending.halted_andThen]
        refine ⟨u', hrest, ?_, ?_⟩
        · have hfirst : t.SameOff [dest, temp1, temp2, temp3, temp4] u :=
            ⟨hsame.inputPos, hsame.output, fun c hc => hsame.cells c (by simp_all)⟩
          exact hfirst.trans hsame'
        · rw [hset, hxu, hyu, hkept]
          simp

theorem computes_greater (hc : s.Provides [src1, src2, dest, temp1, temp2, temp3, temp4]) :
    Computes s fuel (greater src1 src2 dest temp1 temp2 temp3 temp4) t dest
      (truth (t.cells src2 < t.cells src1)) [temp1, temp2, temp3, temp4] := by
  have hd := hc.1
  have hs : src1 ≠ dest ∧ src2 ≠ dest ∧ src2 ≠ temp1 ∧ src2 ≠ temp3 := by
    grind only [List.nodup_cons, List.mem_cons]
  have hcount : s.Provides [dest, temp1, temp2, temp3, temp4] := hc.sub (by grind) (by simp)
  obtain ⟨hd1, hd2, hd3, hd4, hd5⟩ : dest ≠ temp1 ∧ dest ≠ temp2 ∧ dest ≠ temp3 ∧ temp1 ≠ temp2 ∧
      temp1 ≠ temp3 ∧ temp2 ≠ temp3 := by grind
  have hb1 := (ht.zero dest).goto dest
  have hb2 := ((hb1.write (hb1 src1) temp1).zero temp3).goto temp3
  have hb3 := ((hb2.write (hb2 src2) temp2).zero temp3).goto temp3
  obtain ⟨u, hloop, hsame, hset⟩ := iterate_countBoth hfuel hb3 hcount
    (Nat.lt_of_lt_of_le (hb3 temp1) hfuel)
  unfold Computes
  rw [greater, exec_append, exec_append, exec_append, exec_clear hfuel ht (by grind),
    Ending.halted_andThen, exec_copy hfuel hb1 (by grind), Ending.halted_andThen,
    exec_copy hfuel hb2 (by grind), Ending.halted_andThen, exec_loopAt (by grind), hloop]
  refine ⟨u, rfl, ?_, ⟨hsame.inputPos, hsame.output, fun c hc => ?_⟩⟩
  · rw [hset]
    simp [truth, hs, hd1, hd2, hd3, hd4, hd5]
  · rw [hsame.cells c hc]
    simp_all

theorem computes_lessOrEqual (hc : s.Provides [src1, src2, dest, temp1, temp2, temp3, temp4]) :
    Computes s fuel (lessOrEqual src1 src2 dest temp1 temp2 temp3 temp4) t dest
      (truth (t.cells src1 ≤ t.cells src2)) [temp1, temp2, temp3, temp4] := by
  have hd := hc.1
  have hgreater : s.Provides [src1, src2, temp1, temp2, temp3, temp4, dest] :=
    hc.sub (by grind) (by simp)
  have hnegate : s.Provides [temp1, dest, temp2, temp3] := hc.sub (by grind) (by simp)
  obtain ⟨u, hfirst, hflag, hsame⟩ := computes_greater hfuel ht hgreater
  obtain ⟨u', hsecond, hset, hsame'⟩ := computes_negate hfuel (bounds_of_exec _ ht hfirst) hnegate
  refine ⟨u', by rw [lessOrEqual, exec_append, hfirst, Ending.halted_andThen, hsecond], ?_, ?_⟩
  · rw [hset, hflag]
    by_cases hle : t.cells src1 ≤ t.cells src2
    · simp [truth, hle]
    · simp [truth, hle, Nat.lt_of_not_le hle]
  · exact (hsame.mono (by simp)).trans (hsame'.mono (by simp))

end Runs

end Plan

end TapeScript
