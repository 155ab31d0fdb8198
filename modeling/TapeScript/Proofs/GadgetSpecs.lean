import TapeScript.Proofs.CodeEndings
import TapeScript.Proofs.Supply

set_option autoImplicit false

/-! # What the gadgets are for

A gadget is right if it emits code whenever its cells are in reach, and if that code, run by a machine
whose head is where it is tracked to be, comes to an end on any tape that has the cells, with the effect
the gadget is meant to have (`Emit.Works`). Gadgets that need distinct cells refuse others before they
do anything (`Emit.Guarded`). The orderings are right (`Comparison.emit_decides`), and so are data
movement, arithmetic and the tests for equality (`Emit.data_gadgets_work`).
-/

namespace TapeScript

/-! ## Machines that have the cells -/

/-- The cells are on the tape of the machine, or on a tape that can grow over them. -/
def Machine.Covers (m : Machine) (cells : List Int) : Prop :=
  (∀ c ∈ cells, 0 ≤ c) ∧
    match m.setup.fixedSize with
    | some n => ∀ c ∈ cells, c < n
    | none =>
      (∃ bound : Nat, Setup.Grows m.setup.capacity bound ∧ ∀ c ∈ m.head :: cells, c < bound) ∨
        m.Ample

namespace Machine.Primed

variable {code : Code} {m : Machine} {cells : List Int}

theorem exists_setting (h : m.Primed code) (hcells : m.Covers cells) :
    ∃ s : Setting, s.width = m.setup.width ∧ s.input = m.setup.input ∧
      (∀ c ∈ m.head :: cells, s.holds c) ∧ m.Room s := by
  obtain ⟨hnonneg, hlimit⟩ := hcells
  have hnonneg' : ∀ c ∈ m.head :: cells, 0 ≤ c := by
    intro c hc
    rcases List.mem_cons.mp hc with rfl | hc
    · exact h.head_nonneg
    · exact hnonneg c hc
  have hholds : ∀ bound : Nat, (∀ c ∈ m.head :: cells, c < bound) → ∀ c ∈ m.head :: cells,
      (⟨m.setup.width, some bound, m.setup.input⟩ : Setting).holds c := fun bound hlt c hc =>
    (Setting.holds_iff _ c).mpr ⟨hnonneg' c hc, by rintro n ⟨⟩; exact hlt c hc⟩
  cases hsize : m.setup.fixedSize with
  | some n =>
    rw [hsize] at hlimit
    refine ⟨⟨m.setup.width, some n, m.setup.input⟩, rfl, rfl, hholds n fun c hc => ?_, ?_⟩
    · rcases List.mem_cons.mp hc with rfl | hc
      · rw [← h.fixed n hsize]
        exact h.head_lt
      · exact hlimit c hc
    · unfold Room
      rw [hsize]
      exact ⟨n, rfl, Nat.le_refl n⟩
  | none =>
    rw [hsize] at hlimit
    rcases hlimit with ⟨bound, hgrows, hlt⟩ | hample
    · refine ⟨⟨m.setup.width, some bound, m.setup.input⟩, rfl, rfl, hholds bound hlt, ?_⟩
      unfold Room
      rw [hsize]
      exact .inl ⟨bound, rfl, hgrows⟩
    · refine ⟨⟨m.setup.width, none, m.setup.input⟩, rfl, rfl, fun c hc => ?_, ?_⟩
      · exact (Setting.holds_iff _ c).mpr ⟨hnonneg' c hc, by rintro n ⟨⟩⟩
      · unfold Room
        rw [hsize]
        exact .inr hample

/-- A machine runs a plan to its end if the plan comes to one wherever the cells are on the tape. -/
theorem halts (h : m.Primed code) (hcells : m.Covers cells) {p : Plan} {h' : Int}
    (hp : p.Spells m.head code h') {Q : Tape → Prop}
    (hrun : ∀ (s : Setting) (fuel : Nat), s.width = m.setup.width → (∀ c ∈ cells, s.holds c) →
      Plan.Enough s fuel → ∃ t, p.exec s fuel m.tape = .halted t ∧ Q t) :
    ∃ n m', m.run n = (none, m') ∧ m'.head = h' ∧ Q m'.tape := by
  obtain ⟨s, hwidth, hinput, hholds, hroom⟩ := h.exists_setting hcells
  have hhead : s.holds m.tape.head := hholds m.head List.mem_cons_self
  have hadmits : s.Admits m.tape := ⟨hhead, fun c => by rw [hwidth]; exact h.bounds c⟩
  obtain ⟨t, hexec, hQ⟩ := hrun s s.width.modulus hwidth
    (fun c hc => hholds c (List.mem_cons_of_mem _ hc)) (Nat.le_refl _)
  obtain ⟨b, hcode, hlinked⟩ := Program.exists_block_of_ofChars h.program
  rw [Program.filterMap_text] at hcode
  have hblock : ∀ fuel, b.exec s fuel m.tape = p.exec s fuel m.tape := fun fuel => by
    rw [Block.exec_eq_of_code_eq (hcode.symm.trans hp.code_eq) hadmits]
    exact p.exec_block hp.returns hhead
  have hhalts : b.exec s s.width.modulus m.tape = .halted t := by rw [hblock, hexec]
  have hoff : ∀ fuel sf, b.exec s fuel m.tape = .offTape sf → s.limit = m.setup.fixedSize := by
    intro fuel sf hoff
    have heq := Block.exec_unique hoff hhalts (by simp) (by simp)
    cases heq
  obtain ⟨n, hn⟩ := (Machine.ending_iff hlinked (h.stands hwidth hinput hroom) hoff
    (by simp)).mpr ⟨_, hhalts⟩
  obtain ⟨hnone, htape⟩ := ending_eq_halted_iff.mp hn
  refine ⟨n, (m.runFor n).2, ?_, ?_, htape ▸ hQ⟩
  · unfold run
    rw [h.fresh]
    exact Prod.ext hnone rfl
  · have hend := p.head_of_exec hp.returns hexec
    rw [← htape] at hend
    rw [hp.head_eq]
    exact hend

end Machine.Primed

/-! ## Gadgets that work -/

/-- How the cells of a width may look before and after. -/
abbrev CellEffect := Width → (Int → Nat) → (Int → Nat) → Prop

namespace Emit

/-- The action emits code whenever the head and the cells are in reach, and never fails but for a
count that is too large. A machine that has the cells runs the code to its end, from where the head
was tracked to be to where it is tracked to be then. The cells it leaves behind are as the effect says,
and no input is read and no output written. -/
structure Works (e : Emit Code) (cells : List Int) (effect : CellEffect) : Prop where
  emits : ∀ w : Workbench, (∀ c ∈ w.head :: cells, InReach countBound c) →
    ∃ code w', e.runAt w = (.ok code, w')
  fault_eq : ∀ w f w', e.runAt w = (.error f, w') → f = .countTooLarge
  balanced : ∀ w code w', e.runAt w = (.ok code, w') → code.Balanced
  runs : ∀ w code w', e.runAt w = (.ok code, w') → ∀ m : Machine, m.Primed code →
    m.head = w.head → m.Covers cells → ∃ n m', m.run n = (none, m') ∧ m'.head = w'.head ∧
      m'.inputPos = m.inputPos ∧ m'.output = m.output ∧ effect m.setup.width m.cellAt m'.cellAt

/-- The action refuses cells of which two coincide, before anything is done, and works with all
others. -/
structure Guarded (e : Emit Code) (gadget : Gadget) (cells : List Int) (effect : CellEffect) : Prop where
  refuses_iff : ∀ w : Workbench,
    e.runAt w = (.error (.sameCells gadget), w) ↔ ¬ cells.Nodup
  works : cells.Nodup → e.Works cells effect

/-! ## Faults -/

/-- The action fails only for a count that is too large. -/
def FailsByCount {α : Type} (e : Emit α) : Prop :=
  ∀ w f w', runFrom e w = (.error f, w') → f = .countTooLarge

theorem failsByCount_pure {α : Type} (a : α) : FailsByCount (pure a : Emit α) := by
  intro w f w' h
  cases h

theorem FailsByCount.bind {α β : Type} {x : Emit α} {f : α → Emit β} (hx : FailsByCount x)
    (hf : ∀ a, FailsByCount (f a)) : FailsByCount (x >>= f) := by
  intro w fault w' h
  rw [runFrom_bind] at h
  cases hfirst : runFrom x w with
  | mk r w1 =>
    rw [hfirst] at h
    cases r with
    | ok a => exact hf a w1 fault w' h
    | error fault' =>
      cases h
      exact hx w _ _ hfirst

theorem failsByCount_repeated (cmd : Cmd) (n : Int) : FailsByCount (repeated cmd n) := by
  intro w f w' h
  unfold repeated at h
  split at h <;> cases h
  rfl

theorem failsByCount_act (op : Op) : FailsByCount (Beat.act op).emit := by
  refine FailsByCount.bind (fun w f w' h => ?_) fun _ => failsByCount_repeated _ _
  cases h

theorem failsByCount_beat (b : Beat) : FailsByCount b.emit := by
  cases b with
  | go cell =>
    refine FailsByCount.bind (fun w f w' h => by cases h) fun w => ?_
    simp only
    split_ifs with hright hleft
    · rw [moveBy_eq _ hright]
      exact failsByCount_act _
    · rw [moveBy_eq _ (by omega)]
      exact failsByCount_act _
    · exact failsByCount_pure _
  | act op => exact failsByCount_act op
  | enter => exact failsByCount_pure _
  | leave => exact failsByCount_pure _

theorem Scripted.failsByCount {e : Emit Code} {bs : List Beat} (h : Scripted e bs) :
    FailsByCount e := by
  rw [show e = seq (bs.map Beat.emit) from h]
  clear h
  induction bs with
  | nil => exact failsByCount_pure _
  | cons b bs ih =>
    exact (failsByCount_beat b).bind fun _ => ih.bind fun _ => failsByCount_pure _

end Emit

/-! ## From plans to gadgets -/

/-- What a plan does to the cells of any tape that has them. -/
def Plan.Achieves (p : Plan) (cells : List Int) (effect : CellEffect) : Prop :=
  ∀ (s : Setting) (fuel : Nat) (t : Tape), Enough s fuel → s.Bounds t →
    (∀ c ∈ cells, s.holds c) → ∃ u, p.exec s fuel t = .halted u ∧ u.inputPos = t.inputPos ∧
      u.output = t.output ∧ effect s.width t.cells u.cells

section FromPlan

variable {e : Emit Code} {p : Plan} {cells : List Int} {effect : CellEffect}

theorem Emit.Works.of_plan (hs : Scripted e p.beats) (hret : ∀ h, p.Returns h)
    (hspans : (∀ c ∈ cells, InReach countBound c) → p.Spans countBound)
    (hachieves : p.Achieves cells effect) : e.Works cells effect where
  emits := by
    intro w hreach
    have hfits := (hspans fun c hc => hreach c (List.mem_cons_of_mem _ hc)).fits (Int.le_refl _)
      (hreach w.head List.mem_cons_self)
    have hgives := gives_beats.mpr ⟨hfits.1, rfl, rfl⟩
    rw [← show e = seq (p.beats.map Beat.emit) from hs] at hgives
    exact ⟨_, _, hgives⟩
  fault_eq := hs.failsByCount
  balanced := fun w code w' h => Code.balanced_of_spells (hs.spells hret h).1
  runs := by
    intro w code w' h m hm hhead hcells
    obtain ⟨hspells, -⟩ := hs.spells hret h
    rw [← hhead] at hspells
    refine hm.halts (Q := fun u => u.inputPos = m.inputPos ∧ u.output = m.output ∧
      effect m.setup.width m.cellAt u.cells) hcells hspells fun s fuel hwidth hholds hfuel => ?_
    have hbounds : s.Bounds m.tape := fun c => by rw [hwidth]; exact hm.bounds c
    obtain ⟨u, hexec, hpos, hout, heffect⟩ := hachieves s fuel m.tape hfuel hbounds hholds
    rw [hwidth] at heffect
    exact ⟨u, hexec, hpos, hout, heffect⟩

theorem Emit.Guarded.of_plan {gadget : Gadget} {f : Unit → Emit Code}
    (he : e = needDistinct gadget cells >>= f) (hs : cells.Nodup → Scripted e p.beats)
    (hret : ∀ h, p.Returns h)
    (hspans : (∀ c ∈ cells, InReach countBound c) → p.Spans countBound)
    (hachieves : cells.Nodup → p.Achieves cells effect) : e.Guarded gadget cells effect where
  refuses_iff := by
    intro w
    constructor
    · intro h hnodup
      cases (hs hnodup).failsByCount w _ _ h
    · intro h
      rw [he]
      unfold needDistinct areDistinct
      rw [decide_eq_false h]
      rfl
  works := fun hnodup => .of_plan (hs hnodup) hret hspans (hachieves hnodup)

end FromPlan

/-- A value is stored in the cell, the scratch cells may change, and no others do; in particular the
sources do not. -/
def CellEffect.stores (sources : List Int) (dest : Int) (scratch : List Int)
    (value : Width → (Int → Nat) → Nat) : CellEffect :=
  fun w before after => after dest = value w before ∧ (∀ c ∈ sources, after c = before c) ∧
    ∀ c, c ∉ dest :: scratch → after c = before c

/-- A plan that computes a value stores it. -/
theorem Plan.Achieves.of_computes {p : Plan} {cells sources : List Int} {dest : Int}
    {scratch : List Int} {value : Width → (Int → Nat) → Nat}
    (hcells : cells = sources ++ dest :: scratch) (hd : cells.Nodup)
    (h : ∀ (s : Setting) (fuel : Nat) (t : Tape), Enough s fuel → s.Bounds t →
      s.Provides cells → Computes s fuel p t dest (value s.width t.cells) scratch) :
    p.Achieves cells (.stores sources dest scratch value) := by
  intro s fuel t hfuel ht hholds
  obtain ⟨u, hrun, hset, hsame⟩ := h s fuel t hfuel ht ⟨hd, hholds⟩
  refine ⟨u, hrun, hsame.inputPos, hsame.output, hset, fun c hc => hsame.cells c ?_, hsame.cells⟩
  rw [hcells] at hd
  exact List.disjoint_of_nodup_append hd hc

/-- Code that works on the first cells of a tape does so on a machine with these values in them. -/
theorem Emit.Works.on_cells {e : Emit Code} {cells : List Int} {effect : CellEffect}
    (h : e.Works cells effect) (values : Array Nat) (hvalues : ∀ v ∈ values, v < Width.w8.modulus)
    (hcells : ∀ c ∈ 0 :: cells, 0 ≤ c ∧ c < values.size) (hsmall : (values.size : Int) ≤ countBound) :
    ∃ code w', e.runAt { cells := .ofSize 0 } = (.ok code, w') ∧
      ∃ m : Machine, m.Primed code ∧ m.memory = some values ∧ m.setup.width = .w8 ∧
        ∃ n m', m.run n = (none, m') ∧ effect .w8 m.cellAt m'.cellAt := by
  obtain ⟨code, w', hrun⟩ := h.emits { cells := .ofSize 0 } fun c hc =>
    ⟨(hcells c hc).1, Int.lt_of_lt_of_le (hcells c hc).2 hsmall⟩
  obtain ⟨b, hb⟩ := (h.balanced _ _ _ hrun).exists_block
  obtain ⟨p, -, hp, -⟩ := Program.exists_of_block b
  rw [hb] at hp
  let m : Machine :=
    { Machine.start ⟨p, .w8, some values.size, #[], "", Setup.usualCapacity⟩ with memory := some values }
  have hm : m.Primed code := by
    refine ⟨hp, rfl, rfl, ⟨values, rfl, rfl, hvalues⟩, ?_, Int.le_refl 0, (hcells 0 ?_).2⟩
    · rintro n ⟨⟩
      rfl
    · exact List.mem_cons_self
  have hcovers : m.Covers cells :=
    ⟨fun c hc => (hcells c (List.mem_cons_of_mem _ hc)).1,
      fun c hc => (hcells c (List.mem_cons_of_mem _ hc)).2⟩
  obtain ⟨n, m', hend, -, -, -, heffect⟩ := h.runs _ _ _ hrun m hm rfl hcovers
  exact ⟨code, w', hrun, m, hm, rfl, rfl, n, m', hend, heffect⟩

/-! ## Orderings -/

/-- The orderings of two unsigned numbers. -/
inductive Comparison where
  | greater
  | less
  | lessOrEqual
  | greaterOrEqual
  deriving DecidableEq

namespace Comparison

def gadget : Comparison → Gadget
  | .greater => .greater
  | .less => .less
  | .lessOrEqual => .lessOrEqual
  | .greaterOrEqual => .greaterOrEqual

/-- The gadget with its sources, its result and its scratch cells. -/
def emit : Comparison → (src₁ src₂ dest temp₁ temp₂ temp₃ temp₄ : Int) → Emit Code
  | .greater => Emit.greater
  | .less => Emit.less
  | .lessOrEqual => Emit.lessOrEqual
  | .greaterOrEqual => Emit.greaterOrEqual

def Holds : Comparison → Nat → Nat → Prop
  | .greater, a, b => a > b
  | .less, a, b => a < b
  | .lessOrEqual, a, b => a ≤ b
  | .greaterOrEqual, a, b => a ≥ b

instance : (o : Comparison) → (a b : Nat) → Decidable (o.Holds a b)
  | .greater, a, b => inferInstanceAs (Decidable (a > b))
  | .less, a, b => inferInstanceAs (Decidable (a < b))
  | .lessOrEqual, a, b => inferInstanceAs (Decidable (a ≤ b))
  | .greaterOrEqual, a, b => inferInstanceAs (Decidable (a ≥ b))

end Comparison

/-- **The orderings decide what they say.** They refuse cells of which two coincide, and then leave the
workbench as it is. With distinct cells the code, on cells of any width and any content, ends with one
in the result cell if the relation holds of the two source values and with zero if it does not; the
sources and all cells but the result and the four scratch cells keep their values. -/
theorem Comparison.emit_decides (o : Comparison) (src₁ src₂ dest temp₁ temp₂ temp₃ temp₄ : Int) :
    (o.emit src₁ src₂ dest temp₁ temp₂ temp₃ temp₄).Guarded o.gadget
      [src₁, src₂, dest, temp₁, temp₂, temp₃, temp₄]
      (.stores [src₁, src₂] dest [temp₁, temp₂, temp₃, temp₄] fun _ before =>
        truth (o.Holds (before src₁) (before src₂))) := by
  cases o with
  | greater =>
    exact .of_plan rfl Emit.scripted_greater (Plan.returns_greater · ..)
      Plan.spans_greater fun hd => .of_computes rfl hd fun _ _ _ => Plan.computes_greater
  | less =>
    exact .of_plan rfl Emit.scripted_less (Plan.returns_greater · ..)
      (fun h => Plan.spans_greater (by simp_all)) fun hd =>
      .of_computes rfl hd fun _ _ _ hfuel ht hc => Plan.computes_greater hfuel ht hc.swap
  | lessOrEqual =>
    exact .of_plan rfl Emit.scripted_lessOrEqual (Plan.returns_lessOrEqual · ..)
      Plan.spans_lessOrEqual fun hd => .of_computes rfl hd fun _ _ _ => Plan.computes_lessOrEqual
  | greaterOrEqual =>
    exact .of_plan rfl Emit.scripted_greaterOrEqual (Plan.returns_lessOrEqual · ..)
      (fun h => Plan.spans_lessOrEqual (by simp_all)) fun hd =>
      .of_computes rfl hd fun _ _ _ hfuel ht hc => Plan.computes_lessOrEqual hfuel ht hc.swap

/-- Five is found to be greater than three, whatever the other cells hold. -/
theorem Comparison.emit_decides_five_three : ∃ code w',
    (Comparison.greater.emit 0 1 2 3 4 5 6).runAt { cells := .ofSize 0 } = (.ok code, w') ∧
      ∃ m : Machine, m.Primed code ∧ m.memory = some #[5, 3, 9, 8, 7, 6, 5] ∧
        ∃ n m', m.run n = (none, m') ∧ m'.cellAt 2 = 1 ∧ m'.cellAt 0 = 5 ∧ m'.cellAt 1 = 3 := by
  have hworks := (emit_decides .greater 0 1 2 3 4 5 6).works (by decide)
  obtain ⟨code, w', hrun, m, hm, hmemory, -, n, m', hend, hset, hkept, -⟩ :=
    hworks.on_cells #[5, 3, 9, 8, 7, 6, 5] (by decide) (by decide) (by decide)
  have hbefore := Machine.cellAt_of_memory hmemory
  have hresult : m'.cellAt 2 = truth (m.cellAt 0 > m.cellAt 1) := hset
  refine ⟨code, w', hrun, m, hm, hmemory, n, m', hend, ?_, ?_, ?_⟩
  · rw [hresult, hbefore, hbefore]
    rfl
  · rw [hkept 0 (by decide), hbefore]
    rfl
  · rw [hkept 1 (by decide), hbefore]
    rfl

/-! ## Data movement, arithmetic and equality -/

namespace Plan

variable {s : Setting} {fuel : Nat} {t : Tape}
variable {src dest : Int}

theorem exec_moveCell (hfuel : Enough s fuel) (ht : s.Bounds t) (hne : src ≠ dest)
    (hsrc : s.holds src) (hdest : s.holds dest) : (moveCell src dest).exec s fuel t =
      .halted (((t.write dest (t.cells src)).write src 0).goto src) := by
  rw [moveCell, exec_append, exec_clear hfuel ht hdest, Ending.halted_andThen,
    exec_refill hfuel (ht src) hne.symm hdest hsrc (by simp) (by simp [hne])]
  simp

theorem achieves_setCell (cell : Int) {value : Int} (h : 0 ≤ value) :
    (setCell cell value.toNat).Achieves [cell] (.stores [] cell [] fun w _ => w.wrap value) := by
  refine .of_computes rfl (List.nodup_singleton cell) fun s fuel t hfuel ht hc => ?_
  refine ⟨_, exec_setCell hfuel ht (hc.2 cell List.mem_cons_self) value.toNat, ?_, ?_⟩
  · have hwrap := s.width.wrap_natCast value.toNat
    rw [Int.toNat_of_nonneg h] at hwrap
    simp [hwrap]
  · exact ((Tape.SameOff.refl [cell] t).write List.mem_cons_self _).goto cell

theorem achieves_moveCell (hne : src ≠ dest) :
    (moveCell src dest).Achieves [src, dest] fun _ before after =>
      after dest = before src ∧ after src = 0 ∧ ∀ c, c ∉ [src, dest] → after c = before c := by
  intro s fuel t hfuel ht hholds
  obtain ⟨hsrc, hdest, -⟩ := List.forall_mem_cons.mp hholds |>.imp id List.forall_mem_cons.mp
  have hsame := (((Tape.SameOff.refl [src, dest] t).write (i := dest) (by simp) (t.cells src)).write
    (i := src) (by simp) 0).goto src
  exact ⟨_, exec_moveCell hfuel ht hne hsrc hdest, rfl, rfl, by simp [hne.symm], by simp, hsame.cells⟩

theorem achieves_copy {temp : Int} (hd : [src, dest, temp].Nodup) :
    (copy src dest temp).Achieves [src, dest, temp] fun w before after => after temp = 0 ∧
      CellEffect.stores [src] dest [temp] (fun _ before => before src) w before after := by
  obtain ⟨⟨hsd, hst⟩, hdt⟩ : (src ≠ dest ∧ src ≠ temp) ∧ dest ≠ temp := by simpa using hd
  intro s fuel t hfuel ht hholds
  have hsame := (((Tape.SameOff.refl [dest, temp] t).write (i := dest) (by simp) (t.cells src)).write
    (i := temp) (by simp) 0).goto temp
  refine ⟨_, exec_copy hfuel ht ⟨hd, hholds⟩, rfl, rfl, by simp, by simp [hdt], ?_, hsame.cells⟩
  simp [hsd, hst]

end Plan

namespace Emit

theorem works_setCell (cell : Int) {value : Int} (h0 : 0 ≤ value) (hlt : value < countBound) :
    (setCell cell value).Works [cell] (.stores [] cell [] fun w _ => w.wrap value) := by
  refine .of_plan (scripted_setCell cell h0) (Plan.returns_setCell · ..) (fun h => ?_)
    (Plan.achieves_setCell cell h0)
  simpa [h0, hlt] using h

/-- A number that is too large to be written out is refused. -/
theorem setCell_of_countBound_le (cell : Int) {value : Int} (hle : countBound ≤ value)
    (w : Workbench) : ∃ w', (setCell cell value).runAt w = (.error .countTooLarge, w') := by
  have h0 : 0 ≤ value := Int.le_trans (Int.le_of_lt countBound_pos) hle
  have hs := scripted_setCell cell h0
  cases hrun : (setCell cell value).runAt w with
  | mk r w' =>
    cases r with
    | error f => exact ⟨w', by rw [hs.failsByCount w f w' hrun]⟩
    | ok code =>
      have hgives : Gives (setCell cell value) w code w' := hrun
      rw [show setCell cell value = _ from hs, gives_beats] at hgives
      have hcount : (value.toNat : Int) < countBound := by
        simpa [Plan.setCell, Plan.clear, Plan.beats, Beat.FitsAll, Beat.Fits, Op.count] using
          hgives.1.2.2.2.2.2.1
      omega

theorem works_moveCell {src dest : Int} (hne : src ≠ dest) :
    (moveCell src dest).Works [src, dest] fun _ before after =>
      after dest = before src ∧ after src = 0 ∧ ∀ c, c ∉ [src, dest] → after c = before c := by
  refine .of_plan (scripted_moveCell hne) (Plan.returns_moveCell · ..) (fun h => ?_)
    (Plan.achieves_moveCell hne)
  simp only [List.forall_mem_cons] at h
  simp [Plan.moveCell, Plan.Spans, h]

theorem guarded_copy (src dest temp : Int) : (copy src dest temp).Guarded .copy [src, dest, temp]
    fun w before after => after temp = 0 ∧
      CellEffect.stores [src] dest [temp] (fun _ before => before src) w before after := by
  refine .of_plan rfl scripted_copy (Plan.returns_copy · ..) (fun h => ?_) Plan.achieves_copy
  simpa using h

theorem guarded_negate (src dest temp₁ temp₂ : Int) :
    (negate src dest temp₁ temp₂).Guarded .negate [src, dest, temp₁, temp₂]
      (.stores [src] dest [temp₁, temp₂] fun _ before => truth (before src = 0)) := by
  refine .of_plan rfl scripted_negate (Plan.returns_negate · ..) (fun h => ?_) fun hd =>
    .of_computes rfl hd fun _ _ _ => Plan.computes_negate
  simp only [List.forall_mem_cons] at h
  simp [Plan.negate, h]

section Sources

variable (src₁ src₂ dest temp₁ temp₂ : Int)

theorem guarded_add :
    (add src₁ src₂ dest temp₁ temp₂).Guarded .add [src₁, src₂, dest, temp₁, temp₂]
      (.stores [src₁, src₂] dest [temp₁, temp₂] fun w before =>
        w.wrap (before src₁ + before src₂)) :=
  .of_plan rfl scripted_add (Plan.returns_combine · ..) (Plan.spans_combine Op.still_inc_one)
    fun hd => .of_computes rfl hd fun _ _ _ => Plan.computes_add

theorem guarded_subtract :
    (subtract src₁ src₂ dest temp₁ temp₂).Guarded .subtract [src₁, src₂, dest, temp₁, temp₂]
      (.stores [src₁, src₂] dest [temp₁, temp₂] fun w before =>
        w.wrap (before src₁ - before src₂)) :=
  .of_plan rfl scripted_subtract (Plan.returns_combine · ..) (Plan.spans_combine Op.still_dec_one)
    fun hd => .of_computes rfl hd fun _ _ _ => Plan.computes_subtract

theorem guarded_equal :
    (equal src₁ src₂ dest temp₁ temp₂).Guarded .equal [src₁, src₂, dest, temp₁, temp₂]
      (.stores [src₁, src₂] dest [temp₁, temp₂] fun _ before =>
        truth (before src₁ = before src₂)) :=
  .of_plan rfl scripted_equal (Plan.returns_equal · ..) Plan.spans_equal fun hd =>
    .of_computes rfl hd fun _ _ _ => Plan.computes_equal

theorem guarded_notEqual :
    (notEqual src₁ src₂ dest temp₁ temp₂).Guarded .notEqual [src₁, src₂, dest, temp₁, temp₂]
      (.stores [src₁, src₂] dest [temp₁, temp₂] fun _ before =>
        truth (before src₁ ≠ before src₂)) :=
  .of_plan rfl scripted_notEqual (Plan.returns_notEqual · ..) Plan.spans_notEqual fun hd =>
    .of_computes rfl hd fun _ _ _ => Plan.computes_notEqual

end Sources

/-- **The gadgets for data movement, arithmetic and equality do what they say**, on cells of any width
and any content. A number is stored as far as the width goes; only one that is too large to be written
out is refused. Moving a cell empties it, moving it to itself is nothing; copying a cell keeps it and
leaves the scratch cell at zero. Sums and differences wrap around, the tests give one or zero. Sources
keep their values, and so do all cells that are neither the result nor scratch. Where distinct cells
are needed, others are refused and the workbench is left as it is. -/
theorem data_gadgets_work :
    (∀ cell value : Int, 0 ≤ value →
      (value < countBound →
        (setCell cell value).Works [cell] (.stores [] cell [] fun w _ => w.wrap value)) ∧
      (countBound ≤ value →
        ∀ w, ∃ w', (setCell cell value).runAt w = (.error .countTooLarge, w'))) ∧
    (∀ src dest : Int, src ≠ dest → (moveCell src dest).Works [src, dest] fun _ before after =>
      after dest = before src ∧ after src = 0 ∧ ∀ c, c ∉ [src, dest] → after c = before c) ∧
    (∀ (src : Int) (w : Workbench), (moveCell src src).runAt w = (.ok [], w)) ∧
    (∀ src dest temp : Int, (copy src dest temp).Guarded .copy [src, dest, temp]
      fun w before after => after temp = 0 ∧
        CellEffect.stores [src] dest [temp] (fun _ before => before src) w before after) ∧
    (∀ src₁ src₂ dest temp₁ temp₂ : Int,
      let cells := [src₁, src₂, dest, temp₁, temp₂]
      let stores := CellEffect.stores [src₁, src₂] dest [temp₁, temp₂]
      (add src₁ src₂ dest temp₁ temp₂).Guarded .add cells
        (stores fun w before => w.wrap (before src₁ + before src₂)) ∧
      (subtract src₁ src₂ dest temp₁ temp₂).Guarded .subtract cells
        (stores fun w before => w.wrap (before src₁ - before src₂)) ∧
      (equal src₁ src₂ dest temp₁ temp₂).Guarded .equal cells
        (stores fun _ before => truth (before src₁ = before src₂)) ∧
      (notEqual src₁ src₂ dest temp₁ temp₂).Guarded .notEqual cells
        (stores fun _ before => truth (before src₁ ≠ before src₂))) ∧
    ∀ src dest temp₁ temp₂ : Int,
      (negate src dest temp₁ temp₂).Guarded .negate [src, dest, temp₁, temp₂]
        (.stores [src] dest [temp₁, temp₂] fun _ before => truth (before src = 0)) := by
  refine ⟨fun cell value h0 => ⟨works_setCell cell h0, setCell_of_countBound_le cell⟩,
    fun src dest => works_moveCell, fun src w => ?_, guarded_copy, fun src₁ src₂ dest temp₁ temp₂ =>
      ⟨guarded_add .., guarded_subtract .., guarded_equal .., guarded_notEqual ..⟩, guarded_negate⟩
  unfold moveCell
  rw [if_pos rfl]
  rfl

/-- Five taken from three wraps around. -/
theorem data_gadgets_work_below_zero : ∃ code w',
    (subtract 0 1 2 3 4).runAt { cells := .ofSize 0 } = (.ok code, w') ∧
      ∃ m : Machine, m.Primed code ∧ m.memory = some #[3, 5, 9, 8, 7] ∧
        ∃ n m', m.run n = (none, m') ∧ m'.cellAt 2 = 254 := by
  obtain ⟨-, -, -, -, hsources, -⟩ := data_gadgets_work
  have hworks := (hsources 0 1 2 3 4).2.1.works (by decide)
  obtain ⟨code, w', hrun, m, hm, hmemory, -, n, m', hend, hset, -⟩ :=
    hworks.on_cells #[3, 5, 9, 8, 7] (by decide) (by decide) (by decide)
  have hbefore := Machine.cellAt_of_memory hmemory
  have hresult : m'.cellAt 2 = Width.w8.wrap (m.cellAt 0 - m.cellAt 1) := hset
  refine ⟨code, w', hrun, m, hm, hmemory, n, m', hend, ?_⟩
  rw [hresult, hbefore, hbefore]
  rfl

end Emit

end TapeScript
