import TapeScript.Emit.Call
import TapeScript.Proofs.Tracking

set_option autoImplicit false

/-! # The tracked head

The emitter never sees the tape run. It tracks where the head will be from the moves it emits, a
number that cannot depend on how often a loop is run. Nothing keeps a caller that writes brackets of
its own from making this number wrong. Calls that leave the brackets to loops and branches, nested
to any depth and chosen while looking at the workbench, make a `Disciplined` action; its code is
that of a plan (`Emit.Tracks`).

`Emit.Trace` records with every command where the head was taken to be when it was emitted. The main
result, `Emit.head_is_tracked`, is that a machine has its head exactly there, at each bracket
it comes to and at the end.
-/

namespace TapeScript

namespace Emit

/-! ## Traces -/

/-- What an action emits, each command with the place where the head was tracked to be when the beat
it belongs to was emitted. -/
inductive Trace : Emit Code → Workbench → List (Cmd × Int) → Workbench → Prop
  | nothing {w : Workbench} : Trace (pure []) w [] w
  | beat {b : Beat} {w w' : Workbench} {code : Code} (h : Gives b.emit w code w') :
    Trace b.emit w (code.map (·, w.head)) w'
  | andThen {first rest : Emit Code} {w1 w2 w3 : Workbench} {s t : List (Cmd × Int)}
    (hfirst : Trace first w1 s w2) (hrest : Trace rest w2 t w3) :
    Trace (do
      let a ← first
      let b ← rest
      return a ++ b) w1 (s ++ t) w3
  /-- Looking at the workbench, or at its cells, emits nothing. -/
  | asking {α : Type} {query : Emit α} {f : α → Emit Code} {w1 w2 w3 : Workbench} {a : α}
    {t : List (Cmd × Int)} (hquery : Gives query w1 a w2) (hstill : w2.head = w1.head)
    (hrest : Trace (f a) w2 t w3) : Trace (query >>= f) w1 t w3

namespace Trace

variable {e : Emit Code} {w w' : Workbench} {t : List (Cmd × Int)}

/-- A trace is one of the code that the action gives. -/
theorem gives (h : Trace e w t w') : Gives e w (t.map Prod.fst) w' := by
  induction h with
  | nothing => exact gives_pure.mpr ⟨rfl, rfl⟩
  | beat h => rw [List.map_map]; simpa [Function.comp_def] using h
  | andThen _ _ ih1 ih2 =>
    simp only [gives_bind, gives_pure, List.map_append]
    exact ⟨_, _, ih1, _, _, ih2, rfl, rfl⟩
  | asking hquery _ _ ih => exact gives_bind.mpr ⟨_, _, hquery, ih⟩

end Trace

end Emit

/-- A beat moves the tracked head as far as its code moves the head. -/
theorem Beat.head_eq (h : Int) (b : Beat) : b.head h = h + (b.code h).shift := by
  cases b with
  | go cell =>
    simp only [head, code, Op.code, Op.count, Op.cmd, Code.shift_append, Code.shift_replicate,
      instrShift]
    omega
  | act op =>
    have hop : Code.shift op.code = op.shift := by
      rw [Op.code, Code.shift_replicate, instrShift_op]
    rw [head, code, hop]
  | enter => simp [head, code, Code.shift, instrShift]
  | leave => simp [head, code, Code.shift, instrShift]

/-- Only the beats that are brackets emit one. -/
theorem Beat.code_eq_of_bracket {h : Int} {b : Beat} {c : Cmd} (hc : c = .enter ∨ c = .leave)
    (hmem : c ∈ b.code h) : b.code h = [c] := by
  have hplain : ∀ op : Op, c ∉ op.code := by
    intro op hop
    have heq := List.eq_of_mem_replicate hop
    rcases hc with rfl | rfl
    · exact op.cmd_ne_enter heq.symm
    · exact op.cmd_ne_leave heq.symm
  cases b with
  | go cell =>
    rcases List.mem_append.mp hmem with hr | hl
    · exact absurd hr (hplain _)
    · exact absurd hl (hplain _)
  | act op => exact absurd hmem (hplain op)
  | enter => rw [List.mem_singleton.mp hmem]; rfl
  | leave => rw [List.mem_singleton.mp hmem]; rfl

namespace Emit

namespace Trace

variable {e : Emit Code} {w w' : Workbench} {t : List (Cmd × Int)}

/-- The tracked head follows the code. -/
theorem head_eq (h : Trace e w t w') : w'.head = w.head + Code.shift (t.map Prod.fst) := by
  induction h with
  | nothing => simp [Code.shift]
  | @beat b w w' code h =>
    obtain ⟨-, rfl, rfl⟩ := gives_beat.mp h
    simpa [Function.comp_def] using Beat.head_eq w.head b
  | andThen _ _ ih1 ih2 =>
    rw [List.map_append, Code.shift_append, ih2, ih1]
    omega
  | asking _ hstill _ ih => rw [ih, hstill]

/-- At a bracket the tracked head is where the code before the bracket takes it. -/
theorem place_eq (h : Trace e w t w') {j : Nat} {c : Cmd} {place : Int}
    (hj : t[j]? = some (c, place)) (hc : c = .enter ∨ c = .leave) :
    place = w.head + Code.shift ((t.map Prod.fst).take j) := by
  induction h generalizing j with
  | nothing => cases hj
  | @beat b w w' code h =>
    obtain ⟨-, rfl, rfl⟩ := gives_beat.mp h
    have hmem : c ∈ b.code w.head := by
      obtain ⟨d, hd, heq⟩ := List.mem_map.mp (List.mem_of_getElem? hj)
      cases heq
      exact hd
    rw [Beat.code_eq_of_bracket hc hmem] at hj ⊢
    cases j with
    | zero => cases hj; simp [Code.shift]
    | succ j => cases hj
  | @andThen first rest w1 w2 w3 s t hfirst hrest ih1 ih2 =>
    rw [List.map_append]
    by_cases hlt : j < s.length
    · rw [List.getElem?_append_left hlt] at hj
      rw [List.take_append_of_le_length (by simpa using hlt.le)]
      exact ih1 hj
    · rw [List.getElem?_append_right (by omega)] at hj
      have hsplit : j = (s.map Prod.fst).length + (j - s.length) := by
        rw [List.length_map]; omega
      rw [ih2 hj, hfirst.head_eq, hsplit, List.take_length_add_append, Code.shift_append]
      simp only [List.length_map, Nat.add_sub_cancel_left]
      omega
  | asking _ hstill _ ih => rw [ih hj, hstill]

end Trace

variable {es : List (Emit Code)} {e body : Emit Code}

/-- Whatever the action emits has a trace. -/
def Traced (e : Emit Code) : Prop :=
  ∀ w code w', Gives e w code w' → ∃ t, Trace e w t w'

theorem traced_beat (b : Beat) : Traced b.emit := fun _ _ _ h => ⟨_, .beat h⟩

theorem traced_seq (h : ∀ e ∈ es, Traced e) : Traced (seq es) := by
  induction es with
  | nil =>
    intro w code w' hg
    obtain ⟨-, rfl⟩ := gives_pure.mp hg
    exact ⟨[], .nothing⟩
  | cons e es ih =>
    intro w code w' hg
    simp only [seq, gives_bind, gives_pure] at hg
    obtain ⟨_, w1, hfirst, _, w2, hrest, -, rfl⟩ := hg
    obtain ⟨s, hs⟩ := h e (by simp) _ _ _ hfirst
    obtain ⟨t, ht⟩ := ih (fun e he => h e (by simp [he])) _ _ _ hrest
    exact ⟨s ++ t, .andThen hs ht⟩

theorem traced_scripted {bs : List Beat} (h : Scripted e bs) : Traced e := by
  rw [show e = seq (bs.map Beat.emit) from h]
  refine traced_seq fun x hx => ?_
  obtain ⟨b, -, rfl⟩ := List.mem_map.mp hx
  exact traced_beat b

/-! ## Code that follows a plan -/

/-- Whatever the action emits is spelled by a plan. -/
def Tracks (e : Emit Code) : Prop :=
  ∀ w code w', Gives e w code w' → ∃ p : Plan, p.Spells w.head code w'.head

theorem tracks_pure : Tracks (pure []) := by
  intro w code w' h
  obtain ⟨rfl, rfl⟩ := gives_pure.mp h
  exact ⟨.done, Plan.spells_done _⟩

theorem Tracks.andThen {first rest : Emit Code} (hfirst : Tracks first) (hrest : Tracks rest) :
    Tracks (do
      let a ← first
      let b ← rest
      return a ++ b) := by
  intro w code w' h
  simp only [gives_bind, gives_pure] at h
  obtain ⟨a, w1, hgive, b, _, hgive', rfl, rfl⟩ := h
  obtain ⟨p, hp⟩ := hfirst _ _ _ hgive
  obtain ⟨q, hq⟩ := hrest _ _ _ hgive'
  exact ⟨p ++ q, hp.append hq⟩

theorem tracks_seq (h : ∀ e ∈ es, Tracks e) : Tracks (seq es) := by
  induction es with
  | nil => exact tracks_pure
  | cons e es ih => exact (h e (by simp)).andThen (ih fun e he => h e (by simp [he]))

theorem Tracks.loop (hbody : Tracks body) (cell : Int) : Tracks (loop cell body) := by
  intro w code w' h
  obtain ⟨inner, w1, hinner, -, hspells⟩ := spells_loop h
  obtain ⟨p, hp⟩ := hbody _ _ _ hinner
  exact ⟨.loopAt cell p, hspells p hp⟩

/-! ## Disciplined actions -/

/-- The action can be traced and follows a plan. -/
structure Managed (e : Emit Code) : Prop where
  traced : Traced e
  tracks : Tracks e

theorem managed_scripted {p : Plan} (hs : Scripted e p.beats) (hret : ∀ h, p.Returns h) :
    Managed e :=
  ⟨traced_scripted hs, fun _ _ _ h => ⟨p, (hs.spells hret h).1⟩⟩

theorem managed_pure : Managed (pure []) :=
  managed_scripted (p := .done) Scripted.empty fun _ => trivial

theorem managed_seq (h : ∀ e ∈ es, Managed e) : Managed (seq es) :=
  ⟨traced_seq fun e he => (h e he).traced, tracks_seq fun e he => (h e he).tracks⟩

theorem Managed.andThen {first rest : Emit Code} (hfirst : Managed first) (hrest : Managed rest) :
    Managed (do
      let a ← first
      let b ← rest
      return a ++ b) := by
  refine ⟨?_, hfirst.tracks.andThen hrest.tracks⟩
  intro w code w' h
  simp only [gives_bind, gives_pure] at h
  obtain ⟨_, _, hgive, _, _, hgive', -, rfl⟩ := h
  obtain ⟨s, hs⟩ := hfirst.traced _ _ _ hgive
  obtain ⟨t, ht⟩ := hrest.traced _ _ _ hgive'
  exact ⟨s ++ t, .andThen hs ht⟩

/-- Looking at the workbench first does not matter as long as the head is left alone. -/
theorem managed_asking {α : Type} {query : Emit α} {f : α → Emit Code}
    (h : ∀ w a w', Gives query w a w' → w'.head = w.head ∧ Managed (f a)) :
    Managed (query >>= f) := by
  refine ⟨?_, ?_⟩
  · intro w code w' hg
    obtain ⟨a, w1, hquery, hrest⟩ := gives_bind.mp hg
    obtain ⟨hstill, hf⟩ := h _ _ _ hquery
    obtain ⟨t, ht⟩ := hf.traced _ _ _ hrest
    exact ⟨t, .asking hquery hstill ht⟩
  · intro w code w' hg
    obtain ⟨a, w1, hquery, hrest⟩ := gives_bind.mp hg
    obtain ⟨hstill, hf⟩ := h _ _ _ hquery
    have hplan := hf.tracks _ _ _ hrest
    rwa [hstill] at hplan

theorem Managed.loop (hbody : Managed body) (cell : Int) : Managed (loop cell body) := by
  refine ⟨traced_seq ?_, hbody.tracks.loop cell⟩
  simp only [List.forall_mem_cons]
  exact ⟨traced_beat (.go cell), traced_beat .enter, hbody.traced, traced_beat (.go cell),
    traced_beat .leave, by simp⟩

theorem Managed.loopWhile {condition : Int → Emit Code} {cell : Int}
    (hcondition : Managed (condition cell)) (hbody : Managed body) :
    Managed (loopWhile condition body cell) := by
  rw [loopWhile_eq]
  refine managed_seq ?_
  simp only [List.forall_mem_cons]
  refine ⟨hcondition, Managed.loop (managed_seq ?_) cell, by simp⟩
  simp only [List.forall_mem_cons]
  exact ⟨hbody, hcondition, by simp⟩

theorem managed_clear (cell : Int) : Managed (clear cell) :=
  managed_scripted (scripted_clear cell) fun h => Plan.returns_clear h cell

/-- An action that never succeeds emits nothing that could go wrong. -/
theorem managed_of_fails (h : ∀ w code w', ¬ Gives e w code w') : Managed e :=
  ⟨fun w code w' hg => absurd hg (h w code w'), fun w code w' hg => absurd hg (h w code w')⟩

theorem managed_setCell (cell value : Int) : Managed (setCell cell value) := by
  by_cases hneg : value < 0
  · refine managed_of_fails fun w code w' h => ?_
    simp [setCell, hneg] at h
  · exact managed_scripted (scripted_setCell cell (by omega)) (by simp)

/-- A gadget whose cells are not distinct fails, and otherwise emits its plan. -/
theorem managed_gadget {g : Gadget} {cells : List Int} {f : Unit → Emit Code}
    (he : e = needDistinct g cells >>= f) {p : Plan} (hs : cells.Nodup → Scripted e p.beats)
    (hret : ∀ h, p.Returns h) : Managed e := by
  by_cases hcells : cells.Nodup
  · exact managed_scripted (hs hcells) hret
  · refine managed_of_fails fun w code w' h => hcells ?_
    rw [he, gives_bind] at h
    obtain ⟨_, _, hcheck, -⟩ := h
    exact (gives_needDistinct.mp hcheck).1

theorem managed_copy (src dest temp : Int) : Managed (copy src dest temp) :=
  managed_gadget rfl scripted_copy (by simp)

theorem managed_once (hbody : Managed body) (temp1 temp2 : Int) :
    Managed (seq [body, clear temp1, clear temp2]) := by
  refine managed_seq ?_
  simp only [List.forall_mem_cons]
  exact ⟨hbody, managed_clear temp1, managed_clear temp2, by simp⟩

theorem Managed.branch (hbody : Managed body) {otherwise : Option (Emit Code)}
    (hotherwise : ∀ e, otherwise = some e → Managed e) (cell temp1 temp2 : Int) :
    Managed (branch cell body otherwise temp1 temp2) := by
  refine managed_asking fun w _ w' hcheck => ⟨by rw [(gives_needDistinct.mp hcheck).2], ?_⟩
  cases otherwise with
  | none =>
    refine managed_seq ?_
    simp only [List.forall_mem_cons]
    exact ⟨managed_copy _ _ _, Managed.loop (managed_once hbody temp1 temp2) temp2, by simp⟩
  | some alternative =>
    refine managed_seq ?_
    simp only [List.forall_mem_cons]
    exact ⟨managed_copy _ _ _, managed_setCell _ _,
      Managed.loop (managed_once hbody temp1 temp2) temp2,
      Managed.loop (managed_once (hotherwise _ rfl) temp1 temp2) temp1, by simp⟩

/-- A repetition of a command that does not move the head. -/
theorem managed_repeated {cmd : Cmd} (f : Nat → Op) (hcmd : ∀ n, (f n).cmd = cmd)
    (hcount : ∀ n, (f n).count = n) (hshift : ∀ n, (f n).shift = 0) (count : Int) :
    Managed (repeated cmd count) := by
  by_cases hneg : count < 0
  · by_cases hbound : count < -countBound
    · refine managed_of_fails fun w code w' h => ?_
      have := (gives_repeated.mp h).1
      omega
    · have hnone : repeated cmd count = pure [] := by
        have hpos := countBound_pos
        unfold repeated
        rw [if_neg (by omega), Int.toNat_of_nonpos hneg.le]
        rfl
      rw [hnone]
      exact managed_pure
  · have hemit : repeated cmd count = (Beat.act (f count.toNat)).emit := by
      rw [emit_act_of_still (hshift _), hcmd, hcount, Int.toNat_of_nonneg (by omega)]
    rw [hemit]
    exact managed_scripted (p := .act (f count.toNat) .done) (scripted_beat _) fun _ => trivial

theorem managed_moveBy (d : Direction) (count : Int) : Managed (moveBy d count) := by
  by_cases hpos : 0 < count
  · rw [moveBy_eq d hpos]
    exact managed_scripted (p := .act (d.op count.toNat) .done) (scripted_beat _) fun _ => trivial
  · refine managed_of_fails fun w code w' h => ?_
    unfold moveBy at h
    rw [if_pos (by omega)] at h
    simp at h

theorem managed_one (op : Op) (hshift : op.shift = 0) (hcount : op.count = 1) :
    Managed (one op.cmd) :=
  managed_scripted (p := .act op .done) (scripted_one op hshift hcount) fun _ => trivial

theorem managed_moveCell (src dest : Int) : Managed (moveCell src dest) := by
  by_cases h : src = dest
  · unfold moveCell
    rw [if_pos h]
    exact managed_pure
  · exact managed_scripted (scripted_moveCell h) (by simp)

end Emit

/-- The call writes no bracket of its own and has no body. -/
def Call.IsPlain : Call → Bool
  | .bracket _ | .loop _ _ | .loopWhile _ _ _ | .branch _ _ _ _ _ => false
  | _ => true

namespace Emit

theorem managed_plain {c : Call} (h : c.IsPlain) : Managed c.emit := by
  cases c with
  | plus count => exact managed_repeated .inc (fun _ => rfl) (fun _ => rfl) (fun _ => rfl) count
  | minus count => exact managed_repeated .dec (fun _ => rfl) (fun _ => rfl) (fun _ => rfl) count
  | moveBy direction count => exact managed_moveBy direction count
  | output => exact managed_one .put rfl rfl
  | input => exact managed_one .get rfl rfl
  | moveTo cell =>
    exact managed_scripted (p := .go cell .done) (scripted_moveTo cell) fun _ => trivial
  | clear cell => exact managed_clear cell
  | setCell cell value => exact managed_setCell cell value
  | moveCell src dest => exact managed_moveCell src dest
  | copy src dest temp => exact managed_copy src dest temp
  | add => exact managed_gadget rfl scripted_add (by simp)
  | subtract => exact managed_gadget rfl scripted_subtract (by simp)
  | equal => exact managed_gadget rfl scripted_equal (by simp)
  | notEqual => exact managed_gadget rfl scripted_notEqual (by simp)
  | greater => exact managed_gadget rfl scripted_greater (by simp)
  | less => exact managed_gadget rfl scripted_less (by simp)
  | negate => exact managed_gadget rfl scripted_negate (by simp)
  | lessOrEqual => exact managed_gadget rfl scripted_lessOrEqual (by simp)
  | greaterOrEqual => exact managed_gadget rfl scripted_greaterOrEqual (by simp)
  | bracket | loop | loopWhile | branch => cases h

/-- Calls in sequence without raw brackets, with bodies and conditions that are such sequences
themselves. What is called may depend on what the workbench is found to be. -/
inductive Disciplined : Emit Code → Prop
  | call {c : Call} (h : c.IsPlain) : Disciplined c.emit
  | nothing : Disciplined (pure [])
  | andThen {first rest : Emit Code} (hfirst : Disciplined first) (hrest : Disciplined rest) :
    Disciplined (do
      let a ← first
      let b ← rest
      return a ++ b)
  | loop {body : Emit Code} (cell : Int) (hbody : Disciplined body) : Disciplined (loop cell body)
  | loopWhile {condition : Int → Emit Code} {body : Emit Code} {cell : Int}
    (hcondition : Disciplined (condition cell)) (hbody : Disciplined body) :
    Disciplined (loopWhile condition body cell)
  | branch {body : Emit Code} {otherwise : Option (Emit Code)} (cell temp1 temp2 : Int)
    (hbody : Disciplined body) (hotherwise : ∀ e, otherwise = some e → Disciplined e) :
    Disciplined (branch cell body otherwise temp1 temp2)
  | asking {α : Type} {query : Emit α} {f : α → Emit Code}
    (hquery : ∀ w a w', Gives query w a w' → w'.head = w.head) (hf : ∀ a, Disciplined (f a)) :
    Disciplined (query >>= f)

/-- One case for each way to make calls. -/
theorem Disciplined.managed {e : Emit Code} (h : Disciplined e) : Managed e := by
  induction h with
  | call h => exact managed_plain h
  | nothing => exact managed_pure
  | andThen _ _ ih1 ih2 => exact ih1.andThen ih2
  | loop cell _ ih => exact ih.loop cell
  | loopWhile _ _ ih1 ih2 => exact ih1.loopWhile ih2
  | branch cell temp1 temp2 _ _ ih1 ih2 => exact ih1.branch ih2 cell temp1 temp2
  | asking hquery _ ih => exact managed_asking fun w a w' hg => ⟨hquery w a w' hg, ih a⟩

end Emit

mutual

/-- The call makes no raw bracket, and neither do its bodies. -/
def Call.bracketFree : Call → Bool
  | .bracket _ => false
  | .loop _ body => bracketFreeAll body
  | .loopWhile condition body _ => bracketFreeAll condition && bracketFreeAll body
  | .branch _ body none _ _ => bracketFreeAll body
  | .branch _ body (some otherwise) _ _ => bracketFreeAll body && bracketFreeAll otherwise
  | _ => true

def bracketFreeAll : List Call → Bool
  | [] => true
  | c :: cs => c.bracketFree && bracketFreeAll cs

end

mutual

theorem Call.disciplined_emit : ∀ c : Call, c.bracketFree = true → Emit.Disciplined c.emit
  | .loop cell body, h => by
    rw [Call.bracketFree] at h
    rw [Call.emit]
    exact .loop cell (disciplined_emitAll body h)
  | .loopWhile condition body cell, h => by
    rw [Call.bracketFree, Bool.and_eq_true] at h
    rw [Call.emit]
    have hcondition : Emit.Disciplined ((fun _ : Int => emitAll condition) cell) :=
      disciplined_emitAll condition h.1
    exact hcondition.loopWhile (disciplined_emitAll body h.2)
  | .branch cell body none temp1 temp2, h => by
    rw [Call.bracketFree] at h
    rw [Call.emit]
    refine .branch cell temp1 temp2 (disciplined_emitAll body h) fun e he => ?_
    cases he
  | .branch cell body (some otherwise) temp1 temp2, h => by
    rw [Call.bracketFree, Bool.and_eq_true] at h
    rw [Call.emit]
    refine .branch cell temp1 temp2 (disciplined_emitAll body h.1) fun e he => ?_
    cases he
    exact disciplined_emitAll otherwise h.2
  | .bracket opening, h => by
    rw [Call.bracketFree] at h
    cases h
  | .plus _, _ | .minus _, _ | .moveBy _ _, _ | .output, _ | .input, _ | .moveTo _, _
  | .clear _, _ | .setCell _ _, _ | .moveCell _ _, _ | .copy _ _ _, _ | .add _ _ _ _ _, _
  | .subtract _ _ _ _ _, _ | .equal _ _ _ _ _, _ | .notEqual _ _ _ _ _, _
  | .greater _ _ _ _ _ _ _, _ | .less _ _ _ _ _ _ _, _ | .negate _ _ _ _, _
  | .lessOrEqual _ _ _ _ _ _ _, _ | .greaterOrEqual _ _ _ _ _ _ _, _ => .call rfl

/-- Calls without raw brackets, given as data. -/
theorem disciplined_emitAll :
    ∀ cs : List Call, bracketFreeAll cs = true → Emit.Disciplined (emitAll cs)
  | [], _ => .nothing
  | c :: cs, h => by
    rw [bracketFreeAll, Bool.and_eq_true] at h
    exact .andThen (c.disciplined_emit h.1) (disciplined_emitAll cs h.2)

end

/-! ## Blocks with the same code -/

namespace Block

theorem shift_prepend (ops : List Op) (b : Block) :
    (prepend ops b).shift = (ops.map Op.shift).sum + b.shift := by
  induction ops with
  | nil => simp
  | cons op ops ih =>
    rw [prepend_cons, shift, ih, List.map_cons, List.sum_cons]
    omega

theorem level_prepend (ops : List Op) (b : Block) : (prepend ops b).Level ↔ b.Level := by
  induction ops with
  | nil => rfl
  | cons op ops ih => exact ih

theorem shift_units (b : Block) : b.units.shift = b.shift := by
  induction b with
  | done => rfl
  | act op rest ih =>
    have hop : (op.units.map Op.shift).sum = op.shift := by
      cases op <;> simp [Op.units, Op.shift]
    rw [units, shift_prepend, hop, ih, shift]
  | loop body rest _ ih => exact ih

theorem level_units (b : Block) : b.units.Level ↔ b.Level := by
  induction b with
  | done => rfl
  | act op rest ih => rw [units, level_prepend, ih]; rfl
  | loop body rest ihb ihr => rw [units, Level, Level, ihb, ihr, shift_units]

end Block

/-- Code that follows a plan is level, whichever way it is cut into operations. -/
theorem Plan.level_of_code_eq {p : Plan} {h : Int} (hret : p.Returns h) {b : Block}
    (hcode : b.code = p.code h) : b.Level ∧ h + b.shift = p.head h := by
  have hunits : b.units = (p.block h).units := Block.units_eq_of_code_eq hcode
  rw [← b.level_units, ← b.shift_units, hunits, Block.level_units, Block.shift_units]
  exact Plan.level_block hret

/-- The code of a plan can be read as a program, and that program is level. -/
theorem Plan.exists_level_program {p : Plan} {h : Int} (hret : p.Returns h) :
    ∃ (program : Program) (b : Block), Program.ofText (p.code h).text = .ok program ∧
      b.At 0 program ∧ program.size = b.size ∧ b.Level ∧ h + b.shift = p.head h := by
  obtain ⟨program, b, hprogram, hcode, hlinked⟩ := Program.exists_of_block (p.block h)
  obtain ⟨hlevel, hshift⟩ := level_of_code_eq hret hcode
  refine ⟨program, b, hprogram, ⟨[], [], by rw [hlinked]; simp, rfl⟩, ?_, hlevel, hshift⟩
  rw [← Block.length_linked b 0, ← hlinked, List.length_map, Array.length_toList]

/-! ## The head of a machine -/

namespace Emit

/-- **The head is where the emitter tracks it.** The code of disciplined calls is balanced. Any
machine that runs it, whatever its width, its tape and its input, from where the emitter started,
has its head where the emitter ended if it comes to the end, and at each bracket it comes to, after
whatever number of rounds, where the head was tracked to be when that bracket was emitted. -/
theorem head_is_tracked {e : Emit Code} (he : Disciplined e) {w w' : Workbench} {code : Code}
    (h : e.runAt w = (.ok code, w')) :
    code.Balanced ∧ ∃ (program : Program) (trace : List (Cmd × Int)),
      Program.ofText code.text = .ok program ∧
      Trace e w trace w' ∧ trace.map Prod.fst = code ∧
      ∀ m : Machine, m.setup.program = program → m.pc = 0 → m.head = w.head →
        (∀ n m', m.finished = false → m.run n = (none, m') → m'.head = w'.head) ∧
        ∀ (m' : Machine) (k : Nat) (i : Instr), Relation.ReflTransGen Machine.Goes m m' →
          m'.pc = k → program[k]? = some i → i.cmd = .enter ∨ i.cmd = .leave →
          (trace)[i.pos]? = some (i.cmd, m'.head) := by
  obtain ⟨p, hret, hcode, hhead⟩ := he.managed.tracks w code w' h
  obtain ⟨trace, htrace⟩ := he.managed.traced w code w' h
  have htracecode : trace.map Prod.fst = code :=
    Except.ok.inj (congrArg Prod.fst (htrace.gives.symm.trans h))
  obtain ⟨program, b, hprogram, hat, hsize, hlevel, hshift⟩ := Plan.exists_level_program hret
  rw [← hcode] at hprogram
  refine ⟨by rw [hcode]; exact Block.balanced_code _, program, trace, hprogram, htrace, htracecode,
    fun m hm hpc hstart => ?_⟩
  subst hm
  have htrack : m.OnTrack w.head := ⟨0, hpc, by rw [hstart]; simp [shiftBefore]⟩
  constructor
  · intro n m' hfresh hrun
    rw [Machine.run, hfresh] at hrun
    obtain ⟨m₁, hreach, hend, hsame⟩ := Machine.reaches_of_runFor hrun
    obtain ⟨htrack₁, hsetup⟩ := htrack.reaches hat hsize hlevel hreach
    rw [← hsetup] at hat hsize
    rw [hsame, Machine.head_of_ended htrack₁ hat hsize hlevel hend, hshift, hhead]
  · intro m' k i hreach hk hi hbracket
    obtain ⟨⟨k', hk', hplace⟩, hsetup⟩ := htrack.reaches hat hsize hlevel hreach
    have hkk : k' = k := by omega
    rw [hkk, hsetup, Program.shiftBefore_eq hprogram hi] at hplace
    have hcmd := Program.bracket_at_pos hprogram hi hbracket
    rw [← htracecode, List.getElem?_map, Option.map_eq_some_iff] at hcmd
    obtain ⟨⟨c, place⟩, hj, hc⟩ := hcmd
    cases hc
    rw [hj, htrace.place_eq hj hbracket, htracecode, hplace]

/-- A countdown around a loop that reads input elsewhere. -/
theorem head_is_tracked_countdown :
    bracketFreeAll [.setCell 0 2, .loop 0 [.minus 1, .loop 1 [.moveTo 5, .input]], .moveTo 4] ∧
    ∃ code w', (emitAll [.setCell 0 2, .loop 0 [.minus 1, .loop 1 [.moveTo 5, .input]],
        .moveTo 4]).runAt { cells := .ofSize 0 } = (.ok code, w') ∧ w'.head = 4 ∧
      code.Balanced ∧ ∃ program, Program.ofText code.text = .ok program ∧
        ∀ m : Machine, m.setup.program = program → m.pc = 0 → m.head = 0 →
          ∀ n m', m.finished = false → m.run n = (none, m') → m'.head = 4 := by
  have hfree : bracketFreeAll [.setCell 0 2, .loop 0 [.minus 1, .loop 1 [.moveTo 5, .input]],
      .moveTo 4] = true := by
    simp [bracketFreeAll, Call.bracketFree]
  obtain ⟨code, w', hrun, hend⟩ : ∃ code w', (emitAll [.setCell 0 2,
      .loop 0 [.minus 1, .loop 1 [.moveTo 5, .input]], .moveTo 4]).runAt { cells := .ofSize 0 }
        = (.ok code, w') ∧ w'.head = 4 := by
    simp only [emitAll, Call.emit]
    exact ⟨_, _, rfl, rfl⟩
  obtain ⟨hbalanced, program, _, hprogram, -, -, hhead⟩ :=
    head_is_tracked (disciplined_emitAll _ hfree) hrun
  refine ⟨hfree, code, w', hrun, hend, hbalanced, program, hprogram, fun m hm hpc hstart => ?_⟩
  rw [← hend]
  exact (hhead m hm hpc hstart).1

end Emit

end TapeScript
