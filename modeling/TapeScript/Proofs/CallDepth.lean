import TapeScript.Proofs.ScratchUse

set_option autoImplicit false

/-! # Nested calls of an emission

The code of a node is emitted whole or not at all: with room for so many nested calls there is code
for what the cut leaves of the nodes exactly when the calls of all nodes fit, and then it is the code
of the nodes themselves (`Node.gives_emitAll_cutAll`).
-/

namespace TapeScript

/-! ## What can be told from code -/

namespace Emit

section Shows

variable {P Q : Prop} {e e' : Emit Code}

/-- Whenever the action gives code, the statement holds. -/
def Shows (P : Prop) (e : Emit Code) : Prop := ∀ w code w', Gives e w code w' → P

theorem Shows.and (h : Shows P e) (h' : Shows Q e) : Shows (P ∧ Q) e :=
  fun w code w' hg => ⟨h w code w' hg, h' w code w' hg⟩

theorem Shows.imp (h : Shows P e) (hPQ : P → Q) : Shows Q e :=
  fun w code w' hg => hPQ (h w code w' hg)

theorem Shows.seq {es : List (Emit Code)} (h : Shows P e) (he : e ∈ es) : Shows P (seq es) := by
  intro w code w' hg
  induction es generalizing w code with
  | nil => cases he
  | cons e' es ih =>
    simp only [Emit.seq, gives_bind, gives_pure] at hg
    obtain ⟨_, w1, hfirst, rest, _, hrest, -, rfl⟩ := hg
    rcases List.mem_cons.mp he with rfl | he
    · exact h _ _ _ hfirst
    · exact ih he _ _ hrest

theorem Shows.borrow {f : Int → Emit Code} (h : ∀ c, Shows P (f c)) : Shows P (borrow f) := by
  intro w code w' hg
  simp only [Emit.borrow, gives_bind] at hg
  obtain ⟨c, _, -, _, _, hcode, -⟩ := hg
  exact h c _ _ _ hcode

theorem Shows.lift {α : Type} {x : Except Fault α} {f : α → Emit Code}
    (h : ∀ a, x = .ok a → Shows P (f a)) : Shows P (liftM x >>= f) := by
  intro w code w' hg
  obtain ⟨a, hx, hcode⟩ := gives_lift_bind.mp hg
  exact h a hx _ _ _ hcode

theorem Shows.loop (h : Shows P e) (cell : Int) : Shows P (loop cell e) := by
  intro w code w' hg
  obtain ⟨_, _, -, hinner, -⟩ := gives_loop.mp hg
  exact h _ _ _ hinner

theorem Shows.checked {g : Gadget} {cells : List Int} {f : Unit → Emit Code} (h : Shows P (f ())) :
    Shows P (needDistinct g cells >>= f) := by
  intro w code w' hg
  obtain ⟨_, _, -, hcode⟩ := gives_bind.mp hg
  exact h _ _ _ hcode

theorem Shows.branch (h : Shows P e) (cell temp1 temp2 : Int) (second : Option (Emit Code)) :
    Shows P (branch cell e second temp1 temp2) := by
  refine Shows.checked ?_
  have hside : Shows P (Emit.loop temp2 (Emit.seq [e, clear temp1, clear temp2])) :=
    Shows.loop (h.seq (by simp)) temp2
  cases second <;> exact hside.seq (by simp)

theorem Shows.branch_some (h : Shows P e') (cell temp1 temp2 : Int) :
    Shows P (Emit.branch cell e (some e') temp1 temp2) := by
  refine Shows.checked ?_
  have hside : Shows P (Emit.loop temp1 (Emit.seq [e', clear temp1, clear temp2])) :=
    Shows.loop (h.seq (by simp)) temp1
  exact hside.seq (by simp)

end Shows

end Emit

namespace Node

open Emit

section Shows

variable {P Q R : Prop} {condition body otherwise : Node}

theorem shows_binary {level : Level} {op : String} {left right : Node} {cell : Int}
    (hleft : ∀ c, Shows P (left.emitInto c)) (hright : ∀ c, Shows Q (right.emitInto c)) :
    Shows (P ∧ Q) ((Node.binary level op left right).emitInto cell) := by
  rw [emitInto_binary]
  refine Shows.borrow fun c1 => Shows.borrow fun c2 => Shows.and ?_ ?_
  · exact (hleft c1).seq (by simp)
  · exact (hright c2).seq (by simp)

theorem shows_at {n : Node} (h : ∀ c, Shows P (n.emitInto c)) (symbol : Symbol) :
    Shows P (n.emitAt symbol) := by
  unfold emitAt
  split
  · exact h _
  · split
    all_goals
      intro _ _ _ h
      simp at h

theorem shows_output {value : Node} (h : ∀ c, Shows P (value.emitInto c)) :
    Shows P (Node.output value).emit := by
  rw [emit, emitOutput_eq]
  exact Shows.borrow fun temp => (h temp).seq (by simp)

/-- A branch has the code of its sides, unless that of the alternative is withheld. -/
theorem shows_ifElse (hcondition : ∀ c, Shows P (condition.emitInto c)) (hbody : Shows Q body.emit)
    (hotherwise : Shows R otherwise.emit) (hwithheld : otherwise.hasCode = .ok false → R) :
    Shows (P ∧ Q ∧ R) (Node.ifElse condition body (some otherwise)).emit := by
  rw [emit_ifElse]
  refine Shows.borrow fun result => Shows.borrow fun t1 => Shows.borrow fun t2 => Shows.and ?_ ?_
  · exact (hcondition result).seq (by simp)
  · refine Shows.seq ?_ (List.mem_cons_of_mem _ List.mem_cons_self)
    -- an alternative whose code is withheld is passed over
    refine Shows.lift fun _ _ => Shows.lift fun ready hready => Shows.and ?_ ?_
    · cases ready with
      | true => exact hbody.branch result t1 t2 (some otherwise.emit)
      | false => exact hbody.branch result t1 t2 none
    · cases ready with
      | true => exact hotherwise.branch_some result t1 t2
      | false => exact fun _ _ _ _ => hwithheld hready

/-- A branch without an alternative has no code. -/
theorem shows_ifElse_none : Shows P (Node.ifElse condition body none).emit := by
  intro w code w' h
  simp [emit, emitBranch] at h

theorem shows_loop (hcondition : ∀ c, Shows P (condition.emitInto c)) (hbody : Shows Q body.emit) :
    Shows (P ∧ Q) (Node.loop condition body).emit := by
  rw [emit_loop]
  refine Shows.borrow fun result => Shows.lift fun _ _ => Shows.lift fun _ _ => Shows.and ?_ ?_
  · exact (hcondition result).seq (by simp)
  · refine Shows.seq ?_ (List.mem_cons_of_mem _ List.mem_cons_self)
    exact Shows.loop (hbody.seq (by simp)) result

theorem shows_cons {n : Node} {ns : List Node} (h : Shows P n.emit) (hs : Shows Q (emitAll ns)) :
    Shows (P ∧ Q) (emitAll (n :: ns)) := by
  intro w code w' hg
  simp only [emitAll, gives_bind] at hg
  obtain ⟨_, _, hfirst, _, _, hrest, -⟩ := hg
  exact ⟨h _ _ _ hfirst, hs _ _ _ hrest⟩

end Shows

/-! ## Nodes that fit -/

mutual

/-- Nothing is cut off a node whose calls fit. -/
theorem cut_of_le : ∀ (n : Node) {room : Nat}, n.calls ≤ room → n.cut room = n
  | .binary _ op left right, room, h => by
    rw [calls] at h
    rw [cut, if_pos (by omega), cut_of_le left (by omega), cut_of_le right (by omega)]
  | .declare _ (some value), room, h | .assign _ value, room, h | .output value, room, h => by
    rw [calls] at h
    rw [cut, if_pos (by omega), cut_of_le value (by omega)]
  | .block body, room, h => by
    rw [calls] at h
    rw [cut, if_pos (by omega), cutAll_of_le body (by omega)]
  | .ifElse condition body none, room, h | .loop condition body, room, h => by
    rw [calls] at h
    rw [cut, if_pos (by omega), cut_of_le condition (by omega), cut_of_le body (by omega)]
  | .ifElse condition body (some alternative), room, h => by
    rw [calls] at h
    rw [cut, if_pos (by omega), cut_of_le condition (by omega), cut_of_le body (by omega),
      cut_of_le alternative (by omega)]
  | .constant _ _, _, h | .load _, _, h | .input, _, h | .unary _ _, _, h | .declare _ none, _, h
  | .exprStmt _, _, h | .newName _, _, h | .nop _, _, h | .program _, _, h | .withheld _, _, h
  | .bare _, _, h | .blank, _, h | .misfit, _, h | .deep, _, h => if_pos h

theorem cutAll_of_le : ∀ (ns : List Node) {room : Nat}, callsAll ns ≤ room → cutAll room ns = ns
  | [], _, _ => rfl
  | n :: ns, room, h => by
    rw [callsAll] at h
    rw [cutAll, cut_of_le n (by omega), cutAll_of_le ns (by omega)]

end

theorem shows_into_of_room {P : Prop} {k room : Nat} {n : Node} {cell : Int}
    (h : k ≤ room → Shows P (n.emitInto cell)) :
    Shows P ((if k ≤ room then n else .deep).emitInto cell) := by
  split
  · next hroom => exact h hroom
  · exact fun _ _ _ hg => (gives_throw hg).elim

theorem shows_of_room {P : Prop} {k room : Nat} {n : Node} (h : k ≤ room → Shows P n.emit) :
    Shows P (if k ≤ room then n else .deep).emit := by
  split
  · next hroom => exact h hroom
  · exact fun _ _ _ hg => (gives_throw hg).elim

/-- The calls of a value with code fit. -/
theorem shows_into_cut : ∀ (n : Node) (room : Nat) (cell : Int),
    Shows (n.calls ≤ room) ((n.cut room).emitInto cell)
  | .binary _ op left right, room, cell => by
    rw [cut]
    refine shows_into_of_room fun hroom => ?_
    refine (shows_binary (shows_into_cut left _) (shows_into_cut right _)).imp ?_
    rw [calls]
    omega
  | .constant _ _, _, _ | .load _, _, _ | .input, _, _ | .unary _ _, _, _ | .declare _ none, _, _
  | .exprStmt _, _, _ | .newName _, _, _ | .nop _, _, _ | .program _, _, _ | .withheld _, _, _
  | .bare _, _, _ | .blank, _, _ | .misfit, _, _ | .deep, _, _ =>
    shows_into_of_room fun hroom _ _ _ _ => hroom
  | .declare _ (some _), _, _ | .assign _ _, _, _ | .block _, _, _ | .ifElse _ _ none, _, _
  | .ifElse _ _ (some _), _, _ | .loop _ _, _, _ | .output _, _, _ => by
    rw [cut]
    exact shows_into_of_room fun _ _ _ _ hg => (gives_throw hg).elim

/-- What is withheld is not cut off. -/
theorem calls_of_hasCode_cut {n : Node} {room : Nat} (h : (n.cut room).hasCode = .ok false) :
    n.calls ≤ room := by
  rw [cut.eq_def] at h
  -- of what is cut off the code is not withheld, it fails
  split at h
  all_goals
    split at h
    · first | assumption | cases h
    · cases h

mutual

/-- The calls of a statement with code fit. -/
theorem shows_cut : ∀ (n : Node) (room : Nat), Shows (n.calls ≤ room) (n.cut room).emit
  | .declare symbol (some value), room | .assign symbol value, room => by
    rw [cut, calls]
    refine shows_of_room fun hroom => ?_
    rw [emit]
    exact (shows_at (shows_into_cut value _) symbol).imp (by omega)
  | .output value, room => by
    rw [cut, calls]
    exact shows_of_room fun hroom => (shows_output (shows_into_cut value _)).imp (by omega)
  | .block body, room => by
    rw [cut, calls]
    refine shows_of_room fun hroom => ?_
    rw [emit]
    exact (shows_cutAll body _).imp (by omega)
  | .ifElse condition body none, room => by
    rw [cut]
    exact shows_of_room fun _ => shows_ifElse_none
  | .ifElse condition body (some alternative), room => by
    rw [cut, calls]
    exact shows_of_room fun hroom => (shows_ifElse (shows_into_cut condition _) (shows_cut body _)
      (shows_cut alternative _) calls_of_hasCode_cut).imp (by omega)
  | .loop condition body, room => by
    rw [cut, calls]
    exact shows_of_room fun hroom =>
      (shows_loop (shows_into_cut condition _) (shows_cut body _)).imp (by omega)
  | .binary _ _ _ _, _ => by
    rw [cut]
    exact shows_of_room fun _ _ _ _ hg => (gives_throw hg).elim
  | .constant _ _, _ | .load _, _ | .input, _ | .unary _ _, _ | .declare _ none, _
  | .exprStmt _, _ | .newName _, _ | .nop _, _ | .program _, _ | .withheld _, _
  | .bare _, _ | .blank, _ | .misfit, _ | .deep, _ =>
    shows_of_room fun hroom _ _ _ _ => hroom

theorem shows_cutAll : ∀ (ns : List Node) (room : Nat),
    Shows (callsAll ns ≤ room) (emitAll (cutAll room ns))
  | [], _ => fun _ _ _ _ => Nat.zero_le _
  | n :: ns, room => by
    rw [callsAll, Nat.max_le, cutAll]
    exact shows_cons (shows_cut n room) (shows_cutAll ns room)

end

/-- **Code of nodes takes room for their calls.** -/
theorem gives_emitAll_cutAll {ns : List Node} {room : Nat} {w w' : Workbench} {code : Code} :
    Gives (emitAll (cutAll room ns)) w code w' ↔
      callsAll ns ≤ room ∧ Gives (emitAll ns) w code w' := by
  constructor
  · intro h
    have hcalls := shows_cutAll ns room _ _ _ h
    rw [cutAll_of_le ns hcalls] at h
    exact ⟨hcalls, h⟩
  · rintro ⟨hcalls, h⟩
    rw [cutAll_of_le ns hcalls]
    exact h

end Node

end TapeScript
