import TapeScript.Lower.Node
import TapeScript.Proofs.ScratchUse

set_option autoImplicit false

/-! # What actions can do at most

An action that fails has often done half of its work. An `Effect` says what it may have done by then:
which states it can lead to, whether it succeeds or not, and with which faults it can fail. What
actions may do, an action composed of them may do (`Effect.allows_bind`).

All emission is composed of a few steps (`Emit.Built`): scratch cells are taken and given back, the
head is moved, and some things are refused. So the cells in use and the scratch pool stay as they are
(`Emit.Built.allows`), and the log has no part in what is emitted (`Emit.Built.agree`).
-/

namespace TapeScript

/-- The states that may be reached from a state, and the faults that may arise on the way. -/
structure Effect (σ ε : Type) where
  leads : σ → σ → Prop
  faults : ε → Prop
  refl : ∀ s, leads s s
  trans : ∀ {s s1 s2}, leads s s1 → leads s1 s2 → leads s s2

namespace Effect

variable {σ ε α β : Type} (E : Effect σ ε)

/-- The action does no more than the effect says, wherever it starts. -/
def Allows (e : ExceptT ε (StateM σ) α) : Prop :=
  ∀ s, E.leads s (runFrom e s).2 ∧ ∀ f, (runFrom e s).1 = .error f → E.faults f

variable {E}

@[simp] theorem allows_pure (a : α) : E.Allows (pure a) := by
  intro s
  exact ⟨E.refl s, fun f hf => by cases hf⟩

theorem allows_throw {f : ε} (h : E.faults f) : E.Allows (throw f : ExceptT ε (StateM σ) α) := by
  intro s
  refine ⟨E.refl s, fun g hg => ?_⟩
  cases hg
  exact h

theorem allows_bind {x : ExceptT ε (StateM σ) α} {f : α → ExceptT ε (StateM σ) β}
    (hx : E.Allows x) (hf : ∀ a, E.Allows (f a)) : E.Allows (x >>= f) := by
  intro s
  obtain ⟨hleads, hfaults⟩ := hx s
  rw [runFrom_bind]
  cases hrun : runFrom x s with
  | mk r s1 =>
    rw [hrun] at hleads hfaults
    cases r with
    | error fault =>
      refine ⟨hleads, fun g hg => ?_⟩
      cases hg
      exact hfaults fault rfl
    | ok a =>
      obtain ⟨hleads', hfaults'⟩ := hf a s1
      exact ⟨E.trans hleads hleads', hfaults'⟩

@[simp] theorem allows_get : E.Allows (get : ExceptT ε (StateM σ) σ) := by
  intro s
  exact ⟨E.refl s, fun f hf => by cases hf⟩

theorem allows_modify {f : σ → σ} (h : ∀ s, E.leads s (f s)) :
    E.Allows (modify f : ExceptT ε (StateM σ) Unit) := by
  intro s
  exact ⟨h s, fun f hf => by cases hf⟩

theorem allows_lift {x : Except ε α} (h : ∀ f, x = .error f → E.faults f) :
    E.Allows (liftM x : ExceptT ε (StateM σ) α) := by
  intro s
  cases x with
  | ok a => exact ⟨E.refl s, fun f hf => by cases hf⟩
  | error fault =>
    refine ⟨E.refl s, fun g hg => ?_⟩
    cases hg
    exact h fault rfl

theorem allows_tryCatch {x : ExceptT ε (StateM σ) α} {handle : ε → ExceptT ε (StateM σ) α}
    (hx : E.Allows x) (hhandle : ∀ f, E.Allows (handle f)) : E.Allows (tryCatch x handle) := by
  intro s
  obtain ⟨hleads, hfaults⟩ := hx s
  rw [runFrom_tryCatch]
  cases hrun : runFrom x s with
  | mk r s1 =>
    rw [hrun] at hleads
    cases r with
    | ok a => exact ⟨hleads, fun f hf => by cases hf⟩
    | error fault =>
      obtain ⟨hleads', hfaults'⟩ := hhandle fault s1
      exact ⟨E.trans hleads hleads', hfaults'⟩

theorem allows_ite {c : Prop} [Decidable c] {x y : ExceptT ε (StateM σ) α} (hx : c → E.Allows x)
    (hy : ¬ c → E.Allows y) : E.Allows (if c then x else y) := by
  split
  · next h => exact hx h
  · next h => exact hy h

end Effect

/-! ## Two runs of an action -/

section Runs

variable {ε σ α β : Type} {R : σ → σ → Prop}

/-- From related states the action has the same outcome, and leaves related states. -/
def Respects (R : σ → σ → Prop) (e : ExceptT ε (StateM σ) α) : Prop :=
  ∀ s s', R s s' → (runFrom e s).1 = (runFrom e s').1 ∧ R (runFrom e s).2 (runFrom e s').2

theorem respects_pure (a : α) : Respects R (pure a : ExceptT ε (StateM σ) α) := fun _ _ h => ⟨rfl, h⟩

theorem respects_throw (f : ε) : Respects R (throw f : ExceptT ε (StateM σ) α) := fun _ _ h => ⟨rfl, h⟩

theorem respects_bind {x : ExceptT ε (StateM σ) α} {f : α → ExceptT ε (StateM σ) β}
    (hx : Respects R x) (hf : ∀ a, Respects R (f a)) : Respects R (x >>= f) := by
  intro s s' h
  obtain ⟨hresult, hstate⟩ := hx s s' h
  rw [runFrom_bind, runFrom_bind]
  cases hrun : runFrom x s with
  | mk r s1 =>
    cases hrun' : runFrom x s' with
    | mk r' s1' =>
      rw [hrun, hrun'] at hresult hstate
      obtain rfl : r = r' := hresult
      cases r with
      | error f => exact ⟨rfl, hstate⟩
      | ok a => exact hf a s1 s1' hstate

theorem respects_lift (x : Except ε α) : Respects R (liftM x : ExceptT ε (StateM σ) α) := by
  cases x with
  | ok a => exact respects_pure a
  | error f => exact respects_throw f

theorem respects_ite {c : Prop} [Decidable c] {x y : ExceptT ε (StateM σ) α} (hx : Respects R x)
    (hy : Respects R y) : Respects R (if c then x else y) := by
  split
  · exact hx
  · exact hy

theorem respects_modify {f : σ → σ} (h : ∀ s s', R s s' → R (f s) (f s')) :
    Respects R (modify f : ExceptT ε (StateM σ) Unit) := fun s s' hs => ⟨rfl, h s s' hs⟩

/-- An action that looks at the state sees the same in related states. -/
theorem respects_get_bind {f : σ → ExceptT ε (StateM σ) β} (hsame : ∀ s s', R s s' → f s = f s')
    (hf : ∀ s, Respects R (f s)) : Respects R (get >>= f) := by
  intro s s' h
  rw [runFrom_bind, runFrom_bind, show runFrom get s = (.ok s, s) from rfl,
    show runFrom get s' = (.ok s', s') from rfl]
  show (runFrom (f s) s).1 = (runFrom (f s') s').1 ∧ R (runFrom (f s) s).2 (runFrom (f s') s').2
  rw [← hsame s s' h]
  exact hf s s s' h

end Runs

/-! ## Emission -/

/-- The fault is that a name is not declared, or is declared once more. -/
def Fault.concernsName : Fault → Bool
  | .undefinedName _ | .variableRedefined _ | .alreadyDefined _ => true
  | _ => false

namespace Emit

open Effect

/-- What emission is made of. -/
inductive Built : {α : Type} → Emit α → Prop where
  | pure {α : Type} (a : α) : Built (Pure.pure a)
  | throw {α : Type} {f : Fault} (h : f.concernsName = false) : Built (throw f : Emit α)
  | bind {α β : Type} {x : Emit α} {k : α → Emit β} (hx : Built x) (hk : ∀ a, Built (k a)) :
      Built (x >>= k)
  | takeScratch : Built takeScratch
  | borrow {f : Int → Emit Code} (h : ∀ cell, Built (f cell)) : Built (borrow f)
  | moveTo (cell : Int) : Built (moveTo cell)

/-! ### What the steps do -/

/-- Emission moves the head and takes free scratch cells. -/
def effect : Effect Workbench Fault where
  leads w w' := w'.cells.taken = w.cells.taken ∧ w'.cells.scratch = w.cells.scratch
  faults f := f.concernsName = false
  refl _ := ⟨rfl, rfl⟩
  trans h h' := ⟨h'.1.trans h.1, h'.2.trans h.2⟩

theorem runFrom_takeScratch (w : Workbench) : runFrom takeScratch w =
    match w.cells.take with
    | .ok (cell, cells) => (.ok cell, { w with
        cells, log := w.log.push s!"MemoryManager: Temp cell {cell} allocated." })
    | .error f => (.error f, w) := by
  unfold takeScratch
  rw [runFrom_bind, show runFrom get w = (.ok w, w) from rfl]
  dsimp only
  cases w.cells.take with
  | error f => rfl
  | ok r => rfl

theorem runFrom_giveBack (cell : Int) (w : Workbench) : runFrom (giveBack cell) w =
    match w.cells.giveBack cell with
    | .ok cells => (.ok (), { w with
        cells, log := w.log.push s!"MemoryManager: Temp cell {cell} released." })
    | .error f => (.error f, w) := by
  unfold giveBack
  rw [runFrom_bind, show runFrom get w = (.ok w, w) from rfl]
  dsimp only
  cases w.cells.giveBack cell with
  | error f => rfl
  | ok cells => rfl

theorem allows_takeScratch : effect.Allows takeScratch := by
  intro w
  rw [runFrom_takeScratch]
  unfold CellTable.take
  cases w.cells.free with
  | nil =>
    refine ⟨effect.refl w, fun f hf => ?_⟩
    cases hf
    rfl
  | cons cell rest => exact ⟨⟨rfl, rfl⟩, fun f hf => by cases hf⟩

theorem allows_giveBack (cell : Int) : effect.Allows (giveBack cell) := by
  intro w
  rw [runFrom_giveBack]
  unfold CellTable.giveBack
  by_cases hfree : cell ∈ w.cells.free
  · rw [if_pos hfree]
    refine ⟨effect.refl w, fun f hf => ?_⟩
    cases hf
    rfl
  · rw [if_neg hfree]
    by_cases hscratch : cell ∈ w.cells.scratch
    · rw [if_pos hscratch]
      exact ⟨⟨rfl, rfl⟩, fun f hf => by cases hf⟩
    · rw [if_neg hscratch]
      refine ⟨effect.refl w, fun f hf => ?_⟩
      cases hf
      rfl

theorem allows_repeated (cmd : Cmd) (count : Int) : effect.Allows (repeated cmd count) :=
  allows_ite (fun _ => allows_throw rfl) fun _ => allows_pure _

theorem allows_moveBy (direction : Direction) (count : Int) :
    effect.Allows (moveBy direction count) := by
  unfold moveBy
  refine allows_ite (fun _ => allows_bind (allows_throw rfl) fun _ => ?_) fun _ => ?_
  all_goals
    cases direction with
    | right | left =>
      exact allows_bind (allows_modify fun _ => ⟨rfl, rfl⟩) fun _ => allows_repeated _ _

theorem allows_moveTo (cell : Int) : effect.Allows (moveTo cell) := by
  apply allows_bind allows_get
  intro w
  refine allows_ite (fun _ => allows_moveBy _ _) fun _ => ?_
  exact allows_ite (fun _ => allows_moveBy _ _) fun _ => allows_pure _

/-- Emission leaves the cells in use and the scratch pool as they are, and does not fail for a
name. -/
theorem Built.allows {α : Type} {e : Emit α} (h : Built e) : effect.Allows e := by
  induction h with
  | pure a => exact allows_pure a
  | throw h => exact allows_throw h
  | bind _ _ ihx ihk => exact allows_bind ihx ihk
  | takeScratch => exact allows_takeScratch
  | borrow _ ih =>
    exact allows_bind allows_takeScratch fun cell => allows_bind (ih cell) fun _ =>
      allows_bind (allows_giveBack cell) fun _ => allows_pure _
  | moveTo cell => exact allows_moveTo cell

end Emit

/-- The two differ at most in their logs. -/
structure Workbench.Agrees (w w' : Workbench) : Prop where
  head : w.head = w'.head
  cells : w.cells = w'.cells

namespace Emit

section Respect

variable {R : Workbench → Workbench → Prop} (hhead : ∀ w w', R w w' → w.head = w'.head)
  (hmove : ∀ w w' head, R w w' → R { w with head } { w' with head })

include hhead hmove

theorem respects_moveBy (direction : Direction) (count : Int) :
    Respects R (moveBy direction count) := by
  have hto : ∀ f : Int → Int, Respects R (modify fun w => { w with head := f w.head } : Emit Unit) :=
    fun f => respects_modify fun w w' h => by
      rw [← hhead w w' h]
      exact hmove w w' _ h
  unfold moveBy repeated
  refine respects_ite (respects_bind (respects_throw _) fun _ => ?_) ?_
  all_goals
    cases direction with
    | right => exact respects_bind (hto (· + count)) fun _ => respects_ite (respects_throw _) (respects_pure _)
    | left => exact respects_bind (hto (· - count)) fun _ => respects_ite (respects_throw _) (respects_pure _)

/-- What emission respects, if taking cells and giving them back does. -/
theorem Built.respects_of (htake : Respects R Emit.takeScratch) (hgive : ∀ cell, Respects R (giveBack cell))
    {α : Type} {e : Emit α} (h : Built e) : Respects R e := by
  have hmoveBy := respects_moveBy hhead hmove
  induction h with
  | pure a => exact respects_pure a
  | throw _ => exact respects_throw _
  | bind _ _ ihx ihk => exact respects_bind ihx ihk
  | takeScratch => exact htake
  | borrow _ ih =>
    exact respects_bind htake fun cell => respects_bind (ih cell) fun _ =>
      respects_bind (hgive cell) fun _ => respects_pure _
  | moveTo cell =>
    refine respects_get_bind (fun w w' h => by rw [hhead w w' h]) fun w => ?_
    exact respects_ite (hmoveBy _ _) (respects_ite (hmoveBy _ _) (respects_pure _))

end Respect

variable {α : Type} {body : Emit Code}

/-- The log has no part in what is emitted. -/
theorem Built.agree {e : Emit α} (h : Built e) {w w' : Workbench} (hw : w.Agrees w') :
    (runFrom e w).1 = (runFrom e w').1 ∧ (runFrom e w).2.Agrees (runFrom e w').2 := by
  refine h.respects_of (fun _ _ h => h.head) (fun _ _ _ h => ⟨rfl, h.cells⟩) (fun w w' h => ?_)
    (fun cell w w' h => ?_) w w' hw
  · rw [runFrom_takeScratch, runFrom_takeScratch, h.cells]
    cases w'.cells.take with
    | error f => exact ⟨rfl, h⟩
    | ok r => exact ⟨rfl, h.head, rfl⟩
  · rw [runFrom_giveBack, runFrom_giveBack, h.cells]
    cases w'.cells.giveBack cell with
    | error f => exact ⟨rfl, h⟩
    | ok cells => exact ⟨rfl, h.head, rfl⟩

/-! ### Gadgets -/

theorem built_lift {x : Except Fault α} (h : ∀ f, x = .error f → f.concernsName = false) :
    Built (liftM x : Emit α) := by
  cases x with
  | ok a => exact .pure a
  | error f => exact .throw (h f rfl)

theorem built_ite {c : Prop} [Decidable c] {x y : Emit α} (hx : Built x) (hy : Built y) :
    Built (if c then x else y) := by
  split
  · exact hx
  · exact hy

theorem built_seq {es : List (Emit Code)} (h : ∀ e ∈ es, Built e) : Built (seq es) := by
  induction es with
  | nil => exact .pure _
  | cons e es ih =>
    obtain ⟨he, hes⟩ := List.forall_mem_cons.mp h
    exact .bind he fun _ => .bind (ih hes) fun _ => .pure _

attribute [simp] Built.moveTo

@[simp] theorem built_one (cmd : Cmd) : Built (one cmd) := .pure _

@[simp] theorem built_plus (count : Int) : Built (plus count) := built_ite (.throw rfl) (.pure _)

@[simp] theorem built_needDistinct (gadget : Gadget) (cells : List Int) :
    Built (needDistinct gadget cells) := built_ite (.pure _) (.throw rfl)

@[simp] theorem built_clear (cell : Int) : Built (clear cell) :=
  built_seq (by simp)

@[simp] theorem built_setCell (cell value : Int) : Built (setCell cell value) := by
  have hseq : Built (seq [clear cell, moveTo cell, plus value]) := built_seq (by simp)
  exact built_ite (.bind (.throw rfl) fun _ => hseq) hseq

theorem built_gadget {gadget : Gadget} {cells : List Int} {es : List (Emit Code)}
    (h : ∀ e ∈ es, Built e) : Built (needDistinct gadget cells >>= fun _ => seq es) :=
  Built.bind (built_needDistinct _ _) fun _ => built_seq h

@[simp] theorem built_copy (src dest temp : Int) : Built (copy src dest temp) :=
  built_gadget (by simp)

theorem built_loop (cell : Int) (h : Built body) :
    Built (loop cell body) := built_seq (by simp [h])

theorem built_loopWhile {condition : Int → Emit Code} (hcondition : ∀ cell, Built (condition cell))
    (hbody : Built body) (cell : Int) :
    Built (loopWhile condition body cell) := built_seq (by simp [hcondition, hbody])

theorem built_once {inner : Emit Code} (h : Built inner) (temp1 temp2 : Int) :
    Built (seq [inner, clear temp1, clear temp2]) := built_seq (by simp [h])

theorem built_branch {otherwise : Option (Emit Code)} (hbody : Built body)
    (hotherwise : ∀ e ∈ otherwise, Built e) (cell temp1 temp2 : Int) :
    Built (branch cell body otherwise temp1 temp2) := by
  have hfirst := built_loop temp2 (built_once hbody temp1 temp2)
  cases otherwise with
  | none => exact built_gadget (by simp [hfirst])
  | some alternative =>
    have hsecond := built_loop temp1 (built_once (hotherwise alternative rfl) temp1 temp2)
    exact built_gadget (by simp [hfirst, hsecond])

@[simp] theorem built_combine (cmd : Cmd) (src1 src2 dest temp1 temp2 : Int) :
    Built (combine cmd src1 src2 dest temp1 temp2) := built_seq (by simp)

@[simp] theorem built_add (src1 src2 dest temp1 temp2 : Int) :
    Built (add src1 src2 dest temp1 temp2) :=
  Built.bind (built_needDistinct _ _) fun _ => built_combine _ _ _ _ _ _

@[simp] theorem built_subtract (src1 src2 dest temp1 temp2 : Int) :
    Built (subtract src1 src2 dest temp1 temp2) :=
  Built.bind (built_needDistinct _ _) fun _ => built_combine _ _ _ _ _ _

@[simp] theorem built_equal (src1 src2 dest temp1 temp2 : Int) :
    Built (equal src1 src2 dest temp1 temp2) := by
  have hbody : Built (seq [clear temp1, clear dest]) := built_seq (by simp)
  have hloop := built_loop temp1 hbody
  exact built_gadget (by simp [hloop])

@[simp] theorem built_notEqual (src1 src2 dest temp1 temp2 : Int) :
    Built (notEqual src1 src2 dest temp1 temp2) := by
  have hbody : Built (seq [clear temp1, setCell dest 1]) := built_seq (by simp)
  have hloop := built_loop temp1 hbody
  exact built_gadget (by simp [hloop])

@[simp] theorem built_greater (src1 src2 dest temp1 temp2 temp3 temp4 : Int) :
    Built (greater src1 src2 dest temp1 temp2 temp3 temp4) := by
  have hempty : Built (pure [] : Emit Code) := Built.pure _
  have hwon : Built (branch temp2 (pure []) (some (seq [clear temp1, setCell dest 1]))
      temp3 temp4) := by
    refine built_branch hempty ?_ _ _ _
    rintro e ⟨⟩
    exact built_seq (by simp)
  have hdown : Built (branch temp1
      (seq [moveTo temp1, one .dec, moveTo temp2, one .dec]) (some (pure [])) temp3 temp4) := by
    refine built_branch (built_seq (by simp)) ?_ _ _ _
    rintro e ⟨⟩
    exact hempty
  have hloop := built_loop temp1 (built_seq (List.forall_mem_cons.mpr
    ⟨hwon, List.forall_mem_cons.mpr ⟨hdown, List.forall_mem_nil _⟩⟩))
  exact built_gadget (by simp [hloop])

@[simp] theorem built_less (src1 src2 dest temp1 temp2 temp3 temp4 : Int) :
    Built (less src1 src2 dest temp1 temp2 temp3 temp4) :=
  Built.bind (built_needDistinct _ _) fun _ => built_greater _ _ _ _ _ _ _

@[simp] theorem built_negate (src dest temp1 temp2 : Int) :
    Built (negate src dest temp1 temp2) := by
  have hbody : Built (seq [clear temp1, clear dest]) := built_seq (by simp)
  have hloop := built_loop temp1 hbody
  exact built_gadget (by simp [hloop])

@[simp] theorem built_lessOrEqual (src1 src2 dest temp1 temp2 temp3 temp4 : Int) :
    Built (lessOrEqual src1 src2 dest temp1 temp2 temp3 temp4) := built_gadget (by simp)

@[simp] theorem built_greaterOrEqual (src1 src2 dest temp1 temp2 temp3 temp4 : Int) :
    Built (greaterOrEqual src1 src2 dest temp1 temp2 temp3 temp4) :=
  Built.bind (built_needDistinct _ _) fun _ => built_lessOrEqual _ _ _ _ _ _ _

end Emit

/-! ### Nodes -/

namespace Node

open Emit

theorem concernsName_misuse (n : Node) : n.misuse.concernsName = false := by
  unfold misuse
  split <;> rfl

theorem concernsName_hasCode {n : Node} {f : Fault} (h : n.hasCode = .error f) :
    f.concernsName = false := by
  unfold hasCode at h
  cases hkind : n.codeKind <;> rw [hkind] at h <;> cases h <;> rfl

theorem built_hasCode (n : Node) : Built (liftM n.hasCode : Emit Bool) :=
  built_lift fun _ => concernsName_hasCode

theorem built_ordering {op : String} {compare : Int → Int → Int → Int → Int → Int → Int → Emit Code}
    (h : ordering? op = some compare) (a b dest temp1 temp2 temp3 temp4 : Int) :
    Built (compare a b dest temp1 temp2 temp3 temp4) := by
  unfold ordering? at h
  split_ifs at h <;> cases h <;> simp

theorem built_operate (op : String) (a b dest : Int) : Built (operate op a b dest) := by
  by_cases hadd : op = "+"
  · rw [hadd, operate_add]
    exact Built.takeScratch.bind fun _ => Built.takeScratch.bind fun _ => built_add _ _ _ _ _
  rw [operate_of_ne hadd]
  by_cases hknown : op ∈ ["*", "/", "-", "==", "!="] ∨ (ordering? op).isSome
  · refine .borrow fun temp1 => .borrow fun temp2 => ?_
    unfold operateWith
    split_ifs
    · exact .throw rfl
    · exact .throw rfl
    · exact built_subtract _ _ _ _ _
    · exact built_equal _ _ _ _ _
    · exact built_notEqual _ _ _ _ _
    · cases hcompare : ordering? op with
      | some compare =>
        exact .borrow fun temp3 => .borrow fun temp4 => built_ordering hcompare _ _ _ _ _ _ _
      | none => simp_all
  · -- an operator that is not known: its cells are given back before it is refused
    have hunknown : (borrow fun temp1 => borrow fun temp2 => operateWith op a b dest temp1 temp2) =
        (borrow fun _ => borrow fun _ => pure []) >>= fun _ => throw (.unknownOperation op) := by
      simp only [List.mem_cons, List.not_mem_nil, or_false, not_or, Bool.not_eq_true,
        Option.isSome_eq_false_iff, Option.isNone_iff_eq_none] at hknown
      obtain ⟨⟨hmul, hdiv, hsub, heq, hne⟩, hnone⟩ := hknown
      simp only [operateWith, if_neg hmul, if_neg hdiv, if_neg hsub, if_neg heq, if_neg hne, hnone,
        borrow, bind_assoc, pure_bind]
      rfl
    rw [hunknown]
    exact (Built.borrow fun _ => .borrow fun _ => .pure _).bind fun _ => .throw rfl

theorem built_emitInto : ∀ (n : Node) (cell : Int), Built (n.emitInto cell)
  | .constant value true, cell => built_setCell cell value
  | .load symbol, cell => by
    rw [emitInto_load]
    apply Built.borrow
    intro temp
    cases symbol.location with
    | none => exact Built.throw rfl
    | some source => exact built_copy _ _ _
  | .input, cell => built_seq (by simp)
  | .binary level op left right, cell => by
    have hleft := built_emitInto left
    have hright := built_emitInto right
    rw [emitInto_binary]
    apply Built.borrow
    intro cell1
    apply Built.borrow
    intro cell2
    exact built_seq (by simp [hleft, hright, built_operate])
  | .constant _ false, _ | .unary _ _, _ | .declare _ _, _ | .assign _ _, _ | .block _, _
  | .ifElse _ _ _, _ | .loop _ _, _ | .output _, _ | .exprStmt _, _ | .newName _, _ | .nop _, _
  | .program _, _ | .withheld _, _ | .bare _, _ | .blank, _ | .misfit, _ | .deep, _ =>
    Built.throw (concernsName_misuse _)

theorem built_emitAt (n : Node) (symbol : Symbol) : Built (n.emitAt symbol) := by
  unfold emitAt
  cases symbol.location with
  | some cell => exact built_emitInto n cell
  | none =>
    dsimp only
    split
    · next value =>
        apply Built.throw
        show (if value < 0 then Fault.negativeValue else Fault.wrongUse).concernsName = false
        split <;> rfl
    · exact Built.bind Built.takeScratch fun _ => Built.throw rfl
    · exact Built.throw rfl

theorem built_emitOutput (n : Node) : Built (emitOutput n) := by
  rw [emitOutput_eq]
  apply Built.borrow
  intro temp
  exact built_seq (by simp [built_emitInto])

theorem built_emitLoop (condition body : Node) {rounds : Emit Code} (h : Built rounds) :
    Built (emitLoop condition body rounds) := by
  rw [emitLoop_eq]
  apply Built.borrow
  intro result
  apply Built.bind (built_hasCode condition)
  intro _
  apply Built.bind (built_hasCode body)
  intro _
  exact built_loopWhile (built_emitInto condition) h result

theorem built_emitBranch (condition body : Node) {first : Emit Code}
    {otherwise : Option (Node × Emit Code)} (hfirst : Built first)
    (hotherwise : ∀ side ∈ otherwise, Built side.2) :
    Built (emitBranch condition body first otherwise) := by
  rw [emitBranch_eq]
  apply Built.borrow
  intro result
  apply Built.borrow
  intro temp1
  apply Built.borrow
  intro temp2
  refine built_seq (List.forall_mem_cons.mpr
    ⟨built_emitInto condition result, List.forall_mem_cons.mpr ⟨?_, List.forall_mem_nil _⟩⟩)
  apply Built.bind (built_hasCode body)
  intro _
  cases otherwise with
  | none => exact Built.throw rfl
  | some side =>
    apply Built.bind (built_hasCode side.1)
    intro ready
    refine built_ite ?_ ?_
    · refine built_branch hfirst ?_ _ _ _
      rintro e ⟨⟩
      exact hotherwise side rfl
    · exact built_branch hfirst (fun _ h => by cases h) _ _ _

mutual

theorem built_emit : ∀ n : Node, Built n.emit
  | .declare symbol none => by
    rw [emit]
    cases symbol.location with
    | some cell => exact built_setCell cell 0
    | none => exact Built.throw rfl
  | .declare symbol (some initial) => by
    rw [emit]
    exact built_emitAt initial symbol
  | .assign symbol value => by
    rw [emit]
    exact built_emitAt value symbol
  | .block body => by
    rw [emit]
    exact built_emitAll body
  | .ifElse condition body none => by
    rw [emit]
    exact built_emitBranch condition body (built_emit body) (fun _ h => by cases h)
  | .ifElse condition body (some alternative) => by
    rw [emit]
    refine built_emitBranch condition body (built_emit body) ?_
    rintro side ⟨⟩
    exact built_emit alternative
  | .loop condition body => by
    rw [emit]
    exact built_emitLoop condition body (built_emit body)
  | .output value => by
    rw [emit]
    exact built_emitOutput value
  | .constant _ _ | .load _ | .input | .binary _ _ _ _ | .unary _ _ | .exprStmt _ | .newName _
  | .nop _ | .program _ | .withheld _ | .bare _ | .blank | .misfit | .deep => by
    rw [emit]
    · exact Built.throw (concernsName_misuse _)
    all_goals simp

theorem built_emitAll : ∀ ns : List Node, Built (emitAll ns)
  | [] => by
    rw [emitAll]
    exact Built.pure _
  | n :: ns => by
    rw [emitAll]
    apply Built.bind (built_emit n)
    intro first
    apply Built.bind (built_emitAll ns)
    intro rest
    exact Built.pure _

end

end Node

end TapeScript
