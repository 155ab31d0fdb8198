import TapeScript.Proofs.NodeEmission

set_option autoImplicit false

/-! # Which scratch cells come back

Scratch cells are given back in the order opposite to that in which they were taken, so an emission
that gives all of them back leaves the pool as it was. Addition is the one operator that keeps its
two scratch cells. The pool after an emission is therefore that before it less two cells for each
addition emitted (`Node.spends_emit`), where the condition of a loop is emitted twice.
-/

namespace TapeScript

/-- The second table has the same pool as the first, less `k` cells. -/
structure CellTable.Spent (k : Nat) (t t' : CellTable) : Prop where
  free : t'.free.Sublist t.free
  length : t.free.length = t'.free.length + k
  scratch : t'.scratch = t.scratch
  maxScratch : t.maxScratch ≤ t'.maxScratch

namespace CellTable.Spent

variable {k k' : Nat} {t t' t'' : CellTable}

theorem refl (t : CellTable) : Spent 0 t t := ⟨List.Sublist.refl _, rfl, rfl, le_refl _⟩

theorem trans (h : Spent k t t') (h' : Spent k' t' t'') : Spent (k + k') t t'' := by
  refine ⟨h'.free.trans h.free, ?_, h'.scratch.trans h.scratch,
    le_trans h.maxScratch h'.maxScratch⟩
  rw [h.length, h'.length]
  omega

/-- Where no cell is lost the pool is the same, order included. -/
theorem free_eq (h : Spent 0 t t') : t'.free = t.free := h.free.eq_of_length h.length.symm

end CellTable.Spent

namespace Emit

open CellTable (Spent)

/-- The action keeps `k` of the scratch cells it takes. -/
def Spends (k : Nat) (e : Emit Code) : Prop :=
  ∀ w code w', Gives e w code w' → w.cells.Spent k w'.cells

/-! ## Emission by parts -/

section Parts

variable {k k' : Nat} {e e' : Emit Code}

theorem spends_throw (f : Fault) : Spends k (throw f) := by
  intro w code w' hg
  exact absurd hg gives_throw

/-- An action that changes nothing but the head. -/
theorem spends_of_gives (h : ∀ w code w', Gives e w code w' → w'.cells = w.cells) : Spends 0 e := by
  intro w code w' hg
  rw [h w code w' hg]
  exact Spent.refl _

theorem spends_scripted {bs : List Beat} (hs : Scripted e bs) : Spends 0 e := by
  refine spends_of_gives fun w code w' hg => ?_
  rw [show e = seq (bs.map Beat.emit) from hs, gives_beats] at hg
  obtain ⟨-, -, rfl⟩ := hg
  rfl

theorem Spends.cons {es : List (Emit Code)} (h : Spends k e) (hs : Spends k' (seq es)) :
    Spends (k + k') (seq (e :: es)) := by
  intro w code w' hg
  simp only [seq, gives_bind, gives_pure] at hg
  obtain ⟨c, w1, hg1, d, w2, hg2, rfl, rfl⟩ := hg
  exact (h w c w1 hg1).trans (hs w1 d w' hg2)

theorem spends_nil : Spends 0 (seq []) := spends_scripted .nil

theorem Spends.pair (h : Spends k e) (h' : Spends k' e') : Spends (k + k') (seq [e, e']) :=
  h.cons (h'.cons spends_nil)

theorem Spends.loop (h : Spends k e) (cell : Int) : Spends k (loop cell e) := by
  intro w code w' hg
  obtain ⟨inner, w1, -, hinner, -, rfl, -⟩ := gives_loop.mp hg
  exact h { w with head := cell } inner w1 hinner

/-- Behind a check for distinct cells. -/
theorem Spends.checked {g : Gadget} {cells : List Int} {f : Unit → Emit Code}
    (h : cells.Nodup → Spends k (f ())) : Spends k (needDistinct g cells >>= f) := by
  intro w code w' hg
  obtain ⟨_, w1, hcheck, hf⟩ := gives_bind.mp hg
  obtain ⟨hd, rfl⟩ := gives_needDistinct.mp hcheck
  exact h hd w1 code w' hf

theorem Spends.lift {α : Type} {x : Except Fault α} {f : α → Emit Code}
    (h : ∀ a, x = .ok a → Spends k (f a)) : Spends k (liftM x >>= f) := by
  intro w code w' hg
  obtain ⟨a, w1, hx, hf⟩ := gives_bind.mp hg
  obtain ⟨rfl, rfl⟩ := gives_lift.mp hx
  exact h a rfl w1 code w' hf

/-- A cell that is taken and kept. -/
theorem Spends.keep {f : Int → Emit Code} (h : ∀ c, Spends k (f c)) :
    Spends (k + 1) (takeScratch >>= f) := by
  intro w code w' hg
  obtain ⟨c, w1, htake, hf⟩ := gives_bind.mp hg
  obtain ⟨rest, hfree, rfl⟩ := gives_takeScratch.mp htake
  obtain ⟨hsub, hlen, hscratch, hmax⟩ := h c _ code w' hf
  refine ⟨?_, ?_, hscratch, le_trans (le_max_left _ _) hmax⟩
  · rw [hfree]
    exact hsub.trans (List.sublist_cons_self c rest)
  · rw [hfree, List.length_cons, hlen]
    omega

/-- A borrowed cell comes back to the front of the pool. -/
theorem Spends.borrow {f : Int → Emit Code} (h : ∀ c, Spends k (f c)) : Spends k (borrow f) := by
  intro w code w' hg
  simp only [Emit.borrow, gives_bind, gives_pure] at hg
  obtain ⟨c, w1, htake, code', w2, hf, _, w3, hgive, rfl, rfl⟩ := hg
  obtain ⟨rest, hfree, rfl⟩ := gives_takeScratch.mp htake
  obtain ⟨hsub, hlen, hscratch, hmax⟩ := h c _ code w2 hf
  obtain ⟨-, -, rfl⟩ := gives_giveBack.mp hgive
  refine ⟨?_, ?_, hscratch, le_trans (le_max_left _ _) hmax⟩
  · rw [hfree]
    exact hsub.cons_cons c
  · rw [hfree, List.length_cons, List.length_cons, hlen]
    omega

theorem Spends.gadget {g : Gadget} {cells : List Int} {f : Unit → Emit Code} {bs : List Beat}
    (hs : cells.Nodup → Scripted (needDistinct g cells >>= f) bs) :
    Spends 0 (needDistinct g cells >>= f) := by
  refine Spends.checked fun hd => ?_
  rw [← needDistinct_bind hd f]
  exact spends_scripted (hs hd)

theorem spends_copy (src dest temp : Int) : Spends 0 (copy src dest temp) :=
  Spends.gadget scripted_copy

theorem spends_setCell (cell value : Int) : Spends 0 (setCell cell value) := by
  by_cases h : 0 ≤ value
  · exact spends_scripted (scripted_setCell cell h)
  · unfold setCell
    rw [if_pos (by omega)]
    exact spends_throw _

/-- A side of a branch clears both scratch cells behind its body. -/
theorem Spends.once (h : Spends k e) (temp1 temp2 : Int) :
    Spends k (seq [e, clear temp1, clear temp2]) :=
  h.cons ((spends_scripted (scripted_clear temp1)).pair (spends_scripted (scripted_clear temp2)))

theorem Spends.branch (h : Spends k e) (h' : Spends k' e') (cell temp1 temp2 : Int) :
    Spends (k + k') (branch cell e (some e') temp1 temp2) := by
  refine Spends.checked fun _ => ?_
  have hsides := ((h.once temp1 temp2).loop temp2).pair ((h'.once temp1 temp2).loop temp1)
  have hall := (spends_copy cell temp2 temp1).cons ((spends_setCell temp1 1).cons hsides)
  simpa only [Nat.zero_add] using hall

theorem Spends.branch_none (h : Spends k e) (cell temp1 temp2 : Int) :
    Spends k (Emit.branch cell e none temp1 temp2) := by
  refine Spends.checked fun _ => ?_
  have hall := (spends_copy cell temp2 temp1).pair ((h.once temp1 temp2).loop temp2)
  simpa only [Nat.zero_add] using hall

end Parts

end Emit

namespace Node

open Emit

/-! ## Operators and values -/

/-- The four operators that order their operands. -/
theorem spends_ordering {op : String}
    {compare : Int → Int → Int → Int → Int → Int → Int → Emit Code}
    (hop : ordering? op = some compare) (a b dest temp1 temp2 temp3 temp4 : Int) :
    Spends 0 (compare a b dest temp1 temp2 temp3 temp4) := by
  unfold ordering? at hop
  split_ifs at hop with hge hle hgt hlt
  · cases hop
    exact Spends.gadget scripted_greaterOrEqual
  · cases hop
    exact Spends.gadget scripted_lessOrEqual
  · cases hop
    exact Spends.gadget scripted_greater
  · cases hop
    exact Spends.gadget scripted_less

theorem spends_operateWith (op : String) (a b dest temp1 temp2 : Int) :
    Spends 0 (operateWith op a b dest temp1 temp2) := by
  unfold operateWith
  split_ifs
  · exact spends_throw _
  · exact spends_throw _
  · exact Spends.gadget scripted_subtract
  · exact Spends.gadget scripted_equal
  · exact Spends.gadget scripted_notEqual
  · cases hord : ordering? op with
    | some compare =>
      exact Spends.borrow fun u => Spends.borrow fun v =>
        spends_ordering hord a b dest temp1 temp2 u v
    | none =>
      intro w code w' hg
      simp only [gives_bind, gives_throw, and_false, exists_false] at hg

/-- How many scratch cells an operator keeps. -/
def kept (op : String) : Nat := if op = "+" then 2 else 0

theorem spends_operate (op : String) (a b dest : Int) : Spends (kept op) (operate op a b dest) := by
  by_cases hadd : op = "+"
  · rw [hadd, operate_add]
    exact Spends.keep fun _ => Spends.keep fun _ => Spends.gadget scripted_add
  · rw [operate_of_ne hadd, kept, if_neg hadd]
    exact Spends.borrow fun s => Spends.borrow fun t => spends_operateWith op a b dest s t

mutual

/-- The number of additions in the code of a node. The condition of a loop is there twice. -/
def additions : Node → Nat
  | .binary _ op left right => left.additions + right.additions + if op = "+" then 1 else 0
  | .declare _ (some initial) => initial.additions
  | .assign _ value => value.additions
  | .block body => additionsAll body
  | .ifElse condition body none => condition.additions + body.additions
  | .ifElse condition body (some otherwise) =>
    condition.additions + body.additions + otherwise.additions
  | .loop condition body => 2 * condition.additions + body.additions
  | .output value => value.additions
  | _ => 0

def additionsAll : List Node → Nat
  | [] => 0
  | n :: ns => n.additions + additionsAll ns

end

theorem kept_add (op : String) (left right : Node) :
    2 * left.additions + (2 * right.additions + kept op) =
      2 * (left.additions + right.additions + if op = "+" then 1 else 0) := by
  unfold kept
  split_ifs <;> omega

theorem spends_emitInto : ∀ (n : Node) (cell : Int), Spends (2 * n.additions) (n.emitInto cell)
  | .constant value true, cell => by
    rw [emitInto]
    exact spends_setCell cell value
  | .load symbol, cell => by
    rw [emitInto_load]
    refine Spends.borrow fun temp => ?_
    cases symbol.location with
    | none => exact spends_throw _
    | some source => exact spends_copy source cell temp
  | .input, cell => by
    rw [emitInto]
    exact spends_scripted ((scripted_moveTo cell).cons ((scripted_one .get rfl rfl).cons .nil))
  | .binary _ op left right, cell => by
    rw [emitInto_binary]
    refine Spends.borrow fun c1 => Spends.borrow fun c2 => ?_
    have h := (spends_emitInto left c1).cons
      ((spends_emitInto right c2).pair (spends_operate op c1 c2 cell))
    rw [kept_add] at h
    exact h
  | .constant _ false, _ | .unary _ _, _ | .declare _ _, _ | .assign _ _, _ | .block _, _
  | .ifElse _ _ _, _ | .loop _ _, _ | .output _, _ | .exprStmt _, _ | .newName _, _ | .nop _, _
  | .program _, _ | .withheld _, _ | .bare _, _ | .blank, _ | .misfit, _ | .deep, _ => spends_throw _

theorem spends_emitAt (n : Node) (symbol : Symbol) : Spends (2 * n.additions) (n.emitAt symbol) := by
  unfold emitAt
  split
  · exact spends_emitInto n _
  · split
    · exact spends_throw _
    · intro w code w' hg
      simp only [gives_bind, gives_throw, and_false, exists_false] at hg
    · exact spends_throw _

/-! ## Statements -/

/-- An alternative whose code is withheld emits nothing and has no additions. -/
theorem additions_of_hasCode {n : Node} (h : n.hasCode = .ok false) : n.additions = 0 := by
  cases n <;> simp_all [hasCode, codeKind, additions]

/-- The sides of a branch; an alternative whose code is withheld is left out. -/
def emitSides (body otherwise : Node) (first second : Emit Code) (result temp1 temp2 : Int) :
    Emit Code := do
  let _ ← body.hasCode
  if ← otherwise.hasCode then branch result first (some second) temp1 temp2
  else branch result first none temp1 temp2

theorem emit_ifElse (condition body otherwise : Node) :
    (Node.ifElse condition body (some otherwise)).emit =
      borrow fun result => borrow fun temp1 => borrow fun temp2 =>
        seq [condition.emitInto result,
          emitSides body otherwise body.emit otherwise.emit result temp1 temp2] := by
  rw [emit, emitBranch_eq]
  rfl

/-- The rounds of a loop behind the first test of its condition. -/
def emitRounds (condition body : Node) (rounds : Emit Code) (result : Int) : Emit Code := do
  let _ ← condition.hasCode
  let _ ← body.hasCode
  seq [condition.emitInto result, Emit.loop result (seq [rounds, condition.emitInto result])]

theorem emit_loop (condition body : Node) :
    (Node.loop condition body).emit = borrow (emitRounds condition body body.emit) := by
  rw [emit, emitLoop_eq]
  simp only [loopWhile_eq]
  rfl

theorem emitAll_eq : ∀ ns : List Node, emitAll ns = seq (ns.map emit)
  | [] => rfl
  | n :: ns => by
    rw [emitAll, emitAll_eq ns]
    rfl

theorem spends_emitSides {body otherwise : Node} {first second : Emit Code}
    (hfirst : Spends (2 * body.additions) first) (hsecond : Spends (2 * otherwise.additions) second)
    (result temp1 temp2 : Int) : Spends (2 * body.additions + 2 * otherwise.additions)
      (emitSides body otherwise first second result temp1 temp2) := by
  refine Spends.lift fun _ _ => Spends.lift fun ready hready => ?_
  cases ready with
  | true => exact hfirst.branch hsecond result temp1 temp2
  | false =>
    rw [additions_of_hasCode hready]
    exact hfirst.branch_none result temp1 temp2

theorem spends_emitRounds (condition : Node) {body : Node} {rounds : Emit Code}
    (hrounds : Spends (2 * body.additions) rounds) (result : Int) :
    Spends (2 * (2 * condition.additions + body.additions))
      (emitRounds condition body rounds result) := by
  refine Spends.lift fun _ _ => Spends.lift fun _ _ => ?_
  have hcondition := spends_emitInto condition result
  have hcount : 2 * condition.additions + (2 * body.additions + 2 * condition.additions) =
      2 * (2 * condition.additions + body.additions) := by omega
  rw [← hcount]
  exact hcondition.pair ((hrounds.pair hcondition).loop result)

mutual

/-- **Each addition costs two scratch cells, and nothing else does.** -/
theorem spends_emit : ∀ n : Node, Spends (2 * n.additions) n.emit
  | .declare symbol none => by
    rw [emit]
    cases symbol.location with
    | some cell => exact spends_setCell cell 0
    | none => exact spends_throw _
  | .declare symbol (some initial) => by
    rw [emit]
    exact spends_emitAt initial symbol
  | .assign symbol value => by
    rw [emit]
    exact spends_emitAt value symbol
  | .block body => by
    rw [emit]
    exact spends_emitAll body
  | .ifElse condition body none => by
    rw [emit, emitBranch_eq]
    intro w code w' hg
    simp only [Emit.borrow, seq, gives_bind, gives_throw, and_false, exists_false, false_and] at hg
  | .ifElse condition body (some otherwise) => by
    rw [emit_ifElse, additions, Nat.mul_add, Nat.mul_add, Nat.add_assoc]
    refine Spends.borrow fun result => Spends.borrow fun t1 => Spends.borrow fun t2 => ?_
    exact (spends_emitInto condition result).pair
      (spends_emitSides (spends_emit body) (spends_emit otherwise) result t1 t2)
  | .loop condition body => by
    rw [emit_loop]
    exact Spends.borrow fun result => spends_emitRounds condition (spends_emit body) result
  | .output value => by
    rw [emit, emitOutput_eq]
    refine Spends.borrow fun temp => ?_
    exact (spends_emitInto value temp).cons (spends_scripted
      ((scripted_moveTo temp).cons ((scripted_one .put rfl rfl).cons .nil)))
  | .constant _ _ | .load _ | .input | .binary _ _ _ _ | .unary _ _ | .exprStmt _ | .newName _
  | .nop _ | .program _ | .withheld _ | .bare _ | .blank | .misfit | .deep => spends_throw _

theorem spends_emitAll : ∀ ns : List Node, Spends (2 * additionsAll ns) (emitAll ns)
  | [] => spends_nil
  | n :: ns => by
    have hrest := spends_emitAll ns
    rw [emitAll_eq] at hrest ⊢
    rw [additionsAll, Nat.mul_add]
    exact (spends_emit n).cons hrest

end

end Node

end TapeScript
