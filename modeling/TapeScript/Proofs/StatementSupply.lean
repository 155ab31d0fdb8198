import TapeScript.Proofs.CallDepth
import TapeScript.Proofs.Supply

set_option autoImplicit false

/-! # Scratch cells that suffice for statements

With enough free scratch cells there is code for every statement whose values have code, whose
branches have an alternative, and that stores no variable in its own cell
(`Node.WorksWithin.emits`). In the other direction, all constants that stand in code can be written
out, so that none of them is negative (`Node.storable_of_emit`).
-/

namespace TapeScript

/-! ## Emission by parts -/

namespace Emit

open Plan

/-- The number can be written out. -/
def Storable (value : Int) : Prop := 0 ≤ value ∧ value < countBound

instance (value : Int) : Decidable (Storable value) :=
  inferInstanceAs (Decidable (0 ≤ value ∧ value < countBound))

def AllStorable (values : List Int) : Prop := ∀ v ∈ values, Storable v

instance (values : List Int) : Decidable (AllStorable values) :=
  inferInstanceAs (Decidable (∀ v ∈ values, Storable v))

theorem allStorable_append {vs us : List Int} :
    AllStorable (vs ++ us) ↔ AllStorable vs ∧ AllStorable us := List.forall_mem_append

/-- A number is stored only if it can be written out. -/
theorem storable_of_setCell {cell value : Int} {w w' : Workbench} {code : Code}
    (h : Gives (setCell cell value) w code w') : Storable value := by
  unfold setCell at h
  rw [gives_when] at h
  obtain ⟨hneg, h⟩ := h
  simp only [seq, plus, gives_bind, gives_repeated] at h
  obtain ⟨_, _, _, _, _, ⟨_, _, _, _, _, ⟨_, _, ⟨-, hlt, -⟩, -⟩, -⟩, -⟩ := h
  exact ⟨not_lt.mp hneg, hlt⟩

section Parts

variable {base reach : Int} {F : List Int} {n m k k' : Nat} {e e' : Emit Code}
  {cell temp1 temp2 : Int}

theorem Emits.pair (h : Emits base reach F n e) (hk : Spends k e) (h' : Emits base reach F m e')
    (hle : m + k ≤ n) : Emits base reach F n (seq [e, e']) := by
  have hsingle : seq [e'] = e' := (Flat.single e').symm
  refine h.cons hk ?_ hle
  rw [hsingle]
  exact h'

/-- Behind something that can be looked up. -/
theorem Emits.lift {α : Type} {x : Except Fault α} {a : α} {f : α → Emit Code} (hx : x = .ok a)
    (h : Emits base reach F n (f a)) : Emits base reach F n (liftM x >>= f) := by
  intro w hw hfree
  obtain ⟨code, w', hgives, hhead⟩ := h w hw hfree
  exact ⟨code, w', gives_lift_bind.mpr ⟨a, hx, hgives⟩, hhead⟩

variable (hreach : reach ≤ countBound)

include hreach

theorem Emits.loop (h : Emits base reach F n e) (hcell : InReach reach cell) :
    Emits base reach F n (loop cell e) := by
  intro w hw hfree
  have hgo : ∀ {c : Int}, InReach reach c → (Beat.go cell).Fits c := by
    rintro c ⟨hnonneg, hlt⟩
    obtain ⟨hnonneg', hlt'⟩ := hcell
    exact ⟨by omega, by omega⟩
  obtain ⟨inner, w1, hinner, hhead⟩ := h { w with head := cell }
    ⟨hcell, hw.enough, hw.nodup, hw.low, hw.owned⟩ hfree
  exact ⟨_, _, gives_loop.mpr ⟨inner, w1, hgo hw.head, hinner, hgo hhead, rfl, rfl⟩, hcell⟩

/-- A side of a branch. -/
theorem Emits.once (h : Emits base reach F n e) (hk : Spends k e) (hle : k ≤ n)
    (h1 : InReach reach temp1) (h2 : InReach reach temp2) :
    Emits base reach F n (seq [e, clear temp1, clear temp2]) := by
  have hclear : ∀ {t : Int}, InReach reach t → Emits base reach F 0 (clear t) := fun ht =>
    emits_scripted hreach (scripted_clear _) (spans_clear.mpr ht)
  exact h.cons hk ((hclear h1).pair (spends_scripted (scripted_clear temp1)) (hclear h2) (le_refl 0))
    (by omega)

/-- The first side leaves as many free cells as the second one needs. -/
theorem Emits.branch (h : Emits base reach F n e) (hk : Spends k e) (h' : Emits base reach F m e')
    (hk' : Spends k' e') (hle : m + k ≤ n) (hle' : k' ≤ m) (hd : [cell, temp1, temp2].Nodup)
    (hcell : InReach reach cell) (h1 : InReach reach temp1) (h2 : InReach reach temp2) :
    Emits base reach F n (branch cell e (some e') temp1 temp2) := by
  have hcopy : Emits base reach F n (copy cell temp2 temp1) :=
    emits_scripted hreach (scripted_copy (by grind)) (spans_copy.mpr ⟨hcell, h2, h1⟩)
  have hflag : Emits base reach F n (setCell temp1 1) :=
    emits_scripted hreach (scripted_setCell temp1 Int.one_nonneg)
      (spans_setCell.mpr ⟨h1, one_lt_countBound⟩)
  have hfirst : Emits base reach F n (Emit.loop temp2 (seq [e, clear temp1, clear temp2])) :=
    (h.once hreach hk (by omega) h1 h2).loop hreach h2
  have hsecond : Emits base reach F m (Emit.loop temp1 (seq [e', clear temp1, clear temp2])) :=
    (h'.once hreach hk' hle' h1 h2).loop hreach h1
  unfold Emit.branch
  rw [needDistinct_bind hd]
  exact hcopy.cons (spends_copy _ _ _) (hflag.cons (spends_setCell _ _)
    (hfirst.pair (Spends.loop (hk.once temp1 temp2) temp2) hsecond hle) (le_refl n)) (le_refl n)

end Parts

end Emit

/-! ## Statements -/

namespace Node

open Emit Plan

variable {base reach : Int}

mutual

/-- The statement can be emitted with the help of so many scratch cells. -/
inductive WorksWithin (base reach : Int) : Nat → Node → Prop where
  | stores {k : Nat} {n : Node} (h : n.StoresWithin base reach k) : WorksWithin base reach k n
  | output {value : Node} (h : value.Emittable base reach) :
      WorksWithin base reach (value.supply + 1) (.output value)
  | block {k : Nat} {body : List Node} (h : AllWorkWithin base reach k body) :
      WorksWithin base reach k (.block body)
  | ifElse {condition body otherwise : Node} {k k' : Nat} (hcondition : condition.Emittable base reach)
      (hbody : WorksWithin base reach k body) (hotherwise : WorksWithin base reach k' otherwise) :
      WorksWithin base reach (condition.supply + (k + k') + 3)
        (.ifElse condition body (some otherwise))
  | loop {condition body : Node} {k : Nat} (hcondition : condition.Emittable base reach)
      (hbody : WorksWithin base reach k body) :
      WorksWithin base reach (condition.supply + (k + condition.supply) + 1) (.loop condition body)

/-- The statements can be emitted one after the other. -/
inductive AllWorkWithin (base reach : Int) : Nat → List Node → Prop where
  | nil : AllWorkWithin base reach 0 []
  | cons {k k' : Nat} {n : Node} {ns : List Node} (h : WorksWithin base reach k n)
      (hs : AllWorkWithin base reach k' ns) : AllWorkWithin base reach (k + k') (n :: ns)

end

theorem Emittable.hasCode {n : Node} (h : n.Emittable base reach) : n.hasCode = .ok true := by
  cases n with
  | constant value ready =>
    obtain ⟨rfl, -⟩ := h
    rfl
  | load _ | input | binary _ _ _ _ => rfl
  | _ => exact h.elim

theorem WorksWithin.hasCode {k : Nat} {n : Node} (h : n.WorksWithin base reach k) :
    n.hasCode = .ok true := by
  cases h with
  | stores h => cases h <;> rfl
  | output | block | ifElse | loop => rfl

mutual

/-- The scratch cells that additions keep are among them. -/
theorem WorksWithin.additions_le : ∀ {k : Nat} {n : Node}, n.WorksWithin base reach k →
    2 * n.additions ≤ k
  | _, _, .stores h => h.additions_le
  | _, _, .output h => by
    have hvalue := additions_le_supply _ h
    rw [additions]
    omega
  | _, _, .block h => by
    rw [additions]
    exact h.additions_le
  | _, _, .ifElse hcondition hbody hotherwise => by
    have hfirst := additions_le_supply _ hcondition
    have hsecond := hbody.additions_le
    have hthird := hotherwise.additions_le
    rw [additions]
    omega
  | _, _, .loop hcondition hbody => by
    have hfirst := additions_le_supply _ hcondition
    have hsecond := hbody.additions_le
    rw [additions]
    omega

theorem AllWorkWithin.additions_le : ∀ {k : Nat} {ns : List Node},
    AllWorkWithin base reach k ns → 2 * additionsAll ns ≤ k
  | _, _, .nil => Nat.le_refl 0
  | _, _, .cons h hs => by
    have hfirst := h.additions_le
    have hrest := hs.additions_le
    rw [additionsAll]
    omega

end

/-- A value is emitted into a scratch cell. -/
theorem emits_scratch (hreach : reach ≤ countBound) (hbase : base ≤ reach) {value : Node}
    (h : value.Emittable base reach) {cell : Int} {F : List Int} (hcell : 0 ≤ cell)
    (hlt : cell < base) (hfresh : cell ∉ F) (hlow : ∀ c ∈ F, c < base) :
    Emits base reach F value.supply (value.emitInto cell) := by
  refine emits_emitInto hreach hbase value cell F h ⟨hcell, by omega⟩ hfresh ?_ hlow
  rintro symbol rfl heq
  obtain ⟨source, hsource, hge, -⟩ := h
  rw [hsource, Option.some_inj] at heq
  omega

mutual

/-- **With enough scratch cells there is code for a statement.** -/
theorem WorksWithin.emits (hreach : reach ≤ countBound) (hbase : base ≤ reach) (hpos : 0 ≤ base) :
    ∀ {k : Nat} {n : Node}, n.WorksWithin base reach k →
    ∀ F : List Int, (∀ c ∈ F, c < base) → Emits base reach F k n.emit
  | _, _, .stores h, F, hlow => h.emits hreach hbase hpos hlow
  | _, _, @WorksWithin.output _ _ value h, F, hlow => by
    rw [emit, emitOutput_eq]
    have hput : ∀ temp, Scripted (seq [moveTo temp, one .put])
        (Plan.go temp (.act .put .done)).beats := fun temp =>
      (scripted_moveTo temp).cons ((scripted_one .put rfl rfl).cons .nil)
    refine Emits.borrow (k := 2 * value.additions) (fun temp =>
      (spends_emitInto value temp).cons (spends_scripted (hput temp)))
      fun temp G _ hnonneg hlt hsub hnot => ?_
    have hkept := additions_le_supply value h
    have hspans : (Plan.go temp (.act .put .done)).Spans reach :=
      ⟨⟨hnonneg, by omega⟩, ⟨rfl, by decide⟩, trivial⟩
    exact (emits_scratch hreach hbase h hnonneg hlt hnot fun c hc => hlow c (hsub hc)).cons
      (spends_emitInto value temp) (m := 0) (emits_scripted hreach (hput temp) hspans) (by omega)
  | _, _, .block h, F, hlow => by
    rw [emit]
    exact h.emits hreach hbase hpos F hlow
  | _, _, @WorksWithin.ifElse _ _ condition body otherwise k k' hcondition hbody hotherwise, F,
    hlow => by
      rw [emit_ifElse]
      have hspends : ∀ result t1 t2, Spends _ (seq [condition.emitInto result,
          emitSides body otherwise body.emit otherwise.emit result t1 t2]) := fun result t1 t2 =>
        (spends_emitInto condition result).pair
          (spends_emitSides (spends_emit body) (spends_emit otherwise) result t1 t2)
      refine Emits.borrow (fun result => Spends.borrow fun t1 => Spends.borrow fun t2 =>
        hspends result t1 t2) fun result F1 hm1 hn1 hl1 hs1 hf1 => ?_
      refine Emits.borrowTwo hbase (hspends result) fun t1 t2 F3 h1 h2 _ _ hsub hs2 hd hf2 hf3 => ?_
      have hlow3 : ∀ c ∈ F3, c < base := fun c hc => hlow c (hs1 (hs2 hc))
      have htest := emits_scratch hreach hbase hcondition hn1 hl1 (fun hc => hf1 (hs2 hc)) hlow3
      have hkept := additions_le_supply condition hcondition
      have hkept1 := hbody.additions_le
      have hkept2 := hotherwise.additions_le
      have hsides : Emits base reach F3 (k + k')
          (emitSides body otherwise body.emit otherwise.emit result t1 t2) :=
        Emits.lift hbody.hasCode (Emits.lift hotherwise.hasCode
          (Emits.branch hreach ((hbody.emits hreach hbase hpos F3 hlow3).mono (by omega))
            (spends_emit body) (hotherwise.emits hreach hbase hpos F3 hlow3) (spends_emit otherwise)
            (by omega) (by omega) (by grind) ⟨hn1, by omega⟩ h1 h2))
      exact (htest.mono (by omega)).pair (spends_emitInto condition result) hsides (by omega)
  | _, _, @WorksWithin.loop _ _ condition body k hcondition hbody, F, hlow => by
    rw [emit_loop]
    refine Emits.borrow (fun result => spends_emitRounds condition (spends_emit body) result)
      fun result F1 hm1 hn1 hl1 hs1 hf1 => ?_
    have hlow1 : ∀ c ∈ F1, c < base := fun c hc => hlow c (hs1 hc)
    have htest := emits_scratch hreach hbase hcondition hn1 hl1 hf1 hlow1
    have hspends := spends_emitInto condition result
    have hkept := additions_le_supply condition hcondition
    have hkept1 := hbody.additions_le
    have hround : Emits base reach F1 (k + condition.supply)
        (Emit.loop result (seq [body.emit, condition.emitInto result])) :=
      (((hbody.emits hreach hbase hpos F1 hlow1).mono (by omega)).pair (spends_emit body) htest
        (by omega)).loop hreach ⟨hn1, by omega⟩
    refine Emits.lift hcondition.hasCode (Emits.lift hbody.hasCode ?_)
    exact (htest.mono (by omega)).pair hspends hround (by omega)

/-- **And for statements in sequence.** -/
theorem AllWorkWithin.emits (hreach : reach ≤ countBound) (hbase : base ≤ reach) (hpos : 0 ≤ base) :
    ∀ {k : Nat} {ns : List Node}, AllWorkWithin base reach k ns →
    ∀ F : List Int, (∀ c ∈ F, c < base) → Emits base reach F k (emitAll ns)
  | _, _, .nil, F, _ => emits_nil
  | _, _, @AllWorkWithin.cons _ _ _ _ n ns h hs, F, hlow => by
    have hrest := hs.emits hreach hbase hpos F hlow
    rw [emitAll_eq] at hrest ⊢
    have hkept := h.additions_le
    exact ((h.emits hreach hbase hpos F hlow).mono (by omega)).cons (spends_emit n) hrest (by omega)

end

/-! ## Constants in code -/

mutual

/-- The constants that are written out in the code of a node. -/
def numbers : Node → List Int
  | .constant value true => [value]
  | .binary _ _ left right => left.numbers ++ right.numbers
  | .declare _ (some value) => value.numbers
  | .assign _ value => value.numbers
  | .output value => value.numbers
  | .block body => numbersAll body
  | .ifElse condition body none => condition.numbers ++ body.numbers
  | .ifElse condition body (some otherwise) =>
    condition.numbers ++ (body.numbers ++ otherwise.numbers)
  | .loop condition body => condition.numbers ++ body.numbers
  | _ => []

def numbersAll : List Node → List Int
  | [] => []
  | n :: ns => n.numbers ++ numbersAll ns

end

theorem numbers_of_hasCode {n : Node} (h : n.hasCode = .ok false) : n.numbers = [] := by
  cases n with
  | constant value ready =>
    cases ready with
    | true => cases h
    | false => rfl
  | _ => first | rfl | cases h

theorem shows_emitInto : ∀ (n : Node) (cell : Int), Shows (AllStorable n.numbers) (n.emitInto cell)
  | .constant value true, cell => by
    rw [numbers, emitInto]
    exact fun _ _ _ h => List.forall_mem_singleton.mpr (storable_of_setCell h)
  | .binary _ op left right, cell => by
    rw [numbers, allStorable_append]
    exact shows_binary (shows_emitInto left) (shows_emitInto right)
  | .constant _ false, _ | .load _, _ | .input, _ | .unary _ _, _ | .exprStmt _, _ | .newName _, _
  | .nop _, _ | .program _, _ | .withheld _, _ | .bare _, _ | .blank, _ | .misfit, _ | .deep, _ =>
    fun _ _ _ _ => List.forall_mem_nil _
  | .declare _ _, _ | .assign _ _, _ | .block _, _ | .ifElse _ _ _, _ | .loop _ _, _
  | .output _, _ => fun _ _ _ h => (gives_throw h).elim

/-- The value has code, unless one of its constants cannot be written out. -/
def Formed (base reach : Int) : Node → Prop
  | .constant _ ready => ready = true
  | .load symbol => ∃ c, symbol.location = some c ∧ base ≤ c ∧ c < reach
  | .input => True
  | .binary _ op left right => op ∈ operators ∧ left.Formed base reach ∧ right.Formed base reach
  | _ => False

theorem Formed.emittable : ∀ {n : Node}, n.Formed base reach → AllStorable n.numbers →
    n.Emittable base reach
  | .constant _ _, rfl, hstorable => ⟨rfl, hstorable _ (List.mem_singleton_self _)⟩
  | .load _, h, _ => h
  | .input, h, _ => h
  | .binary _ _ _ _, ⟨hop, hleft, hright⟩, hstorable => by
    obtain ⟨hstorable, hstorable'⟩ := allStorable_append.mp hstorable
    exact ⟨hop, hleft.emittable hstorable, hright.emittable hstorable'⟩

mutual

/-- **All constants in code can be written out**: none of them is negative. -/
theorem shows_emit : ∀ n : Node, Shows (AllStorable n.numbers) n.emit
  | .declare _ none => fun _ _ _ _ => List.forall_mem_nil _
  | .declare symbol (some value) | .assign symbol value => by
    rw [numbers, emit]
    exact shows_at (shows_emitInto value) symbol
  | .output value => by
    rw [numbers]
    exact shows_output (shows_emitInto value)
  | .block body => by
    rw [numbers, emit]
    exact shows_emitAll body
  | .ifElse condition body none => shows_ifElse_none
  | .ifElse condition body (some otherwise) => by
    rw [numbers, allStorable_append, allStorable_append]
    refine shows_ifElse (shows_emitInto condition) (shows_emit body) (shows_emit otherwise) fun h => ?_
    rw [numbers_of_hasCode h]
    exact List.forall_mem_nil _
  | .loop condition body => by
    rw [numbers, allStorable_append]
    exact shows_loop (shows_emitInto condition) (shows_emit body)
  | .constant _ _ | .load _ | .input | .binary _ _ _ _ | .unary _ _ | .exprStmt _ | .newName _
  | .nop _ | .program _ | .withheld _ | .bare _ | .blank | .misfit | .deep =>
    fun _ _ _ h => (gives_throw h).elim

theorem shows_emitAll : ∀ ns : List Node, Shows (AllStorable (numbersAll ns)) (emitAll ns)
  | [] => fun _ _ _ _ => List.forall_mem_nil _
  | n :: ns => by
    rw [numbersAll, allStorable_append]
    exact shows_cons (shows_emit n) (shows_emitAll ns)

end

end Node

end TapeScript
