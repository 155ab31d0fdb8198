import TapeScript.Proofs.GadgetRuns
import TapeScript.Proofs.NodeEmission
import TapeScript.Proofs.NodeMeaning

set_option autoImplicit false

/-! # The code of lowered nodes

The code a node emits does what the node means. Code for a value stores it in the given cell; apart
from that cell it changes only scratch cells that were free when it was emitted
(`Node.emitsValue`). So a value that waits in a scratch cell is safe from the code that is emitted
while the cell is taken. Code for a statement takes a tape on which the variables are those of a
surface to one on which they are those of the surface after the statement, or runs out of fuel where
the statement does (`Node.emitsAction`). Between statements nothing is assumed of the scratch cells.

Scratch cells lie below `base`, variables from `base` on.
-/

namespace TapeScript

open Plan (Enough Computes)

/-! ## The pool -/

/-- The free scratch cells are distinct, lie on the tape, and are no variables. -/
structure Workbench.Pooled (s : Setting) (base : Int) (w : Workbench) : Prop where
  nodup : w.cells.free.Nodup
  below : ∀ c ∈ w.cells.free, s.holds c ∧ c < base

namespace Workbench.Pooled

variable {s : Setting} {base : Int} {w w' : Workbench} {c : Int}

theorem take (h : w.Pooled s base) (hg : Gives Emit.takeScratch w c w') :
    w'.Pooled s base ∧ w.cells.free = c :: w'.cells.free ∧ w'.head = w.head ∧ s.holds c ∧
      c < base ∧ c ∉ w'.cells.free := by
  obtain ⟨rest, hfree, rfl⟩ := Emit.gives_takeScratch.mp hg
  have hnodup := h.nodup
  have hbelow := h.below
  rw [hfree] at hnodup hbelow
  obtain ⟨hheld, hlt⟩ := hbelow c (by simp)
  exact ⟨⟨(List.nodup_cons.mp hnodup).2, fun d hd => hbelow d (by simp [hd])⟩, hfree, rfl, hheld,
    hlt, (List.nodup_cons.mp hnodup).1⟩

theorem giveBack {u : Unit} (h : w.Pooled s base) (hg : Gives (Emit.giveBack c) w u w')
    (hheld : s.holds c) (hlt : c < base) :
    w'.Pooled s base ∧ w'.cells.free = c :: w.cells.free ∧ w'.head = w.head := by
  obtain ⟨hfree, -, rfl⟩ := Emit.gives_giveBack.mp hg
  refine ⟨⟨List.nodup_cons.mpr ⟨hfree, h.nodup⟩, fun d hd => ?_⟩, rfl, rfl⟩
  rcases List.mem_cons.mp hd with rfl | hd
  · exact ⟨hheld, hlt⟩
  · exact h.below d hd

theorem of_head (h : w.Pooled s base) (heq : w' = { w with head := w'.head }) :
    w'.Pooled s base := by
  rw [heq]
  exact ⟨h.nodup, h.below⟩

end Workbench.Pooled

/-! ## Emission by parts -/

namespace Emit

/-- With free cells among the listed ones, the action takes only such cells, and the code it emits
is that of a plan with the given property. -/
def Yields (s : Setting) (base : Int) (F : List Int) (e : Emit Code) (P : Plan → Prop) : Prop :=
  ∀ w code w', w.Pooled s base → w.cells.free ⊆ F → Gives e w code w' →
    w'.Pooled s base ∧ w'.cells.free ⊆ w.cells.free ∧ ∃ p : Plan, p.Spells w.head code w'.head ∧ P p

section Parts

variable {s : Setting} {base : Int} {F : List Int} {e e' : Emit Code} {P Q : Plan → Prop}

theorem Yields.imp (h : Yields s base F e P) (himp : ∀ p, P p → Q p) : Yields s base F e Q := by
  intro w code w' hpool hfree hg
  obtain ⟨hpool', hfree', p, hspells, hp⟩ := h w code w' hpool hfree hg
  exact ⟨hpool', hfree', p, hspells, himp p hp⟩

theorem yields_throw (f : Fault) : Yields s base F (throw f) P := by
  intro w code w' _ _ hg
  exact absurd hg gives_throw

/-- An action that leaves the workbench alone, apart from the head. -/
theorem yields_of_gives {p : Plan} (h : ∀ w code w', Gives e w code w' →
    (p.Spells w.head code w'.head ∧ w' = { w with head := w'.head }) ∧ P p) :
    Yields s base F e P := by
  intro w code w' hpool _ hg
  obtain ⟨⟨hspells, hw⟩, hp⟩ := h w code w' hg
  have hfree : w'.cells.free ⊆ w.cells.free := by
    rw [hw]
    exact List.Subset.refl _
  exact ⟨hpool.of_head hw, hfree, p, hspells, hp⟩

theorem yields_scripted {p : Plan} (hs : Scripted e p.beats) (hret : ∀ h, p.Returns h) :
    Yields s base F e (· = p) :=
  yields_of_gives fun _ _ _ hg => ⟨hs.spells hret hg, rfl⟩

theorem yields_nil : Yields s base F (seq []) (· = .done) :=
  yields_scripted .nil fun _ => trivial

theorem Yields.cons {es : List (Emit Code)} (h : Yields s base F e P)
    (hs : Yields s base F (seq es) Q) :
    Yields s base F (seq (e :: es)) fun r => ∃ p q, P p ∧ Q q ∧ r = p ++ q := by
  intro w code w' hpool hfree hg
  simp only [seq, gives_bind, gives_pure] at hg
  obtain ⟨c, w1, hg1, d, w2, hg2, rfl, rfl⟩ := hg
  obtain ⟨hpool1, hfree1, p, hspells1, hp⟩ := h w c w1 hpool hfree hg1
  obtain ⟨hpool2, hfree2, q, hspells2, hq⟩ := hs w1 d w' hpool1 (List.Subset.trans hfree1 hfree) hg2
  exact ⟨hpool2, List.Subset.trans hfree2 hfree1, p ++ q, hspells1.append hspells2, p, q, hp, hq, rfl⟩

theorem Yields.pair (h : Yields s base F e P) (h' : Yields s base F e' Q) :
    Yields s base F (seq [e, e']) fun r => ∃ p q, P p ∧ Q q ∧ r = p ++ q := by
  refine (h.cons (h'.cons yields_nil)).imp ?_
  rintro _ ⟨p, _, hp, ⟨q, _, hq, rfl, rfl⟩, rfl⟩
  exact ⟨p, q, hp, hq, by rw [Plan.append_done]⟩

theorem Yields.loop (h : Yields s base F e P) (cell : Int) :
    Yields s base F (loop cell e) fun r => ∃ p, P p ∧ r = Plan.loopAt cell p := by
  intro w code w' hpool hfree hg
  obtain ⟨inner, w1, hinner, rfl, hspells⟩ := spells_loop hg
  obtain ⟨hpool1, hfree1, p, hp, hP⟩ := h { w with head := cell } inner w1
    ⟨hpool.nodup, hpool.below⟩ hfree hinner
  exact ⟨⟨hpool1.nodup, hpool1.below⟩, hfree1, _, hspells p hp, p, hP, rfl⟩

/-- Behind a check for distinct cells. -/
theorem Yields.checked {g : Gadget} {cells : List Int} {f : Unit → Emit Code}
    (h : cells.Nodup → Yields s base F (f ()) P) :
    Yields s base F (needDistinct g cells >>= f) P := by
  intro w code w' hpool hfree hg
  obtain ⟨_, w1, hcheck, hf⟩ := gives_bind.mp hg
  obtain ⟨hd, rfl⟩ := gives_needDistinct.mp hcheck
  exact h hd w1 code w' hpool hfree hf

theorem Yields.lift {α : Type} {x : Except Fault α} {f : α → Emit Code}
    (h : ∀ a, x = .ok a → Yields s base F (f a) P) :
    Yields s base F (liftM x >>= f) P := by
  intro w code w' hpool hfree hg
  obtain ⟨a, w1, hx, hf⟩ := gives_bind.mp hg
  obtain ⟨rfl, rfl⟩ := gives_lift.mp hx
  exact h a rfl w1 code w' hpool hfree hf

/-- A side of a branch clears both scratch cells behind its body. -/
theorem Yields.once (h : Yields s base F e P) (temp1 temp2 : Int) :
    Yields s base F (seq [e, clear temp1, clear temp2]) fun r =>
      ∃ p, P p ∧ r = Plan.once p temp1 temp2 := by
  refine (h.cons ((yields_scripted (scripted_clear temp1) (by simp)).pair
    (yields_scripted (scripted_clear temp2) (by simp)))).imp ?_
  rintro _ ⟨p, _, hp, ⟨_, _, rfl, rfl, rfl⟩, rfl⟩
  exact ⟨p, hp, by rw [Plan.once, Plan.append_assoc]⟩

theorem Yields.branch (h : Yields s base F e P) (h' : Yields s base F e' Q)
    (cell temp1 temp2 : Int) :
    Yields s base F (Emit.branch cell e (some e') temp1 temp2) fun r =>
      ∃ p q, P p ∧ Q q ∧ [cell, temp1, temp2].Nodup ∧ r = Plan.branch cell p q temp1 temp2 := by
  refine Yields.checked fun hd => ?_
  have hcopy : [cell, temp2, temp1].Nodup := by grind
  refine ((yields_scripted (scripted_copy hcopy) (by simp)).cons
    ((yields_scripted (scripted_setCell temp1 Int.one_nonneg) (by simp)).cons
      (((h.once temp1 temp2).loop temp2).pair ((h'.once temp1 temp2).loop temp1)))).imp ?_
  rintro _ ⟨_, _, rfl, ⟨_, _, rfl, ⟨_, _, ⟨_, ⟨p, hp, rfl⟩, rfl⟩, ⟨_, ⟨q, hq, rfl⟩, rfl⟩, rfl⟩,
    rfl⟩, rfl⟩
  exact ⟨p, q, hp, hq, hd, by simp only [Plan.branch, Plan.append_assoc]; rfl⟩

/-- A borrowed cell is not free while it is borrowed. -/
theorem Yields.borrow {f : Int → Emit Code}
    (h : ∀ c F', c ∈ F → s.holds c → c < base → F' ⊆ F → c ∉ F' → Yields s base F' (f c) P) :
    Yields s base F (borrow f) P := by
  intro w code w' hpool hfree hg
  simp only [Emit.borrow, gives_bind, gives_pure] at hg
  obtain ⟨c, w1, htake, code', w2, hf, _, w3, hgive, rfl, rfl⟩ := hg
  obtain ⟨hpool1, hcons, hhead1, hheld, hlt, hnot⟩ := hpool.take htake
  rw [hcons] at hfree
  obtain ⟨hmem, hrest⟩ := List.cons_subset.mp hfree
  obtain ⟨hpool2, hfree2, p, hspells, hp⟩ :=
    h c w1.cells.free hmem hheld hlt hrest hnot w1 code w2 hpool1 (List.Subset.refl _) hf
  obtain ⟨hpool3, hcons3, hhead3⟩ := hpool2.giveBack hgive hheld hlt
  refine ⟨hpool3, ?_, p, ?_, hp⟩
  · rw [hcons3, hcons]
    exact List.cons_subset_cons c hfree2
  · rw [hhead3, ← hhead1]
    exact hspells

/-- A cell that is taken and kept. -/
theorem Yields.keep {f : Int → Emit Code}
    (h : ∀ c F', c ∈ F → s.holds c → c < base → F' ⊆ F → c ∉ F' → Yields s base F' (f c) P) :
    Yields s base F (takeScratch >>= f) P := by
  intro w code w' hpool hfree hg
  obtain ⟨c, w1, htake, hf⟩ := gives_bind.mp hg
  obtain ⟨hpool1, hcons, hhead1, hheld, hlt, hnot⟩ := hpool.take htake
  rw [hcons] at hfree
  obtain ⟨hmem, hrest⟩ := List.cons_subset.mp hfree
  obtain ⟨hpool2, hfree2, p, hspells, hp⟩ :=
    h c w1.cells.free hmem hheld hlt hrest hnot w1 code w' hpool1 (List.Subset.refl _) hf
  refine ⟨hpool2, ?_, p, hhead1 ▸ hspells, hp⟩
  rw [hcons]
  exact List.Subset.trans hfree2 (List.subset_cons_self c _)

end Parts

end Emit

/-! ## Operators -/

/-- The plan applies an operator to two cells, and changes no others but the listed ones. -/
def Plan.Applies (s : Setting) (op : String) (a b dest : Int) (temps : List Int) (p : Plan) : Prop :=
  ∀ fuel t, Enough s fuel → s.Bounds t →
    ∃ v, cellValue s.width op (t.cells a) (t.cells b) = some v ∧ Computes s fuel p t dest v temps

theorem Plan.Applies.mono {s : Setting} {op : String} {a b dest : Int} {temps temps' : List Int}
    {p : Plan} (h : p.Applies s op a b dest temps) (hsub : temps ⊆ temps') :
    p.Applies s op a b dest temps' := by
  intro fuel t hfuel ht
  obtain ⟨v, hv, hrun⟩ := h fuel t hfuel ht
  exact ⟨v, hv, hrun.mono hsub⟩

namespace Emit

variable {s : Setting} {base : Int} {F : List Int}

theorem yields_gadget {e : Emit Code} {g : Gadget} {cells : List Int} {f : Unit → Emit Code}
    {op : String} {a b dest : Int} {temps : List Int} {p : Plan} {v : Tape → Nat}
    (he : e = needDistinct g cells >>= f) (hs : cells.Nodup → Scripted e p.beats)
    (hret : ∀ h, p.Returns h) (hcells : ∀ c ∈ cells, s.holds c)
    (hrun : ∀ fuel t, s.Provides cells → Enough s fuel → s.Bounds t →
      Computes s fuel p t dest (v t) temps)
    (hop : ∀ t : Tape, cellValue s.width op (t.cells a) (t.cells b) = some (v t)) :
    Yields s base F e (Plan.Applies s op a b dest temps) := by
  refine yields_of_gives (p := p) fun w code w' hg => ?_
  obtain ⟨hd, hspells⟩ := gives_gadget he hs hret hg
  exact ⟨hspells, fun fuel t hfuel ht => ⟨v t, hop t, hrun fuel t ⟨hd, hcells⟩ hfuel ht⟩⟩

section Gadgets

variable {a b dest temp1 temp2 temp3 temp4 : Int}

section Five

variable (h : ∀ c ∈ [a, b, dest, temp1, temp2], s.holds c)

include h

theorem yields_add : Yields s base F (add a b dest temp1 temp2)
    (Plan.Applies s "+" a b dest [temp1, temp2]) :=
  yields_gadget rfl scripted_add (by simp) h
    (fun _ _ hc hfuel ht => Plan.computes_add hfuel ht hc) (fun _ => by simp [cellValue])

theorem yields_subtract : Yields s base F (subtract a b dest temp1 temp2)
    (Plan.Applies s "-" a b dest [temp1, temp2]) :=
  yields_gadget rfl scripted_subtract (by simp) h
    (fun _ _ hc hfuel ht => Plan.computes_subtract hfuel ht hc) (fun _ => by simp [cellValue])

theorem yields_equal : Yields s base F (equal a b dest temp1 temp2)
    (Plan.Applies s "==" a b dest [temp1, temp2]) :=
  yields_gadget rfl scripted_equal (by simp) h
    (fun _ _ hc hfuel ht => Plan.computes_equal hfuel ht hc) (fun _ => by simp [cellValue])

theorem yields_notEqual : Yields s base F (notEqual a b dest temp1 temp2)
    (Plan.Applies s "!=" a b dest [temp1, temp2]) :=
  yields_gadget rfl scripted_notEqual (by simp) h
    (fun _ _ hc hfuel ht => Plan.computes_notEqual hfuel ht hc) (fun _ => by simp [cellValue])

end Five

/-- The four operators that order their operands. -/
theorem yields_ordering (h : ∀ c ∈ [a, b, dest, temp1, temp2, temp3, temp4], s.holds c)
    {op : String} {compare : Int → Int → Int → Int → Int → Int → Int → Emit Code}
    (hop : Node.ordering? op = some compare) :
    Yields s base F (compare a b dest temp1 temp2 temp3 temp4)
      (Plan.Applies s op a b dest [temp1, temp2, temp3, temp4]) := by
  unfold Node.ordering? at hop
  split_ifs at hop with hge hle hgt hlt
  · cases hop
    exact yields_gadget rfl scripted_greaterOrEqual (by simp) h
      (fun _ _ hc hfuel ht => Plan.computes_lessOrEqual hfuel ht hc.swap)
      (fun _ => by simp [cellValue, hge])
  · cases hop
    exact yields_gadget rfl scripted_lessOrEqual (by simp) h
      (fun _ _ hc hfuel ht => Plan.computes_lessOrEqual hfuel ht hc)
      (fun _ => by simp [cellValue, hle])
  · cases hop
    exact yields_gadget rfl scripted_greater (by simp) h
      (fun _ _ hc hfuel ht => Plan.computes_greater hfuel ht hc)
      (fun _ => by simp [cellValue, hgt])
  · cases hop
    exact yields_gadget rfl scripted_less (by simp) h
      (fun _ _ hc hfuel ht => Plan.computes_greater hfuel ht hc.swap)
      (fun _ => by simp [cellValue, hlt])

end Gadgets

end Emit

open Emit in
/-- An operator changes the cell of its result and cells that were free. -/
theorem Node.yields_operate {s : Setting} {base : Int} {F : List Int} (op : String)
    {a b dest : Int} (ha : s.holds a) (hb : s.holds b) (hdest : s.holds dest) :
    Yields s base F (operate op a b dest) (Plan.Applies s op a b dest F) := by
  by_cases hadd : op = "+"
  · rw [hadd, operate_add]
    refine Yields.keep fun t1 F1 hm1 h1 _ hs1 _ => Yields.keep fun t2 F2 hm2 h2 _ _ _ => ?_
    exact (yields_add (by simp_all)).imp fun p hp => hp.mono (by grind)
  · rw [operate_of_ne hadd]
    refine Yields.borrow fun t1 F1 hm1 h1 _ hs1 _ => Yields.borrow fun t2 F2 hm2 h2 _ hs2 _ => ?_
    unfold operateWith
    have htwo : [t1, t2] ⊆ F := by grind
    have hcells : ∀ c ∈ [a, b, dest, t1, t2], s.holds c := by simp_all
    split_ifs with hmul hdiv hsub heq hne
    · exact yields_throw _
    · exact yields_throw _
    · exact hsub ▸ (yields_subtract hcells).imp fun p hp => hp.mono htwo
    · exact heq ▸ (yields_equal hcells).imp fun p hp => hp.mono htwo
    · exact hne ▸ (yields_notEqual hcells).imp fun p hp => hp.mono htwo
    · cases hord : ordering? op with
      | some compare =>
        refine Yields.borrow fun t3 F3 hm3 h3 _ hs3 _ => Yields.borrow fun t4 F4 hm4 h4 _ _ _ => ?_
        have hfour : [t1, t2, t3, t4] ⊆ F := by grind
        exact (yields_ordering (by simp_all) hord).imp fun p hp => hp.mono hfour
      | none =>
        intro w code w' _ _ hg
        simp only [gives_bind, gives_throw, and_false, exists_false] at hg

/-! ## Values -/

/-- The plan stores the value of a node in a cell, and changes no others but the listed ones. -/
def Plan.Stores (s : Setting) (n : Node) (cell : Int) (F : List Int) (p : Plan) : Prop :=
  ∀ fuel t, Enough s fuel → s.Bounds t → ∃ v pos t',
    n.value s.width s.input t.cells t.inputPos = some (v, pos) ∧ p.exec s fuel t = .halted t' ∧
      t'.cells cell = v ∧ Tape.SameOff (cell :: F) { t with inputPos := pos } t'

namespace Plan

variable {s : Setting} {cell : Int} {F : List Int}

theorem stores_constant {n : Int} (hn : 0 ≤ n) (hcell : s.holds cell) :
    Stores s (.constant n true) cell F (setCell cell n.toNat) := by
  intro fuel t hfuel ht
  have hwrap : s.width.wrap n = n.toNat % s.width.modulus := by
    rw [← s.width.wrap_natCast, Int.toNat_of_nonneg hn]
  refine ⟨_, _, _, rfl, exec_setCell hfuel ht hcell _, ?_, ?_⟩
  · simp [hwrap]
  · exact ((Tape.SameOff.refl _ _).write (by simp) _).goto _

theorem stores_input (hcell : s.holds cell) :
    Stores s .input cell F (.go cell (.act .get .done)) := by
  intro fuel t hfuel ht
  refine ⟨_, _, _, rfl, exec_go hcell _ t, ?_, rfl, rfl, fun c hc => ?_⟩
  · simp only [Tape.write_cells, Tape.goto_head, Function.update_self]
    rfl
  · have hne : c ≠ cell := fun heq => hc (by simp [heq])
    simp [hne]

theorem stores_load {symbol : Symbol} {source temp : Int} (hloc : symbol.location = some source)
    (hc : s.Provides [source, cell, temp]) (hmem : temp ∈ F) :
    Stores s (.load symbol) cell F (copy source cell temp) := by
  intro fuel t hfuel ht
  have hne : cell ≠ temp := by grind
  refine ⟨_, _, _, by rw [Node.value, hloc]; rfl, exec_copy hfuel ht hc, ?_, ?_⟩
  · simp [hne]
  · exact (((Tape.SameOff.refl _ _).write (by simp) _).write (by simp [hmem]) _).goto _

/-- The operands are stored one after the other. The second does not see the cells that the first
has changed. -/
theorem stores_binary {base : Int} {count : Nat} {level : Level} {op : String} {left right : Node}
    {c1 c2 : Int} {G : List Int} {p q r : Plan} (hright : right.Within base count)
    (hbelow : ∀ c ∈ F, c < base) (h1 : c1 ∈ F) (h2 : c2 ∈ F) (hne : c1 ≠ c2) (hG : G ⊆ F)
    (hc1 : c1 ∉ G) (hp : p.Stores s left c1 G) (hq : q.Stores s right c2 G)
    (hr : r.Applies s op c1 c2 cell G) :
    Stores s (.binary level op left right) cell F (p ++ (q ++ r)) := by
  intro fuel t hfuel ht
  obtain ⟨v1, pos1, t1, hval1, hrun1, hset1, hsame1⟩ := hp fuel t hfuel ht
  have ht1 := bounds_of_exec p ht hrun1
  obtain ⟨v2, pos2, t2, hval2, hrun2, hset2, hsame2⟩ := hq fuel t1 hfuel ht1
  have ht2 := bounds_of_exec q ht1 hrun2
  obtain ⟨v, hv, t3, hrun3, hset3, hsame3⟩ := hr fuel t2 hfuel ht2
  have hcells : ∀ c, base ≤ c → t1.cells c = t.cells c := by
    intro c hc
    refine hsame1.cells c fun hmem => ?_
    have hF : c ∈ F := by grind
    have := hbelow c hF
    omega
  have hkept : t2.cells c1 = v1 := by
    rw [hsame2.cells c1 (by simp [hne, hc1])]
    exact hset1
  rw [Node.value_congr s.width s.input hcells right _ hright, hsame1.inputPos] at hval2
  rw [hkept, hset2] at hv
  refine ⟨v, pos2, t3, ?_, ?_, hset3, ?_⟩
  · simp only [Node.value, hval1, Option.bind_some, hval2, hv, Option.map_some]
  · rw [exec_append, hrun1, Ending.halted_andThen, exec_append, hrun2, Ending.halted_andThen, hrun3]
  · have h12 : c1 :: G ⊆ cell :: F := by grind
    have h22 : c2 :: G ⊆ cell :: F := by grind
    have h32 : cell :: G ⊆ cell :: F := by grind
    refine ⟨hsame3.inputPos.trans hsame2.inputPos, ?_, fun c hc => ?_⟩
    · exact hsame3.output.trans (hsame2.output.trans hsame1.output)
    · calc t3.cells c = t2.cells c := (hsame3.mono h32).cells c hc
        _ = t1.cells c := (hsame2.mono h22).cells c hc
        _ = t.cells c := (hsame1.mono h12).cells c hc

end Plan

namespace Node

open Emit Plan

variable {s : Setting} {base : Int} {count : Nat}

/-- **The code of a value stores it.** -/
theorem yields_emitInto (hvars : ∀ c, base ≤ c → c < base + count → s.holds c) :
    ∀ (n : Node) (cell : Int) (F : List Int), n.Within base count → s.holds cell →
      (∀ c ∈ F, c < base) → Yields s base F (n.emitInto cell) (Stores s n cell F)
  | .constant n true, cell, F, _, hcell, _ => by
    rw [emitInto]
    by_cases hn : 0 ≤ n
    · exact (yields_scripted (scripted_setCell cell hn) (by simp)).imp fun p hp =>
        hp ▸ stores_constant hn hcell
    · unfold Emit.setCell
      rw [if_pos (by omega)]
      exact yields_throw _
  | .constant _ false, _, _, _, _, _ => yields_throw _
  | .load symbol, cell, F, hwithin, hcell, _ => by
    rw [emitInto_load]
    refine Yields.borrow fun temp G hmem htemp _ _ _ => ?_
    cases hloc : symbol.location with
    | none => exact yields_throw _
    | some source =>
      obtain ⟨hle, hlt⟩ := hwithin source hloc
      refine yields_of_gives (p := Plan.copy source cell temp) fun w code w' hg => ?_
      obtain ⟨hd, hspells⟩ := gives_gadget rfl scripted_copy (by simp) hg
      exact ⟨hspells, stores_load hloc ⟨hd, by simp [hvars source hle hlt, hcell, htemp]⟩ hmem⟩
  | .input, cell, F, _, hcell, _ => by
    rw [emitInto]
    have hs : Scripted (seq [moveTo cell, one .get]) (Plan.go cell (.act .get .done)).beats :=
      (scripted_moveTo cell).cons ((scripted_one .get rfl rfl).cons .nil)
    exact (yields_scripted hs fun _ => trivial).imp fun p hp => hp ▸ stores_input hcell
  | .binary _ op left right, cell, F, ⟨hleft, hright⟩, hcell, hbelow => by
    rw [emitInto_binary]
    refine Yields.borrow fun c1 G1 hm1 h1 _ hs1 hn1 => Yields.borrow fun c2 G2 hm2 h2 _ hs2 hn2 => ?_
    have hbelow2 : ∀ c ∈ G2, c < base := fun c hc => hbelow c (hs1 (hs2 hc))
    have hfirst := yields_emitInto hvars left c1 G2 hleft h1 hbelow2
    have hsecond := yields_emitInto hvars right c2 G2 hright h2 hbelow2
    refine (hfirst.cons (hsecond.pair (yields_operate op h1 h2 hcell))).imp ?_
    rintro _ ⟨p, _, hp, ⟨q, r, hq, hr, rfl⟩, rfl⟩
    have hne : c1 ≠ c2 := fun heq => hn1 (heq ▸ hm2)
    exact stores_binary hright hbelow hm1 (hs1 hm2) hne (List.Subset.trans hs2 hs1)
      (fun hmem => hn1 (hs2 hmem)) hp hq hr
  | .unary _ _, _, _, _, _, _ | .declare _ _, _, _, _, _, _ | .assign _ _, _, _, _, _, _
  | .block _, _, _, _, _, _ | .ifElse _ _ _, _, _, _, _, _ | .loop _ _, _, _, _, _, _
  | .output _, _, _, _, _, _ | .exprStmt _, _, _, _, _, _ | .newName _, _, _, _, _, _
  | .nop _, _, _, _, _, _ | .program _, _, _, _, _, _ | .withheld _, _, _, _, _, _
  | .bare _, _, _, _, _, _ | .blank, _, _, _, _, _ | .misfit, _, _, _, _, _
  | .deep, _, _, _, _, _ => yields_throw _

end Node

end TapeScript
