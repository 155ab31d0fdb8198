import TapeScript.Proofs.NodeCode

set_option autoImplicit false

/-! # The code of statements

Code for a statement takes a tape on which the variables are those of a surface to one on which they
are those of the surface after the statement, or runs out of fuel where the statement does
(`Plan.Acts`, `Node.yields_emit`). Between statements nothing is assumed of the scratch cells.
-/

namespace TapeScript

open Plan (Enough)

/-! ## Surfaces on a tape -/

/-- The tape shows the surface from the cell `base` on. -/
structure Surface.ShownOn (base : Int) (sf : Surface) (t : Tape) : Prop where
  inputPos : t.inputPos = sf.inputPos
  output : t.output = sf.output
  cells : ∀ c, base ≤ c → t.cells c = sf.cells c

namespace Surface.ShownOn

variable {base : Int} {sf : Surface} {t t' : Tape}

theorem goto (h : sf.ShownOn base t) (c : Int) : sf.ShownOn base (t.goto c) :=
  ⟨h.inputPos, h.output, h.cells⟩

/-- Scratch cells are not shown. -/
theorem scratch (h : sf.ShownOn base t) {c : Int} (hc : c < base) (v : Nat) :
    sf.ShownOn base (t.write c v) := by
  refine ⟨h.inputPos, h.output, fun d hd => ?_⟩
  rw [Tape.write_cells, Function.update_of_ne (by omega)]
  exact h.cells d hd

end Surface.ShownOn

/-- The ending shows the result on its tape; it is spent if there is no result. -/
def Ending.Shows (base : Int) (r : Option Surface) : Ending → Prop
  | .halted t => ∃ sf, r = some sf ∧ sf.ShownOn base t
  | .offTape _ => False
  | .spent => r = none

/-- One part after the other. -/
theorem Ending.Shows.andThen {base : Int} {r : Option Surface} {e : Ending} {f : Tape → Ending}
    {g : Surface → Option Surface} (h : e.Shows base r)
    (hf : ∀ t sf, e = .halted t → sf.ShownOn base t → (f t).Shows base (g sf)) :
    (e.andThen f).Shows base (r.bind g) := by
  cases e with
  | halted t =>
    obtain ⟨sf, rfl, hshown⟩ := h
    exact hf t sf rfl hshown
  | offTape sf => exact h.elim
  | spent => rw [show r = none from h]; rfl

namespace Plan

/-- The plan evaluates a node into a scratch cell. -/
def Tests (s : Setting) (base : Int) (n : Node) (cell : Int) (p : Plan) : Prop :=
  ∀ fuel t sf, Enough s fuel → s.Bounds t → sf.ShownOn base t →
    ∃ v sf' t', n.evalOn s.width s.input sf = some (v, sf') ∧ p.exec s fuel t = .halted t' ∧
      t'.cells cell = v ∧ sf'.ShownOn base t'

/-- The plan does to the shown surface what the function does, given as much fuel. -/
def Acts (s : Setting) (base : Int) (f : Nat → Surface → Option Surface) (p : Plan) : Prop :=
  ∀ fuel t sf, Enough s fuel → s.Bounds t → sf.ShownOn base t →
    (p.exec s fuel t).Shows base (f fuel sf)

variable {s : Setting} {base : Int} {count : Nat} {n : Node} {cell : Int} {F : List Int}
  {p q : Plan} {f g : Nat → Surface → Option Surface}

variable {body : Plan}

theorem Acts.append (hp : p.Acts s base f) (hq : q.Acts s base g) :
    (p ++ q).Acts s base fun fuel sf => (f fuel sf).bind (g fuel) := by
  intro fuel t sf hfuel ht hshown
  rw [exec_append]
  exact (hp fuel t sf hfuel ht hshown).andThen fun t' sf' hrun hshown' =>
    hq fuel t' sf' hfuel (bounds_of_exec p ht hrun) hshown'

theorem Tests.acts (hp : p.Tests s base n cell) {h : Nat → Nat → Surface → Option Surface}
    (hq : ∀ fuel t sf, Enough s fuel → s.Bounds t → sf.ShownOn base t →
      (q.exec s fuel t).Shows base (h fuel (t.cells cell) sf)) :
    (p ++ q).Acts s base fun fuel sf =>
      (n.evalOn s.width s.input sf).bind fun (v, sf) => h fuel v sf := by
  intro fuel t sf hfuel ht hshown
  obtain ⟨v, sf', t', heval, hrun, hset, hshown'⟩ := hp fuel t sf hfuel ht hshown
  have hq' := hq fuel t' sf' hfuel (bounds_of_exec p ht hrun) hshown'
  rw [hset] at hq'
  rw [exec_append, hrun, Ending.halted_andThen]
  simpa only [heval, Option.bind_some] using hq'

/-! ## Stored values -/

/-- The value on a tape is the value on the surface that the tape shows. -/
theorem Stores.on_surface (hp : p.Stores s n cell F) (hn : n.Within base count)
    (hF : ∀ c ∈ F, c < base) {fuel : Nat} {t : Tape} {sf : Surface} (hfuel : Enough s fuel)
    (ht : s.Bounds t) (hshown : sf.ShownOn base t) :
    ∃ v sf' t', n.evalOn s.width s.input sf = some (v, sf') ∧ p.exec s fuel t = .halted t' ∧
      t'.cells cell = v ∧ (sf'.write cell v).ShownOn base t' := by
  obtain ⟨v, pos, t', hval, hrun, hset, hsame⟩ := hp fuel t hfuel ht
  rw [Node.value_congr s.width s.input hshown.cells n _ hn, hshown.inputPos] at hval
  refine ⟨v, { sf with inputPos := pos }, t', ?_, hrun, hset, hsame.inputPos,
    hsame.output.trans hshown.output, fun c hc => ?_⟩
  · rw [Node.evalOn, hval]
    rfl
  · by_cases hcell : c = cell
    · simp [hcell, hset]
    · have hnot : c ∉ cell :: F := by
        intro hmem
        have := hF c ((List.mem_cons.mp hmem).resolve_left hcell)
        omega
      rw [Surface.write_cells, Function.update_of_ne hcell]
      exact (hsame.cells c hnot).trans (hshown.cells c hc)

theorem Stores.tests (hp : p.Stores s n cell F) (hn : n.Within base count)
    (hF : ∀ c ∈ F, c < base) (hcell : cell < base) : p.Tests s base n cell := by
  intro fuel t sf hfuel ht hshown
  obtain ⟨v, sf', t', heval, hrun, hset, hshown'⟩ := hp.on_surface hn hF hfuel ht hshown
  refine ⟨v, sf', t', heval, hrun, hset, hshown'.inputPos, hshown'.output, fun c hc => ?_⟩
  rw [hshown'.cells c hc, Surface.write_cells, Function.update_of_ne (by omega)]

theorem Stores.acts (hp : p.Stores s n cell F) (hn : n.Within base count)
    (hF : ∀ c ∈ F, c < base) {symbol : Symbol} (hloc : symbol.location = some cell) :
    p.Acts s base fun _ => n.storeAt s.width s.input symbol := by
  intro fuel t sf hfuel ht hshown
  obtain ⟨v, sf', t', heval, hrun, -, hshown'⟩ := hp.on_surface hn hF hfuel ht hshown
  rw [hrun]
  exact ⟨sf'.write cell v, by simp [Node.storeAt, hloc, heval], hshown'⟩

theorem acts_zero {symbol : Symbol} (hcell : s.holds cell) (hloc : symbol.location = some cell) :
    (setCell cell 0).Acts s base fun fuel => (Node.declare symbol none).run s.width s.input fuel := by
  intro fuel t sf hfuel ht hshown
  rw [exec_setCell hfuel ht hcell, Nat.zero_mod]
  refine ⟨sf.write cell 0, by simp [Node.run, hloc], hshown.inputPos, hshown.output, fun c hc => ?_⟩
  simp only [Tape.goto_cells, Tape.write_cells, Surface.write_cells, Function.update_apply,
    hshown.cells c hc]

/-! ## Output, branches and loops -/

theorem Tests.output (hp : p.Tests s base n cell) (hcell : s.holds cell) :
    (p ++ .go cell (.act .put .done)).Acts s base fun _ sf =>
      (n.evalOn s.width s.input sf).map fun (v, sf) =>
        { sf with output := sf.output.push (Machine.outputChar v) } := by
  simp only [Option.map_eq_bind]
  refine hp.acts (h := fun _ v sf =>
    some { sf with output := sf.output.push (Machine.outputChar v) }) ?_
  intro fuel t sf hfuel ht hshown
  rw [exec_go hcell]
  refine ⟨_, rfl, hshown.inputPos, ?_, hshown.cells⟩
  show t.output.push _ = _
  rw [hshown.output]
  rfl

theorem Tests.branch (hp : p.Tests s base n cell) {otherwise : Plan} (hbody : body.Acts s base f)
    (hotherwise : otherwise.Acts s base g) {temp1 temp2 : Int}
    (hc : s.Provides [cell, temp1, temp2]) (hlt1 : temp1 < base) (hlt2 : temp2 < base) :
    (p ++ Plan.branch cell body otherwise temp1 temp2).Acts s base fun fuel sf =>
      (n.evalOn s.width s.input sf).bind fun (v, sf) => if v = 0 then g fuel sf else f fuel sf := by
  refine hp.acts (h := fun fuel v sf => if v = 0 then g fuel sf else f fuel sf) ?_
  intro fuel t sf hfuel ht hshown
  rw [exec_branch hfuel ht hc]
  -- what a side leaves in the scratch cells is not shown
  have htidy : ∀ {e : Ending} {r : Option Surface}, e.Shows base r →
      (e.andThen (tidy temp1 temp2)).Shows base r := by
    intro e r he
    have h := he.andThen (f := tidy temp1 temp2) (g := some) fun t' sf' _ hshown' =>
      ⟨sf', rfl, ((hshown'.scratch hlt1 0).scratch hlt2 0).goto temp1⟩
    simpa using h
  by_cases hzero : t.cells cell = 0
  · rw [if_pos hzero, if_pos hzero]
    exact htidy (hotherwise fuel _ sf hfuel (((ht.zero temp2).one temp1).goto temp1)
      (((hshown.scratch hlt2 0).scratch hlt1 1).goto temp1))
  · rw [if_neg hzero, if_neg hzero]
    exact htidy (hbody fuel _ sf hfuel (((ht.write (ht cell) temp2).one temp1).goto temp2)
      (((hshown.scratch hlt2 _).scratch hlt1 1).goto temp2))

/-- The rounds of a loop: the condition has been evaluated before each. -/
theorem Tests.iterate (hq : q.Tests s base n cell) (hbody : body.Acts s base f) {fuel : Nat}
    (hfuel : Enough s fuel) (k : Nat) {t : Tape} {sf sf' : Surface}
    (heval : n.evalOn s.width s.input sf = some (t.cells cell, sf')) (ht : s.Bounds t)
    (hshown : sf'.ShownOn base t) :
    (Block.iterate (fun t => ((body ++ q).exec s fuel t).andThen fun t' => .halted (t'.goto cell)) k
        (t.goto cell)).Shows base
      (repeatWhile (n.evalOn s.width s.input) (f fuel) k sf) := by
  induction k generalizing t sf sf' with
  | zero => rfl
  | succ k ih =>
    rw [Block.iterate, Tape.current_goto, repeatWhile, heval, Option.bind_some]
    by_cases hzero : t.cells cell = 0
    · rw [if_pos hzero]
      simp only [hzero, if_true]
      exact ⟨sf', rfl, hshown.goto cell⟩
    · rw [if_neg hzero]
      simp only [hzero, if_false]
      rw [exec_append, Ending.andThen_assoc, Ending.andThen_assoc]
      refine (hbody fuel _ sf' hfuel (ht.goto cell) (hshown.goto cell)).andThen ?_
      intro t1 sf1 hrun1 hshown1
      have ht1 := bounds_of_exec body (ht.goto cell) hrun1
      obtain ⟨v, sf2, t2, heval2, hrun2, rfl, hshown2⟩ := hq fuel t1 sf1 hfuel ht1 hshown1
      rw [hrun2]
      simp only [Ending.halted_andThen]
      exact ih heval2 (bounds_of_exec q ht1 hrun2) hshown2

theorem Tests.loop (hp : p.Tests s base n cell) (hq : q.Tests s base n cell)
    (hbody : body.Acts s base f) (hcell : s.holds cell) :
    (p ++ loopAt cell (body ++ q)).Acts s base fun fuel =>
      repeatWhile (n.evalOn s.width s.input) (f fuel) fuel := by
  intro fuel t sf hfuel ht hshown
  obtain ⟨v, sf', t', heval, hrun, rfl, hshown'⟩ := hp fuel t sf hfuel ht hshown
  rw [exec_append, hrun, Ending.halted_andThen, exec_loopAt hcell]
  exact hq.iterate hbody hfuel fuel heval (bounds_of_exec p ht hrun) hshown'

end Plan

namespace Node

open Emit Plan

variable {s : Setting} {base : Int} {count : Nat} {F : List Int}

/-- The code that stores a value at a symbol. -/
theorem yields_emitAt (hvars : ∀ c, base ≤ c → c < base + count → s.holds c)
    (hF : ∀ c ∈ F, c < base) {n : Node} {symbol : Symbol} (hsymbol : symbol.Within base count)
    (hn : n.Within base count) : Yields s base F (n.emitAt symbol)
      (Acts s base fun _ => n.storeAt s.width s.input symbol) := by
  unfold emitAt
  cases hloc : symbol.location with
  | some cell =>
    obtain ⟨hle, hlt⟩ := hsymbol cell hloc
    exact (yields_emitInto hvars n cell F hn (hvars cell hle hlt) hF).imp fun p hp =>
      hp.acts hn hF hloc
  | none =>
    intro w code w' _ _ hg
    dsimp only at hg
    split at hg <;> simp only [gives_bind, gives_throw, and_false, exists_false] at hg

theorem ready_of_hasCode {n : Node} (h : n.codeKind ≠ .withheld) {ready : Bool}
    (hready : n.hasCode = .ok ready) : ready = true := by
  unfold hasCode at hready
  split at hready <;> simp_all

mutual

/-- **The code of a statement does what the statement does.** -/
theorem yields_emit (hvars : ∀ c, base ≤ c → c < base + count → s.holds c) :
    ∀ (n : Node) (F : List Int), n.Within base count → (∀ c ∈ F, c < base) →
      Yields s base F n.emit (Acts s base fun fuel => n.run s.width s.input fuel)
  | .declare symbol none, F, hwithin, hF => by
    rw [emit]
    cases hloc : symbol.location with
    | none => exact yields_throw _
    | some cell =>
      obtain ⟨hle, hlt⟩ := hwithin cell hloc
      exact (yields_scripted (scripted_setCell cell (Int.le_refl 0)) (by simp)).imp fun p hp =>
        hp ▸ acts_zero (hvars cell hle hlt) hloc
  | .declare symbol (some n), F, ⟨hsymbol, hn⟩, hF | .assign symbol n, F, ⟨hsymbol, hn⟩, hF => by
    rw [emit]
    exact (yields_emitAt hvars hF hsymbol hn).imp fun p hp => by simpa only [run] using hp
  | .block body, F, hbody, hF => by
    rw [emit]
    exact (yields_emitAll hvars body F hbody hF).imp fun p hp => by simpa only [run] using hp
  | .ifElse _ _ none, F, _, _ => by
    rw [emit, emitBranch_eq]
    refine Yields.borrow fun _ _ _ _ _ _ _ => Yields.borrow fun _ _ _ _ _ _ _ =>
      Yields.borrow fun _ _ _ _ _ _ _ => ?_
    intro w code w' _ _ hg
    simp only [seq, gives_bind, gives_throw, and_false, exists_false, false_and] at hg
  | .ifElse condition body (some otherwise), F, ⟨hcond, hbody, hotherwise, hcode⟩, hF => by
    rw [emit, emitBranch_eq]
    refine Yields.borrow fun result F1 hm1 h1 hlt1 hs1 hn1 =>
      Yields.borrow fun temp1 F2 hm2 h2 hlt2 hs2 hn2 =>
        Yields.borrow fun temp2 F3 hm3 h3 hlt3 hs3 hn3 => ?_
    have hF3 : ∀ c ∈ F3, c < base := fun c hc => hF c (hs1 (hs2 (hs3 hc)))
    have hfirst := yields_emitInto hvars condition result F3 hcond h1 hF3
    have hside := (yields_emit hvars body F3 hbody hF3).branch
      (yields_emit hvars otherwise F3 hotherwise hF3) result temp1 temp2
    have hchecked := Yields.lift (x := body.hasCode) fun _ _ =>
      Yields.lift (x := otherwise.hasCode)
        (f := fun ready => if ready then Emit.branch result body.emit (some otherwise.emit) temp1 temp2
          else Emit.branch result body.emit none temp1 temp2)
        fun ready hready => by
          rw [if_pos (ready_of_hasCode hcode hready)]
          exact hside
    refine (hfirst.pair hchecked).imp ?_
    rintro _ ⟨p, _, hp, ⟨b, o, hb, ho, hd, rfl⟩, rfl⟩
    simpa only [run] using (hp.tests hcond hF3 hlt1).branch hb ho ⟨hd, by simp [h1, h2, h3]⟩ hlt2
      hlt3
  | .loop condition body, F, ⟨hcond, hbody⟩, hF => by
    rw [emit, emitLoop_eq]
    refine Yields.borrow fun result F1 _ hheld hlt hs1 _ => ?_
    have hF1 : ∀ c ∈ F1, c < base := fun c hc => hF c (hs1 hc)
    have htest := (yields_emitInto hvars condition result F1 hcond hheld hF1).imp fun p hp =>
      hp.tests hcond hF1 hlt
    refine Yields.lift fun _ _ => Yields.lift fun _ _ => ?_
    rw [loopWhile_eq]
    refine (htest.pair (((yields_emit hvars body F1 hbody hF1).pair htest).loop result)).imp ?_
    rintro _ ⟨p, _, hp, ⟨_, ⟨b, q, hb, hq, rfl⟩, rfl⟩, rfl⟩
    simpa only [run] using hp.loop hq hb hheld
  | .output n, F, hn, hF => by
    rw [emit, emitOutput_eq]
    refine Yields.borrow fun temp F1 _ hheld hlt hs1 _ => ?_
    have hF1 : ∀ c ∈ F1, c < base := fun c hc => hF c (hs1 hc)
    have hput : Scripted (seq [moveTo temp, one .put]) (Plan.go temp (.act .put .done)).beats :=
      (scripted_moveTo temp).cons ((scripted_one .put rfl rfl).cons .nil)
    refine ((yields_emitInto hvars n temp F1 hn hheld hF1).cons
      (yields_scripted hput fun _ => trivial)).imp ?_
    rintro _ ⟨p, _, hp, rfl, rfl⟩
    simpa only [run] using (hp.tests hn hF1 hlt).output hheld
  | .constant _ _, _, _, _ | .load _, _, _, _ | .input, _, _, _ | .binary _ _ _ _, _, _, _
  | .unary _ _, _, _, _ | .exprStmt _, _, _, _ | .newName _, _, _, _ | .nop _, _, _, _
  | .program _, _, _, _ | .withheld _, _, _, _ | .bare _, _, _, _ | .blank, _, _, _
  | .misfit, _, _, _ | .deep, _, _, _ => yields_throw _

theorem yields_emitAll (hvars : ∀ c, base ≤ c → c < base + count → s.holds c) :
    ∀ (ns : List Node) (F : List Int), AllWithin base count ns → (∀ c ∈ F, c < base) →
      Yields s base F (emitAll ns) (Acts s base fun fuel => runAll s.width s.input fuel ns)
  | [], F, _, _ => by
    rw [emitAll]
    refine yields_nil.imp fun p hp => ?_
    rintro fuel t sf _ _ hshown
    rw [hp]
    exact ⟨sf, rfl, hshown⟩
  | n :: ns, F, ⟨hn, hns⟩, hF => by
    have hcons : emitAll (n :: ns) = seq [n.emit, emitAll ns] := by simp [emitAll, seq]
    rw [hcons]
    refine ((yields_emit hvars n F hn hF).pair (yields_emitAll hvars ns F hns hF)).imp ?_
    rintro _ ⟨p, q, hp, hq, rfl⟩
    simpa only [runAll] using hp.append hq

end

end Node

end TapeScript
