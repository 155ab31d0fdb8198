import TapeScript.Proofs.Emission

set_option autoImplicit false

/-! # The plans of the gadgets

The plan of each gadget, in terms of smaller ones, and the proof that the gadget emits it
(`Emit.Scripted`). A gadget checks first that its cells are distinct; behind that check the checks
of the gadgets it is made of cannot fail.
-/

namespace TapeScript

namespace Plan

/-! ## Plans -/

def clear (cell : Int) : Plan := .go cell (.loop (.act (.dec 1) .done) .done)

def setCell (cell : Int) (value : Nat) : Plan := clear cell ++ .go cell (.act (.inc value) .done)

/-- Repeats a plan while the cell is not zero. -/
def loopAt (cell : Int) (body : Plan) : Plan := .go cell (.loop (body ++ .go cell .done) .done)

def moveCell (src dest : Int) : Plan :=
  clear dest ++ loopAt src (.act (.dec 1) (.go dest (.act (.inc 1) .done)))

def copy (src dest temp : Int) : Plan :=
  clear dest ++ clear temp ++
    loopAt src (.act (.dec 1) (.go dest (.act (.inc 1) (.go temp (.act (.inc 1) .done))))) ++
    loopAt temp (.act (.dec 1) (.go src (.act (.inc 1) .done)))

/-- A branch of a decision, which ends by clearing both scratch cells. -/
def once (body : Plan) (temp1 temp2 : Int) : Plan := body ++ clear temp1 ++ clear temp2

def branch (cell : Int) (body otherwise : Plan) (temp1 temp2 : Int) : Plan :=
  copy cell temp2 temp1 ++ setCell temp1 1 ++ loopAt temp2 (once body temp1 temp2) ++
    loopAt temp1 (once otherwise temp1 temp2)

def combine (op : Op) (src1 src2 dest temp1 temp2 : Int) : Plan :=
  clear dest ++ copy src1 dest temp1 ++ copy src2 temp2 temp1 ++
    .go temp2 (.loop (.go dest (.act op (.go temp2 (.act (.dec 1) .done)))) .done)

def equal (src1 src2 dest temp1 temp2 : Int) : Plan :=
  combine (.dec 1) src1 src2 temp1 dest temp2 ++ setCell dest 1 ++
    loopAt temp1 (clear temp1 ++ clear dest)

def notEqual (src1 src2 dest temp1 temp2 : Int) : Plan :=
  combine (.dec 1) src1 src2 temp1 dest temp2 ++ clear dest ++
    loopAt temp1 (clear temp1 ++ setCell dest 1)

/-- One round of counting two cells down together. -/
def countBoth (dest temp1 temp2 temp3 temp4 : Int) : Plan :=
  branch temp2 .done (clear temp1 ++ setCell dest 1) temp3 temp4 ++
    branch temp1 (.go temp1 (.act (.dec 1) (.go temp2 (.act (.dec 1) .done)))) .done temp3 temp4

def greater (src1 src2 dest temp1 temp2 temp3 temp4 : Int) : Plan :=
  clear dest ++ copy src1 temp1 temp3 ++ copy src2 temp2 temp3 ++
    loopAt temp1 (countBoth dest temp1 temp2 temp3 temp4)

def negate (src dest temp1 temp2 : Int) : Plan :=
  copy src temp1 temp2 ++ setCell dest 1 ++ loopAt temp1 (clear temp1 ++ clear dest)

def lessOrEqual (src1 src2 dest temp1 temp2 temp3 temp4 : Int) : Plan :=
  greater src1 src2 temp1 temp2 temp3 temp4 dest ++ negate temp1 dest temp2 temp3

/-! ## Where the plans leave the head

Every gadget starts by going to a cell, so where the head comes from does not matter. -/

@[simp] theorem head_clear (h cell : Int) : (clear cell).head h = cell := rfl

@[simp] theorem returns_clear (h cell : Int) : (clear cell).Returns h :=
  ⟨trivial, Int.add_zero cell, trivial⟩

@[simp] theorem head_setCell (h cell : Int) (value : Nat) : (setCell cell value).head h = cell := by
  simp [setCell, head_append, head, Op.shift]

@[simp] theorem returns_setCell (h cell : Int) (value : Nat) : (setCell cell value).Returns h := by
  simp [setCell, returns_append, Returns]

@[simp] theorem head_loopAt (h cell : Int) (body : Plan) : (loopAt cell body).head h = cell := rfl

@[simp] theorem returns_loopAt (h cell : Int) (body : Plan) :
    (loopAt cell body).Returns h ↔ body.Returns cell := by
  simp [loopAt, Returns, returns_append, head_append, head]

@[simp] theorem returns_moveCell (h src dest : Int) : (moveCell src dest).Returns h := by
  simp [moveCell, returns_append, Returns]

@[simp] theorem head_copy (h src dest temp : Int) : (copy src dest temp).head h = temp := by
  simp [copy, head_append]

@[simp] theorem returns_copy (h src dest temp : Int) : (copy src dest temp).Returns h := by
  simp [copy, returns_append, Returns]

@[simp] theorem returns_once (h : Int) (body : Plan) (temp1 temp2 : Int) :
    (once body temp1 temp2).Returns h ↔ body.Returns h := by
  simp [once, returns_append]

@[simp] theorem head_branch (h cell : Int) (body otherwise : Plan) (temp1 temp2 : Int) :
    (branch cell body otherwise temp1 temp2).head h = temp1 := by
  simp [branch, head_append]

@[simp] theorem returns_branch (h cell : Int) (body otherwise : Plan) (temp1 temp2 : Int) :
    (branch cell body otherwise temp1 temp2).Returns h ↔
      body.Returns temp2 ∧ otherwise.Returns temp1 := by
  simp [branch, returns_append]

@[simp] theorem returns_combine (h : Int) (op : Op) (src1 src2 dest temp1 temp2 : Int) :
    (combine op src1 src2 dest temp1 temp2).Returns h := by
  simp [combine, returns_append, Returns, head, Op.shift]

@[simp] theorem returns_equal (h src1 src2 dest temp1 temp2 : Int) :
    (equal src1 src2 dest temp1 temp2).Returns h := by
  simp [equal, returns_append]

@[simp] theorem returns_notEqual (h src1 src2 dest temp1 temp2 : Int) :
    (notEqual src1 src2 dest temp1 temp2).Returns h := by
  simp [notEqual, returns_append]

@[simp] theorem head_greater (h src1 src2 dest temp1 temp2 temp3 temp4 : Int) :
    (greater src1 src2 dest temp1 temp2 temp3 temp4).head h = temp1 := by
  simp [greater, head_append]

@[simp] theorem returns_greater (h src1 src2 dest temp1 temp2 temp3 temp4 : Int) :
    (greater src1 src2 dest temp1 temp2 temp3 temp4).Returns h := by
  simp [greater, countBoth, returns_append, Returns]

@[simp] theorem returns_negate (h src dest temp1 temp2 : Int) :
    (negate src dest temp1 temp2).Returns h := by
  simp [negate, returns_append]

@[simp] theorem returns_lessOrEqual (h src1 src2 dest temp1 temp2 temp3 temp4 : Int) :
    (lessOrEqual src1 src2 dest temp1 temp2 temp3 temp4).Returns h := by
  simp [lessOrEqual, returns_append]

end Plan

namespace Emit

variable {e body : Emit Code} {p : Plan} {w w' : Workbench} {code : Code}
  {src dest temp1 temp2 src1 src2 temp3 temp4 : Int}

/-! ## Scripts -/

/-- The action emits the beats in turn. -/
def Scripted (e : Emit Code) (bs : List Beat) : Prop := Flat e (bs.map Beat.emit)

theorem Scripted.nil : Scripted (seq []) [] := Flat.nil

theorem Scripted.cons {es : List (Emit Code)} {as bs : List Beat} (he : Scripted e as)
    (hes : Scripted (seq es) bs) : Scripted (seq (e :: es)) (as ++ bs) := by
  unfold Scripted
  rw [List.map_append]
  exact Flat.cons he hes

theorem Scripted.pair {f : Emit Code} {q : Plan} (he : Scripted e p.beats) (hf : Scripted f q.beats) :
    Scripted (seq [e, f]) (p ++ q).beats := by
  rw [Plan.beats_append, ← List.append_nil q.beats]
  exact he.cons (hf.cons .nil)

theorem Scripted.empty : Scripted (pure []) [] := Flat.empty

/-- An action that emits the beats of a plan spells its code, and changes nothing else. -/
theorem Scripted.spells (hs : Scripted e p.beats) (hret : ∀ h, p.Returns h) (h : Gives e w code w') :
    p.Spells w.head code w'.head ∧ w' = { w with head := w'.head } := by
  rw [show e = seq (p.beats.map Beat.emit) from hs, gives_beats] at h
  obtain ⟨-, rfl, rfl⟩ := h
  exact ⟨⟨hret _, Plan.codeAll_beats (hret _), Plan.headAll_beats (hret _)⟩, rfl⟩

theorem scripted_beat (b : Beat) : Scripted b.emit [b] := Flat.single b.emit

theorem scripted_moveTo (cell : Int) : Scripted (moveTo cell) [.go cell] := scripted_beat (.go cell)

theorem scripted_enter : Scripted (one .enter) [.enter] := scripted_beat .enter

theorem scripted_leave : Scripted (one .leave) [.leave] := scripted_beat .leave

/-- Operations that do not move the head are emitted as they are. -/
theorem emit_act_of_still {op : Op} (h : op.shift = 0) :
    (Beat.act op).emit = repeated op.cmd op.count := by
  simp only [Beat.emit, h, Int.add_zero]
  rfl

/-- A single command that does not move the head. -/
theorem scripted_one (op : Op) (hshift : op.shift = 0) (hcount : op.count = 1) :
    Scripted (one op.cmd) [.act op] := by
  have hemit : (Beat.act op).emit = one op.cmd := by
    rw [emit_act_of_still hshift, hcount]
    rfl
  rw [← hemit]
  exact scripted_beat (.act op)

theorem scripted_inc : Scripted (one .inc) [.act (.inc 1)] := scripted_one (.inc 1) rfl rfl

theorem scripted_dec : Scripted (one .dec) [.act (.dec 1)] := scripted_one (.dec 1) rfl rfl

theorem scripted_plus {value : Int} (h : 0 ≤ value) :
    Scripted (plus value) [.act (.inc value.toNat)] := by
  have hemit : (Beat.act (.inc value.toNat)).emit = plus value := by
    rw [emit_act_of_still rfl]
    show repeated .inc (value.toNat : Int) = repeated .inc value
    rw [Int.toNat_of_nonneg h]
  rw [← hemit]
  exact scripted_beat _

/-! ## Loops and single cells -/

theorem scripted_loop (cell : Int) (hbody : Scripted body p.beats) :
    Scripted (loop cell body) (Plan.loopAt cell p).beats := by
  unfold loop
  have h := (scripted_moveTo cell).cons (scripted_enter.cons (hbody.cons
    ((scripted_moveTo cell).cons (scripted_leave.cons .nil))))
  simpa [Plan.loopAt, Plan.beats] using h

theorem scripted_clear (cell : Int) : Scripted (clear cell) (Plan.clear cell).beats :=
  (scripted_moveTo cell).cons (scripted_enter.cons (scripted_dec.cons (scripted_leave.cons .nil)))

theorem scripted_setCell (cell : Int) {value : Int} (h : 0 ≤ value) :
    Scripted (setCell cell value) (Plan.setCell cell value.toNat).beats := by
  unfold setCell
  rw [if_neg (by omega)]
  have h := (scripted_clear cell).cons ((scripted_moveTo cell).cons ((scripted_plus h).cons .nil))
  simpa [Plan.setCell, Plan.beats] using h

theorem scripted_moveCell (h : src ≠ dest) :
    Scripted (moveCell src dest) (Plan.moveCell src dest).beats := by
  unfold moveCell
  rw [if_neg h]
  have h := (scripted_clear dest).cons ((scripted_moveTo src).cons (scripted_enter.cons
    (scripted_dec.cons ((scripted_moveTo dest).cons (scripted_inc.cons ((scripted_moveTo src).cons
      (scripted_leave.cons .nil)))))))
  simpa [Plan.moveCell, Plan.loopAt, Plan.beats] using h

/-! ## Gadgets with distinct cells -/

theorem needDistinct_bind {g : Gadget} {cells : List Int} (h : cells.Nodup) (f : Unit → Emit Code) :
    (needDistinct g cells >>= f) = f () := by
  unfold needDistinct areDistinct
  rw [decide_eq_true h]
  simp

theorem scripted_copy {temp : Int} (h : [src, dest, temp].Nodup) :
    Scripted (copy src dest temp) (Plan.copy src dest temp).beats := by
  unfold copy
  rw [needDistinct_bind h]
  have h := (scripted_clear dest).cons ((scripted_clear temp).cons
    ((scripted_moveTo src).cons (scripted_enter.cons (scripted_dec.cons
      ((scripted_moveTo dest).cons (scripted_inc.cons ((scripted_moveTo temp).cons
        (scripted_inc.cons ((scripted_moveTo src).cons (scripted_leave.cons
          ((scripted_moveTo temp).cons (scripted_enter.cons (scripted_dec.cons
            ((scripted_moveTo src).cons (scripted_inc.cons ((scripted_moveTo temp).cons
              (scripted_leave.cons .nil)))))))))))))))))
  simpa [Plan.copy, Plan.loopAt, Plan.beats] using h

theorem scripted_once {inner : Emit Code} (h : Scripted inner p.beats) (temp1 temp2 : Int) :
    Scripted (seq [inner, clear temp1, clear temp2]) (Plan.once p temp1 temp2).beats := by
  have h := h.cons ((scripted_clear temp1).cons ((scripted_clear temp2).cons .nil))
  simpa [Plan.once] using h

theorem scripted_branch {cell : Int} {otherwise : Emit Code} {q : Plan}
    (h : [cell, temp1, temp2].Nodup) (hbody : Scripted body p.beats)
    (hotherwise : Scripted otherwise q.beats) :
    Scripted (branch cell body (some otherwise) temp1 temp2)
      (Plan.branch cell p q temp1 temp2).beats := by
  unfold branch
  rw [needDistinct_bind h]
  have hcopy : [cell, temp2, temp1].Nodup := by grind
  have h := (scripted_copy hcopy).cons ((scripted_setCell temp1 Int.one_nonneg).cons
    ((scripted_loop temp2 (scripted_once hbody temp1 temp2)).cons
      ((scripted_loop temp1 (scripted_once hotherwise temp1 temp2)).cons .nil)))
  simpa [Plan.branch] using h

theorem scripted_combine {cmd : Cmd} {op : Op} (hop : Scripted (one cmd) [.act op])
    (h : [src1, src2, dest, temp1, temp2].Nodup) :
    Scripted (combine cmd src1 src2 dest temp1 temp2)
      (Plan.combine op src1 src2 dest temp1 temp2).beats := by
  unfold combine
  have h1 : [src1, dest, temp1].Nodup := by grind
  have h2 : [src2, temp2, temp1].Nodup := by grind
  have h := (scripted_clear dest).cons ((scripted_copy h1).cons ((scripted_copy h2).cons
    ((scripted_moveTo temp2).cons (scripted_enter.cons ((scripted_moveTo dest).cons (hop.cons
      ((scripted_moveTo temp2).cons (scripted_dec.cons (scripted_leave.cons .nil)))))))))
  simpa [Plan.combine, Plan.beats] using h

theorem scripted_add (h : [src1, src2, dest, temp1, temp2].Nodup) :
    Scripted (add src1 src2 dest temp1 temp2)
      (Plan.combine (.inc 1) src1 src2 dest temp1 temp2).beats := by
  unfold add
  rw [needDistinct_bind h]
  exact scripted_combine scripted_inc h

theorem scripted_subtract (h : [src1, src2, dest, temp1, temp2].Nodup) :
    Scripted (subtract src1 src2 dest temp1 temp2)
      (Plan.combine (.dec 1) src1 src2 dest temp1 temp2).beats := by
  unfold subtract
  rw [needDistinct_bind h]
  exact scripted_combine scripted_dec h

theorem scripted_equal (h : [src1, src2, dest, temp1, temp2].Nodup) :
    Scripted (equal src1 src2 dest temp1 temp2)
      (Plan.equal src1 src2 dest temp1 temp2).beats := by
  unfold equal
  rw [needDistinct_bind h]
  have hsub : [src1, src2, temp1, dest, temp2].Nodup := by grind
  have hbody := (scripted_clear temp1).pair (scripted_clear dest)
  have h := (scripted_subtract hsub).cons ((scripted_setCell dest Int.one_nonneg).cons
    ((scripted_loop temp1 hbody).cons .nil))
  simpa [Plan.equal] using h

theorem scripted_notEqual (h : [src1, src2, dest, temp1, temp2].Nodup) :
    Scripted (notEqual src1 src2 dest temp1 temp2)
      (Plan.notEqual src1 src2 dest temp1 temp2).beats := by
  unfold notEqual
  rw [needDistinct_bind h]
  have hsub : [src1, src2, temp1, dest, temp2].Nodup := by grind
  have hbody := (scripted_clear temp1).pair (scripted_setCell dest Int.one_nonneg)
  have h := (scripted_subtract hsub).cons ((scripted_clear dest).cons
    ((scripted_loop temp1 hbody).cons .nil))
  simpa [Plan.notEqual] using h

theorem scripted_greater (h : [src1, src2, dest, temp1, temp2, temp3, temp4].Nodup) :
    Scripted (greater src1 src2 dest temp1 temp2 temp3 temp4)
      (Plan.greater src1 src2 dest temp1 temp2 temp3 temp4).beats := by
  unfold greater
  rw [needDistinct_bind h]
  have hcopy1 : [src1, temp1, temp3].Nodup := by grind
  have hcopy2 : [src2, temp2, temp3].Nodup := by grind
  have hbranch1 : [temp2, temp3, temp4].Nodup := by grind
  have hbranch2 : [temp1, temp3, temp4].Nodup := by grind
  have hwon := (scripted_clear temp1).pair (scripted_setCell dest Int.one_nonneg)
  have hdown : Scripted (seq [moveTo temp1, one .dec, moveTo temp2, one .dec])
      (Plan.go temp1 (.act (.dec 1) (.go temp2 (.act (.dec 1) .done)))).beats :=
    (scripted_moveTo temp1).cons (scripted_dec.cons ((scripted_moveTo temp2).cons
      (scripted_dec.cons .nil)))
  have hempty : Scripted (pure []) Plan.done.beats := Scripted.empty
  have hbody := (scripted_branch hbranch1 hempty hwon).pair (scripted_branch hbranch2 hdown hempty)
  have h := (scripted_clear dest).cons ((scripted_copy hcopy1).cons ((scripted_copy hcopy2).cons
    ((scripted_loop temp1 hbody).cons .nil)))
  simpa [Plan.greater, Plan.countBoth] using h

theorem scripted_negate (h : [src, dest, temp1, temp2].Nodup) :
    Scripted (negate src dest temp1 temp2) (Plan.negate src dest temp1 temp2).beats := by
  unfold negate
  rw [needDistinct_bind h]
  have hcopy : [src, temp1, temp2].Nodup := by grind
  have hbody := (scripted_clear temp1).pair (scripted_clear dest)
  have h := (scripted_copy hcopy).cons ((scripted_setCell dest Int.one_nonneg).cons
    ((scripted_loop temp1 hbody).cons .nil))
  simpa [Plan.negate] using h

theorem scripted_less (h : [src1, src2, dest, temp1, temp2, temp3, temp4].Nodup) :
    Scripted (less src1 src2 dest temp1 temp2 temp3 temp4)
      (Plan.greater src2 src1 dest temp1 temp2 temp3 temp4).beats := by
  unfold less
  rw [needDistinct_bind h]
  exact scripted_greater (by grind)

theorem scripted_lessOrEqual (h : [src1, src2, dest, temp1, temp2, temp3, temp4].Nodup) :
    Scripted (lessOrEqual src1 src2 dest temp1 temp2 temp3 temp4)
      (Plan.lessOrEqual src1 src2 dest temp1 temp2 temp3 temp4).beats := by
  unfold lessOrEqual
  rw [needDistinct_bind h]
  have hgreater : [src1, src2, temp1, temp2, temp3, temp4, dest].Nodup := by grind
  have hnegate : [temp1, dest, temp2, temp3].Nodup := by grind
  have h := (scripted_greater hgreater).cons ((scripted_negate hnegate).cons .nil)
  simpa [Plan.lessOrEqual] using h

theorem scripted_greaterOrEqual (h : [src1, src2, dest, temp1, temp2, temp3, temp4].Nodup) :
    Scripted (greaterOrEqual src1 src2 dest temp1 temp2 temp3 temp4)
      (Plan.lessOrEqual src2 src1 dest temp1 temp2 temp3 temp4).beats := by
  unfold greaterOrEqual
  rw [needDistinct_bind h]
  exact scripted_lessOrEqual (by grind)

/-! ## Gadgets around bodies -/

/-- The code of a loop around a body that has run at the cell. -/
theorem gives_loop {cell : Int} :
    Gives (loop cell body) w code w' ↔
      ∃ inner w1, (Beat.go cell).Fits w.head ∧ Gives body { w with head := cell } inner w1 ∧
        (Beat.go cell).Fits w1.head ∧ w' = { w1 with head := cell } ∧
        code = (Beat.go cell).code w.head ++
          .enter :: (inner ++ (Beat.go cell).code w1.head) ++ [.leave] := by
  have hsplit : loop cell body = seq ([Beat.go cell, .enter].map Beat.emit ++
      ([body] ++ [Beat.go cell, .leave].map Beat.emit)) := rfl
  have hbody : seq [body] = body := (Flat.single body).symm
  rw [hsplit]
  simp only [gives_seq_append, gives_beats, hbody]
  constructor
  · rintro ⟨_, _, _, ⟨⟨hfit, -⟩, rfl, rfl⟩, ⟨inner, w1, _, hinner, ⟨⟨hfit1, -⟩, rfl, rfl⟩, rfl⟩, rfl⟩
    exact ⟨inner, w1, hfit, hinner, hfit1, rfl, by simp [Beat.codeAll, Beat.code]⟩
  · rintro ⟨inner, w1, hfit, hinner, hfit1, rfl, rfl⟩
    refine ⟨_, _, _, ⟨⟨hfit, trivial, trivial⟩, rfl, rfl⟩, ⟨inner, w1, _, hinner,
      ⟨⟨hfit1, trivial, trivial⟩, rfl, rfl⟩, rfl⟩, ?_⟩
    simp [Beat.codeAll, Beat.code]

/-- A loop on a condition evaluates it once before and once in every round. -/
theorem loopWhile_eq (condition : Int → Emit Code) (body : Emit Code) (cell : Int) :
    loopWhile condition body cell
      = seq [condition cell, loop cell (seq [body, condition cell])] := by
  simp [loopWhile, loop, seq, one]

/-- A gadget that succeeds was given distinct cells, and emitted its plan. -/
theorem gives_gadget {g : Gadget} {cells : List Int} {f : Unit → Emit Code}
    (he : e = needDistinct g cells >>= f) (hs : cells.Nodup → Scripted e p.beats)
    (hret : ∀ h, p.Returns h) (h : Gives e w code w') :
    cells.Nodup ∧ p.Spells w.head code w'.head ∧ w' = { w with head := w'.head } := by
  have hcells : cells.Nodup := by
    rw [he, gives_bind] at h
    obtain ⟨_, _, hcheck, -⟩ := h
    exact (gives_needDistinct.mp hcheck).1
  exact ⟨hcells, (hs hcells).spells hret h⟩

end Emit

namespace Plan

theorem code_loopAt (h cell : Int) (body : Plan) :
    (loopAt cell body).code h = (Beat.go cell).code h ++
      .enter :: (body.code cell ++ (Beat.go cell).code (body.head cell)) ++ [.leave] := by
  simp only [loopAt, code, block, travel, Block.code, block_append, Block.code_append, Beat.code]
  simp

end Plan

/-- The plan of a loop is that of its body, around which it goes to the cell. -/
theorem Emit.spells_loop {cell : Int} {body : Emit Code} {w w' : Workbench} {code : Code}
    (h : Gives (loop cell body) w code w') :
    ∃ inner w1, Gives body { w with head := cell } inner w1 ∧ w' = { w1 with head := cell } ∧
      ∀ p : Plan, p.Spells cell inner w1.head → (Plan.loopAt cell p).Spells w.head code w'.head := by
  obtain ⟨inner, w1, -, hinner, -, rfl, rfl⟩ := gives_loop.mp h
  refine ⟨inner, w1, hinner, rfl, ?_⟩
  rintro p ⟨hret, rfl, hhead⟩
  exact ⟨(Plan.returns_loopAt _ _ _).mpr hret, by rw [Plan.code_loopAt, hhead], rfl⟩

end TapeScript
