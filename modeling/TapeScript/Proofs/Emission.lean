import TapeScript.Emit.Gadget
import TapeScript.Proofs.Gives
import TapeScript.Proofs.Plan

set_option autoImplicit false

/-! # Emitted code follows a plan

The gadgets that need no bodies are sequences of single `Beat`s: going to a cell, a counted command,
a bracket. A sequence of beats succeeds unless a count is too large, and then its code and the
tracked head can be read off (`Emit.gives_beats`). Each gadget is shown to be the beats of its plan;
a gadget with bodies is the beats of its plan around those of the bodies (`Emit.Flat`).
-/

namespace TapeScript

namespace Emit

theorem gives_needDistinct {g : Gadget} {cells : List Int} {w w' : Workbench} {a : Unit} :
    Gives (needDistinct g cells) w a w' ↔ cells.Nodup ∧ w' = w := by
  unfold needDistinct areDistinct
  by_cases h : cells.Nodup <;> simp [h]

end Emit

/-! ## Scratch cells -/

theorem CellTable.take_eq_ok {t t' : CellTable} {cell : Int} :
    t.take = .ok (cell, t') ↔ ∃ rest, t.free = cell :: rest ∧
      t' = { t with free := rest, maxScratch := max t.maxScratch (cell + 1) } := by
  unfold take
  cases t.free with
  | nil => simp
  | cons c rest =>
    simp only [Except.ok.injEq, Prod.mk.injEq, List.cons.injEq]
    constructor
    · rintro ⟨rfl, rfl⟩
      exact ⟨rest, ⟨rfl, rfl⟩, rfl⟩
    · rintro ⟨_, ⟨rfl, rfl⟩, rfl⟩
      exact ⟨rfl, rfl⟩

namespace Emit

variable {w w' : Workbench}

theorem gives_takeScratch {cell : Int} : Gives takeScratch w cell w' ↔
    ∃ rest, w.cells.free = cell :: rest ∧ w' = { w with
      cells := { w.cells with free := rest, maxScratch := max w.cells.maxScratch (cell + 1) }
      log := w.log.push s!"MemoryManager: Temp cell {cell} allocated." } := by
  unfold takeScratch note
  simp only [gives_bind, gives_get, gives_modify, gives_pure, gives_lift]
  constructor
  · rintro ⟨_, _, ⟨rfl, rfl⟩, ⟨c, t⟩, _, ⟨htake, rfl⟩, _, _, rfl, _, _, rfl, rfl, rfl⟩
    obtain ⟨rest, hfree, rfl⟩ := CellTable.take_eq_ok.mp htake
    exact ⟨rest, hfree, rfl⟩
  · rintro ⟨rest, hfree, rfl⟩
    exact ⟨w, w, ⟨rfl, rfl⟩, _, w, ⟨CellTable.take_eq_ok.mpr ⟨rest, hfree, rfl⟩, rfl⟩, (), _, rfl, (),
      _, rfl, rfl, rfl⟩

theorem gives_giveBack {cell : Int} {u : Unit} : Gives (giveBack cell) w u w' ↔
    cell ∉ w.cells.free ∧ cell ∈ w.cells.scratch ∧ w' = { w with
      cells := { w.cells with free := cell :: w.cells.free }
      log := w.log.push s!"MemoryManager: Temp cell {cell} released." } := by
  unfold giveBack note
  simp only [gives_bind, gives_get, gives_modify, gives_lift]
  unfold CellTable.giveBack
  by_cases hfree : cell ∈ w.cells.free
  · simp [hfree]
  · by_cases hscratch : cell ∈ w.cells.scratch
    · simp [hfree, hscratch]
    · simp [hfree, hscratch]

/-! ## Sequences -/

/-- The action is the sequence of the listed ones. -/
def Flat (e : Emit Code) (es : List (Emit Code)) : Prop := e = seq es

theorem seq_append (es fs : List (Emit Code)) :
    seq (es ++ fs) = do
      let a ← seq es
      let b ← seq fs
      return a ++ b := by
  induction es with
  | nil => simp [seq]
  | cons e es ih =>
    simp only [List.cons_append, seq, ih, bind_assoc, pure_bind, List.append_assoc]

theorem Flat.single (e : Emit Code) : Flat e [e] := by
  simp [Flat, seq]

theorem Flat.empty : Flat (pure []) [] := rfl

theorem Flat.nil : Flat (seq []) [] := rfl

theorem Flat.cons {e : Emit Code} {es xs ys : List (Emit Code)} (he : Flat e xs)
    (hes : Flat (seq es) ys) : Flat (seq (e :: es)) (xs ++ ys) := by
  unfold Flat at *
  rw [seq_append, ← he, ← hes]
  rfl

theorem gives_seq_append {es fs : List (Emit Code)} {code : Code} :
    Gives (seq (es ++ fs)) w code w' ↔
      ∃ c1 w1 c2, Gives (seq es) w c1 w1 ∧ Gives (seq fs) w1 c2 w' ∧ code = c1 ++ c2 := by
  rw [seq_append]
  simp only [gives_bind, gives_pure]
  constructor
  · rintro ⟨c1, w1, h1, c2, w2, h2, rfl, rfl⟩
    exact ⟨c1, w1, c2, h1, h2, rfl⟩
  · rintro ⟨c1, w1, c2, h1, h2, rfl⟩
    exact ⟨c1, w1, h1, c2, w', h2, rfl, rfl⟩

end Emit

/-! ## Beats -/

/-- One step of a gadget. -/
inductive Beat where
  | go (cell : Int)
  | act (op : Op)
  | enter
  | leave

namespace Beat

def emit : Beat → Emit Code
  | .go cell => Emit.moveTo cell
  | .act op => do
    modify fun w => { w with head := w.head + op.shift }
    Emit.repeated op.cmd op.count
  | .enter => Emit.one .enter
  | .leave => Emit.one .leave

/-- The commands of a beat when the head starts at the given place. -/
def code (h : Int) : Beat → Code
  | .go cell => (Op.right (cell - h).toNat).code ++ (Op.left (h - cell).toNat).code
  | .act op => op.code
  | .enter => [.enter]
  | .leave => [.leave]

/-- Where the head stands after a beat. -/
def head (h : Int) : Beat → Int
  | .go cell => cell
  | .act op => h + op.shift
  | .enter | .leave => h

/-- The counts of a beat are not too large. -/
def Fits (h : Int) : Beat → Prop
  | .go cell => cell - h < Emit.countBound ∧ h - cell < Emit.countBound
  | .act op => (op.count : Int) < Emit.countBound
  | .enter | .leave => True

end Beat

namespace Emit

theorem countBound_pos : 0 < countBound := by decide

theorem gives_repeated {cmd : Cmd} {n : Int} {w w' : Workbench} {code : Code} :
    Gives (repeated cmd n) w code w' ↔
      -countBound ≤ n ∧ n < countBound ∧ code = List.replicate n.toNat cmd ∧ w' = w := by
  unfold repeated
  by_cases h : n < -countBound ∨ countBound ≤ n
  · simp only [if_pos h, gives_throw, false_iff]
    rintro ⟨h1, h2, -⟩
    omega
  · simp only [if_neg h, gives_pure]
    constructor
    · rintro ⟨rfl, rfl⟩
      exact ⟨by omega, by omega, rfl, rfl⟩
    · rintro ⟨-, -, rfl, rfl⟩
      exact ⟨rfl, rfl⟩

/-- A counted command moves the tracked head by what it moves the head. -/
theorem gives_act {op : Op} {w w' : Workbench} {code : Code} :
    Gives (Beat.act op).emit w code w' ↔
      (op.count : Int) < countBound ∧ code = op.code ∧ w' = { w with head := w.head + op.shift } := by
  have hpos := countBound_pos
  simp only [Beat.emit, gives_bind, gives_modify, gives_repeated]
  constructor
  · rintro ⟨_, _, rfl, -, hlt, rfl, rfl⟩
    exact ⟨hlt, by rw [Int.toNat_natCast]; rfl, rfl⟩
  · rintro ⟨hlt, rfl, rfl⟩
    exact ⟨(), _, rfl, by omega, hlt, by rw [Int.toNat_natCast]; rfl, rfl⟩

end Emit

/-- The operation that moves the head in a direction. -/
def Direction.op (d : Direction) (n : Nat) : Op :=
  match d with
  | .right => .right n
  | .left => .left n

namespace Emit

theorem moveBy_eq (d : Direction) {n : Int} (hn : 0 < n) :
    moveBy d n = (Beat.act (d.op n.toNat)).emit := by
  have hcast : (n.toNat : Int) = n := Int.toNat_of_nonneg (by omega)
  unfold moveBy
  rw [if_neg (by omega)]
  cases d with
  | right => simp [Beat.emit, Direction.op, Op.shift, Op.cmd, Op.count, hcast]
  | left => simp [Beat.emit, Direction.op, Op.shift, Op.cmd, Op.count, hcast, Int.sub_eq_add_neg]

theorem gives_moveTo {cell : Int} {w w' : Workbench} {code : Code} :
    Gives (moveTo cell) w code w' ↔
      (Beat.go cell).Fits w.head ∧ code = (Beat.go cell).code w.head ∧
        w' = { w with head := cell } := by
  have hpos := countBound_pos
  have hget : Gives (moveTo cell) w code w' ↔
      Gives (if 0 < cell - w.head then moveBy .right (cell - w.head)
        else if cell - w.head < 0 then moveBy .left (-(cell - w.head)) else pure []) w code w' := by
    unfold moveTo
    simp only [gives_bind, gives_get]
    constructor
    · rintro ⟨_, _, ⟨rfl, rfl⟩, h⟩
      exact h
    · intro h
      exact ⟨w, w, ⟨rfl, rfl⟩, h⟩
  rw [hget]
  rcases Int.lt_trichotomy cell w.head with hlt | heq | hgt
  · rw [if_neg (by omega), if_pos (by omega), moveBy_eq _ (by omega), gives_act]
    have hright : (cell - w.head).toNat = 0 := by omega
    have hleft : -(cell - w.head) = w.head - cell := by omega
    have hend : w.head + -((w.head - cell).toNat : Int) = cell := by omega
    simp only [Direction.op, Op.count, Op.shift, Beat.Fits, Beat.code, hright, hleft, hend]
    constructor
    · rintro ⟨hfit, rfl, rfl⟩
      exact ⟨⟨by omega, by omega⟩, rfl, rfl⟩
    · rintro ⟨⟨-, hfit⟩, rfl, rfl⟩
      exact ⟨by omega, rfl, rfl⟩
  · subst heq
    rw [if_neg (by omega), if_neg (by omega), gives_pure]
    simp only [Beat.Fits, Beat.code, Int.sub_self]
    constructor
    · rintro ⟨rfl, rfl⟩
      exact ⟨⟨hpos, hpos⟩, rfl, rfl⟩
    · rintro ⟨-, rfl, rfl⟩
      exact ⟨rfl, rfl⟩
  · rw [if_pos (by omega), moveBy_eq _ (by omega), gives_act]
    have hleft : (w.head - cell).toNat = 0 := by omega
    have hend : w.head + ((cell - w.head).toNat : Int) = cell := by omega
    simp only [Direction.op, Op.count, Op.shift, Beat.Fits, Beat.code, hleft, hend]
    constructor
    · rintro ⟨hfit, rfl, rfl⟩
      exact ⟨⟨by omega, by omega⟩, (List.append_nil _).symm, rfl⟩
    · rintro ⟨⟨hfit, -⟩, rfl, rfl⟩
      exact ⟨by omega, List.append_nil _, rfl⟩

theorem gives_beat {b : Beat} {w w' : Workbench} {code : Code} :
    Gives b.emit w code w' ↔
      b.Fits w.head ∧ code = b.code w.head ∧ w' = { w with head := b.head w.head } := by
  cases b with
  | go cell => exact gives_moveTo
  | act op => exact gives_act
  | enter => simp [Beat.emit, one, Beat.Fits, Beat.code, Beat.head]
  | leave => simp [Beat.emit, one, Beat.Fits, Beat.code, Beat.head]

end Emit

/-! ## Sequences of beats -/

namespace Beat

/-- The commands of beats one after the other. -/
def codeAll (h : Int) : List Beat → Code
  | [] => []
  | b :: bs => b.code h ++ codeAll (b.head h) bs

def headAll (h : Int) : List Beat → Int
  | [] => h
  | b :: bs => headAll (b.head h) bs

def FitsAll (h : Int) : List Beat → Prop
  | [] => True
  | b :: bs => b.Fits h ∧ FitsAll (b.head h) bs

theorem codeAll_append (h : Int) (as bs : List Beat) :
    codeAll h (as ++ bs) = codeAll h as ++ codeAll (headAll h as) bs := by
  induction as generalizing h with
  | nil => rfl
  | cons a as ih => simp only [List.cons_append, codeAll, headAll, ih, List.append_assoc]

theorem headAll_append (h : Int) (as bs : List Beat) :
    headAll h (as ++ bs) = headAll (headAll h as) bs := by
  induction as generalizing h with
  | nil => rfl
  | cons a as ih => exact ih (a.head h)

theorem fitsAll_append (h : Int) (as bs : List Beat) :
    FitsAll h (as ++ bs) ↔ FitsAll h as ∧ FitsAll (headAll h as) bs := by
  induction as generalizing h with
  | nil => simp [FitsAll, headAll]
  | cons a as ih => simp only [List.cons_append, FitsAll, headAll, ih, and_assoc]

end Beat

/-- The code of beats, or a fault if a count is too large. -/
theorem Emit.gives_beats {bs : List Beat} {w w' : Workbench} {code : Code} :
    Gives (Emit.seq (bs.map Beat.emit)) w code w' ↔
      Beat.FitsAll w.head bs ∧ code = Beat.codeAll w.head bs ∧
        w' = { w with head := Beat.headAll w.head bs } := by
  induction bs generalizing w w' code with
  | nil => simp [Emit.seq, Beat.FitsAll, Beat.codeAll, Beat.headAll]
  | cons b bs ih =>
    simp only [List.map_cons, Emit.seq, gives_bind, gives_pure, Emit.gives_beat, ih,
      Beat.FitsAll, Beat.codeAll, Beat.headAll]
    constructor
    · rintro ⟨_, _, ⟨hfit, rfl, rfl⟩, _, _, ⟨hfits, rfl, rfl⟩, rfl, rfl⟩
      exact ⟨⟨hfit, hfits⟩, rfl, rfl⟩
    · rintro ⟨⟨hfit, hfits⟩, rfl, rfl⟩
      exact ⟨_, _, ⟨hfit, rfl, rfl⟩, _, _, ⟨hfits, rfl, rfl⟩, rfl, rfl⟩

/-! ## The beats of a plan -/

namespace Plan

variable {p : Plan}

def beats : Plan → List Beat
  | .done => []
  | .go cell rest => .go cell :: rest.beats
  | .act op rest => .act op :: rest.beats
  | .loop body rest => .enter :: body.beats ++ .leave :: rest.beats

@[simp] theorem beats_append (p q : Plan) : (p ++ q).beats = p.beats ++ q.beats := by
  induction p with
  | done => rfl
  | go cell rest ih => rw [go_append, beats, beats, ih]; rfl
  | act op rest ih => rw [act_append, beats, beats, ih]; rfl
  | loop body rest _ ih => rw [loop_append, beats, beats, ih]; simp

theorem headAll_beats {h : Int} (hret : p.Returns h) : Beat.headAll h p.beats = p.head h := by
  induction p generalizing h with
  | done => rfl
  | go cell rest ih => exact ih hret
  | act op rest ih => exact ih hret
  | loop body rest ihb ihr =>
    obtain ⟨hbody, hback, hrest⟩ := hret
    rw [beats, Beat.headAll_append]
    simp only [Beat.headAll, Beat.head]
    rw [ihb hbody, hback, ihr hrest]
    rfl

/-- The beats of a plan give its commands. -/
theorem codeAll_beats {h : Int} (hret : p.Returns h) : Beat.codeAll h p.beats = p.code h := by
  induction p generalizing h with
  | done => rfl
  | go cell rest ih =>
    rw [beats, Beat.codeAll, show Beat.head h (.go cell) = cell from rfl, ih hret]
    simp only [code, block, travel, Block.code, Beat.code, List.append_assoc]
  | act op rest ih =>
    rw [beats, Beat.codeAll, show Beat.head h (.act op) = h + op.shift from rfl, ih hret]
    rfl
  | loop body rest ihb ihr =>
    obtain ⟨hbody, hback, hrest⟩ := hret
    rw [beats, Beat.codeAll_append]
    simp only [Beat.codeAll, Beat.headAll, Beat.head, Beat.code]
    rw [headAll_beats hbody, hback, ihb hbody, ihr hrest]
    simp [code, block, Block.code]

/-- The plan spells code that takes the head from one place to another. -/
structure Spells (p : Plan) (h : Int) (code : Code) (h' : Int) : Prop where
  returns : p.Returns h
  code_eq : code = p.code h
  head_eq : h' = p.head h

theorem spells_done (h : Int) : Spells .done h [] h := ⟨trivial, rfl, rfl⟩

theorem Spells.append {q : Plan} {h1 h2 h3 : Int} {c d : Code} (hp : p.Spells h1 c h2)
    (hq : q.Spells h2 d h3) : (p ++ q).Spells h1 (c ++ d) h3 := by
  obtain ⟨hret, rfl, rfl⟩ := hp
  obtain ⟨hret', rfl, rfl⟩ := hq
  refine ⟨(returns_append _ p q).mpr ⟨hret, hret'⟩, ?_, ?_⟩
  · rw [code_append]
  · rw [head_append]

end Plan

end TapeScript
