import TapeScript.Proofs.Block

set_option autoImplicit false

/-! # Plans

The emitter never writes a move without knowing where the head stands: it goes *to* a cell. A `Plan`
is code in this form, with the cells named by their places on the tape. What commands a plan stands
for depends on where the head is at its start (`Plan.block`); what it does to a tape does not need
the moves at all (`Plan.exec`). The two agree as long as every loop brings the head back to the cell
it tests (`Plan.Returns`, `Plan.exec_block`).
-/

namespace TapeScript

/-- Going to cells, operations, and loops on the cell under the head, in sequence. -/
inductive Plan where
  | done
  | go (cell : Int) (rest : Plan)
  | act (op : Op) (rest : Plan)
  | loop (body rest : Plan)
  deriving DecidableEq

namespace Plan

variable {s : Setting} {fuel : Nat} {t : Tape}

/-- One plan after the other. -/
def append : Plan → Plan → Plan
  | .done, q => q
  | .go cell rest, q => .go cell (rest.append q)
  | .act op rest, q => .act op (rest.append q)
  | .loop body rest, q => .loop body (rest.append q)

instance : Append Plan := ⟨append⟩

@[simp] theorem done_append (q : Plan) : Plan.done ++ q = q := rfl

@[simp] theorem go_append (cell : Int) (p q : Plan) : Plan.go cell p ++ q = .go cell (p ++ q) := rfl

@[simp] theorem act_append (op : Op) (p q : Plan) : Plan.act op p ++ q = .act op (p ++ q) := rfl

@[simp] theorem loop_append (body p q : Plan) : Plan.loop body p ++ q = .loop body (p ++ q) := rfl

@[simp] theorem append_done (p : Plan) : p ++ Plan.done = p := by
  induction p with
  | done => rfl
  | go cell rest ih => rw [go_append, ih]
  | act op rest ih => rw [act_append, ih]
  | loop body rest _ ih => rw [loop_append, ih]

theorem append_assoc (p q r : Plan) : p ++ q ++ r = p ++ (q ++ r) := by
  induction p with
  | done => rfl
  | go cell rest ih => simp only [go_append, ih]
  | act op rest ih => simp only [act_append, ih]
  | loop body rest _ ih => simp only [loop_append, ih]

/-! ## The head -/

/-- Where the head stands after a plan that starts at the given place. -/
def head : Int → Plan → Int
  | h, .done => h
  | _, .go cell rest => rest.head cell
  | h, .act op rest => rest.head (h + op.shift)
  | h, .loop _ rest => rest.head h

/-- Every loop comes back to the cell it tests. -/
def Returns : Int → Plan → Prop
  | _, .done => True
  | _, .go cell rest => rest.Returns cell
  | h, .act op rest => rest.Returns (h + op.shift)
  | h, .loop body rest => body.Returns h ∧ body.head h = h ∧ rest.Returns h

theorem head_append (h : Int) (p q : Plan) : (p ++ q).head h = q.head (p.head h) := by
  induction p generalizing h with
  | done => rfl
  | go cell rest ih => exact ih cell
  | act op rest ih => exact ih (h + op.shift)
  | loop body rest _ ih => exact ih h

theorem returns_append (h : Int) (p q : Plan) :
    (p ++ q).Returns h ↔ p.Returns h ∧ q.Returns (p.head h) := by
  induction p generalizing h with
  | done => simp [Returns, head]
  | go cell rest ih => exact ih cell
  | act op rest ih => exact ih (h + op.shift)
  | loop body rest _ ih =>
    rw [loop_append, Returns, Returns, ih, head]
    tauto

/-! ## Commands -/

/-- Moves from one place to another in front of a block. -/
def travel (src dest : Int) (b : Block) : Block :=
  .act (.right (dest - src).toNat) (.act (.left (src - dest).toNat) b)

/-- The block a plan stands for when the head starts at the given place. -/
def block : Int → Plan → Block
  | _, .done => .done
  | h, .go cell rest => travel h cell (rest.block cell)
  | h, .act op rest => .act op (rest.block (h + op.shift))
  | h, .loop body rest => .loop (body.block h) (rest.block h)

theorem block_append (h : Int) (p q : Plan) :
    (p ++ q).block h = p.block h ++ q.block (p.head h) := by
  induction p generalizing h with
  | done => rfl
  | go cell rest ih => simp only [go_append, block, travel, ih, head, Block.act_append]
  | act op rest ih => simp only [act_append, block, ih, head, Block.act_append]
  | loop body rest _ ih => simp only [loop_append, block, ih, head, Block.loop_append]

/-- The commands of a plan. -/
def code (h : Int) (p : Plan) : Code := (p.block h).code

theorem code_append (h : Int) (p q : Plan) : (p ++ q).code h = p.code h ++ q.code (p.head h) := by
  rw [code, block_append, Block.code_append]
  rfl

/-! ## Meaning -/

/-- Runs a plan: going to a cell takes the head there at once. -/
def exec (s : Setting) (fuel : Nat) : Plan → Tape → Ending
  | .done, t => .halted t
  | .go cell rest, t =>
    if s.holds cell then rest.exec s fuel (t.goto cell) else .offTape t.toSurface
  | .act op rest, t =>
    match op.act s t with
    | some t' => rest.exec s fuel t'
    | none => .offTape t.toSurface
  | .loop body rest, t =>
    (Block.iterate (body.exec s fuel) fuel t).andThen (rest.exec s fuel)

theorem exec_append (s : Setting) (fuel : Nat) (p q : Plan) (t : Tape) :
    (p ++ q).exec s fuel t = (p.exec s fuel t).andThen (q.exec s fuel) := by
  induction p generalizing t with
  | done => rfl
  | go cell rest ih =>
    simp only [go_append, exec]
    split
    · exact ih (t.goto cell)
    · rfl
  | act op rest ih =>
    simp only [act_append, exec]
    cases op.act s t with
    | none => rfl
    | some t' => exact ih t'
  | loop body rest _ ih =>
    simp only [loop_append, exec, Ending.andThen_assoc]
    congr 1
    funext t'
    exact ih t'

/-- A plan that halts leaves the head where it is tracked to be. -/
theorem head_of_exec (p : Plan) {t' : Tape} (hret : p.Returns t.head)
    (h : p.exec s fuel t = .halted t') : t'.head = p.head t.head := by
  induction p generalizing t t' with
  | done => cases h; rfl
  | go cell rest ih =>
    rw [exec] at h
    split at h
    · exact ih (t := t.goto cell) hret h
    · cases h
  | act op rest ih =>
    rw [exec] at h
    cases hop : op.act s t with
    | none => rw [hop] at h; cases h
    | some t1 =>
      rw [hop] at h
      have hhead := Op.head_of_act hop
      rw [Returns, ← hhead] at hret
      rw [head, ← hhead]
      exact ih hret h
  | loop body rest ihb ihr =>
    obtain ⟨hbody, hback, hrest⟩ := hret
    rw [exec] at h
    cases hl : Block.iterate (body.exec s fuel) fuel t with
    | spent => rw [hl] at h; cases h
    | offTape sf => rw [hl] at h; cases h
    | halted t1 =>
      rw [hl] at h
      -- every round ends where it began
      have hsame : t1.head = t.head := by
        refine (Block.of_iterate_halted (fun a => a.head = t.head) ?_ rfl hl).1
        intro a a' ha hround
        rw [ihb (by rw [ha]; exact hbody) hround, ha, hback]
      rw [head, ← hsame]
      exact ihr (by rw [hsame]; exact hrest) h

/-- The moves to a cell do what going there does. -/
theorem exec_travel {b : Block} {cell : Int} (ht : s.holds t.head) :
    (travel t.head cell b).exec s fuel t =
      if s.holds cell then b.exec s fuel (t.goto cell) else .offTape t.toSurface := by
  unfold travel
  simp only [Block.exec, Op.act]
  by_cases hle : t.head ≤ cell
  · have hr : t.head + ((cell - t.head).toNat : Int) = cell := by omega
    have hl : cell - ((t.head - cell).toNat : Int) = cell := by omega
    rw [hr]
    by_cases hc : s.holds cell
    · simp only [if_pos hc, Tape.goto_head, hl, Tape.goto_goto]
    · simp only [if_neg hc]
  · have hr : t.head + ((cell - t.head).toNat : Int) = t.head := by omega
    have hl : t.head - ((t.head - cell).toNat : Int) = cell := by omega
    rw [hr]
    simp only [if_pos ht, Tape.goto_head, hl, Tape.goto_goto]
    by_cases hc : s.holds cell
    · simp only [if_pos hc]
    · simp only [if_neg hc, Tape.goto_self]

/-- **The commands of a plan do what the plan does**, from any tape whose head is where the plan
starts. -/
theorem exec_block (p : Plan) (hret : p.Returns t.head) (ht : s.holds t.head) :
    (p.block t.head).exec s fuel t = p.exec s fuel t := by
  induction p generalizing t with
  | done => rfl
  | go cell rest ih =>
    rw [block, exec_travel ht, exec]
    by_cases hc : s.holds cell
    · rw [if_pos hc, if_pos hc]
      exact ih (t := t.goto cell) hret hc
    · rw [if_neg hc, if_neg hc]
  | act op rest ih =>
    rw [block, Block.exec, exec]
    cases hop : op.act s t with
    | none => rfl
    | some t' =>
      have hhead := Op.head_of_act hop
      rw [Returns, ← hhead] at hret
      have hon : s.holds t'.head := by
        cases op <;> simp only [Op.act] at hop
        case right n => split at hop <;> cases hop; assumption
        case left n => split at hop <;> cases hop; assumption
        all_goals cases hop; exact ht
      simp only
      rw [← hhead]
      exact ih hret hon
  | loop body rest ihb ihr =>
    obtain ⟨hbody, hback, hrest⟩ := hret
    -- all rounds start at the same place, so they run the same block
    have hround : ∀ a a', a.head = t.head → (body.block t.head).exec s fuel a = .halted a' →
        a'.head = t.head := by
      intro a a' ha hexec
      rw [← ha, ihb (by rw [ha]; exact hbody) (by rw [ha]; exact ht)] at hexec
      rw [head_of_exec body (by rw [ha]; exact hbody) hexec, ha, hback]
    have heq : ∀ a, a.head = t.head → (body.block t.head).exec s fuel a = body.exec s fuel a := by
      intro a ha
      rw [← ha]
      exact ihb (by rw [ha]; exact hbody) (by rw [ha]; exact ht)
    rw [block, Block.exec, exec,
      ← Block.iterate_congr (fun a => a.head = t.head) heq hround fuel t rfl]
    cases hl : Block.iterate ((body.block t.head).exec s fuel) fuel t with
    | spent => rfl
    | offTape sf => rfl
    | halted t1 =>
      have hsame : t1.head = t.head :=
        (Block.of_iterate_halted (fun a => a.head = t.head) hround rfl hl).1
      simp only [Ending.halted_andThen]
      rw [← hsame]
      exact ihr (by rw [hsame]; exact hrest) (by rw [hsame]; exact ht)

end Plan

end TapeScript
