import TapeScript.Proofs.Block

set_option autoImplicit false

/-! # Hosts of blocks

A block can be executed in more than one way: instruction by instruction of a linked program, or
character by character of a text. A `Host` is a transition system in which a block has a place, and
`Host.Runs` says that the steps of the host between two places do what the block says. Such a host
follows the meaning of the block (`Host.Runs.follows`), and an evaluator of the host gives every
ending of the block and no other (`Host.Observed.eval_iff`).
-/

namespace TapeScript

/-- A transition system that executes blocks. Where the block leaves the tape the host does so too
only if their tapes end at the same place (`sameTape`). -/
structure Host (σ : Type) where
  step : σ → σ → Prop
  off : σ → Surface → Prop
  stands : Nat → Tape → σ → Prop
  sameTape : Prop

namespace Host

variable {σ : Type} {H : Host σ} {s : Setting}
variable {k fuel : Nat} {e : Ending}

/-- So many steps lead from one state to the other. -/
inductive Steps (H : Host σ) : Nat → σ → σ → Prop where
  | refl (x : σ) : Steps H 0 x x
  | step {n : Nat} {x y z : σ} (hstep : H.step x y) (hrest : Steps H n y z) : Steps H (n + 1) x z

theorem Steps.trans {j : Nat} {x y z : σ} (h1 : H.Steps j x y) (h2 : H.Steps k y z) :
    H.Steps (j + k) x z := by
  induction h1 with
  | refl x => rw [Nat.zero_add]; exact h2
  | step hstep _ ih => rw [Nat.add_right_comm]; exact .step hstep (ih h2)

theorem Steps.one {x y : σ} (h : H.step x y) : H.Steps 1 x y := .step h (.refl y)

/-- A place where the value under the head is tested: on zero the host goes on at `exit`, and
otherwise at `again`. -/
def Tests (H : Host σ) (place again exit : Nat) : Prop :=
  ∀ x t, H.stands place t x →
    ∃ n y, 0 < n ∧ H.Steps n x y ∧ H.stands (if t.current = 0 then exit else again) t y

/-- The steps between two places do what the block says. -/
inductive Runs (H : Host σ) (s : Setting) : Nat → Block → Nat → Prop where
  | done {k k' : Nat} (hskip : ∀ x t, H.stands k t x → ∃ n y, H.Steps n x y ∧ H.stands k' t y) :
      Runs H s k .done k'
  | act {k k1 k' : Nat} {op : Op} {rest : Block}
      (hact : ∀ x t t', H.stands k t x → op.act s t = some t' →
        ∃ n y, H.Steps n x y ∧ H.stands k1 t' y)
      (hoff : ∀ x t, H.stands k t x → op.act s t = none → H.sameTape →
        ∃ n y, H.Steps n x y ∧ H.off y t.toSurface)
      (hrest : Runs H s k1 rest k') : Runs H s k (.act op rest) k'
  | loop {k kb j k1 k' : Nat} {body rest : Block} (hopen : H.Tests k kb k1)
      (hbody : Runs H s kb body j) (hclose : H.Tests j kb k1) (hrest : Runs H s k1 rest k') :
      Runs H s k (.loop body rest) k'

/-! ## Following a block -/

/-- How a host follows an ending: it gets to the place behind the block with the same tape, or
leaves the tape where the block does, or makes at least as many steps as there is fuel. -/
def Follows (H : Host σ) (fuel k : Nat) (x : σ) : Ending → Prop
  | .halted t => ∃ n y, H.Steps n x y ∧ H.stands k t y
  | .offTape sf => H.sameTape → ∃ n y, H.Steps n x y ∧ H.off y sf
  | .spent => ∃ n y, fuel ≤ n ∧ H.Steps n x y

/-- Steps in front of a host that follows count for the fuel. -/
theorem Follows.of_steps {n : Nat} {x y : σ} (hs : H.Steps n x y) (h : H.Follows fuel k y e) :
    H.Follows (n + fuel) k x e := by
  cases e with
  | halted t =>
    obtain ⟨l, z, hl, hz⟩ := h
    exact ⟨_, z, hs.trans hl, hz⟩
  | offTape sf =>
    intro hsame
    obtain ⟨l, z, hl, hz⟩ := h hsame
    exact ⟨_, z, hs.trans hl, hz⟩
  | spent =>
    obtain ⟨l, z, hle, hl⟩ := h
    exact ⟨_, z, by omega, hs.trans hl⟩

theorem Follows.mono {fuel' : Nat} {x : σ} (hle : fuel' ≤ fuel) (h : H.Follows fuel k x e) :
    H.Follows fuel' k x e := by
  cases e with
  | halted t => exact h
  | offTape sf => exact h
  | spent =>
    obtain ⟨n, y, hn, hs⟩ := h
    exact ⟨n, y, by omega, hs⟩

/-- A host that follows one ending and then what comes after it. -/
theorem Follows.andThen {k' : Nat} {x : σ} {next : Tape → Ending} (h : H.Follows fuel k x e)
    (hnext : ∀ y t, H.stands k t y → H.Follows fuel k' y (next t)) :
    H.Follows fuel k' x (e.andThen next) := by
  cases e with
  | halted t =>
    obtain ⟨n, y, hs, hy⟩ := h
    exact ((hnext y t hy).of_steps hs).mono (by omega)
  | offTape sf => exact h
  | spent => exact h

/-- The rounds of a loop. Both brackets make the same test, so a round may start at either; each
round takes a step, which pays for its fuel. -/
theorem follows_iterate {kb j k1 : Nat} {body : Block} (hopen : H.Tests k kb k1)
    (hclose : H.Tests j kb k1)
    (hbody : ∀ x t, H.stands kb t x → H.Follows fuel j x (body.exec s fuel t)) :
    ∀ n ≤ fuel, ∀ i x t, i = k ∨ i = j → H.stands i t x →
      H.Follows n k1 x (Block.iterate (body.exec s fuel) n t) := by
  intro n
  induction n with
  | zero => intro _ i x t _ _; exact ⟨0, x, Nat.le_refl 0, .refl x⟩
  | succ n ih =>
    intro hn i x t hi hx
    obtain ⟨l, y, hl, hs, hy⟩ : ∃ l y, 0 < l ∧ H.Steps l x y ∧
        H.stands (if t.current = 0 then k1 else kb) t y := by
      rcases hi with rfl | rfl
      · exact hopen x t hx
      · exact hclose x t hx
    rw [Block.iterate]
    by_cases h0 : t.current = 0
    · rw [if_pos h0] at hy ⊢
      exact ⟨l, y, hs, hy⟩
    · rw [if_neg h0] at hy ⊢
      have hround := (hbody y t hy).mono (Nat.le_of_succ_le hn)
      have hrest := hround.andThen fun z t' hz => ih (by omega) j z t' (.inr rfl) hz
      exact (hrest.of_steps hs).mono (by omega)

/-- A host that runs a block follows its meaning. -/
theorem Runs.follows {k' : Nat} {b : Block} (h : H.Runs s k b k') (fuel : Nat) {x : σ} {t : Tape}
    (hx : H.stands k t x) : H.Follows fuel k' x (b.exec s fuel t) := by
  induction h generalizing x t with
  | done hskip => exact hskip x t hx
  | act hact hoff _ ih =>
    rename_i op rest _
    rw [Block.exec]
    cases hop : op.act s t with
    | none => exact fun hsame => hoff x t hx hop hsame
    | some t' =>
      obtain ⟨n, y, hs, hy⟩ := hact x t t' hx hop
      exact ((ih hy).of_steps hs).mono (by omega)
  | loop hopen _ hclose _ ihb ihr =>
    rw [Block.exec]
    have hloop := follows_iterate (s := s) hopen hclose (fun _ _ hy => ihb hy) fuel
      (Nat.le_refl fuel) _ x t (.inl rfl) hx
    exact hloop.andThen fun y t' hy => ihr hy

/-! ## Evaluators -/

/-- An evaluator of a host: it makes one step for each unit of its budget until the host stands at
the last place or leaves the tape. -/
structure Observed (H : Host σ) (last : Nat) (eval : Nat → σ → Ending) : Prop where
  step : ∀ n x y, H.step x y → eval (n + 1) x = eval n y
  off : ∀ n x sf, H.off x sf → eval (n + 1) x = .offTape sf
  halted : ∀ n x t, H.stands last t x → eval n x = .halted t
  short : ∀ x y, H.step x y → eval 0 x = .spent
  stable : ∀ n x, eval n x ≠ .spent → eval (n + 1) x = eval n x

variable {last : Nat} {eval : Nat → σ → Ending}
variable {n : Nat}

theorem Observed.stable_add (h : H.Observed last eval) {x : σ} (hn : eval n x ≠ .spent) (k : Nat) :
    eval (n + k) x = eval n x := by
  induction k with
  | zero => rfl
  | succ k ih => rw [← ih] at hn ⊢; exact h.stable (n + k) x hn

/-- More steps than the budget allows spend it. -/
theorem Observed.spent_of_steps (h : H.Observed last eval) {x y : σ} (hs : H.Steps k x y)
    (hn : n < k) : eval n x = .spent := by
  induction hs generalizing n with
  | refl x => omega
  | step hstep _ ih =>
    cases n with
    | zero => exact h.short _ _ hstep
    | succ n => rw [h.step n _ _ hstep]; exact ih (by omega)

theorem Observed.eval_add (h : H.Observed last eval) {x y : σ} (hs : H.Steps k x y) :
    eval (k + n) x = eval n y := by
  induction hs with
  | refl x => rw [Nat.zero_add]
  | step hstep _ ih => rw [Nat.add_right_comm, h.step _ _ _ hstep, ih]

/-- An ending that a host follows is what its evaluator gives with a large enough budget. -/
theorem Observed.of_follows (h : H.Observed last eval) {x : σ} (hf : H.Follows fuel last x e)
    (hoff : ∀ sf, e = .offTape sf → H.sameTape) (he : e ≠ .spent) : ∃ n, eval n x = e := by
  cases e with
  | halted t =>
    obtain ⟨n, y, hs, hy⟩ := hf
    exact ⟨n + 0, by rw [h.eval_add hs, h.halted 0 y t hy]⟩
  | offTape sf =>
    obtain ⟨n, y, hs, hy⟩ := hf (hoff sf rfl)
    exact ⟨n + 1, by rw [h.eval_add hs, h.off 0 y sf hy]⟩
  | spent => exact absurd rfl he

/-- **A host ends as its block does.** The endings an evaluator gives with some budget are those
of the block with some fuel. -/
theorem Observed.eval_iff (h : H.Observed last eval) {b : Block} (hruns : H.Runs s k b last) {x : σ}
    {t : Tape} (hx : H.stands k t x) (hoff : ∀ fuel sf, b.exec s fuel t = .offTape sf → H.sameTape)
    (he : e ≠ .spent) : (∃ n, eval n x = e) ↔ ∃ fuel, b.exec s fuel t = e := by
  constructor
  · rintro ⟨n, hn⟩
    refine ⟨n + 1, ?_⟩
    have hf := hruns.follows (n + 1) hx
    by_cases hspent : b.exec s (n + 1) t = .spent
    · rw [hspent] at hf
      obtain ⟨l, y, hl, hs⟩ := hf
      exact absurd (hn.symm.trans (h.spent_of_steps hs hl)) he
    · obtain ⟨l, hl⟩ := h.of_follows hf (hoff (n + 1)) hspent
      -- two budgets that suffice give the same ending
      have h1 := h.stable_add (x := x) (n := n) (by rw [hn]; exact he) l
      have h2 := h.stable_add (x := x) (n := l) (by rw [hl]; exact hspent) n
      rw [← hl, ← hn, ← h1, ← h2, Nat.add_comm]
  · rintro ⟨fuel, hfuel⟩
    have hf := hruns.follows fuel hx
    rw [hfuel] at hf
    exact h.of_follows hf (fun sf hsf => hoff fuel sf (by rw [hfuel, hsf])) he

end Host

end TapeScript
