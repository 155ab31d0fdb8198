import TapeScript.Proofs.NodeMeaning
import TapeScript.Proofs.Plan

set_option autoImplicit false

/-! # More fuel

A run that was not out of fuel ends in the same way with more of it: so do plans
(`Plan.exec_mono`), and so do lowered nodes (`Node.runAll_mono`). In both only loops use fuel.
-/

namespace TapeScript

/-! ## Plans -/

theorem Ending.ne_spent_of_andThen {e : Ending} {f : Tape → Ending} (h : e.andThen f ≠ .spent) :
    e ≠ .spent := by
  rintro rfl
  exact h rfl

theorem Block.iterate_mono {b b' : Tape → Ending} (hb : ∀ t, b t ≠ .spent → b' t = b t)
    {n m : Nat} (hle : n ≤ m) {t : Tape} (h : iterate b n t ≠ .spent) :
    iterate b' m t = iterate b n t := by
  induction n generalizing m t with
  | zero => exact absurd rfl h
  | succ n ih =>
    obtain ⟨m, rfl⟩ : ∃ m', m = m' + 1 := ⟨m - 1, by omega⟩
    rw [iterate] at h ⊢
    rw [iterate]
    by_cases hzero : t.current = 0
    · rw [if_pos hzero, if_pos hzero]
    · rw [if_neg hzero] at h ⊢
      rw [if_neg hzero, hb t (Ending.ne_spent_of_andThen h)]
      cases hround : b t with
      | halted t' =>
        rw [hround] at h
        exact ih (by omega) h
      | offTape sf => rfl
      | spent => rfl

/-- A plan that does not run out of fuel ends as it does with more. -/
theorem Plan.exec_mono {s : Setting} {fuel fuel' : Nat} (hle : fuel ≤ fuel') (p : Plan) {t : Tape}
    (h : p.exec s fuel t ≠ .spent) : p.exec s fuel' t = p.exec s fuel t := by
  induction p generalizing t with
  | done => rfl
  | go cell rest ih =>
    rw [exec] at h ⊢
    rw [exec]
    by_cases hc : s.holds cell
    · rw [if_pos hc] at h ⊢
      rw [if_pos hc]
      exact ih h
    · rw [if_neg hc, if_neg hc]
  | act op rest ih =>
    rw [exec] at h ⊢
    rw [exec]
    cases hop : op.act s t with
    | none => rfl
    | some t' =>
      rw [hop] at h
      exact ih h
  | loop body rest ihb ihr =>
    rw [exec] at h ⊢
    rw [exec, Block.iterate_mono (fun _ => ihb) hle (Ending.ne_spent_of_andThen h)]
    cases hl : Block.iterate (body.exec s fuel) fuel t with
    | halted t' =>
      rw [hl] at h
      exact ihr h
    | offTape sf => rfl
    | spent => rfl

/-! ## Nodes -/

theorem repeatWhile_mono {α : Type} {test : α → Option (Nat × α)} {body body' : α → Option α}
    (hbody : ∀ a b, body a = some b → body' a = some b) {n m : Nat} (hle : n ≤ m) {a b : α}
    (h : repeatWhile test body n a = some b) : repeatWhile test body' m a = some b := by
  induction n generalizing m a with
  | zero => cases h
  | succ n ih =>
    obtain ⟨m, rfl⟩ : ∃ m', m = m' + 1 := ⟨m - 1, by omega⟩
    rw [repeatWhile] at h ⊢
    obtain ⟨⟨v, a'⟩, htest, hrest⟩ := Option.bind_eq_some_iff.mp h
    rw [htest, Option.bind_some]
    by_cases hv : v = 0
    · simp only [hv, if_true] at hrest ⊢
      exact hrest
    · simp only [hv, if_false] at hrest ⊢
      obtain ⟨a'', hround, hloop⟩ := Option.bind_eq_some_iff.mp hrest
      rw [hbody a' a'' hround, Option.bind_some]
      exact ih (by omega) hloop

namespace Node

mutual

theorem run_mono (w : Width) (input : Array Char) {fuel fuel' : Nat} (hle : fuel ≤ fuel') :
    ∀ (n : Node) (sf sf' : Surface), n.run w input fuel sf = some sf' →
      n.run w input fuel' sf = some sf'
  | .declare symbol none, sf, sf', h => by
    rw [run] at h ⊢
    exact h
  | .declare symbol (some initial), sf, sf', h => by
    rw [run] at h ⊢
    exact h
  | .assign symbol n, sf, sf', h => by
    rw [run] at h ⊢
    exact h
  | .block body, sf, sf', h => by
    rw [run] at h ⊢
    exact runAll_mono w input hle body sf sf' h
  | .ifElse condition body none, sf, sf', h => by
    rw [run] at h ⊢
    obtain ⟨⟨v, sf1⟩, htest, hside⟩ := Option.bind_eq_some_iff.mp h
    rw [htest, Option.bind_some]
    by_cases hv : v = 0
    · simp only [hv, if_true] at hside ⊢
      exact hside
    · simp only [hv, if_false] at hside ⊢
      exact run_mono w input hle body sf1 sf' hside
  | .ifElse condition body (some otherwise), sf, sf', h => by
    rw [run] at h ⊢
    obtain ⟨⟨v, sf1⟩, htest, hside⟩ := Option.bind_eq_some_iff.mp h
    rw [htest, Option.bind_some]
    by_cases hv : v = 0
    · simp only [hv, if_true] at hside ⊢
      exact run_mono w input hle otherwise sf1 sf' hside
    · simp only [hv, if_false] at hside ⊢
      exact run_mono w input hle body sf1 sf' hside
  | .loop condition body, sf, sf', h => by
    rw [run] at h ⊢
    exact repeatWhile_mono (run_mono w input hle body) hle h
  | .output n, sf, sf', h => by
    rw [run] at h ⊢
    exact h
  | .constant _ _, _, _, h | .load _, _, _, h | .input, _, _, h | .binary _ _ _ _, _, _, h
  | .unary _ _, _, _, h | .exprStmt _, _, _, h | .newName _, _, _, h | .nop _, _, _, h
  | .program _, _, _, h | .withheld _, _, _, h | .bare _, _, _, h | .blank, _, _, h
  | .misfit, _, _, h | .deep, _, _, h => by simp only [run] at h; cases h

/-- Statements that come to an end do so with more fuel. -/
theorem runAll_mono (w : Width) (input : Array Char) {fuel fuel' : Nat} (hle : fuel ≤ fuel') :
    ∀ (ns : List Node) (sf sf' : Surface), runAll w input fuel ns sf = some sf' →
      runAll w input fuel' ns sf = some sf'
  | [], sf, sf', h => by
    rw [runAll] at h ⊢
    exact h
  | n :: ns, sf, sf', h => by
    rw [runAll] at h ⊢
    obtain ⟨sf1, hfirst, hrest⟩ := Option.bind_eq_some_iff.mp h
    rw [run_mono w input hle n sf sf1 hfirst, Option.bind_some]
    exact runAll_mono w input hle ns sf1 sf' hrest

end

end Node

end TapeScript
