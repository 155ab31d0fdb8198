import Mathlib.Order.Bounds.Basic
import TapeScript.Proofs.Linking

set_option autoImplicit false

/-! # Brackets and their partners

Two brackets of a text are partners if the commands between them are balanced. The nesting depth tells
which brackets have none. It stays defined exactly up to the first closing bracket without a partner
(`Brackets.isLeast_stray`); if it is defined to the end, the last opening bracket without a partner is
the one behind which all is balanced (`Brackets.isGreatest_unclosed`).
-/

namespace TapeScript

/-! ## Depth of a text cut in two -/

namespace Code

theorem depth_append (d : Nat) (xs ys : Code) :
    depth d (xs ++ ys) = (depth d xs).bind fun e => depth e ys := by
  induction xs generalizing d with
  | nil => rfl
  | cons c xs ih =>
    cases c <;> cases d <;> simp [depth, ih]

/-- What surrounds code adds to its depth. -/
theorem depth_add {d e : Nat} {xs : Code} (h : depth d xs = some e) (k : Nat) :
    depth (d + k) xs = some (e + k) := by
  induction xs generalizing d with
  | nil =>
    cases h
    rfl
  | cons c xs ih =>
    cases c with
    | enter =>
      rw [depth] at h ⊢
      rw [Nat.add_right_comm]
      exact ih h
    | leave =>
      cases d with
      | zero => cases h
      | succ d =>
        rw [depth] at h
        rw [Nat.add_right_comm, depth]
        exact ih h
    | _ => exact ih h

theorem Balanced.depth_eq {xs : Code} (h : Balanced xs) (d : Nat) : depth d xs = some d := by
  have := depth_add h d
  rwa [Nat.zero_add] at this

end Code

namespace Brackets

/-- The nesting depth behind a text. -/
def depth (d : Nat) (text : List Char) : Option Nat := Code.depth d (text.filterMap Cmd.ofChar?)

/-- Every bracket of the text finds its partner. -/
def Balanced (text : List Char) : Prop := Code.Balanced (text.filterMap Cmd.ofChar?)

/-- The brackets at two places belong together. -/
def Partners (text : List Char) (i j : Nat) : Prop :=
  ∃ before inside after, text = before ++ '[' :: (inside ++ ']' :: after) ∧ before.length = i ∧
    i + 1 + inside.length = j ∧ Balanced inside

/-- A closing bracket without a partner. -/
def Stray (text : List Char) (j : Nat) : Prop :=
  text[j]? = some ']' ∧ ∀ i, ¬ Partners text i j

/-- An opening bracket without a partner. -/
def Unclosed (text : List Char) (i : Nat) : Prop :=
  text[i]? = some '[' ∧ ∀ j, ¬ Partners text i j

variable {text before inside after : List Char} {d e i j : Nat}

@[simp] theorem depth_nil (d : Nat) : depth d [] = some d := rfl

@[simp] theorem depth_open (d : Nat) (text : List Char) : depth d ('[' :: text) = depth (d + 1) text :=
  rfl

@[simp] theorem depth_close_zero (text : List Char) : depth 0 (']' :: text) = none := rfl

@[simp] theorem depth_close_succ (d : Nat) (text : List Char) :
    depth (d + 1) (']' :: text) = depth d text := rfl

theorem depth_append (d : Nat) (xs ys : List Char) :
    depth d (xs ++ ys) = (depth d xs).bind fun e => depth e ys := by
  rw [depth, List.filterMap_append, Code.depth_append]
  rfl

theorem depth_append_of_some {xs : List Char} (h : depth d xs = some e) (ys : List Char) :
    depth d (xs ++ ys) = depth e ys := by
  rw [depth_append, h]
  rfl

/-- All other characters leave the depth as it is. -/
theorem depth_plain {c : Char} (hopen : c ≠ '[') (hclose : c ≠ ']') (d : Nat) (text : List Char) :
    depth d (c :: text) = depth d text := by
  unfold depth
  rw [List.filterMap_cons]
  cases hc : Cmd.ofChar? c with
  | none => rfl
  | some cmd =>
    -- only the two brackets stand for the commands that change the depth
    refine Code.depth_plain ?_ ?_ d _ <;> rintro rfl <;> unfold Cmd.ofChar? at hc <;>
      split at hc <;> simp_all

theorem Balanced.depth_eq (h : Balanced inside) (d : Nat) : depth d inside = some d :=
  Code.Balanced.depth_eq h d

theorem Balanced.nil : Balanced [] := rfl

theorem Balanced.append {xs ys : List Char} (hxs : Balanced xs) (hys : Balanced ys) :
    Balanced (xs ++ ys) :=
  (depth_append_of_some hxs ys).trans hys

theorem Balanced.enclose (h : Balanced inside) : Balanced ('[' :: (inside ++ [']'])) := by
  show depth 0 _ = some 0
  rw [depth_open, depth_append_of_some (h.depth_eq 1), depth_close_succ, depth_nil]

theorem balanced_singleton {c : Char} (hopen : c ≠ '[') (hclose : c ≠ ']') : Balanced [c] :=
  depth_plain hopen hclose 0 []

/-! ## Finding a partner -/

/-- Where brackets are open, there is a last one of them. -/
theorem exists_open (h : depth 0 text = some (d + 1)) :
    ∃ before inside, text = before ++ '[' :: inside ∧ depth 0 before = some d ∧ Balanced inside := by
  -- by length: behind a closing bracket the search goes on before its partner
  induction hlength : text.length using Nat.strong_induction_on generalizing text d with
  | _ n ih =>
    rcases List.eq_nil_or_concat text with rfl | ⟨begun, c, rfl⟩
    · cases h
    rw [List.concat_eq_append] at h hlength
    obtain ⟨e, hbegun, hlast⟩ := Option.bind_eq_some_iff.mp ((depth_append 0 begun [c]).symm.trans h)
    have hshort : begun.length < n := by simp at hlength; omega
    rw [List.concat_eq_append]
    by_cases hopen : c = '['
    · subst hopen
      obtain rfl : e = d := by simpa using hlast
      exact ⟨begun, [], rfl, hbegun, .nil⟩
    by_cases hclose : c = ']'
    · subst hclose
      cases e with
      | zero => cases hlast
      | succ e =>
        obtain rfl : e = d + 1 := by simpa using hlast
        obtain ⟨before, inside, rfl, hbefore, hinside⟩ := ih _ hshort hbegun rfl
        have hshorter : before.length < n := by simp at hshort; omega
        obtain ⟨before', inside', rfl, hbefore', hinside'⟩ := ih _ hshorter hbefore rfl
        exact ⟨before', inside' ++ '[' :: (inside ++ [']']), by simp, hbefore',
          hinside'.append hinside.enclose⟩
    · rw [depth_plain hopen hclose, depth_nil] at hlast
      obtain rfl : e = d + 1 := by simpa using hlast
      obtain ⟨before, inside, rfl, hbefore, hinside⟩ := ih _ hshort hbegun rfl
      exact ⟨before, inside ++ [c], by simp, hbefore,
        hinside.append (balanced_singleton hopen hclose)⟩

/-- Where an open bracket is closed in the end, there is a first place at which it is. -/
theorem exists_close (h : depth (d + 1) text = some e) (hle : e ≤ d) :
    ∃ inside after, text = inside ++ ']' :: after ∧ Balanced inside ∧ depth d after = some e := by
  induction hlength : text.length using Nat.strong_induction_on generalizing text d with
  | _ n ih =>
    cases text with
    | nil =>
      cases h
      omega
    | cons c rest =>
      have hshort : rest.length < n := by simp at hlength; omega
      by_cases hopen : c = '['
      · subst hopen
        rw [depth_open] at h
        obtain ⟨inside, after, rfl, hinside, hafter⟩ := ih _ hshort h (by omega) rfl
        have hshorter : after.length < n := by simp at hshort; omega
        obtain ⟨inside', after', rfl, hinside', hafter'⟩ := ih _ hshorter hafter hle rfl
        exact ⟨'[' :: (inside ++ [']']) ++ inside', after', by simp,
          hinside.enclose.append hinside', hafter'⟩
      by_cases hclose : c = ']'
      · subst hclose
        exact ⟨[], rest, rfl, .nil, h⟩
      · rw [depth_plain hopen hclose] at h
        obtain ⟨inside, after, rfl, hinside, hafter⟩ := ih _ hshort h hle rfl
        exact ⟨c :: inside, after, rfl,
          (balanced_singleton hopen hclose).append hinside, hafter⟩

/-- The first closing bracket for which none is open. -/
theorem exists_stray (h : depth d text = none) :
    ∃ before after, text = before ++ ']' :: after ∧ depth d before = some 0 := by
  induction text generalizing d with
  | nil => cases h
  | cons c rest ih =>
    have hcons : ∀ {e : Nat}, depth e rest = none →
        (∀ xs, depth d (c :: xs) = depth e xs) →
        ∃ before after, c :: rest = before ++ ']' :: after ∧ depth d before = some 0 := by
      intro e he hstep
      obtain ⟨before, after, rfl, hbefore⟩ := ih he
      exact ⟨c :: before, after, rfl, (hstep before).trans hbefore⟩
    by_cases hopen : c = '['
    · subst hopen
      exact hcons h fun _ => rfl
    by_cases hclose : c = ']'
    · subst hclose
      cases d with
      | zero => exact ⟨[], rest, rfl, rfl⟩
      | succ d => exact hcons h fun _ => rfl
    · rw [depth_plain hopen hclose] at h
      exact hcons h (depth_plain hopen hclose d)

/-! ## Brackets without a partner -/

/-- Up to where the depth is defined every closing bracket has a partner. -/
theorem exists_partner_of_close (h : depth 0 (before ++ [']']) ≠ none) (after : List Char) :
    ∃ i, Partners (before ++ ']' :: after) i before.length := by
  obtain ⟨e, he⟩ := Option.ne_none_iff_exists'.mp h
  obtain ⟨d, hbefore, hlast⟩ := Option.bind_eq_some_iff.mp ((depth_append 0 before [']']).symm.trans he)
  cases d with
  | zero => cases hlast
  | succ d =>
    obtain ⟨start, inside, rfl, -, hinside⟩ := exists_open hbefore
    exact ⟨start.length, start, inside, after, by simp, rfl, by simp; omega, hinside⟩

theorem not_stray_of_depth (h : depth 0 before ≠ none) (hj : j < before.length) :
    ¬ Stray (before ++ after) j := by
  rintro ⟨hget, hnone⟩
  rw [List.getElem?_append_left hj] at hget
  obtain ⟨_, hclose⟩ := List.getElem?_eq_some_iff.mp hget
  have hsplit : before = before.take j ++ ']' :: before.drop (j + 1) := by
    rw [← hclose, List.getElem_cons_drop, List.take_append_drop]
  have hdefined : depth 0 (before.take j ++ [']']) ≠ none := by
    intro hundefined
    apply h
    rw [hsplit, ← List.singleton_append, ← List.append_assoc, depth_append, hundefined]
    rfl
  obtain ⟨i, hpartners⟩ := exists_partner_of_close hdefined (before.drop (j + 1) ++ after)
  refine hnone i ?_
  rw [List.length_take, Nat.min_eq_left (by omega)] at hpartners
  rwa [hsplit, List.append_assoc, List.cons_append]

/-- A closing bracket behind a balanced text is the first one without a partner. -/
theorem isLeast_stray (h : Balanced before) (after : List Char) :
    IsLeast {j | Stray (before ++ ']' :: after) j} before.length := by
  constructor
  · refine ⟨by simp, ?_⟩
    rintro i ⟨start, inside, rest, htext, hstart, hlength, hinside⟩
    -- the partner would be a bracket of the balanced text that is still open at its end
    obtain rfl : before = start ++ '[' :: inside := by
      have htake := congrArg (List.take before.length) htext
      have hcut : before.length = (start ++ '[' :: inside).length := by simp; omega
      rw [List.take_left, hcut, ← List.cons_append, ← List.append_assoc, List.take_left] at htake
      exact htake
    obtain ⟨e, -, hrest⟩ := Option.bind_eq_some_iff.mp ((depth_append 0 start _).symm.trans h)
    rw [depth_open, hinside.depth_eq] at hrest
    simp at hrest
  · intro j hj
    by_contra hlt
    exact not_stray_of_depth (by rw [show depth 0 before = some 0 from h]; simp) (by omega) hj

theorem not_stray_of_defined (h : depth 0 text = some d) (j : Nat) : ¬ Stray text j := by
  intro hstray
  have hlt : j < text.length := (List.getElem?_eq_some_iff.mp hstray.1).1
  rw [← List.append_nil text] at hstray
  exact not_stray_of_depth (by simp [h]) hlt hstray

/-- Every opening bracket of a balanced text has a partner, whatever stands before the text. -/
theorem not_unclosed_of_balanced (h : Balanced after) (hi : before.length ≤ i) :
    ¬ Unclosed (before ++ after) i := by
  rintro ⟨hget, hnone⟩
  obtain ⟨k, rfl⟩ := Nat.exists_eq_add_of_le hi
  rw [List.getElem?_append_right hi, Nat.add_sub_cancel_left] at hget
  obtain ⟨hk, hopen⟩ := List.getElem?_eq_some_iff.mp hget
  have hsplit : after = after.take k ++ '[' :: after.drop (k + 1) := by
    rw [← hopen, List.getElem_cons_drop, List.take_append_drop]
  have hdepth : depth 0 (after.take k ++ '[' :: after.drop (k + 1)) = some 0 := by
    rw [← hsplit]
    exact h
  obtain ⟨d, -, hrest⟩ := Option.bind_eq_some_iff.mp ((depth_append 0 _ _).symm.trans hdepth)
  obtain ⟨inside, rest, hclose, hinside, -⟩ := exists_close hrest (Nat.zero_le d)
  refine hnone _ ⟨before ++ after.take k, inside, rest, ?_, ?_, rfl, hinside⟩
  · rw [← hclose, List.append_assoc, ← hsplit]
  · rw [List.length_append, List.length_take, Nat.min_eq_left (by omega)]

/-- An opening bracket before a balanced text is the last one without a partner. -/
theorem isGreatest_unclosed (h : Balanced after) (before : List Char) :
    IsGreatest {i | Unclosed (before ++ '[' :: after) i} before.length := by
  constructor
  · refine ⟨by simp, ?_⟩
    rintro j ⟨start, inside, rest, htext, hstart, -, hinside⟩
    obtain ⟨rfl, hafter⟩ := List.append_inj htext hstart.symm
    obtain rfl : after = inside ++ ']' :: rest := (List.cons.inj hafter).2
    have hdepth : depth 0 (inside ++ ']' :: rest) = none := depth_append_of_some hinside _
    exact absurd (hdepth.symm.trans h) (by simp)
  · intro i hi
    by_contra hlt
    have hle : (before ++ ['[']).length ≤ i := by
      rw [List.length_append, List.length_singleton]
      omega
    refine not_unclosed_of_balanced h hle ?_
    rwa [List.append_assoc]

end Brackets

end TapeScript
