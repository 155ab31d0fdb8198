import TapeScript.Proofs.CodeEndings
import TapeScript.Proofs.Supply

set_option autoImplicit false

/-! # Branches and loops around any code

A branch or a loop is given actions that emit its bodies. Whatever they emit, as long as it takes the
head from where it was tracked to be to where it is tracked to be (`Code.Lands`), a machine that runs
the code of a branch runs one of the bodies, once, and a machine that runs the code of a loop runs
round after round (`Emit.combinators_run_bodies`). Bodies may halt or not, leave the tape, read and
write, and change the cells that decide about them.
-/

namespace TapeScript

/-- The code takes the head from one place to another, on any tape on which it halts. -/
structure Code.Lands (s : Setting) (h : Int) (code : Code) (h' : Int) : Prop where
  balanced : code.Balanced
  head_eq : ∀ t t', s.Admits t → t.head = h → code.Ends s t (.halted t') → t'.head = h'

/-- A machine that runs the code from the given place, and does not run out of memory, comes to an end
exactly as the relation says. -/
def Code.Behaves (s : Setting) (h : Int) (code : Code) (R : Tape → Ending → Prop) : Prop :=
  code.Balanced ∧ ∀ m : Machine, m.Primed code → m.Ample → m.setup.setting = s → m.head = h →
    ∀ e, e ≠ .spent → ((∃ n, Machine.ending (m.run n) = e) ↔ R m.tape e)

namespace Code

variable {s : Setting} {h h' h'' : Int} {c d : Code} {R : Tape → Ending → Prop}

theorem Behaves.of_ends (hc : c.Balanced)
    (hR : ∀ t e, s.Admits t → t.head = h → (c.Ends s t e ↔ R t e)) : c.Behaves s h R := by
  refine ⟨hc, fun m hm hmemory hs hhead e he => ?_⟩
  rw [hm.ending_iff hmemory he, hs]
  exact hR m.tape e (hs ▸ hm.admits) hhead

theorem ends_nil {t : Tape} {e : Ending} (ht : s.Admits t) : Ends s [] t e ↔ e = .halted t := by
  have hdone : Plan.done.Spells t.head [] t.head := ⟨trivial, rfl, rfl⟩
  have hrun : Plan.done.exec s 0 t = .halted t := rfl
  exact ends_of_spells hdone ht hrun

theorem Lands.append (hc : c.Lands s h h') (hd : d.Lands s h' h'') : (c ++ d).Lands s h h'' := by
  refine ⟨balanced_append hc.balanced hd.balanced, fun t t' ht hhead hends => ?_⟩
  cases (ends_append hc.balanced hd.balanced ht).mp hends with
  | goesOn hfirst hsecond =>
    have hu := hfirst.admits hc.balanced ht
    exact hd.head_eq _ t' hu (hc.head_eq t _ ht hhead hfirst) hsecond

end Code

/-- The code of a plan lands where the plan does. -/
theorem Plan.Spells.lands {p : Plan} {s : Setting} {h h' : Int} {code : Code}
    (hp : p.Spells h code h') : code.Lands s h h' := by
  refine ⟨Code.balanced_of_spells hp, ?_⟩
  rintro t t' ht rfl hends
  obtain ⟨-, fuel, hrun⟩ := (Code.ends_iff hp.code_eq.symm ht).mp hends
  rw [p.exec_block hp.returns ht.head_on] at hrun
  rw [p.head_of_exec hp.returns hrun, hp.head_eq]

/-! ## Rounds of a loop -/

theorem Sequel.congr {R R' S S' : Tape → Ending → Prop} {t t' : Tape} {e : Ending}
    (hR : ∀ x, R t x ↔ R' t' x) (hS : ∀ u, R t (.halted u) → (S u e ↔ S' u e)) :
    Sequel R S t e ↔ Sequel R' S' t' e := by
  constructor
  · intro h
    cases h with
    | goesOn hfirst hsecond => exact .goesOn ((hR _).mp hfirst) ((hS _ hfirst).mp hsecond)
    | breaksOff hfirst => exact .breaksOff ((hR _).mp hfirst)
  · intro h
    cases h with
    | goesOn hfirst hsecond =>
      have hfirst' := (hR _).mpr hfirst
      exact .goesOn hfirst' ((hS _ hfirst').mpr hsecond)
    | breaksOff hfirst => exact .breaksOff ((hR _).mpr hfirst)

/-- Rounds may be told in another way, on the tapes that come up. -/
theorem While.congr {cell : Int} {R R' : Tape → Ending → Prop} (P : Tape → Prop)
    (hR : ∀ u x, P u → (R (u.goto cell) x ↔ R' (u.goto cell) x))
    (hP : ∀ u v, P u → R (u.goto cell) (.halted v) → P v) {t : Tape} {e : Ending} (ht : P t) :
    While cell R t e ↔ While cell R' t e := by
  constructor
  · intro h
    induction h with
    | done hzero => exact .done hzero
    | round hne hround _ ih => exact .round hne ((hR _ _ ht).mp hround) (ih (hP _ _ ht hround))
    | breaksOff hne hround => exact .breaksOff hne ((hR _ _ ht).mp hround)
  · intro h
    induction h with
    | done hzero => exact .done hzero
    | round hne hround _ ih =>
      have hround' := (hR _ _ ht).mpr hround
      exact .round hne hround' (ih (hP _ _ ht hround'))
    | breaksOff hne hround => exact .breaksOff hne ((hR _ _ ht).mpr hround)

/-- Rounds end at the cell. -/
theorem While.head_eq {cell : Int} {R : Tape → Ending → Prop} {t t' : Tape}
    (h : While cell R t (.halted t')) : t'.head = cell := by
  generalize hx : Ending.halted t' = x at h
  induction h with
  | done _ =>
    cases hx
    rfl
  | round _ _ _ ih => exact ih hx
  | breaksOff _ _ => cases hx

section Rounds

variable {s : Setting} {cell h' : Int} {R : Tape → Ending → Prop} {t : Tape} {e : Ending}
  {inner : Code}

/-- Where the head stands before the first test does not matter. -/
theorem while_goto (i : Int) : While cell R (t.goto i) e ↔ While cell R t e := by
  constructor
  · intro h
    cases h with
    | done hzero => exact .done (t := t) hzero
    | round hne hround hrest => exact .round (t := t) hne hround hrest
    | breaksOff hne hround => exact .breaksOff (t := t) hne hround
  · intro h
    cases h with
    | done hzero => exact .done (t := t.goto i) hzero
    | round hne hround hrest => exact .round (t := t.goto i) hne hround hrest
    | breaksOff hne hround => exact .breaksOff (t := t.goto i) hne hround

/-- A round, and the way back to the cell. -/
theorem ends_round (hinner : inner.Lands s cell h') (hcell : s.holds cell) (ht : s.Admits t)
    (hhead : t.head = cell) : (inner ++ (Beat.go cell).code h').Ends s t e ↔
      Sequel (inner.Ends s) (fun u e => e = .halted (u.goto cell)) t e := by
  rw [Code.ends_append hinner.balanced (Code.balanced_go h' cell) ht]
  constructor
  · intro h
    cases h with
    | goesOn hfirst hsecond =>
      have hu := hfirst.admits hinner.balanced ht
      rw [← hinner.head_eq t _ ht hhead hfirst] at hsecond
      exact .goesOn hfirst ((Code.ends_go hcell hu).mp hsecond)
    | breaksOff hfirst => exact .breaksOff hfirst
  · intro h
    cases h with
    | goesOn hfirst hsecond =>
      have hu := hfirst.admits hinner.balanced ht
      refine .goesOn hfirst ?_
      rw [← hinner.head_eq t _ ht hhead hfirst]
      exact (Code.ends_go hcell hu).mpr hsecond
    | breaksOff hfirst => exact .breaksOff hfirst

/-- The way back to the cell needs no mention in the rounds. -/
theorem while_round_iff (hinner : inner.Lands s cell h') (hcell : s.holds cell) (ht : s.Admits t) :
    While cell ((inner ++ (Beat.go cell).code h').Ends s) t e ↔ While cell (inner.Ends s) t e := by
  have hround : ∀ {u : Tape} {x : Ending}, s.Admits u →
      ((inner ++ (Beat.go cell).code h').Ends s (u.goto cell) x ↔
        Sequel (inner.Ends s) (fun v e => e = .halted (v.goto cell)) (u.goto cell) x) :=
    fun hu => ends_round hinner hcell (hu.goto hcell) rfl
  constructor
  · intro h
    induction h with
    | done hzero => exact .done hzero
    | round hne hends _ ih =>
      cases (hround ht).mp hends with
      | @goesOn v _ hfirst hsecond =>
        cases hsecond
        have hv := hfirst.admits hinner.balanced (ht.goto hcell)
        exact .round hne hfirst ((while_goto cell).mp (ih (hv.goto hcell)))
    | breaksOff hne hends =>
      cases (hround ht).mp hends with
      | goesOn _ hsecond => cases hsecond
      | breaksOff hfirst => exact .breaksOff hne hfirst
  · intro h
    induction h with
    | done hzero => exact .done hzero
    | @round t u e hne hends _ ih =>
      have hu := hends.admits hinner.balanced (ht.goto hcell)
      have hback := (hround ht).mpr (.goesOn hends rfl)
      exact .round hne hback ((while_goto cell).mpr (ih hu))
    | breaksOff hne hends => exact .breaksOff hne ((hround ht).mpr (.breaksOff hends))

end Rounds

/-- The code of a loop: the way to the cell, and the rounds. -/
theorem Code.ends_rounds {s : Setting} {cell h h' : Int} {inner : Code} (hcell : s.holds cell)
    (hinner : inner.Lands s cell h') {t : Tape} {e : Ending} (ht : s.Admits t) (hhead : t.head = h) :
    Ends s ((Beat.go cell).code h ++ .enter :: (inner ++ (Beat.go cell).code h') ++ [.leave]) t e ↔
      While cell (inner.Ends s) t e := by
  have hback := balanced_go h' cell
  have hround : ∀ u u', s.Admits u → u.head = cell →
      (inner ++ (Beat.go cell).code h').Ends s u (.halted u') → u'.head = cell := by
    intro u u' hu hhead hends
    cases (ends_round hinner hcell hu hhead).mp hends with
    | goesOn _ hsecond =>
      cases hsecond
      rfl
  rw [List.append_assoc, ends_append (balanced_go h cell)
      (balanced_loop (balanced_append hinner.balanced hback)) ht, ← while_round_iff hinner hcell ht,
    ← while_goto cell, ← ends_loop (balanced_append hinner.balanced hback) hround (ht.goto hcell) rfl,
    ← hhead]
  constructor
  · intro hrun
    cases hrun with
    | goesOn hfirst hsecond =>
      cases (ends_go hcell ht).mp hfirst
      exact hsecond
    | breaksOff hfirst => cases (ends_go hcell ht).mp hfirst
  · intro hrun
    exact .goesOn ((ends_go hcell ht).mpr rfl) hrun

/-! ## Actions and what their code does -/

/-- Under a condition on the places it has to go to, the action emits code. The code leaves the
workbench as given, takes the head to where it is tracked to be then, and ends as the relation says. -/
structure Emit.Performs (s : Setting) (fits : Prop) (e : Emit Code) (w w' : Workbench)
    (R : Tape → Ending → Prop) : Prop where
  emits : fits → ∃ code, Gives e w code w'
  after_eq : ∀ {code w''}, Gives e w code w'' → w'' = w'
  lands : ∀ {code w''}, Gives e w code w'' → code.Lands s w.head w'.head
  ends_iff : ∀ {code w''}, Gives e w code w'' → ∀ {t x}, s.Admits t → t.head = w.head →
    (code.Ends s t x ↔ R t x)

namespace Emit

variable {s : Setting} {fits : Prop} {w w₁ w₂ : Workbench} {e : Emit Code}
  {R R' S : Tape → Ending → Prop}

namespace Performs

/-- Any action that emits code which lands. -/
theorem of_gives {inner : Code} (h : Gives e w inner w₁) (hinner : inner.Lands s w.head w₁.head) :
    Performs s fits e w w₁ (inner.Ends s) := by
  refine ⟨fun _ => ⟨inner, h⟩, fun h' => (h.unique h').2.symm, fun h' => ?_, fun h' _ _ _ _ => ?_⟩
  · rw [← (h.unique h').1]
    exact hinner
  · rw [← (h.unique h').1]

theorem congr (h : Performs s fits e w w₁ R)
    (hR : ∀ {t x}, s.Admits t → t.head = w.head → (R t x ↔ R' t x)) : Performs s fits e w w₁ R' :=
  ⟨h.emits, h.after_eq, h.lands, fun hgives _ _ ht hhead =>
    (h.ends_iff hgives ht hhead).trans (hR ht hhead)⟩

theorem single (h : Performs s fits e w w₁ R) : Performs s fits (seq [e]) w w₁ R := by
  have hsingle : seq [e] = e := (Flat.single e).symm
  rw [hsingle]
  exact h

/-- One action after the other. -/
theorem cons {es : List (Emit Code)} (h : Performs s fits e w w₁ R)
    (hs : Performs s fits (seq es) w₁ w₂ S) : Performs s fits (seq (e :: es)) w w₂ (Sequel R S) := by
  have hsplit : ∀ {code w'}, Gives (seq (e :: es)) w code w' ↔
      ∃ c d, Gives e w c w₁ ∧ Gives (seq es) w₁ d w' ∧ code = c ++ d := by
    intro code w'
    have hsingle : seq [e] = e := (Flat.single e).symm
    rw [← List.singleton_append, gives_seq_append, hsingle]
    constructor
    · rintro ⟨c, w'', d, hc, hd, rfl⟩
      cases h.after_eq hc
      exact ⟨c, d, hc, hd, rfl⟩
    · rintro ⟨c, d, hc, hd, rfl⟩
      exact ⟨c, w₁, d, hc, hd, rfl⟩
  refine ⟨fun hfits => ?_, fun hgives => ?_, fun hgives => ?_, fun hgives t x ht hhead => ?_⟩
  · obtain ⟨c, hc⟩ := h.emits hfits
    obtain ⟨d, hd⟩ := hs.emits hfits
    exact ⟨c ++ d, hsplit.mpr ⟨c, d, hc, hd, rfl⟩⟩
  · obtain ⟨c, d, -, hd, -⟩ := hsplit.mp hgives
    exact hs.after_eq hd
  · obtain ⟨c, d, hc, hd, rfl⟩ := hsplit.mp hgives
    exact (h.lands hc).append (hs.lands hd)
  · obtain ⟨c, d, hc, hd, rfl⟩ := hsplit.mp hgives
    have hland := h.lands hc
    rw [Code.ends_append hland.balanced (hs.lands hd).balanced ht]
    refine Sequel.congr (fun y => h.ends_iff hc ht hhead) fun u hu => ?_
    exact hs.ends_iff hd (hu.admits hland.balanced ht) (hland.head_eq t u ht hhead hu)

/-- An action with a plan that halts on every tape. -/
theorem of_scripted {p : Plan} {last : Int} (hs : Scripted e p.beats) (hret : ∀ h, p.Returns h)
    (hlast : p.head w.head = last)
    (hfits : fits → p.Spans countBound ∧ InReach countBound w.head) {f : Tape → Tape}
    (hrun : ∀ t, s.Admits t → p.exec s s.width.modulus t = .halted (f t)) :
    Performs s fits e w { w with head := last } fun t x => x = .halted (f t) := by
  have hspells : ∀ {code w''}, Gives e w code w'' → p.Spells w.head code last ∧
      w'' = { w with head := last } := by
    intro code w'' hgives
    obtain ⟨hspells, hw⟩ := hs.spells hret hgives
    have hend := hspells.head_eq.trans hlast
    rw [hend] at hspells hw
    exact ⟨hspells, hw⟩
  refine ⟨fun h => ?_, fun hgives => (hspells hgives).2, fun hgives => (hspells hgives).1.lands,
    fun hgives t x ht hhead => ?_⟩
  · obtain ⟨hspans, hhead⟩ := hfits h
    refine ⟨Beat.codeAll w.head p.beats, ?_⟩
    rw [show e = seq (p.beats.map Beat.emit) from hs, gives_beats, Plan.headAll_beats (hret _), hlast]
    exact ⟨(hspans.fits (Int.le_refl _) hhead).1, rfl, rfl⟩
  · exact Code.ends_of_spells (hhead.symm ▸ (hspells hgives).1) ht (hrun t ht)

/-- Rounds of an action. -/
theorem loop {cell : Int} (hcell : s.holds cell)
    (h : Performs s fits e { w with head := cell } w₁ R)
    (hfits : fits → ∀ c ∈ [w.head, cell, w₁.head], InReach countBound c) :
    Performs s fits (loop cell e) w { w₁ with head := cell } (While cell R) := by
  have hcode : ∀ {code w''}, Gives (Emit.loop cell e) w code w'' ↔ ∃ inner,
      (Beat.go cell).Fits w.head ∧ Gives e { w with head := cell } inner w₁ ∧
        (Beat.go cell).Fits w₁.head ∧ w'' = { w₁ with head := cell } ∧
        code = (Beat.go cell).code w.head ++
          .enter :: (inner ++ (Beat.go cell).code w₁.head) ++ [.leave] := by
    intro code w''
    rw [gives_loop]
    constructor
    · rintro ⟨inner, w', hfit, hinner, hrest⟩
      cases h.after_eq hinner
      exact ⟨inner, hfit, hinner, hrest⟩
    · rintro ⟨inner, hrest⟩
      exact ⟨inner, w₁, hrest⟩
  have hends : ∀ {code w''}, Gives (Emit.loop cell e) w code w'' → ∀ {t x}, s.Admits t →
      t.head = w.head → (code.Ends s t x ↔ While cell R t x) := by
    intro code w'' hgives t x ht hhead
    obtain ⟨inner, -, hinner, -, -, rfl⟩ := hcode.mp hgives
    rw [Code.ends_rounds hcell (h.lands hinner) ht hhead]
    refine While.congr s.Admits (fun u y hu => h.ends_iff hinner (hu.goto hcell) rfl)
      (fun u v hu hv => hv.admits (h.lands hinner).balanced (hu.goto hcell)) ht
  refine ⟨fun hf => ?_, fun hgives => ?_, fun hgives => ⟨?_, fun t t' ht hhead hrun => ?_⟩, hends⟩
  · obtain ⟨inner, hinner⟩ := h.emits hf
    have hreach := hfits hf
    simp only [List.mem_cons, List.not_mem_nil, or_false, forall_eq_or_imp, forall_eq] at hreach
    obtain ⟨⟨hw, hw'⟩, ⟨hc, hc'⟩, hw1, hw1'⟩ := hreach
    exact ⟨_, hcode.mpr ⟨inner, ⟨by omega, by omega⟩, hinner, ⟨by omega, by omega⟩, rfl, rfl⟩⟩
  · obtain ⟨inner, -, -, -, rfl, -⟩ := hcode.mp hgives
    rfl
  · obtain ⟨inner, -, hinner, -, -, rfl⟩ := hcode.mp hgives
    rw [List.append_assoc]
    exact Code.balanced_append (Code.balanced_go _ _) (Code.balanced_loop
      (Code.balanced_append (h.lands hinner).balanced (Code.balanced_go _ _)))
  · exact ((hends hgives ht hhead).mp hrun).head_eq

/-- What a machine makes of the code. -/
theorem behaves (h : Performs s fits e w w₁ R) {code : Code} {w' : Workbench}
    (hgives : Gives e w code w') : code.Behaves s w.head R :=
  .of_ends (h.lands hgives).balanced fun _ _ => h.ends_iff hgives

end Performs

/-! ## Branches -/

section Branch

variable {cell temp₁ temp₂ : Int}
variable {t : Tape} {x : Ending}

/-- What one side of a branch does: nothing, or its body once. -/
def Side (cell temp₁ temp₂ : Int) (R : Tape → Ending → Prop) (t : Tape) (x : Ending) : Prop :=
  if t.cells cell = 0 then x = .halted (t.goto cell)
  else Sequel R (fun u y => y = .halted (((u.write temp₁ 0).write temp₂ 0).goto cell)) (t.goto cell) x

/-- A side of a branch, behind which both scratch cells are zero, is run at most once. -/
theorem while_once (hcell : cell = temp₁ ∨ cell = temp₂) :
    While cell (Sequel R fun u y => y = .halted (((u.write temp₁ 0).write temp₂ 0).goto temp₂)) t x ↔
      Side cell temp₁ temp₂ R t x := by
  have hzero : ∀ u : Tape, (((u.write temp₁ 0).write temp₂ 0).goto temp₂).cells cell = 0 := by
    intro u
    simp only [Tape.goto_cells, Tape.write_cells, Function.update_apply]
    rcases hcell with rfl | rfl <;> simp
  unfold Side
  split
  · next hnow =>
    constructor
    · intro h
      cases h with
      | done _ => rfl
      | round hne _ _ => exact absurd hnow hne
      | breaksOff hne _ => exact absurd hnow hne
    · rintro rfl
      exact .done hnow
  · next hne =>
    constructor
    · intro h
      cases h with
      | done hnow => exact absurd hnow hne
      | round _ hround hrest =>
        cases hround with
        | @goesOn u _ hfirst hsecond =>
          cases hsecond
          refine .goesOn hfirst ?_
          cases hrest with
          | done _ => rfl
          | round hne' _ _ => exact absurd (hzero u) hne'
          | breaksOff hne' _ => exact absurd (hzero u) hne'
      | breaksOff _ hround =>
        cases hround with
        | goesOn _ hsecond => cases hsecond
        | breaksOff hfirst => exact .breaksOff hfirst
    · intro h
      cases h with
      | @goesOn u _ hfirst hsecond =>
        cases hsecond
        exact .round hne (.goesOn hfirst rfl) (.done (hzero u))
      | breaksOff hfirst => exact .breaksOff hne (.breaksOff hfirst)

/-- One of two runs, decided by the cell. It starts with a copy of the cell and a flag in the scratch
cells, which are cleared behind it. -/
def Decides (cell temp₁ temp₂ last : Int) (flag : Nat) (R S : Tape → Ending → Prop) (t : Tape)
    (x : Ending) : Prop :=
  let start := (t.write temp₂ (t.cells cell)).write temp₁ flag
  let tidied (u : Tape) (y : Ending) : Prop :=
    y = .halted (((u.write temp₁ 0).write temp₂ 0).goto last)
  if t.cells cell = 0 then Sequel S tidied (start.goto temp₁) x
  else Sequel R tidied (start.goto temp₂) x

/-- A run that is known to halt goes on from there. -/
theorem sequel_of_halts {u : Tape} (h : ∀ y, R t y ↔ y = .halted u) : Sequel R S t x ↔ S u x := by
  constructor
  · intro hrun
    cases hrun with
    | goesOn hfirst hsecond =>
      cases (h _).mp hfirst
      exact hsecond
    | breaksOff hfirst => cases (h _).mp hfirst
  · intro hsecond
    exact .goesOn ((h _).mpr rfl) hsecond

theorem sequel_halted {f : Tape → Tape} : Sequel (fun u y => y = .halted (f u)) S t x ↔ S (f t) x :=
  sequel_of_halts fun _ => Iff.rfl

/-- A run that goes on in a known way. -/
theorem sequel_sequel {T : Tape → Ending → Prop} {f : Tape → Tape} :
    Sequel (Sequel R fun u y => y = .halted (f u)) T t x ↔ Sequel R (fun u => T (f u)) t x := by
  constructor
  · intro h
    cases h with
    | goesOn hfirst hsecond =>
      cases hfirst with
      | goesOn hrun hhalt =>
        cases hhalt
        exact .goesOn hrun hsecond
    | breaksOff hfirst =>
      cases hfirst with
      | goesOn _ hhalt => cases hhalt
      | breaksOff hrun => exact .breaksOff hrun
  · intro h
    cases h with
    | goesOn hrun hsecond => exact .goesOn (.goesOn hrun rfl) hsecond
    | breaksOff hrun => exact .breaksOff (.breaksOff hrun)

/-- With one side only, the flag stays down. -/
theorem side_iff_decides (h12 : temp₁ ≠ temp₂)
    (hidle : ∀ y, S (((t.write temp₂ (t.cells cell)).write temp₁ 0).goto temp₁) y ↔
      y = .halted (((t.write temp₂ (t.cells cell)).write temp₁ 0).goto temp₁)) :
    Side temp₂ temp₁ temp₂ R (((t.write temp₂ (t.cells cell)).write temp₁ 0).goto temp₁) x ↔
      Decides cell temp₁ temp₂ temp₂ 0 R S t x := by
  have hcopy : (((t.write temp₂ (t.cells cell)).write temp₁ 0).goto temp₁).cells temp₂
      = t.cells cell := by simp [h12.symm]
  unfold Side Decides
  rw [hcopy]
  split
  · next hzero =>
    have hstill : ((t.write temp₂ 0).write temp₁ 0).write temp₂ 0
        = (t.write temp₂ 0).write temp₁ 0 := by
      refine Tape.ext_cells rfl rfl rfl fun c => ?_
      simp only [Tape.write_cells, Function.update_apply]
      split_ifs <;> rfl
    rw [sequel_of_halts hidle, hzero, Tape.write_goto, Tape.write_write, Tape.write_goto, hstill]
  · rfl

/-- With two sides, the flag is still up behind the first one exactly if that was skipped. -/
theorem sides_iff_decides (h12 : temp₁ ≠ temp₂) :
    Sequel (Side temp₂ temp₁ temp₂ R) (Side temp₁ temp₁ temp₂ S)
        (((t.write temp₂ (t.cells cell)).write temp₁ 1).goto temp₁) x ↔
      Decides cell temp₁ temp₂ temp₁ 1 R S t x := by
  have hcopy : (((t.write temp₂ (t.cells cell)).write temp₁ 1).goto temp₁).cells temp₂
      = t.cells cell := by simp [h12.symm]
  unfold Decides
  split
  · next hzero =>
    have hskip : ∀ y, Side temp₂ temp₁ temp₂ R
        (((t.write temp₂ (t.cells cell)).write temp₁ 1).goto temp₁) y ↔
          y = .halted (((t.write temp₂ (t.cells cell)).write temp₁ 1).goto temp₂) := by
      intro y
      rw [Side, hcopy, if_pos hzero, Tape.goto_goto]
    rw [sequel_of_halts hskip, Side, if_neg (by simp), Tape.goto_goto]
  · next hne =>
    have htaken : ∀ y, Side temp₂ temp₁ temp₂ R
        (((t.write temp₂ (t.cells cell)).write temp₁ 1).goto temp₁) y ↔
          Sequel R (fun u y => y = .halted (((u.write temp₁ 0).write temp₂ 0).goto temp₂))
            (((t.write temp₂ (t.cells cell)).write temp₁ 1).goto temp₂) y := by
      intro y
      rw [Side, hcopy, if_neg hne, Tape.goto_goto]
    rw [Sequel.congr htaken fun _ _ => Iff.rfl, sequel_sequel]
    refine Sequel.congr (fun _ => Iff.rfl) fun u _ => ?_
    rw [Side, if_pos (by simp [h12]), Tape.goto_goto]

theorem Performs.clear (h : s.holds cell)
    (hfits : fits → InReach countBound cell ∧ InReach countBound w.head) :
    Performs s fits (clear cell) w { w with head := cell }
      fun t x => x = .halted ((t.write cell 0).goto cell) :=
  .of_scripted (scripted_clear cell) (fun _ => Plan.returns_clear _ _) rfl
    (fun hf => ⟨Plan.spans_clear.mpr (hfits hf).1, (hfits hf).2⟩)
    fun _ ht => Plan.exec_clear (Nat.le_refl _) ht.cells_lt h

/-- One side of a branch. -/
theorem Performs.once (hcell : cell = temp₁ ∨ cell = temp₂) (h1 : s.holds temp₁)
    (h2 : s.holds temp₂) (h : Performs s fits e { w with head := cell } w₁ R)
    (hfits : fits → ∀ c ∈ [w.head, temp₁, temp₂, w₁.head], InReach countBound c) :
    Performs s fits (Emit.loop cell (seq [e, Emit.clear temp₁, Emit.clear temp₂])) w
      { w₁ with head := cell } (Side cell temp₁ temp₂ R) := by
  simp only [List.mem_cons, List.not_mem_nil, or_false, forall_eq_or_imp, forall_eq] at hfits
  have hc : s.holds cell := by rcases hcell with rfl | rfl <;> assumption
  have htidy : Performs s fits (seq [Emit.clear temp₁, Emit.clear temp₂]) w₁
      { w₁ with head := temp₂ }
      fun u y => y = .halted (((u.write temp₁ 0).write temp₂ 0).goto temp₂) := by
    have hfirst := Performs.clear (w := w₁) h1 fun hf => ⟨(hfits hf).2.1, (hfits hf).2.2.2⟩
    have hsecond := Performs.clear (w := { w₁ with head := temp₁ }) h2 fun hf =>
      ⟨(hfits hf).2.2.1, (hfits hf).2.1⟩
    exact (hfirst.cons hsecond.single).congr fun _ _ => sequel_halted
  refine ((h.cons htidy).loop hc fun hf => ?_).congr fun _ _ => while_once hcell
  obtain ⟨hw, hr1, hr2, -⟩ := hfits hf
  simp only [List.mem_cons, List.not_mem_nil, or_false, forall_eq_or_imp, forall_eq]
  refine ⟨hw, ?_, hr2⟩
  rcases hcell with rfl | rfl <;> assumption

/-- **A branch runs one of its sides**, whatever they are. -/
theorem Performs.branch {body : Emit Code} {otherwise : Option (Emit Code)}
    (hd : [cell, temp₁, temp₂].Nodup) (hcell : s.holds cell) (h1 : s.holds temp₁)
    (h2 : s.holds temp₂) (hbody : Performs s fits body { w with head := temp₂ } w₁ R)
    (hother : Performs s fits (otherwise.getD (pure [])) { w₁ with head := temp₁ } w₂ S)
    (hfits : fits → ∀ c ∈ [w.head, cell, temp₁, temp₂, w₁.head, w₂.head], InReach countBound c) :
    Performs s fits (Emit.branch cell body otherwise temp₁ temp₂) w
      { w₂ with head := if otherwise.isSome then temp₁ else temp₂ }
      (Decides cell temp₁ temp₂ (if otherwise.isSome then temp₁ else temp₂)
        (if otherwise.isSome then 1 else 0) R S) := by
  obtain ⟨⟨hc1, hc2⟩, h12⟩ : (cell ≠ temp₁ ∧ cell ≠ temp₂) ∧ temp₁ ≠ temp₂ := by simpa using hd
  simp only [List.mem_cons, List.not_mem_nil, or_false, forall_eq_or_imp, forall_eq] at hfits
  have hcopy : Performs s fits (Emit.copy cell temp₂ temp₁) w { w with head := temp₁ }
      fun t x => x = .halted (((t.write temp₂ (t.cells cell)).write temp₁ 0).goto temp₁) := by
    have hcells : [cell, temp₂, temp₁].Nodup := by grind
    refine .of_scripted (scripted_copy hcells) (fun _ => Plan.returns_copy _ _ _ _)
      (Plan.head_copy _ _ _ _) (fun hf => ?_) fun _ ht =>
        Plan.exec_copy (Nat.le_refl _) ht.cells_lt ⟨hcells, by simp [hcell, h1, h2]⟩
    obtain ⟨hw, hr, hr1, hr2, -⟩ := hfits hf
    exact ⟨Plan.spans_copy.mpr ⟨hr, hr2, hr1⟩, hw⟩
  have hbodySide := Performs.once (w := { w with head := temp₁ }) (.inr rfl) h1 h2 hbody (by grind)
  unfold Emit.branch
  rw [needDistinct_bind hd]
  cases otherwise with
  | none =>
    have hnothing : Gives (pure [] : Emit Code) { w₁ with head := temp₁ } []
      { w₁ with head := temp₁ } := gives_pure.mpr ⟨rfl, rfl⟩
    cases hother.after_eq hnothing
    refine (hcopy.cons hbodySide.single).congr fun {t x} ht _ => ?_
    have hidle : ∀ y, S (((t.write temp₂ (t.cells cell)).write temp₁ 0).goto temp₁) y ↔
        y = .halted (((t.write temp₂ (t.cells cell)).write temp₁ 0).goto temp₁) := fun y => by
      have hstart := (((ht.write (ht.cells_lt cell)).write s.width.modulus_pos).goto h1 :
        s.Admits (((t.write temp₂ (t.cells cell)).write temp₁ 0).goto temp₁))
      rw [← hother.ends_iff hnothing hstart rfl, Code.ends_nil hstart]
    rw [sequel_halted]
    exact side_iff_decides h12 hidle
  | some alternative =>
    have hotherSide := Performs.once (w := { w₁ with head := temp₂ }) (.inl rfl) h1 h2 hother
      (by grind)
    have hset : Performs s fits (Emit.setCell temp₁ 1) { w with head := temp₁ }
        { w with head := temp₁ } fun t x => x = .halted ((t.write temp₁ 1).goto temp₁) := by
      refine .of_scripted (scripted_setCell temp₁ Int.one_nonneg)
        (fun _ => Plan.returns_setCell _ _ _) (Plan.head_setCell _ _ _) (fun hf => ?_) fun t ht => ?_
      · exact ⟨Plan.spans_setCell.mpr ⟨(hfits hf).2.2.1, by decide⟩, (hfits hf).2.2.1⟩
      · rw [Plan.exec_setCell (Nat.le_refl _) ht.cells_lt h1]
        rw [show (1 : Int).toNat = 1 from rfl, Nat.mod_eq_of_lt s.width.one_lt_modulus]
    refine (hcopy.cons (hset.cons (hbodySide.cons hotherSide.single))).congr fun {t x} _ _ => ?_
    rw [sequel_halted, sequel_halted, Tape.write_goto, Tape.goto_goto, Tape.write_write]
    exact sides_iff_decides h12

end Branch

/-! ## Combinators -/

theorem Performs.loopWhile {cell : Int} {condition : Int → Emit Code} {body : Emit Code}
    {w3 : Workbench} {F A : Tape → Ending → Prop} (hcell : s.holds cell)
    (hfirst : Performs s fits (condition cell) w w₁ F)
    (hbody : Performs s fits body { w₁ with head := cell } w₂ R)
    (hagain : Performs s fits (condition cell) w₂ w3 A)
    (hfits : fits → ∀ c ∈ [w₁.head, cell, w3.head], InReach countBound c) :
    Performs s fits (Emit.loopWhile condition body cell) w { w3 with head := cell }
      (Sequel F (While cell (Sequel R A))) := by
  rw [loopWhile_eq]
  exact hfirst.cons ((hbody.cons hagain.single).loop hcell hfits).single

/-- The action emits code if the head and the places are in reach. Whatever it emits leaves the
workbench like this, and a machine that runs it behaves like that. -/
structure Realizes (s : Setting) (e : Emit Code) (w w' : Workbench) (places : List Int)
    (R : Tape → Ending → Prop) : Prop where
  emits : (∀ c ∈ w.head :: places, InReach countBound c) → ∃ code, e.runAt w = (.ok code, w')
  after_eq : ∀ code w'', e.runAt w = (.ok code, w'') → w'' = w'
  behaves : ∀ code w'', e.runAt w = (.ok code, w'') → code.Behaves s w.head R

theorem Performs.realizes {places : List Int}
    (h : Performs s (∀ c ∈ w.head :: places, InReach countBound c) e w w₁ R) :
    Realizes s e w w₁ places R :=
  ⟨h.emits, fun _ _ => h.after_eq, fun _ _ => h.behaves⟩

/-- **Branches and loops run their bodies**, whatever code these are given as, if it takes the head to
where it is tracked to be. A branch runs one of its sides, once, from the tape as it was but for the
scratch cells, and clears these behind it. A loop on a condition evaluates that first and after every
round. -/
theorem combinators_run_bodies (s : Setting) (w : Workbench) (body : Emit Code) (cell : Int)
    (hcell : s.holds cell) :
    (∀ (otherwise : Option (Emit Code)) (temp₁ temp₂ : Int) (inner other : Code) (w₁ w₂ : Workbench),
      [cell, temp₁, temp₂].Nodup → s.holds temp₁ → s.holds temp₂ →
      body.runAt { w with head := temp₂ } = (.ok inner, w₁) → inner.Lands s temp₂ w₁.head →
      (otherwise.getD (pure [])).runAt { w₁ with head := temp₁ } = (.ok other, w₂) →
      other.Lands s temp₁ w₂.head →
      let last := if otherwise.isSome then temp₁ else temp₂
      let flag := if otherwise.isSome then 1 else 0
      Realizes s (branch cell body otherwise temp₁ temp₂) w { w₂ with head := last }
        [cell, temp₁, temp₂, w₁.head, w₂.head]
        (Decides cell temp₁ temp₂ last flag (inner.Ends s) (other.Ends s))) ∧
    (∀ (condition : Int → Emit Code) (first inner again : Code) (w₁ w₂ w₃ : Workbench),
      (condition cell).runAt w = (.ok first, w₁) → first.Lands s w.head w₁.head →
      body.runAt { w₁ with head := cell } = (.ok inner, w₂) → inner.Lands s cell w₂.head →
      (condition cell).runAt w₂ = (.ok again, w₃) → again.Lands s w₂.head w₃.head →
      Realizes s (loopWhile condition body cell) w { w₃ with head := cell } [w₁.head, cell, w₃.head]
        (Sequel (first.Ends s) (While cell (Sequel (inner.Ends s) (again.Ends s))))) ∧
    ∀ (inner : Code) (w₁ : Workbench),
      body.runAt { w with head := cell } = (.ok inner, w₁) → inner.Lands s cell w₁.head →
      Realizes s (loop cell body) w { w₁ with head := cell } [cell, w₁.head]
        (While cell (inner.Ends s)) := by
  refine ⟨?_, ?_, ?_⟩
  · intro otherwise temp₁ temp₂ inner other w₁ w₂ hd h₁ h₂ hinner hlands hother hlands'
    exact (Performs.branch hd hcell h₁ h₂ (.of_gives hinner hlands) (.of_gives hother hlands')
      id).realizes
  · intro condition first inner again w₁ w₂ w₃ hfirst hlands hinner hlands' hagain hlands''
    exact (Performs.loopWhile hcell (.of_gives hfirst hlands) (.of_gives hinner hlands')
      (.of_gives hagain hlands'') fun hf c hc => hf c (List.mem_cons_of_mem _ hc)).realizes
  · intro inner w₁ hinner hlands
    exact (Performs.loop hcell (.of_gives hinner hlands) id).realizes

/-- Sides that clear what decides about them, and a loop on a cell that its condition clears. -/
theorem combinators_run_bodies_clearing :
    let s : Setting := ⟨.w8, some 3, #[]⟩
    let w : Workbench := { cells := .ofSize 0 }
    Realizes s (branch 0 (clear 1) (some (clear 0)) 1 2) w { w with head := 1 } [0, 1, 2, 1, 0]
        (Decides 0 1 2 1 1 (Code.Ends s [.left, .enter, .dec, .leave])
          (Code.Ends s [.left, .enter, .dec, .leave])) ∧
      Realizes s (loopWhile clear (clear 1) 0) w w [0, 0, 0]
        (Sequel (Code.Ends s [.enter, .dec, .leave])
          (While 0 (Sequel (Code.Ends s [.right, .enter, .dec, .leave])
            (Code.Ends s [.left, .enter, .dec, .leave])))) ∧
      Realizes s (loop 0 (clear 1)) w w [0, 1]
        (While 0 (Code.Ends s [.right, .enter, .dec, .leave])) := by
  intro s w
  have hlands : ∀ {cell : Int} {w₀ w₁ : Workbench} {code : Code},
      (clear cell).runAt w₀ = (.ok code, w₁) → code.Lands s w₀.head w₁.head := fun h =>
    ((scripted_clear _).spells (fun _ => Plan.returns_clear _ _) h).1.lands
  have hleft₁ : (clear 1).runAt { w with head := 2 }
      = (.ok [.left, .enter, .dec, .leave], { w with head := 1 }) := rfl
  have hleft₀ : (clear 0).runAt { w with head := 1 }
      = (.ok [.left, .enter, .dec, .leave], { w with head := 0 }) := rfl
  have hright : (clear 1).runAt w
      = (.ok [.right, .enter, .dec, .leave], { w with head := 1 }) := rfl
  have hstay : (clear 0).runAt w = (.ok [.enter, .dec, .leave], w) := rfl
  obtain ⟨hbranch, hwhile, hloop⟩ := combinators_run_bodies s w (clear 1) 0 rfl
  refine ⟨?_, ?_, ?_⟩
  · exact hbranch (some (clear 0)) 1 2 _ _ _ _ (by decide) rfl rfl hleft₁ (hlands hleft₁)
      hleft₀ (hlands hleft₀)
  · exact hwhile clear _ _ _ _ _ _ hstay (hlands hstay) hright (hlands hright) hleft₀
      (hlands hleft₀)
  · exact hloop _ _ hright (hlands hright)

end Emit

end TapeScript
