import TapeScript.Proofs.ScratchUse

set_option autoImplicit false

/-! # Two emissions side by side

The same node can be emitted at two workbenches that differ in where the head stands, in how many
scratch cells there are, and in where the variables lie. A `Pairing` says which workbenches go
together and which cells take each other's place. Scratch cells have to be handed out alike, except
that the second workbench may have too few of them. Then each emission that succeeds at the first
workbench succeeds at the second one too, or runs out of scratch cells there (`Pairing.Matches`).
-/

namespace TapeScript

namespace Emit

/-! ## Running out of scratch cells -/

/-- The action fails for want of a scratch cell. -/
def Starves {α : Type} (e : Emit α) (w : Workbench) : Prop :=
  ∃ w', runFrom e w = (.error .outOfScratch, w')

section Starves

variable {α β : Type} {e : Emit α} {f : α → Emit β} {w w1 : Workbench} {a : α}

theorem Starves.bind (h : Starves e w) : Starves (e >>= f) w := by
  obtain ⟨w', hrun⟩ := h
  exact ⟨w', by rw [runFrom_bind, hrun]⟩

theorem Starves.bind_of_gives (hg : Gives e w a w1) (h : Starves (f a) w1) : Starves (e >>= f) w := by
  obtain ⟨w', hrun⟩ := h
  have hfirst : runFrom e w = (.ok a, w1) := hg
  refine ⟨w', ?_⟩
  rw [runFrom_bind, hfirst]
  exact hrun

theorem starves_takeScratch (h : w.cells.free = []) : Starves takeScratch w := by
  have htake : w.cells.take = .error .outOfScratch := by rw [CellTable.take, h]
  have hget : Gives (get : Emit Workbench) w w w := gives_get.mpr ⟨rfl, rfl⟩
  refine Starves.bind_of_gives hget (Starves.bind ⟨w, ?_⟩)
  rw [htake]
  rfl

end Starves

/-! ## Cells within reach -/

/-- A cell that counted moves reach from every other such cell. -/
def Reachable (cell : Int) : Prop := 0 ≤ cell ∧ cell < countBound

theorem Reachable.fits {h cell : Int} (hh : Reachable h) (hc : Reachable cell) :
    (Beat.go cell).Fits h := by
  obtain ⟨hlow, hhigh⟩ := hh
  obtain ⟨hlow', hhigh'⟩ := hc
  exact ⟨by omega, by omega⟩

/-- Both actions change nothing but the head. If the first succeeds anywhere, the second succeeds from
every cell within reach and stays within reach. -/
def Follows (e e' : Emit Code) : Prop :=
  ∀ w code w1, Gives e w code w1 → w1 = { w with head := w1.head } ∧
    ∀ w', Reachable w'.head → ∃ code' h', Gives e' w' code' { w' with head := h' } ∧ Reachable h'

section Follows

variable {e e' : Emit Code}

theorem follows_throw (f : Fault) : Follows (throw f) e' := by
  intro w code w1 hg
  exact absurd hg gives_throw

theorem follows_pure (code code' : Code) : Follows (pure code) (pure code') := by
  intro w _ w1 hg
  obtain ⟨-, rfl⟩ := gives_pure.mp hg
  exact ⟨rfl, fun w' hw' => ⟨code', w'.head, gives_pure.mpr ⟨rfl, rfl⟩, hw'⟩⟩

theorem follows_one (cmd : Cmd) : Follows (one cmd) (one cmd) := follows_pure [cmd] [cmd]

theorem follows_moveTo (c : Int) {c' : Int} (hc : Reachable c') : Follows (moveTo c) (moveTo c') := by
  intro w _ w1 hg
  obtain ⟨-, -, rfl⟩ := gives_moveTo.mp hg
  exact ⟨rfl, fun w' hw' => ⟨_, c', gives_moveTo.mpr ⟨hw'.fits hc, rfl, rfl⟩, hc⟩⟩

theorem follows_plus (n : Int) : Follows (plus n) (plus n) := by
  intro w _ w1 hg
  obtain ⟨hlow, hhigh, -, rfl⟩ := gives_repeated.mp hg
  exact ⟨rfl, fun w' hw' => ⟨_, w'.head, gives_repeated.mpr ⟨hlow, hhigh, rfl, rfl⟩, hw'⟩⟩

theorem follows_seq {es es' : List (Emit Code)} (h : List.Forall₂ Follows es es') :
    Follows (seq es) (seq es') := by
  induction h with
  | nil => exact follows_pure [] []
  | cons he _ ih =>
    intro w code w2 hg
    simp only [seq, gives_bind, gives_pure] at hg
    obtain ⟨c, w1, hg1, d, _, hg2, rfl, rfl⟩ := hg
    obtain ⟨hw1, hfirst⟩ := he w c w1 hg1
    obtain ⟨hw2, hrest⟩ := ih w1 d w2 hg2
    refine ⟨by rw [hw2, hw1], fun w' hw' => ?_⟩
    obtain ⟨c', h1, hg1', hreach1⟩ := hfirst w' hw'
    obtain ⟨d', h2, hg2', hreach2⟩ := hrest { w' with head := h1 } hreach1
    refine ⟨c' ++ d', h2, ?_, hreach2⟩
    simp only [seq, gives_bind, gives_pure]
    exact ⟨c', _, hg1', d', _, hg2', rfl, rfl⟩

end Follows

end Emit

open Emit

/-- Workbenches that go together, and the cells that take each other's place. A workbench is `short`
if so many scratch cells have been taken there that the other one may lack some. -/
structure Pairing where
  cells : Int → Int → Prop
  benches : Workbench → Workbench → Prop
  short : Workbench → Prop
  reachable : ∀ {c c'}, cells c c' → Reachable c'
  eq_of_eq : ∀ {c d c' d'}, cells c c' → cells d d' → c' = d' → c = d
  head : ∀ {w w'}, benches w w' → Reachable w'.head
  goto : ∀ {w w'}, benches w w' → ∀ h h', Reachable h' →
    benches { w with head := h } { w' with head := h' }
  take : ∀ {w w' c w1}, benches w w' → Gives takeScratch w c w1 →
    (∃ w1', Gives takeScratch w' c w1' ∧ benches w1 w1' ∧ cells c c) ∨
      Starves takeScratch w' ∧ short w1
  giveBack : ∀ {w w' c u w1}, benches w w' → cells c c → Gives (giveBack c) w u w1 →
    ∃ w1', Gives (giveBack c) w' () w1' ∧ benches w1 w1'
  short_mono : ∀ {w w1 : Workbench}, short w → w.cells.maxScratch ≤ w1.cells.maxScratch → short w1

namespace Pairing

variable {R : Pairing}
variable {cells cells' : List Int}

/-! ## Gadgets -/

/-- Lists of cells that take each other's place. -/
abbrev Cells (R : Pairing) : List Int → List Int → Prop := List.Forall₂ R.cells

theorem Cells.exists_mem (h : R.Cells cells cells') {c' : Int} (hmem : c' ∈ cells') :
    ∃ c ∈ cells, R.cells c c' := by
  induction h with
  | nil => cases hmem
  | @cons c d' rest _ hc _ ih =>
    rcases List.mem_cons.mp hmem with rfl | hmem
    · exact ⟨c, List.mem_cons_self, hc⟩
    · obtain ⟨d, hd, hpair⟩ := ih hmem
      exact ⟨d, List.mem_cons_of_mem c hd, hpair⟩

theorem Cells.nodup (h : R.Cells cells cells') (hd : cells.Nodup) : cells'.Nodup := by
  induction h with
  | nil => exact List.nodup_nil
  | cons hc hrest ih =>
    obtain ⟨hnot, hd⟩ := List.nodup_cons.mp hd
    refine List.nodup_cons.mpr ⟨fun hmem => hnot ?_, ih hd⟩
    obtain ⟨d, hd, hpair⟩ := Cells.exists_mem hrest hmem
    rw [R.eq_of_eq hc hpair rfl]
    exact hd

/-- Behind checks for distinct cells. -/
theorem follows_checked {g : Gadget} {f f' : Unit → Emit Code} (hcells : R.Cells cells cells')
    (h : Follows (f ()) (f' ())) :
    Follows (needDistinct g cells >>= f) (needDistinct g cells' >>= f') := by
  intro w code w1 hg
  obtain ⟨_, _, hcheck, hf⟩ := gives_bind.mp hg
  obtain ⟨hd, rfl⟩ := gives_needDistinct.mp hcheck
  rw [needDistinct_bind (hcells.nodup hd)]
  exact h _ code w1 hf

section Gadgets

variable {a a' b b' d d' s s' t t' u u' v v' : Int}

theorem follows_clear (hd : R.cells d d') : Follows (clear d) (clear d') :=
  follows_seq (by simp [follows_moveTo _ (R.reachable hd), follows_one])

theorem follows_setCell (hd : R.cells d d') (value : Int) :
    Follows (setCell d value) (setCell d' value) := by
  unfold setCell
  by_cases h : value < 0
  · rw [if_pos h]
    exact follows_throw _
  · rw [if_neg h, if_neg h]
    exact follows_seq (by simp [follows_clear hd, follows_moveTo _ (R.reachable hd), follows_plus])

theorem follows_copy (ha : R.cells a a') (hd : R.cells d d') (ht : R.cells t t') :
    Follows (copy a d t) (copy a' d' t') :=
  follows_checked (R := R) (by simp [ha, hd, ht]) (follows_seq (by
    simp [follows_clear hd, follows_clear ht, follows_moveTo _ (R.reachable ha),
      follows_moveTo _ (R.reachable hd), follows_moveTo _ (R.reachable ht), follows_one]))

theorem follows_loop (hd : R.cells d d') {e e' : Emit Code} (h : Follows e e') :
    Follows (loop d e) (loop d' e') :=
  follows_seq (by simp [follows_moveTo _ (R.reachable hd), follows_one, h])

theorem follows_branch (hd : R.cells d d') (hs : R.cells s s') (ht : R.cells t t')
    {e1 e1' e2 e2' : Emit Code} (h1 : Follows e1 e1') (h2 : Follows e2 e2') :
    Follows (branch d e1 (some e2) s t) (branch d' e1' (some e2') s' t') := by
  refine follows_checked (R := R) (by simp [hd, hs, ht]) ?_
  have honce {e e' : Emit Code} (h : Follows e e') :
      Follows (seq [e, clear s, clear t]) (seq [e', clear s', clear t']) :=
    follows_seq (by simp [h, follows_clear hs, follows_clear ht])
  exact follows_seq (by
    simp [follows_copy hd ht hs, follows_setCell hs, follows_loop ht (honce h1),
      follows_loop hs (honce h2)])

theorem follows_combine (cmd : Cmd) (ha : R.cells a a') (hb : R.cells b b') (hd : R.cells d d')
    (hs : R.cells s s') (ht : R.cells t t') :
    Follows (combine cmd a b d s t) (combine cmd a' b' d' s' t') :=
  follows_seq (by
    simp [follows_clear hd, follows_copy ha hd hs, follows_copy hb ht hs, follows_one,
      follows_moveTo _ (R.reachable ht), follows_moveTo _ (R.reachable hd)])

theorem follows_add (ha : R.cells a a') (hb : R.cells b b') (hd : R.cells d d')
    (hs : R.cells s s') (ht : R.cells t t') : Follows (add a b d s t) (add a' b' d' s' t') :=
  follows_checked (R := R) (by simp [ha, hb, hd, hs, ht]) (follows_combine .inc ha hb hd hs ht)

theorem follows_subtract (ha : R.cells a a') (hb : R.cells b b') (hd : R.cells d d')
    (hs : R.cells s s') (ht : R.cells t t') :
    Follows (subtract a b d s t) (subtract a' b' d' s' t') :=
  follows_checked (R := R) (by simp [ha, hb, hd, hs, ht]) (follows_combine .dec ha hb hd hs ht)

theorem follows_equal (ha : R.cells a a') (hb : R.cells b b') (hd : R.cells d d')
    (hs : R.cells s s') (ht : R.cells t t') : Follows (equal a b d s t) (equal a' b' d' s' t') := by
  refine follows_checked (R := R) (by simp [ha, hb, hd, hs, ht]) (follows_seq ?_)
  have hbody : Follows (seq [clear s, clear d]) (seq [clear s', clear d']) :=
    follows_seq (by simp [follows_clear hs, follows_clear hd])
  simp [follows_subtract ha hb hs hd ht, follows_setCell hd, follows_loop hs hbody]

theorem follows_notEqual (ha : R.cells a a') (hb : R.cells b b') (hd : R.cells d d')
    (hs : R.cells s s') (ht : R.cells t t') :
    Follows (notEqual a b d s t) (notEqual a' b' d' s' t') := by
  refine follows_checked (R := R) (by simp [ha, hb, hd, hs, ht]) (follows_seq ?_)
  have hbody : Follows (seq [clear s, setCell d 1]) (seq [clear s', setCell d' 1]) :=
    follows_seq (by simp [follows_clear hs, follows_setCell hd])
  simp [follows_subtract ha hb hs hd ht, follows_clear hd, follows_loop hs hbody]

theorem follows_greater (ha : R.cells a a') (hb : R.cells b b') (hd : R.cells d d')
    (hs : R.cells s s') (ht : R.cells t t') (hu : R.cells u u') (hv : R.cells v v') :
    Follows (greater a b d s t u v) (greater a' b' d' s' t' u' v') := by
  refine follows_checked (R := R) (by simp [ha, hb, hd, hs, ht, hu, hv]) (follows_seq ?_)
  have hwon : Follows (seq [clear s, setCell d 1]) (seq [clear s', setCell d' 1]) :=
    follows_seq (by simp [follows_clear hs, follows_setCell hd])
  have hdown : Follows (seq [moveTo s, one .dec, moveTo t, one .dec])
      (seq [moveTo s', one .dec, moveTo t', one .dec]) :=
    follows_seq (by
      simp [follows_moveTo _ (R.reachable hs), follows_moveTo _ (R.reachable ht), follows_one])
  have hempty : Follows (pure []) (pure []) := follows_pure [] []
  have hbody := follows_seq (.cons (follows_branch ht hu hv hempty hwon)
    (.cons (follows_branch hs hu hv hdown hempty) .nil))
  simp [follows_clear hd, follows_copy ha hs hu, follows_copy hb ht hu, follows_loop hs hbody]

theorem follows_negate (ha : R.cells a a') (hd : R.cells d d') (hs : R.cells s s')
    (ht : R.cells t t') : Follows (negate a d s t) (negate a' d' s' t') := by
  refine follows_checked (R := R) (by simp [ha, hd, hs, ht]) (follows_seq ?_)
  have hbody : Follows (seq [clear s, clear d]) (seq [clear s', clear d']) :=
    follows_seq (by simp [follows_clear hs, follows_clear hd])
  simp [follows_copy ha hs ht, follows_setCell hd, follows_loop hs hbody]

theorem follows_lessOrEqual (ha : R.cells a a') (hb : R.cells b b') (hd : R.cells d d')
    (hs : R.cells s s') (ht : R.cells t t') (hu : R.cells u u') (hv : R.cells v v') :
    Follows (lessOrEqual a b d s t u v) (lessOrEqual a' b' d' s' t' u' v') :=
  follows_checked (R := R) (by simp [ha, hb, hd, hs, ht, hu, hv]) (follows_seq
    (.cons (follows_greater ha hb hs ht hu hv hd) (.cons (follows_negate hs hd ht hu) .nil)))

/-- The four operators that order their operands. -/
theorem follows_ordering (ha : R.cells a a') (hb : R.cells b b') (hd : R.cells d d')
    (hs : R.cells s s') (ht : R.cells t t') (hu : R.cells u u') (hv : R.cells v v') {op : String}
    {compare : Int → Int → Int → Int → Int → Int → Int → Emit Code}
    (hop : Node.ordering? op = some compare) :
    Follows (compare a b d s t u v) (compare a' b' d' s' t' u' v') := by
  have hcells : R.Cells [a, b, d, s, t, u, v] [a', b', d', s', t', u', v'] := by
    simp [ha, hb, hd, hs, ht, hu, hv]
  unfold Node.ordering? at hop
  split_ifs at hop with hge hle hgt hlt
  · cases hop
    exact follows_checked hcells (follows_lessOrEqual hb ha hd hs ht hu hv)
  · cases hop
    exact follows_lessOrEqual ha hb hd hs ht hu hv
  · cases hop
    exact follows_greater ha hb hd hs ht hu hv
  · cases hop
    exact follows_checked hcells (follows_greater hb ha hd hs ht hu hv)

end Gadgets

/-! ## Emission by parts -/

/-- What the first action does at a workbench, the second one does at those that go with it, unless it
runs out of scratch cells. -/
structure Matches (R : Pairing) (k : Nat) (e e' : Emit Code) : Prop where
  spends : Spends k e
  pairs : ∀ {w code w1 w'}, Gives e w code w1 → R.benches w w' →
    (∃ code' w1', Gives e' w' code' w1' ∧ R.benches w1 w1') ∨ Starves e' w' ∧ R.short w1

section Parts

variable {k k' : Nat} {e e' : Emit Code}

theorem matches_throw {f : Fault} : R.Matches k (throw f) e' :=
  ⟨spends_throw f, fun hg => absurd hg gives_throw⟩

/-- Actions that change nothing but the head. -/
theorem matches_of_follows (h : Follows e e') : R.Matches 0 e e' := by
  refine ⟨spends_of_gives fun w code w1 hg => ?_, fun {w code w1 w'} hg hpair => .inl ?_⟩
  · rw [(h w code w1 hg).1]
  · obtain ⟨hw, hsucceeds⟩ := h w code w1 hg
    obtain ⟨code', h', hg', hreach⟩ := hsucceeds w' (R.head hpair)
    refine ⟨code', _, hg', ?_⟩
    rw [hw]
    exact R.goto hpair _ _ hreach

theorem Matches.cons {es es' : List (Emit Code)} (h : R.Matches k e e')
    (hs : R.Matches k' (seq es) (seq es')) : R.Matches (k + k') (seq (e :: es)) (seq (e' :: es')) := by
  refine ⟨h.spends.cons hs.spends, fun {w code w2 w'} hg hpair => ?_⟩
  simp only [seq, gives_bind, gives_pure] at hg
  obtain ⟨c, w1, hg1, d, _, hg2, rfl, rfl⟩ := hg
  rcases h.pairs hg1 hpair with ⟨c', w1', hg1', hpair1⟩ | ⟨hstarves, hshort⟩
  · rcases hs.pairs hg2 hpair1 with ⟨d', w2', hg2', hpair2⟩ | ⟨hstarves, hshort⟩
    · refine .inl ⟨c' ++ d', w2', ?_, hpair2⟩
      simp only [seq, gives_bind, gives_pure]
      exact ⟨c', w1', hg1', d', w2', hg2', rfl, rfl⟩
    · exact .inr ⟨.bind_of_gives hg1' hstarves.bind, hshort⟩
  · exact .inr ⟨hstarves.bind, R.short_mono hshort (hs.spends _ _ _ hg2).maxScratch⟩

theorem matches_nil : R.Matches 0 (seq []) (seq []) := matches_of_follows (follows_pure [] [])

theorem Matches.pair {f f' : Emit Code} (h : R.Matches k e e') (h' : R.Matches k' f f') :
    R.Matches (k + k') (seq [e, f]) (seq [e', f']) :=
  h.cons (h'.cons matches_nil)

theorem Matches.loop (h : R.Matches k e e') {c c' : Int} (hc : R.cells c c') :
    R.Matches k (loop c e) (loop c' e') := by
  unfold Emit.loop
  have hmove : R.Matches 0 (moveTo c) (moveTo c') :=
    matches_of_follows (follows_moveTo c (R.reachable hc))
  have hall := hmove.cons ((matches_of_follows (follows_one .enter)).cons (h.cons (hmove.cons
    ((matches_of_follows (follows_one .leave)).cons matches_nil))))
  simpa only [Nat.zero_add, Nat.add_zero] using hall

/-- Behind checks for distinct cells. -/
theorem Matches.checked {g : Gadget} {f f' : Unit → Emit Code} (hcells : R.Cells cells cells')
    (h : R.Matches k (f ()) (f' ())) :
    R.Matches k (needDistinct g cells >>= f) (needDistinct g cells' >>= f') := by
  refine ⟨.checked fun _ => h.spends, fun {w code w1 w'} hg hpair => ?_⟩
  obtain ⟨_, _, hcheck, hf⟩ := gives_bind.mp hg
  obtain ⟨hd, rfl⟩ := gives_needDistinct.mp hcheck
  rw [needDistinct_bind (hcells.nodup hd)]
  exact h.pairs hf hpair

theorem Matches.lift {α : Type} {x : Except Fault α} {f f' : α → Emit Code}
    (h : ∀ a, x = .ok a → R.Matches k (f a) (f' a)) :
    R.Matches k (liftM x >>= f) (liftM x >>= f') := by
  refine ⟨.lift fun a ha => (h a ha).spends, fun {w code w1 w'} hg hpair => ?_⟩
  obtain ⟨a, hx, hf⟩ := gives_lift_bind.mp hg
  rcases (h a hx).pairs hf hpair with ⟨code', w1', hf', hpair'⟩ | ⟨hstarves, hshort⟩
  · exact .inl ⟨code', w1', gives_lift_bind.mpr ⟨a, hx, hf'⟩, hpair'⟩
  · exact .inr ⟨.bind_of_gives (gives_lift.mpr ⟨hx, rfl⟩) hstarves, hshort⟩

/-- A cell that is taken and kept. -/
theorem Matches.keep {f f' : Int → Emit Code} (hf : ∀ c, Spends k (f c))
    (h : ∀ c, R.cells c c → R.Matches k (f c) (f' c)) :
    R.Matches (k + 1) (takeScratch >>= f) (takeScratch >>= f') := by
  refine ⟨.keep hf, fun {w code w1 w'} hg hpair => ?_⟩
  obtain ⟨c, w2, htake, hg⟩ := gives_bind.mp hg
  rcases R.take hpair htake with ⟨w2', htake', hpair2, hc⟩ | ⟨hstarves, hshort⟩
  · rcases (h c hc).pairs hg hpair2 with ⟨code', w1', hg', hpair'⟩ | ⟨hstarves, hshort⟩
    · exact .inl ⟨code', w1', gives_bind.mpr ⟨c, w2', htake', hg'⟩, hpair'⟩
    · exact .inr ⟨hstarves.bind_of_gives htake', hshort⟩
  · exact .inr ⟨hstarves.bind, R.short_mono hshort (hf c _ _ _ hg).maxScratch⟩

theorem Matches.borrow {f f' : Int → Emit Code} (hf : ∀ c, Spends k (f c))
    (h : ∀ c, R.cells c c → R.Matches k (f c) (f' c)) :
    R.Matches k (borrow f) (borrow f') := by
  refine ⟨.borrow hf, fun {w code w3 w'} hg hpair => ?_⟩
  simp only [Emit.borrow, gives_bind, gives_pure] at hg
  obtain ⟨c, w1, htake, code, w2, hg, u, w3, hgive, rfl, rfl⟩ := hg
  have hmax : w2.cells.maxScratch ≤ w3.cells.maxScratch := by
    obtain ⟨-, -, rfl⟩ := gives_giveBack.mp hgive
    exact le_refl _
  rcases R.take hpair htake with ⟨w1', htake', hpair1, hc⟩ | ⟨hstarves, hshort⟩
  · rcases (h c hc).pairs hg hpair1 with ⟨code', w2', hg', hpair2⟩ | ⟨hstarves, hshort⟩
    · obtain ⟨w3', hgive', hpair3⟩ := R.giveBack hpair2 hc hgive
      refine .inl ⟨code', w3', ?_, hpair3⟩
      simp only [Emit.borrow, gives_bind, gives_pure]
      exact ⟨c, w1', htake', code', w2', hg', (), w3', hgive', rfl, rfl⟩
    · exact .inr ⟨.bind_of_gives htake' hstarves.bind, R.short_mono hshort hmax⟩
  · have hle := le_trans (hf c _ _ _ hg).maxScratch hmax
    exact .inr ⟨hstarves.bind, R.short_mono hshort hle⟩

end Parts

/-! ## Branches -/

section Branches

variable {k k' : Nat} {e e' f f' : Emit Code} {c c' s s' t t' : Int}

/-- A side of a branch clears both scratch cells behind its body. -/
theorem Matches.once (h : R.Matches k e e') (hs : R.cells s s') (ht : R.cells t t') :
    R.Matches k (seq [e, clear s, clear t]) (seq [e', clear s', clear t']) :=
  h.cons ((matches_of_follows (follows_clear hs)).pair (matches_of_follows (follows_clear ht)))

theorem Matches.branch (h : R.Matches k e e') (h' : R.Matches k' f f') (hc : R.cells c c')
    (hs : R.cells s s') (ht : R.cells t t') :
    R.Matches (k + k') (branch c e (some f) s t) (branch c' e' (some f') s' t') := by
  refine Matches.checked (by simp [hc, hs, ht]) ?_
  have hsides := ((h.once hs ht).loop ht).pair ((h'.once hs ht).loop hs)
  have hall := (matches_of_follows (follows_copy hc ht hs)).cons
    ((matches_of_follows (follows_setCell hs 1)).cons hsides)
  simpa only [Nat.zero_add] using hall

theorem Matches.branch_none (h : R.Matches k e e') (hc : R.cells c c') (hs : R.cells s s')
    (ht : R.cells t t') : R.Matches k (Emit.branch c e none s t) (Emit.branch c' e' none s' t') := by
  refine Matches.checked (by simp [hc, hs, ht]) ?_
  have hall := (matches_of_follows (follows_copy hc ht hs)).pair ((h.once hs ht).loop ht)
  simpa only [Nat.zero_add] using hall

end Branches

end Pairing

/-! ## Nodes with other cells -/

def Symbol.relocate (place : Int → Int) (symbol : Symbol) : Symbol :=
  { symbol with location := symbol.location.map place }

namespace Node

section Relocate

variable (place : Int → Int)

mutual

/-- The node with its variables at other cells. -/
def relocate : Node → Node
  | .load symbol => .load (symbol.relocate place)
  | .binary level op left right => .binary level op left.relocate right.relocate
  | .unary op operand => .unary op operand.relocate
  | .declare symbol none => .declare (symbol.relocate place) none
  | .declare symbol (some initial) => .declare (symbol.relocate place) (some initial.relocate)
  | .assign symbol value => .assign (symbol.relocate place) value.relocate
  | .block body => .block (relocateAll body)
  | .ifElse condition body none => .ifElse condition.relocate body.relocate none
  | .ifElse condition body (some otherwise) =>
    .ifElse condition.relocate body.relocate (some otherwise.relocate)
  | .loop condition body => .loop condition.relocate body.relocate
  | .output value => .output value.relocate
  | .exprStmt value => .exprStmt value.relocate
  | .bare symbol => .bare (symbol.relocate place)
  | n => n

def relocateAll : List Node → List Node
  | [] => []
  | n :: ns => n.relocate :: relocateAll ns

end

theorem codeKind_relocate (n : Node) : (n.relocate place).codeKind = n.codeKind := by
  cases n with
  | declare symbol initial => cases initial <;> rfl
  | ifElse condition body otherwise => cases otherwise <;> rfl
  | _ => rfl

theorem hasCode_relocate (n : Node) : (n.relocate place).hasCode = n.hasCode := by
  rw [hasCode, hasCode, codeKind_relocate]

end Relocate

mutual

/-- The cells of the variables in a node. -/
def varCells : Node → List Int
  | .load symbol => symbol.location.toList
  | .binary _ _ left right => left.varCells ++ right.varCells
  | .declare symbol none => symbol.location.toList
  | .declare symbol (some initial) => symbol.location.toList ++ initial.varCells
  | .assign symbol value => symbol.location.toList ++ value.varCells
  | .block body => varCellsAll body
  | .ifElse condition body none => condition.varCells ++ body.varCells
  | .ifElse condition body (some otherwise) =>
    condition.varCells ++ (body.varCells ++ otherwise.varCells)
  | .loop condition body => condition.varCells ++ body.varCells
  | .output value => value.varCells
  | _ => []

def varCellsAll : List Node → List Int
  | [] => []
  | n :: ns => n.varCells ++ varCellsAll ns

end

open Pairing

variable {R : Pairing} {place : Int → Int}

/-- The variables of the node take their new places. -/
def Placed (R : Pairing) (place : Int → Int) (cells : List Int) : Prop :=
  ∀ c ∈ cells, R.cells c (place c)

theorem Placed.append {cs ds : List Int} :
    Placed R place (cs ++ ds) ↔ Placed R place cs ∧ Placed R place ds :=
  List.forall_mem_append

/-! ## Operators and values -/

theorem matches_operateWith (op : String) {a a' b b' d d' s s' t t' : Int} (ha : R.cells a a')
    (hb : R.cells b b') (hd : R.cells d d') (hs : R.cells s s') (ht : R.cells t t') :
    R.Matches 0 (operateWith op a b d s t) (operateWith op a' b' d' s' t') := by
  unfold operateWith
  split_ifs
  · exact matches_throw
  · exact matches_throw
  · exact matches_of_follows (follows_subtract ha hb hd hs ht)
  · exact matches_of_follows (follows_equal ha hb hd hs ht)
  · exact matches_of_follows (follows_notEqual ha hb hd hs ht)
  · cases hord : ordering? op with
    | some compare =>
      have hspends := spends_ordering hord a b d s t
      refine Matches.borrow (fun u => .borrow fun v => hspends u v) fun u hu =>
        Matches.borrow (hspends u) fun v hv => ?_
      exact matches_of_follows (follows_ordering ha hb hd hs ht hu hv hord)
    | none =>
      refine ⟨fun w code w' hg => ?_, fun hg => ?_⟩
      · simp only [gives_bind, gives_throw, and_false, exists_false] at hg
      · simp only [gives_bind, gives_throw, and_false, exists_false] at hg

theorem matches_operate (op : String) {a a' b b' d d' : Int} (ha : R.cells a a')
    (hb : R.cells b b') (hd : R.cells d d') :
    R.Matches (kept op) (operate op a b d) (operate op a' b' d') := by
  by_cases hadd : op = "+"
  · rw [hadd, operate_add, operate_add]
    refine Matches.keep (fun s => .keep fun t => .gadget scripted_add) fun s hs =>
      Matches.keep (fun t => .gadget scripted_add) fun t ht => ?_
    exact matches_of_follows (follows_add ha hb hd hs ht)
  · rw [operate_of_ne hadd, operate_of_ne hadd, kept, if_neg hadd]
    have hspends := spends_operateWith op a b d
    exact Matches.borrow (fun s => .borrow fun t => hspends s t) fun s hs =>
      Matches.borrow (hspends s) fun t ht => matches_operateWith op ha hb hd hs ht

/-- The code of a value in a cell, and that of the relocated value in the cell in its place. -/
theorem matches_emitInto : ∀ (n : Node) {cell cell' : Int}, R.cells cell cell' →
    Placed R place n.varCells →
      R.Matches (2 * n.additions) (n.emitInto cell) ((n.relocate place).emitInto cell')
  | .constant value true, _, _, hcell, _ => matches_of_follows (follows_setCell hcell value)
  | .load symbol, cell, cell', hcell, hplaced => by
    rw [relocate, emitInto_load, emitInto_load]
    refine Matches.borrow (fun temp => ?_) fun temp htemp => ?_
    · cases symbol.location with
      | none => exact spends_throw _
      | some source => exact spends_copy source cell temp
    · cases hloc : symbol.location with
      | none => exact matches_throw
      | some source =>
        have hsource : R.cells source (place source) := hplaced source (by simp [varCells, hloc])
        rw [Symbol.relocate, hloc]
        exact matches_of_follows (follows_copy hsource hcell htemp)
  | .input, cell, _, hcell, _ => matches_of_follows (follows_seq
      (.cons (follows_moveTo cell (R.reachable hcell)) (.cons (follows_one .get) .nil)))
  | .binary _ op left right, cell, cell', hcell, hplaced => by
    obtain ⟨hleft, hright⟩ := Placed.append.mp hplaced
    have hspends (c1 c2 : Int) := (spends_emitInto left c1).cons
      ((spends_emitInto right c2).pair (spends_operate op c1 c2 cell))
    rw [relocate, emitInto_binary, emitInto_binary, additions, ← kept_add]
    refine Matches.borrow (fun c1 => .borrow (hspends c1)) fun c1 h1 =>
      Matches.borrow (hspends c1) fun c2 h2 => ?_
    exact (matches_emitInto left h1 hleft).cons
      ((matches_emitInto right h2 hright).pair (matches_operate op h1 h2 hcell))
  | .constant _ false, _, _, _, _ | .unary _ _, _, _, _, _ | .declare _ _, _, _, _, _
  | .assign _ _, _, _, _, _ | .block _, _, _, _, _ | .ifElse _ _ _, _, _, _, _
  | .loop _ _, _, _, _, _ | .output _, _, _, _, _ | .exprStmt _, _, _, _, _
  | .newName _, _, _, _, _ | .nop _, _, _, _, _ | .program _, _, _, _, _ | .withheld _, _, _, _, _
  | .bare _, _, _, _, _ | .blank, _, _, _, _ | .misfit, _, _, _, _
  | .deep, _, _, _, _ => matches_throw

theorem matches_emitAt (n : Node) (symbol : Symbol)
    (hsymbol : Placed R place symbol.location.toList) (hplaced : Placed R place n.varCells) :
    R.Matches (2 * n.additions) (n.emitAt symbol)
      ((n.relocate place).emitAt (symbol.relocate place)) := by
  refine ⟨spends_emitAt n symbol, fun {w code w1 w'} hg hpair => ?_⟩
  cases hloc : symbol.location with
  | none =>
    simp only [emitAt, hloc] at hg
    split at hg
    · exact absurd hg gives_throw
    · simp only [gives_bind, gives_throw, and_false, exists_false] at hg
    · exact absurd hg gives_throw
  | some cell =>
    have hcell : R.cells cell (place cell) := hsymbol cell (by simp [hloc])
    simp only [emitAt, Symbol.relocate, hloc, Option.map_some] at hg ⊢
    exact (matches_emitInto n hcell hplaced).pairs hg hpair

/-! ## Statements -/

theorem matches_emitSides {body otherwise : Node} {first first' second second' : Emit Code}
    (hfirst : R.Matches (2 * body.additions) first first')
    (hsecond : R.Matches (2 * otherwise.additions) second second') {c c' s s' t t' : Int}
    (hc : R.cells c c') (hs : R.cells s s') (ht : R.cells t t') :
    R.Matches (2 * body.additions + 2 * otherwise.additions)
      (emitSides body otherwise first second c s t)
      (emitSides (body.relocate place) (otherwise.relocate place) first' second' c' s' t') := by
  unfold emitSides
  rw [hasCode_relocate, hasCode_relocate]
  refine Matches.lift fun _ _ => Matches.lift fun ready hready => ?_
  cases ready with
  | true => exact hfirst.branch hsecond hc hs ht
  | false =>
    rw [additions_of_hasCode hready]
    exact hfirst.branch_none hc hs ht

theorem matches_emitRounds {condition body : Node} {rounds rounds' : Emit Code}
    (hcondition : Placed R place condition.varCells)
    (hrounds : R.Matches (2 * body.additions) rounds rounds') {c c' : Int} (hc : R.cells c c') :
    R.Matches (2 * (2 * condition.additions + body.additions))
      (emitRounds condition body rounds c)
      (emitRounds (condition.relocate place) (body.relocate place) rounds' c') := by
  unfold emitRounds
  rw [hasCode_relocate, hasCode_relocate]
  refine Matches.lift fun _ _ => Matches.lift fun _ _ => ?_
  have htest := matches_emitInto condition hc hcondition
  have hcount : 2 * condition.additions + (2 * body.additions + 2 * condition.additions) =
      2 * (2 * condition.additions + body.additions) := by omega
  rw [← hcount]
  exact htest.pair ((hrounds.pair htest).loop hc)

mutual

/-- **A relocated statement is emitted like the statement itself.** -/
theorem matches_emit : ∀ n : Node, Placed R place n.varCells →
    R.Matches (2 * n.additions) n.emit (n.relocate place).emit
  | .declare symbol none, hplaced => by
    rw [relocate, emit, emit]
    cases hloc : symbol.location with
    | none => exact matches_throw
    | some cell =>
      have hcell : R.cells cell (place cell) := hplaced cell (by simp [varCells, hloc])
      rw [Symbol.relocate, hloc]
      exact matches_of_follows (follows_setCell hcell 0)
  | .declare symbol (some initial), hplaced => by
    obtain ⟨hsymbol, hinitial⟩ := Placed.append.mp hplaced
    rw [relocate, emit, emit]
    exact matches_emitAt initial symbol hsymbol hinitial
  | .assign symbol value, hplaced => by
    obtain ⟨hsymbol, hvalue⟩ := Placed.append.mp hplaced
    rw [relocate, emit, emit]
    exact matches_emitAt value symbol hsymbol hvalue
  | .block body, hplaced => by
    rw [relocate, emit, emit]
    exact matches_emitAll body hplaced
  | .ifElse condition body none, hplaced => by
    refine ⟨spends_emit _, fun hg => ?_⟩
    rw [emit, emitBranch_eq] at hg
    simp only [Emit.borrow, seq, gives_bind, gives_throw, and_false, exists_false, false_and] at hg
  | .ifElse condition body (some otherwise), hplaced => by
    obtain ⟨hcondition, hsides⟩ := Placed.append.mp hplaced
    obtain ⟨hbody, hotherwise⟩ := Placed.append.mp hsides
    have hspends (c s t : Int) := (spends_emitInto condition c).pair
      (spends_emitSides (spends_emit body) (spends_emit otherwise) c s t)
    rw [relocate, emit_ifElse, emit_ifElse, additions, Nat.mul_add, Nat.mul_add, Nat.add_assoc]
    refine Matches.borrow (fun c => .borrow fun s => .borrow (hspends c s)) fun c hc =>
      Matches.borrow (fun s => .borrow (hspends c s)) fun s hs =>
        Matches.borrow (hspends c s) fun t ht => ?_
    exact (matches_emitInto condition hc hcondition).pair
      (matches_emitSides (matches_emit body hbody) (matches_emit otherwise hotherwise) hc hs ht)
  | .loop condition body, hplaced => by
    obtain ⟨hcondition, hbody⟩ := Placed.append.mp hplaced
    rw [relocate, emit_loop, emit_loop]
    exact Matches.borrow (spends_emitRounds condition (spends_emit body)) fun c hc =>
      matches_emitRounds hcondition (matches_emit body hbody) hc
  | .output value, hplaced => by
    rw [relocate, emit, emit, emitOutput_eq, emitOutput_eq]
    have hspends (temp : Int) := (spends_emitInto value temp).cons (spends_scripted
      ((scripted_moveTo temp).cons ((scripted_one .put rfl rfl).cons .nil)))
    refine Matches.borrow hspends fun temp htemp => ?_
    exact (matches_emitInto value htemp hplaced).cons (matches_of_follows (follows_seq
      (.cons (follows_moveTo temp (R.reachable htemp)) (.cons (follows_one .put) .nil))))
  | .constant _ _, _ | .load _, _ | .input, _ | .binary _ _ _ _, _ | .unary _ _, _ | .exprStmt _, _
  | .newName _, _ | .nop _, _ | .program _, _ | .withheld _, _ | .bare _, _ | .blank, _
  | .misfit, _ | .deep, _ => matches_throw

theorem matches_emitAll : ∀ ns : List Node, Placed R place (varCellsAll ns) →
    R.Matches (2 * additionsAll ns) (emitAll ns) (emitAll (relocateAll place ns))
  | [], _ => matches_nil
  | n :: ns, hplaced => by
    obtain ⟨hfirst, hrest⟩ := Placed.append.mp hplaced
    have hrest := matches_emitAll ns hrest
    rw [emitAll_eq, emitAll_eq] at hrest ⊢
    rw [additionsAll, Nat.mul_add]
    exact (matches_emit n hfirst).cons hrest

end

end Node

end TapeScript
