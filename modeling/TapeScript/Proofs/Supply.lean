import TapeScript.Proofs.ScratchUse

set_option autoImplicit false

/-! # Scratch cells that suffice

Emission fails for want of scratch cells, or because two cells of a gadget coincide, a distance or a
number is too large, or something has no code at all. Where nothing of that kind can happen there is
code: with enough free scratch cells every value is emitted whose operators are known, whose
constants can be written out and whose variables lie behind the scratch cells
(`Node.emits_emitInto`), and so is a statement that stores such a value (`Node.StoresWithin.emits`).

Scratch cells lie below `base`, and all cells below `reach`, which is no longer than the largest
distance the head can be moved.
-/

namespace TapeScript

/-! ## Plans that stay in reach -/

/-- The cell is one of the first cells of the tape. -/
def InReach (reach cell : Int) : Prop := 0 ≤ cell ∧ cell < reach

/-- The operation does not move the head, and its count can be written out. -/
def Op.Still (op : Op) : Prop := op.shift = 0 ∧ (op.count : Int) < Emit.countBound

@[simp] theorem Op.still_inc {n : Nat} : (Op.inc n).Still ↔ (n : Int) < Emit.countBound := by
  simp [Still, shift, count]

@[simp] theorem Op.still_inc_one : (Op.inc 1).Still := ⟨rfl, by decide⟩

@[simp] theorem Op.still_dec_one : (Op.dec 1).Still := ⟨rfl, by decide⟩

@[simp] theorem Op.still_get : Op.get.Still := ⟨rfl, by decide⟩

namespace Plan

/-- The plan goes only to cells in reach, and moves the head in no other way. -/
def Spans (reach : Int) : Plan → Prop
  | .done => True
  | .go cell rest => InReach reach cell ∧ rest.Spans reach
  | .act op rest => op.Still ∧ rest.Spans reach
  | .loop body rest => body.Spans reach ∧ rest.Spans reach

@[simp] theorem spans_append {reach : Int} (p q : Plan) :
    (p ++ q).Spans reach ↔ p.Spans reach ∧ q.Spans reach := by
  induction p with
  | done => simp [Spans]
  | go cell rest ih => simp only [go_append, Spans, ih, and_assoc]
  | act op rest ih => simp only [act_append, Spans, ih, and_assoc]
  | loop body rest _ ih => simp only [loop_append, Spans, ih, and_assoc]

/-- Wherever in reach the head starts, the counts of the beats are not too large, and it ends in
reach. -/
theorem Spans.fits {reach : Int} (hreach : reach ≤ Emit.countBound) {p : Plan} (hp : p.Spans reach)
    {h : Int} (hh : InReach reach h) :
    Beat.FitsAll h p.beats ∧ InReach reach (Beat.headAll h p.beats) := by
  induction p generalizing h with
  | done => exact ⟨trivial, hh⟩
  | go cell rest ih =>
    obtain ⟨hfits, hhead⟩ := ih hp.2 hp.1
    obtain ⟨hnonneg, hlt⟩ := hh
    obtain ⟨hnonneg', hlt'⟩ := hp.1
    exact ⟨⟨⟨by omega, by omega⟩, hfits⟩, hhead⟩
  | act op rest ih =>
    have hstay : h + op.shift = h := by rw [hp.1.1, add_zero]
    have hrest := ih hp.2 hh
    rw [← hstay] at hrest
    exact ⟨⟨hp.1.2, hrest.1⟩, hrest.2⟩
  | loop body rest ihbody ihrest =>
    obtain ⟨hfits, hhead⟩ := ihbody hp.1 hh
    obtain ⟨hfits', hhead'⟩ := ihrest hp.2 hhead
    rw [beats, List.cons_append, Beat.FitsAll, Beat.headAll, Beat.fitsAll_append,
      Beat.headAll_append]
    exact ⟨⟨trivial, hfits, trivial, hfits'⟩, hhead'⟩

section Gadgets

variable {reach a b c d t1 t2 t3 t4 : Int}

@[simp] theorem one_lt_countBound : (1 : Int) < Emit.countBound := by decide

@[simp] theorem spans_clear : (clear a).Spans reach ↔ InReach reach a := by
  simp [clear, Spans]

@[simp] theorem spans_setCell {n : Nat} : (setCell a n).Spans reach ↔
    InReach reach a ∧ (n : Int) < Emit.countBound := by
  simp [setCell, Spans]

@[simp] theorem spans_loopAt {p : Plan} : (loopAt a p).Spans reach ↔
    InReach reach a ∧ p.Spans reach := by
  simp only [loopAt, Spans, spans_append]
  tauto

@[simp] theorem spans_copy : (copy a b c).Spans reach ↔
    InReach reach a ∧ InReach reach b ∧ InReach reach c := by
  simp only [copy, spans_append, spans_clear, spans_loopAt, Spans, Op.still_inc_one,
    Op.still_dec_one]
  tauto

theorem spans_branch {p q : Plan} (hp : p.Spans reach) (hq : q.Spans reach)
    (h : ∀ c ∈ [a, t1, t2], InReach reach c) : (branch a p q t1 t2).Spans reach := by
  simp_all [branch, once]

theorem spans_combine {op : Op} (hop : op.Still) (h : ∀ c ∈ [a, b, d, t1, t2], InReach reach c) :
    (combine op a b d t1 t2).Spans reach := by
  simp_all [combine, Spans]

theorem spans_equal (h : ∀ c ∈ [a, b, d, t1, t2], InReach reach c) :
    (equal a b d t1 t2).Spans reach := by
  simp_all [equal, spans_combine]

theorem spans_notEqual (h : ∀ c ∈ [a, b, d, t1, t2], InReach reach c) :
    (notEqual a b d t1 t2).Spans reach := by
  simp_all [notEqual, spans_combine]

theorem spans_greater (h : ∀ c ∈ [a, b, d, t1, t2, t3, t4], InReach reach c) :
    (greater a b d t1 t2 t3 t4).Spans reach := by
  have hfound : (branch t2 .done (clear t1 ++ setCell d 1) t3 t4).Spans reach :=
    spans_branch trivial (by simp_all) (by simp_all)
  have hcount : (branch t1 (.go t1 (.act (.dec 1) (.go t2 (.act (.dec 1) .done)))) .done
      t3 t4).Spans reach := spans_branch (by simp_all [Spans]) trivial (by simp_all)
  simp_all [greater, countBoth]

theorem spans_lessOrEqual (h : ∀ c ∈ [a, b, d, t1, t2, t3, t4], InReach reach c) :
    (lessOrEqual a b d t1 t2 t3 t4).Spans reach := by
  simp_all [lessOrEqual, negate, spans_greater]

end Gadgets

end Plan

/-! ## Emission by parts -/

/-- The head is in reach, and there are at least `n` free scratch cells: cells of the pool, all
different, below `base`. -/
structure Workbench.Supplied (base reach : Int) (n : Nat) (w : Workbench) : Prop where
  head : InReach reach w.head
  enough : n ≤ w.cells.free.length
  nodup : w.cells.free.Nodup
  low : ∀ c ∈ w.cells.free, 0 ≤ c ∧ c < base
  owned : ∀ c ∈ w.cells.free, c ∈ w.cells.scratch

/-- What is left after an emission that keeps `k` cells. -/
theorem Workbench.Supplied.after {base reach : Int} {n k m : Nat} {w w' : Workbench}
    (h : w.Supplied base reach n) (hspent : w.cells.Spent k w'.cells)
    (hhead : InReach reach w'.head) (hm : m + k ≤ n) : w'.Supplied base reach m := by
  refine ⟨hhead, ?_, h.nodup.sublist hspent.free, fun c hc => h.low c (hspent.free.subset hc),
    fun c hc => ?_⟩
  · have henough := h.enough
    have hlength := hspent.length
    omega
  · rw [hspent.scratch]
    exact h.owned c (hspent.free.subset hc)

namespace Emit

/-- With `n` free cells, all of them among the listed ones, there is code, and the head ends in
reach. -/
def Emits (base reach : Int) (F : List Int) (n : Nat) (e : Emit Code) : Prop :=
  ∀ w : Workbench, w.Supplied base reach n → w.cells.free ⊆ F →
    ∃ code w', Gives e w code w' ∧ InReach reach w'.head

section Parts

variable {base reach : Int} {F : List Int} {n m k : Nat} {e : Emit Code}

theorem Emits.mono (h : Emits base reach F m e) (hle : m ≤ n) : Emits base reach F n e := by
  intro w hw hfree
  exact h w (hw.after (CellTable.Spent.refl _) hw.head hle) hfree

theorem emits_scripted (hreach : reach ≤ countBound) {p : Plan} (hs : Scripted e p.beats)
    (hp : p.Spans reach) : Emits base reach F n e := by
  intro w hw _
  obtain ⟨hfits, hhead⟩ := hp.fits hreach hw.head
  refine ⟨Beat.codeAll w.head p.beats, { w with head := Beat.headAll w.head p.beats }, ?_, hhead⟩
  rw [show e = seq (p.beats.map Beat.emit) from hs, gives_beats]
  exact ⟨hfits, rfl, rfl⟩

theorem emits_nil : Emits base reach F n (seq []) := by
  intro w hw _
  exact ⟨[], w, gives_pure.mpr ⟨rfl, rfl⟩, hw.head⟩

/-- The first action leaves as many free cells as the others need. -/
theorem Emits.cons {es : List (Emit Code)} (h : Emits base reach F n e) (hk : Spends k e)
    (hs : Emits base reach F m (seq es)) (hle : m + k ≤ n) :
    Emits base reach F n (seq (e :: es)) := by
  intro w hw hfree
  obtain ⟨code, w1, hgives, hhead⟩ := h w hw hfree
  have hspent := hk w code w1 hgives
  obtain ⟨rest, w2, hgives', hhead'⟩ :=
    hs w1 (hw.after hspent hhead hle) (List.Subset.trans hspent.free.subset hfree)
  refine ⟨code ++ rest, w2, ?_, hhead'⟩
  rw [seq]
  simp only [gives_bind, gives_pure]
  exact ⟨code, w1, hgives, rest, w2, hgives', rfl, rfl⟩

/-- A cell that is taken: it was free, and is so no longer. -/
theorem exists_takeScratch {w : Workbench} (hw : w.Supplied base reach (n + 1))
    (hfree : w.cells.free ⊆ F) : ∃ c w1, Gives takeScratch w c w1 ∧ w1.Supplied base reach n ∧
      w.cells.free = c :: w1.cells.free ∧ w1.cells.scratch = w.cells.scratch ∧ c ∈ F ∧ 0 ≤ c ∧
      c < base ∧ w1.cells.free ⊆ F ∧ c ∉ w1.cells.free := by
  cases hcells : w.cells.free with
  | nil =>
    have henough := hw.enough
    simp [hcells] at henough
  | cons c rest =>
    have hnodup := hw.nodup
    have hlow := hw.low
    have henough := hw.enough
    have howned := hw.owned
    rw [hcells] at hnodup hlow henough hfree howned
    obtain ⟨hnot, hrest⟩ := List.nodup_cons.mp hnodup
    obtain ⟨hmem, hsub⟩ := List.cons_subset.mp hfree
    refine ⟨c, _, gives_takeScratch.mpr ⟨rest, hcells, rfl⟩, ?_, rfl, rfl, hmem,
      (hlow c (by simp)).1, (hlow c (by simp)).2, hsub, hnot⟩
    refine ⟨hw.head, ?_, hrest, fun d hd => hlow d (by simp [hd]), fun d hd => howned d (by simp [hd])⟩
    simpa using henough

theorem Emits.borrow {f : Int → Emit Code} (hk : ∀ c, Spends k (f c))
    (h : ∀ c G, c ∈ F → 0 ≤ c → c < base → G ⊆ F → c ∉ G → Emits base reach G n (f c)) :
    Emits base reach F (n + 1) (borrow f) := by
  intro w hw hfree
  obtain ⟨c, w1, htake, hw1, hcons, hscratch, hmem, hnonneg, hlow, hsub, hnot⟩ :=
    exists_takeScratch hw hfree
  obtain ⟨code, w2, hgives, hhead⟩ :=
    h c w1.cells.free hmem hnonneg hlow hsub hnot w1 hw1 (List.Subset.refl _)
  have hspent := hk c w1 code w2 hgives
  have hback : c ∉ w2.cells.free := fun hc => hnot (hspent.free.subset hc)
  have howned : c ∈ w2.cells.scratch := by
    rw [hspent.scratch, hscratch]
    exact hw.owned c (by simp [hcons])
  have hgive : Gives (giveBack c) w2 () _ := gives_giveBack.mpr ⟨hback, howned, rfl⟩
  have hborrow : Gives (Emit.borrow f) w code _ := gives_bind.mpr ⟨c, w1, htake,
    gives_bind.mpr ⟨code, w2, hgives, gives_bind.mpr ⟨(), _, hgive, gives_pure.mpr ⟨rfl, rfl⟩⟩⟩⟩
  exact ⟨code, _, hborrow, hhead⟩

/-- Two cells are borrowed, one after the other. -/
theorem Emits.borrowTwo {f : Int → Int → Emit Code} (hbase : base ≤ reach)
    (hk : ∀ a b, Spends k (f a b))
    (h : ∀ a b G, InReach reach a → InReach reach b → a < base → b < base → [a, b] ⊆ F → G ⊆ F →
      [a, b].Nodup → a ∉ G → b ∉ G → Emits base reach G n (f a b)) :
    Emits base reach F (n + 2) (Emit.borrow fun a => Emit.borrow fun b => f a b) := by
  refine Emits.borrow (fun a => Spends.borrow (hk a)) fun a G ha hnonneg hlt hsub hnot => ?_
  refine Emits.borrow (hk a) fun b G' hb hnonneg' hlt' hsub' hnot' => ?_
  exact h a b G' ⟨hnonneg, by omega⟩ ⟨hnonneg', by omega⟩ hlt hlt' (by simp [ha, hsub hb])
    (List.Subset.trans hsub' hsub) (by grind) (fun hc => hnot (hsub' hc)) hnot'

theorem Emits.keep {f : Int → Emit Code}
    (h : ∀ c G, c ∈ F → 0 ≤ c → c < base → G ⊆ F → c ∉ G → Emits base reach G n (f c)) :
    Emits base reach F (n + 1) (takeScratch >>= f) := by
  intro w hw hfree
  obtain ⟨c, w1, htake, hw1, -, -, hmem, hnonneg, hlow, hsub, hnot⟩ := exists_takeScratch hw hfree
  obtain ⟨code, w2, hgives, hhead⟩ :=
    h c w1.cells.free hmem hnonneg hlow hsub hnot w1 hw1 (List.Subset.refl _)
  exact ⟨code, w2, gives_bind.mpr ⟨c, w1, htake, hgives⟩, hhead⟩

end Parts

end Emit

/-! ## Values -/

namespace Node

open Emit Plan

variable {base reach : Int}

/-- The operators that have code. -/
def operators : List String := ["+", "-", "==", "!=", ">=", "<=", ">", "<"]

/-- The value has code that can be emitted: its constants can be written out, its variables lie
behind the scratch cells, and its operators are known. -/
def Emittable (base reach : Int) : Node → Prop
  | .constant value ready => ready = true ∧ 0 ≤ value ∧ value < countBound
  | .load symbol => ∃ c, symbol.location = some c ∧ base ≤ c ∧ c < reach
  | .input => True
  | .binary _ op left right =>
    op ∈ operators ∧ left.Emittable base reach ∧ right.Emittable base reach
  | _ => False

/-- A number of scratch cells with which the value can be emitted: one for each variable and six for
each operator. -/
def supply : Node → Nat
  | .load _ => 1
  | .binary _ _ left right => left.supply + right.supply + 6
  | _ => 0

/-- The scratch cells that additions keep are among them. -/
theorem additions_le_supply : ∀ n : Node, n.Emittable base reach → 2 * n.additions ≤ n.supply
  | .constant _ _, _ => Nat.le_refl 0
  | .load _, _ => Nat.zero_le 1
  | .input, _ => Nat.le_refl 0
  | .binary _ op left right, h => by
    have hleft := additions_le_supply left h.2.1
    have hright := additions_le_supply right h.2.2
    rw [additions, supply]
    split_ifs <;> omega

section Operators

variable (hreach : reach ≤ countBound) {F : List Int} {a b dest : Int}

include hreach

/-- The operators that order their operands. -/
theorem emits_ordering {op : String} {compare : Int → Int → Int → Int → Int → Int → Int → Emit Code}
    {n : Nat} {t1 t2 t3 t4 : Int} (hop : ordering? op = some compare)
    (h : ∀ c ∈ [a, b, dest, t1, t2, t3, t4], InReach reach c)
    (hd : [a, b, dest, t1, t2, t3, t4].Nodup) :
    Emits base reach F n (compare a b dest t1 t2 t3 t4) := by
  unfold ordering? at hop
  split_ifs at hop with hge hle hgt hlt
  · cases hop
    exact emits_scripted hreach (scripted_greaterOrEqual hd) (spans_lessOrEqual (by simp_all))
  · cases hop
    exact emits_scripted hreach (scripted_lessOrEqual hd) (spans_lessOrEqual h)
  · cases hop
    exact emits_scripted hreach (scripted_greater hd) (spans_greater h)
  · cases hop
    exact emits_scripted hreach (scripted_less hd) (spans_greater (by simp_all))

variable (hbase : base ≤ reach)

include hbase

/-- The operators but addition, behind their first two scratch cells. -/
theorem emits_operateWith {op : String} (hop : op ∈ operators) (hadd : op ≠ "+") {t1 t2 : Int}
    (h : ∀ c ∈ [a, b, dest, t1, t2], InReach reach c) (hd : [a, b, dest, t1, t2].Nodup)
    (hfresh : ∀ c ∈ [a, b, dest, t1, t2], c ∉ F) :
    Emits base reach F 2 (operateWith op a b dest t1 t2) := by
  have hcells : op = "-" ∨ op = "==" ∨ op = "!=" ∨ (ordering? op).isSome := by
    simp only [operators, List.mem_cons, List.not_mem_nil, or_false] at hop
    rcases hop with rfl | rfl | rfl | rfl | rfl | rfl | rfl | rfl <;> simp [ordering?] at hadd ⊢
  rcases hcells with rfl | rfl | rfl | hordering
  · exact emits_scripted hreach (scripted_subtract hd) (spans_combine (by simp) h)
  · exact emits_scripted hreach (scripted_equal hd) (spans_equal h)
  · exact emits_scripted hreach (scripted_notEqual hd) (spans_notEqual h)
  · obtain ⟨compare, hcompare⟩ := Option.isSome_iff_exists.mp hordering
    have hwith : operateWith op a b dest t1 t2 = borrow fun t3 => borrow fun t4 =>
        compare a b dest t1 t2 t3 t4 := by
      unfold operateWith
      unfold ordering? at hcompare
      split_ifs at hcompare with hge hle hgt hlt
      all_goals
        cases hcompare
        simp_all [ordering?]
    rw [hwith]
    exact Emits.borrowTwo hbase (spends_ordering hcompare a b dest t1 t2)
      fun t3 t4 G h3 h4 _ _ hsub _ hd' _ _ => emits_ordering hreach hcompare (by simp_all) (by grind)

theorem emits_operate {op : String} (hop : op ∈ operators)
    (h : ∀ c ∈ [a, b, dest], InReach reach c) (hd : [a, b, dest].Nodup)
    (hfresh : ∀ c ∈ [a, b, dest], c ∉ F) : Emits base reach F 4 (operate op a b dest) := by
  by_cases hadd : op = "+"
  · rw [hadd, operate_add]
    refine Emits.mono (m := 2) (Emits.keep fun t1 G hm1 hn1 hl1 hs1 hf1 => Emits.keep
      fun t2 G' hm2 hn2 hl2 _ _ => ?_) (by omega)
    have h1 : InReach reach t1 := ⟨hn1, by omega⟩
    have h2 : InReach reach t2 := ⟨hn2, by omega⟩
    exact emits_scripted hreach (scripted_add (by grind)) (spans_combine (by simp) (by simp_all))
  · rw [operate_of_ne hadd]
    exact Emits.borrowTwo hbase (spends_operateWith op a b dest)
      fun t1 t2 G h1 h2 _ _ hsub hG hd' hf1 hf2 =>
        emits_operateWith hreach hbase hop hadd (by simp_all) (by grind) (by grind)

end Operators

variable {F : List Int}

/-- **With enough scratch cells there is code for a value.** A variable cannot be stored in its own
cell. -/
theorem emits_emitInto (hreach : reach ≤ countBound) (hbase : base ≤ reach) :
    ∀ (n : Node) (cell : Int) (F : List Int), n.Emittable base reach → InReach reach cell →
      cell ∉ F → (∀ symbol, n = .load symbol → symbol.location ≠ some cell) →
      (∀ c ∈ F, c < base) → Emits base reach F n.supply (n.emitInto cell)
  | .constant value ready, cell, F, h, hcell, _, _, _ => by
    obtain ⟨rfl, hnonneg, hlt⟩ := h
    rw [emitInto]
    exact emits_scripted hreach (scripted_setCell cell hnonneg)
      (spans_setCell.mpr ⟨hcell, by omega⟩)
  | .load symbol, cell, F, h, hcell, hfresh, hother, hlow => by
    obtain ⟨source, hsource, hge, hlt⟩ := h
    rw [emitInto_load, hsource]
    refine Emits.borrow (fun temp => spends_copy source cell temp) fun temp G hm hn hl _ _ => ?_
    have hne : source ≠ cell := fun heq => hother symbol rfl (heq ▸ hsource)
    have hd : [source, cell, temp].Nodup := by grind
    exact emits_scripted hreach (scripted_copy hd)
      (spans_copy.mpr ⟨⟨by omega, hlt⟩, hcell, hn, by omega⟩)
  | .input, cell, F, _, hcell, _, _, _ => by
    rw [emitInto]
    have hs : Scripted (seq [moveTo cell, one .get]) (Plan.go cell (.act .get .done)).beats :=
      (scripted_moveTo cell).cons ((scripted_one .get rfl rfl).cons .nil)
    exact emits_scripted hreach hs (by simp [Spans, hcell])
  | .binary level op left right, cell, F, ⟨hop, hleft, hright⟩, hcell, hfresh, _, hlow => by
    rw [emitInto_binary, supply]
    have hkept := additions_le_supply left hleft
    have hkept' := additions_le_supply right hright
    have hspends : ∀ c1 c2, Spends _ (seq [left.emitInto c1, right.emitInto c2,
        operate op c1 c2 cell]) := fun c1 c2 => (spends_emitInto left c1).cons
      ((spends_emitInto right c2).pair (spends_operate op c1 c2 cell))
    refine Emits.borrowTwo hbase hspends fun c1 c2 G h1 h2 hl1 hl2 hsub hG hd hf1 hf2 => ?_
    have hlow' : ∀ c ∈ G, c < base := fun c hc => hlow c (hG hc)
    -- a scratch cell is the cell of no variable
    have hscratch : ∀ c, c < base → ∀ n : Node, n.Emittable base reach →
        ∀ symbol, n = .load symbol → symbol.location ≠ some c := by
      rintro c hc _ hn symbol rfl heq
      obtain ⟨source, hsource, hge, -⟩ := hn
      rw [hsource, Option.some_inj] at heq
      omega
    have hfirst := emits_emitInto hreach hbase left c1 G hleft h1 hf1 (hscratch c1 hl1 left hleft) hlow'
    have hsecond := emits_emitInto hreach hbase right c2 G hright h2 hf2
      (hscratch c2 hl2 right hright) hlow'
    have hlast : Emits base reach G 4 (operate op c1 c2 cell) :=
      emits_operate hreach hbase hop (by simp_all) (by grind) (by grind)
    refine (hfirst.mono (by omega)).cons (m := right.supply + 4) (spends_emitInto left c1) ?_
      (by omega)
    refine (hsecond.mono (by omega)).cons (m := 4) (spends_emitInto right c2) ?_ (by omega)
    exact hlast.cons (spends_operate op c1 c2 cell) (m := 0) emits_nil (by unfold kept; split_ifs <;> omega)

/-! ## Statements that store values -/

/-- The statement stores a value in a cell behind the scratch cells, with the help of so many of
them. -/
inductive StoresWithin (base reach : Int) : Nat → Node → Prop where
  | zero {symbol : Symbol} {cell : Int} (hlocation : symbol.location = some cell)
      (hlow : base ≤ cell) (hlt : cell < reach) : StoresWithin base reach 0 (.declare symbol none)
  | declare {symbol : Symbol} {cell : Int} {value : Node} (hlocation : symbol.location = some cell)
      (hlow : base ≤ cell) (hlt : cell < reach) (hvalue : value.Emittable base reach)
      (hother : ∀ other, value = .load other → other.location ≠ some cell) :
      StoresWithin base reach value.supply (.declare symbol (some value))
  | assign {symbol : Symbol} {cell : Int} {value : Node} (hlocation : symbol.location = some cell)
      (hlow : base ≤ cell) (hlt : cell < reach) (hvalue : value.Emittable base reach)
      (hother : ∀ other, value = .load other → other.location ≠ some cell) :
      StoresWithin base reach value.supply (.assign symbol value)

theorem StoresWithin.additions_le {k : Nat} {n : Node} (h : n.StoresWithin base reach k) :
    2 * n.additions ≤ k := by
  cases h with
  | zero => exact Nat.le_refl 0
  | declare _ _ _ hvalue _ =>
    rw [additions]
    exact additions_le_supply _ hvalue
  | assign _ _ _ hvalue _ =>
    rw [additions]
    exact additions_le_supply _ hvalue

theorem emits_emitAt (hreach : reach ≤ countBound) (hbase : base ≤ reach) (hpos : 0 ≤ base)
    (hlow : ∀ c ∈ F, c < base) {symbol : Symbol} {cell : Int} {value : Node}
    (hlocation : symbol.location = some cell) (hge : base ≤ cell) (hlt : cell < reach)
    (hvalue : value.Emittable base reach)
    (hother : ∀ other, value = .load other → other.location ≠ some cell) :
    Emits base reach F value.supply (value.emitAt symbol) := by
  have hfresh : cell ∉ F := fun hc => by
    have := hlow cell hc
    omega
  have hinto : value.emitAt symbol = value.emitInto cell := by
    unfold emitAt
    simp only [hlocation]
  rw [hinto]
  exact emits_emitInto hreach hbase value cell F hvalue ⟨by omega, hlt⟩ hfresh hother hlow

theorem StoresWithin.emits (hreach : reach ≤ countBound) (hbase : base ≤ reach) (hpos : 0 ≤ base)
    (hlow : ∀ c ∈ F, c < base) {k : Nat} {n : Node} (h : n.StoresWithin base reach k) :
    Emits base reach F k n.emit := by
  cases h with
  | @zero symbol cell hlocation hge hlt =>
    rw [emit, hlocation]
    exact emits_scripted hreach (scripted_setCell cell (le_refl 0))
      (spans_setCell.mpr ⟨⟨by omega, hlt⟩, countBound_pos⟩)
  | declare hlocation hge hlt hvalue hother | assign hlocation hge hlt hvalue hother =>
    rw [emit]
    exact emits_emitAt hreach hbase hpos hlow hlocation hge hlt hvalue hother

end Node

end TapeScript
