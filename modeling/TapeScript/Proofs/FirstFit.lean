import Mathlib.Order.Bounds.Basic
import TapeScript.Proofs.Ownership

set_option autoImplicit false

/-! # Which free block is handed out

A table hands out a block of cells that are all free (`CellTable.block_freeStart_free`), but not always
the first one. After a conflict the search goes on behind the cell in use by as many cells as were
free before it, and a block that starts among these is passed over. So the block is the first one
exactly if no block stands there (`CellTable.firstFit_iff`). That is so in every table for single cells
only: for each larger size there is a table in which a block is passed over.
-/

namespace TapeScript.CellTable

/-- A block of the given size can be handed out at `start`. -/
def Fits (t : CellTable) (size start : Int) : Prop :=
  0 ≤ start ∧ ∀ c, start ≤ c → c < start + size → c ∉ t.taken

/-- The new table differs from the old one in that the cells of a block are in use. -/
structure Reserves (t : CellTable) (size start : Int) (t' : CellTable) : Prop where
  taken_iff : ∀ c, c ∈ t'.taken ↔ c ∈ t.taken ∨ (start ≤ c ∧ c < start + size)
  scratch_eq : t'.scratch = t.scratch
  free_eq : t'.free = t.free
  maxScratch_eq : t'.maxScratch = t.maxScratch

/-- The block handed out is the first one that is free. -/
def FirstFit (t : CellTable) (size : Int) : Prop :=
  ∃ start t', t.allocate size = .ok (start, t') ∧ IsLeast {s | t.Fits size s} start ∧
    t.Reserves size start t'

/-- At `start` a hole of `gap` free cells ends before the block does. -/
structure Blocked (taken : List Int) (size start gap : Int) : Prop where
  gap_nonneg : 0 ≤ gap
  gap_lt : gap < size
  used : start + gap ∈ taken
  free : ∀ c, start ≤ c → c < start + gap → c ∉ taken

/-- Where the search for a block comes by: behind a hole it leaves out as many cells as the hole
has. -/
inductive Visits (taken : List Int) (size : Int) : Int → Int → Prop where
  | here (start : Int) : Visits taken size start start
  | skip {start gap place : Int} (h : Blocked taken size start gap)
      (rest : Visits taken size (start + gap + gap + 1) place) : Visits taken size start place

/-- A block at `s` is left out behind a hole that the search meets. -/
def LeftOut (taken : List Int) (size start s : Int) : Prop :=
  ∃ place gap, Visits taken size start place ∧ Blocked taken size place gap ∧
    place + gap < s ∧ s ≤ place + gap + gap

variable {taken : List Int} {size start stop : Int}

theorem blocked_of_conflict? {i : Nat} (h : conflict? taken start size = some i) :
    Blocked taken size start i := by
  obtain ⟨hused, hrange, hfree⟩ := List.find?_range_eq_some.mp h
  have hlt : i < size.toNat := List.mem_range.mp hrange
  refine ⟨by omega, by omega, by simpa using hused, fun c hle hc => ?_⟩
  -- a cell of the hole is at an offset that was looked at before
  have hcell : start + ((c - start).toNat : Int) = c := by omega
  have hnot := hfree (c - start).toNat (by omega)
  rw [hcell] at hnot
  simpa using hnot

theorem Blocked.unique {gap gap' : Int} (h : Blocked taken size start gap)
    (h' : Blocked taken size start gap') : gap = gap' := by
  rcases Int.lt_trichotomy gap gap' with hlt | heq | hlt
  · have := h.gap_nonneg
    exact absurd h.used (h'.free _ (by omega) (by omega))
  · exact heq
  · have := h'.gap_nonneg
    exact absurd h'.used (h.free _ (by omega) (by omega))

theorem not_blocked_of_free (hfree : ∀ c ∈ block start size, c ∉ taken) (gap : Int) :
    ¬ Blocked taken size start gap := by
  intro h
  have := h.gap_nonneg
  have := h.gap_lt
  exact hfree _ (mem_block.mpr ⟨by omega, by omega⟩) h.used

/-- A free block is not found exactly if it is left out. -/
theorem Searches.lt_iff_leftOut (h : Searches taken size start stop) {s : Int} (hs : start ≤ s)
    (hfree : ∀ c, s ≤ c → c < s + size → c ∉ taken) :
    s < stop ↔ LeftOut taken size start s := by
  induction h with
  | @found start hnone =>
    constructor
    · intro hlt
      omega
    · rintro ⟨place, gap, hvisits, hblocked, -, -⟩
      have hclear := not_blocked_of_free (free_of_conflict?_eq_none hnone)
      cases hvisits with
      | here => exact absurd hblocked (hclear gap)
      | skip hfirst _ => exact absurd hfirst (hclear _)
  | @skip start stop i hconflict rest ih =>
    have hblocked := blocked_of_conflict? hconflict
    have hgap := hblocked.gap_lt
    -- the cell in use rules out the starts up to it
    have hbehind : start + i < s := by
      by_contra hle
      exact hfree _ (by omega) (by omega) hblocked.used
    by_cases hshadow : s ≤ start + i + i
    · have hlt : s < stop := by
        have := rest.start_le
        omega
      exact iff_of_true hlt ⟨start, i, .here start, hblocked, hbehind, hshadow⟩
    · rw [ih (by omega)]
      constructor
      · rintro ⟨place, gap, hvisits, hplace, hlo, hhi⟩
        exact ⟨place, gap, .skip hblocked hvisits, hplace, hlo, hhi⟩
      · rintro ⟨place, gap, hvisits, hplace, hlo, hhi⟩
        cases hvisits with
        | here =>
          have := hplace.unique hblocked
          omega
        | skip hfirst hrest =>
          obtain rfl := hfirst.unique hblocked
          exact ⟨place, gap, hrest, hplace, hlo, hhi⟩

/-! ## What a table hands out -/

theorem fits_freeStart (t : CellTable) (size : Int) : t.Fits size (t.freeStart size) :=
  ⟨t.freeStart_nonneg size, fun c hle hlt =>
    t.block_freeStart_free size c (mem_block.mpr ⟨hle, hlt⟩)⟩

theorem exists_reserves (t : CellTable) (hsize : 0 < size) :
    ∃ t', t.allocate size = .ok (t.freeStart size, t') ∧ t.Reserves size (t.freeStart size) t' := by
  refine ⟨{ t with taken := t.taken ++ block (t.freeStart size) size }, ?_, ?_, rfl, rfl, rfl⟩
  · rw [allocate, if_neg (by omega)]
  · intro c
    rw [List.mem_append, mem_block]

theorem lt_freeStart_iff (t : CellTable) {s : Int} (hs : t.Fits size s) :
    s < t.freeStart size ↔ LeftOut t.taken size 0 s :=
  (t.searches_freeStart size).lt_iff_leftOut hs.1 hs.2

theorem firstFit_iff (t : CellTable) (hsize : 0 < size) :
    t.FirstFit size ↔ ∀ s, t.Fits size s → ¬ LeftOut t.taken size 0 s := by
  obtain ⟨t', hallocate, hreserves⟩ := t.exists_reserves hsize
  constructor
  · rintro ⟨start, t'', hstart, hleast, -⟩ s hs hleft
    obtain ⟨rfl, -⟩ : start = t.freeStart size ∧ t'' = t' := by
      simpa using hstart.symm.trans hallocate
    have := hleast.2 hs
    have := (t.lt_freeStart_iff hs).mpr hleft
    omega
  · intro hnone
    refine ⟨_, t', hallocate, ⟨t.fits_freeStart size, fun s hs => ?_⟩, hreserves⟩
    by_contra hlt
    exact hnone s hs ((t.lt_freeStart_iff hs).mp (by omega))

/-- Single cells leave no room for a hole. -/
theorem not_leftOut_one (s : Int) : ¬ LeftOut taken 1 start s := by
  rintro ⟨place, gap, -, hblocked, hlo, hhi⟩
  have := hblocked.gap_nonneg
  have := hblocked.gap_lt
  omega

/-- A table in which one cell is in use, so that there is a hole before it that a block just fails to
fit into. -/
def withHole (size : Int) : CellTable := ⟨[], [], [size - 1], 0⟩

theorem not_firstFit_withHole (h : 1 < size) : ¬ (withHole size).FirstFit size := by
  rw [firstFit_iff _ (by omega)]
  intro hnone
  have hfits : (withHole size).Fits size size := by
    refine ⟨by omega, fun c hle _ hmem => ?_⟩
    have := List.mem_singleton.mp hmem
    omega
  have hblocked : Blocked (withHole size).taken size 0 (size - 1) := by
    refine ⟨by omega, by omega, List.mem_singleton.mpr (by omega), fun c _ hlt hmem => ?_⟩
    have := List.mem_singleton.mp hmem
    omega
  exact hnone size hfits ⟨0, size - 1, .here 0, hblocked, by omega, by omega⟩

/-- **Blocks are handed out where they fit, but not always first.** Every positive number of cells is
handed out, in a block that was free, and nothing but these cells changes. Of the other blocks that
fit, those and only those before it have been left out behind a hole. So the block is the first one
that fits if and only if no block that fits is left out, and all tables hand out the first one for
single cells but for no other size. -/
theorem allocate_leaves_out (t : CellTable) {size : Int} (hsize : 0 < size) :
    (∃ start t', t.allocate size = .ok (start, t') ∧ t.Fits size start ∧ t.Reserves size start t' ∧
      ∀ s, t.Fits size s → (s < start ↔ LeftOut t.taken size 0 s)) ∧
    (t.FirstFit size ↔ ∀ s, t.Fits size s → ¬ LeftOut t.taken size 0 s) ∧
    ((∀ t : CellTable, t.FirstFit size) ↔ size = 1) := by
  refine ⟨?_, t.firstFit_iff hsize, ?_⟩
  · obtain ⟨t', hallocate, hreserves⟩ := t.exists_reserves hsize
    exact ⟨_, t', hallocate, t.fits_freeStart size, hreserves, fun s hs => t.lt_freeStart_iff hs⟩
  · constructor
    · intro hall
      by_contra hne
      exact not_firstFit_withHole (by omega) (hall _)
    · rintro rfl t
      exact (t.firstFit_iff hsize).mpr fun s _ => not_leftOut_one s

example : ((ofPool [0, 2]).allocate 1).toOption.map Prod.fst = some 1 := by decide +kernel

/-- Two holes before the block, which starts behind cells that are free. -/
theorem allocate_leaves_out_twoHoles :
    0 < (3 : Int) ∧ ∃ start t', (ofPool [1, 4]).allocate 3 = .ok (start, t') ∧
      start = 6 ∧ LeftOut (ofPool [1, 4]).taken 3 0 5 := by
  obtain ⟨⟨start, t', hallocate, -, -, hbefore⟩, -, -⟩ :=
    allocate_leaves_out (ofPool [1, 4]) (by decide : (0 : Int) < 3)
  have hstart : start = 6 := by
    have hcompute : ∃ t'', (ofPool [1, 4]).allocate 3 = .ok (6, t'') := ⟨_, rfl⟩
    obtain ⟨t'', ht''⟩ := hcompute
    cases hallocate.symm.trans ht''
    rfl
  have hfits : (ofPool [1, 4]).Fits 3 5 := by
    refine ⟨by decide, fun c hle _ hmem => ?_⟩
    have hmem : c = 1 ∨ c = 4 := by simpa [ofPool] using hmem
    omega
  exact ⟨by decide, start, t', hallocate, hstart, (hbefore 5 hfits).mp (by omega)⟩

/-- Cell 1 is in use, and the two cells behind it are free, but the block starts one cell later. -/
theorem allocate_misses_first_fit :
    (∃ t', (ofPool [1]).allocate 2 = .ok (3, t')) ∧ (ofPool [1]).Fits 2 2 ∧
      ¬ (ofPool [1]).FirstFit 2 := by
  have hallocate : ∃ t', (ofPool [1]).allocate 2 = .ok (3, t') := ⟨_, rfl⟩
  have hfits : (ofPool [1]).Fits 2 2 := by
    refine ⟨by decide, fun c hle _ hmem => ?_⟩
    have := List.mem_singleton.mp (List.mem_eraseDups.mp hmem)
    omega
  refine ⟨hallocate, hfits, ?_⟩
  rintro ⟨start, t'', hstart, hleast, -⟩
  obtain ⟨t', ht'⟩ := hallocate
  cases hstart.symm.trans ht'
  have := hleast.2 hfits
  omega

end TapeScript.CellTable
