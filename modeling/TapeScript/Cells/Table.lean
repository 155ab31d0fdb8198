import TapeScript.Fault

set_option autoImplicit false

/-! # Handing out cells

A `CellTable` knows which cells of the tape are in use. Some of them form the scratch pool:
they are taken one at a time from its front and go back to its front. All other cells are handed
out in blocks of consecutive cells (`CellTable.allocate`), though not always in the first that is free.
-/

namespace TapeScript

/-- `scratch` is the pool as it was given, `free` the part of it not handed out, `taken` the cells
in use (those of the pool included), and `maxScratch` one more than the largest scratch cell ever
handed out. -/
structure CellTable where
  scratch : List Int
  free : List Int
  taken : List Int
  maxScratch : Int

namespace CellTable

def ofPool (pool : List Int) : CellTable :=
  { scratch := pool, free := pool, taken := pool.eraseDups, maxScratch := 0 }

/-- A pool of the first `n` cells. -/
def ofSize (n : Int) : CellTable := ofPool ((List.range n.toNat).map Int.ofNat)

/-! ## Scratch cells -/

/-- Hands out the first free scratch cell. -/
def take (t : CellTable) : Except Fault (Int × CellTable) :=
  match t.free with
  | [] => .error .outOfScratch
  | cell :: rest => .ok (cell, { t with free := rest, maxScratch := max t.maxScratch (cell + 1) })

/-- Puts a scratch cell back to the front of the pool. -/
def giveBack (t : CellTable) (cell : Int) : Except Fault CellTable :=
  if cell ∈ t.free then .error .alreadyFree
  else if cell ∈ t.scratch then .ok { t with free := cell :: t.free }
  else .error .notScratch

/-! ## Blocks -/

/-- The cells of a block. -/
def block (start size : Int) : List Int :=
  (List.range size.toNat).map fun (i : Nat) => start + (i : Int)

/-- The offset of the first cell of a block that is in use. -/
def conflict? (taken : List Int) (start size : Int) : Option Nat :=
  (List.range size.toNat).find? fun (i : Nat) => decide (start + (i : Int) ∈ taken)

/-- Searches a free block from `start` on. After a conflict at offset `i` the search goes on
`2 * i + 1` cells further. Each conflict passes a cell in use, so that as many rounds as there
are such cells suffice. -/
def searchFrom (taken : List Int) (size : Int) : Nat → Int → Int
  | 0, start => start
  | rounds + 1, start =>
    match conflict? taken start size with
    | none => start
    | some i => searchFrom taken size rounds (start + i + i + 1)

/-- The start of a free block. -/
def freeStart (t : CellTable) (size : Int) : Int := searchFrom t.taken size t.taken.length 0

/-- Hands out a block of consecutive cells. -/
def allocate (t : CellTable) (size : Int) : Except Fault (Int × CellTable) :=
  if size ≤ 0 then .error .sizeNotPositive
  else
    let start := t.freeStart size
    .ok (start, { t with taken := t.taken ++ block start size })

/-- Takes cells out of use. -/
def release (t : CellTable) (cells : List Int) : CellTable :=
  { t with taken := t.taken.filter fun c => !cells.contains c }

/-- The cells in use, in ascending order. -/
def sortedTaken (t : CellTable) : List Int := t.taken.mergeSort (· ≤ ·)

end CellTable

end TapeScript
