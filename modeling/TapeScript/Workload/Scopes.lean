import TapeScript.Scope.Forest
import TapeScript.Workload.Item

set_option autoImplicit false

/-! # The workload on cells and scopes

Defines one variable after the other, each in a scope of its own that gives its cell back, and makes
the cell table and the scopes refuse what they have to refuse.
-/

namespace TapeScript.Workload

def scopePool : List Int := (List.range 8).map Int.ofNat

/-- What the cell table refuses: blocks without cells, giving back a foreign cell, and taking a cell
when none is left. -/
def tableMarks : List Item :=
  mark "verr" ((CellTable.ofPool scopePool).allocate 0) ++
    mark "verr" ((CellTable.ofPool scopePool).giveBack 99) ++
    mark "merr" (CellTable.ofPool []).take ++
    mark "aerr" ((CellTable.ofPool scopePool).allocate (-1))

/-- A variable in an inner scope: its cell, a name that is not there, whether the scope itself binds
the variable, and the variable. -/
def defineOne (i : Nat) : List Item :=
  let (outer, f) := (Forest.ofPool scopePool).open_ none true
  let (inner, f) := f.open_ (some outer) true
  let name := s!"v{i}"
  match f.newSymbol name "size_t" none true with
  | (.error _, _) => []
  | (.ok _, f) =>
    match f.define inner 0 with
    | (.error _, _) => []
    | (.ok symbol, f) =>
      let cell := match symbol.location with
        | some n => Item.number n
        | none => .nothing
      let missing := match f.lookup inner "missing" with
        | some s => Item.text s.text
        | none => .nothing
      [cell, missing, .flag (f.bindsLocally inner name), .text symbol.text]

/-- What scopes refuse: an unknown kind of symbol, a name defined twice, a stack without a size, and
cells from a scope that has none to give. -/
def scopeMarks : List Item :=
  let (scope, f) := (Forest.ofPool scopePool).open_ none true
  let (bare, f) := f.open_ none false
  let twice : Except Fault Symbol := do
    let (_, f) := f.newSymbol "a" "size_t" none true
    let (_, f) := f.newSymbol "a" "size_t" none true
    let (_, f) := f.define scope 0
    (f.define scope 1).1
  let sizeless : Except Fault Symbol :=
    ((f.newSymbol "s" "stack" none true).2.define scope 0).1
  mark "symerr" (f.newSymbol "a" "float" none true).1 ++ mark "duperr" twice ++
    mark "stkerr" sizeless ++ mark "rterr" (f.allocate bare 1).1

def scopes (count : Int) : List Item :=
  tableMarks ++ (below count).flatMap defineOne ++ scopeMarks

end TapeScript.Workload
