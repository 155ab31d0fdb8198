import TapeScript.Emit.Call
import TapeScript.Workload.Item

set_option autoImplicit false

/-! # The workload on gadgets

Emits every gadget once on the same three cells, with scratch cells at the start of the tape, and
makes every gadget refuse operands it cannot work with.
-/

namespace TapeScript.Workload

/-- One round of gadgets; the value of the first operand is the parameter. -/
def gadgetRound (value : Int) : List Call := [
  .setCell 15 value, .setCell 16 8, .copy 15 17 0,
  .branch 15 [.plus 1] (some [.minus 1]) 0 1,
  .add 15 16 17 0 1, .subtract 15 16 17 0 1, .equal 15 16 17 0 1, .notEqual 15 16 17 0 1,
  .greater 15 16 17 0 1 2 3, .less 15 16 17 0 1 2 3, .negate 15 17 0 1,
  .lessOrEqual 15 16 17 0 1 2 3, .greaterOrEqual 15 16 17 0 1 2 3]

/-- As many loops are opened as closed. -/
def isBalanced (code : Code) : Bool := code.count .enter == code.count .leave

def freshBench : Workbench := { cells := CellTable.ofSize 20 }

def emitRound (i : Nat) : List Item :=
  match (emitAll (gadgetRound (i % 5 : Nat))).runAt freshBench with
  | (.ok code, _) => [.number code.length, .flag (isBalanced code)]
  | (.error _, _) => []

/-- Calls that have to be refused, by name. -/
def refusedCalls : List (String × Call) := [
  ("move_right", .moveBy .right (-1)),
  ("move_left", .moveBy .left (-1)),
  ("set_cell_value", .setCell 0 (-1)),
  ("copy_cell_preserve_source", .copy 0 0 1),
  ("if_else", .branch 0 [] none 0 1),
  ("add_cells_unsigned", .add 0 0 1 2 3),
  ("subtract_cells_unsigned", .subtract 0 0 1 2 3),
  ("equals_unsigned", .equal 0 0 1 2 3),
  ("not_equals_unsigned", .notEqual 0 0 1 2 3),
  ("greater_than_unsigned", .greater 0 0 1 2 3 4 5),
  ("less_than_unsigned", .less 0 0 1 2 3 4 5),
  ("logical_not", .negate 0 0 1 2),
  ("less_than_or_equal_to_unsigned", .lessOrEqual 0 0 1 2 3 4 5),
  ("greater_than_or_equal_to_unsigned", .greaterOrEqual 0 0 1 2 3 4 5)]

def gadgets (count : Int) : List Item :=
  (below count).flatMap emitRound ++
    refusedCalls.flatMap fun (name, call) => mark name (call.emit.runAt freshBench).1

end TapeScript.Workload
