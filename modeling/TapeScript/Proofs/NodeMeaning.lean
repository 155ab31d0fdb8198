import TapeScript.Lower.Node
import TapeScript.Proofs.Evaluation

set_option autoImplicit false

/-! # What lowered nodes mean

A lowered node has names replaced by cells. Its meaning is told on a `Surface`, the tape without its
head: `Node.value` for the nodes of values, `Node.run` for those of statements. Nodes without code
have no meaning. The cells a node names all lie in one stretch of the tape (`Node.Within`), and what
other cells hold does not matter (`Node.value_congr`).
-/

namespace TapeScript

/-- A surface with one cell changed. -/
def Surface.write (sf : Surface) (cell : Int) (v : Nat) : Surface :=
  { sf with cells := Function.update sf.cells cell v }

@[simp] theorem Surface.write_cells (sf : Surface) (cell : Int) (v : Nat) :
    (sf.write cell v).cells = Function.update sf.cells cell v := rfl

namespace Node

section Meaning

variable (w : Width) (input : Array Char)

/-- The value of a node, with the input at the given position, and the position behind it. -/
def value (cells : Int → Nat) : Node → Nat → Option (Nat × Nat)
  | .constant n true, pos => some (w.wrap n, pos)
  | .load symbol, pos => symbol.location.map fun cell => (cells cell, pos)
  | .input, pos => some (inputAt w input pos)
  | .binary _ op left right, pos =>
    (left.value cells pos).bind fun (a, pos) =>
      (right.value cells pos).bind fun (b, pos) => (cellValue w op a b).map fun v => (v, pos)
  | _, _ => none

/-- Evaluates a node. -/
def evalOn (n : Node) (sf : Surface) : Option (Nat × Surface) :=
  (n.value w input sf.cells sf.inputPos).map fun (v, pos) => (v, { sf with inputPos := pos })

/-- Evaluates a node and stores the value at a symbol. -/
def storeAt (n : Node) (symbol : Symbol) (sf : Surface) : Option Surface :=
  symbol.location.bind fun cell => (n.evalOn w input sf).map fun (v, sf) => sf.write cell v

variable (fuel : Nat)

mutual

/-- Runs the node of a statement. -/
def run : Node → Surface → Option Surface
  | .declare symbol none, sf => symbol.location.map fun cell => sf.write cell 0
  | .declare symbol (some initial), sf => initial.storeAt w input symbol sf
  | .assign symbol n, sf => n.storeAt w input symbol sf
  | .block body, sf => runAll body sf
  | .ifElse condition body none, sf =>
    (condition.evalOn w input sf).bind fun (v, sf) => if v = 0 then some sf else body.run sf
  | .ifElse condition body (some otherwise), sf =>
    (condition.evalOn w input sf).bind fun (v, sf) =>
      if v = 0 then otherwise.run sf else body.run sf
  | .loop condition body, sf => repeatWhile (condition.evalOn w input) body.run fuel sf
  | .output n, sf =>
    (n.evalOn w input sf).map fun (v, sf) =>
      { sf with output := sf.output.push (Machine.outputChar v) }
  | _, _ => none

/-- Runs nodes one after the other. -/
def runAll : List Node → Surface → Option Surface
  | [], sf => some sf
  | n :: ns, sf => (n.run sf).bind (runAll ns)

end

end Meaning

end Node

/-! ## The cells of a node -/

/-- A symbol's cell, if it has one, is one of `count` cells from `base` on. -/
def Symbol.Within (base : Int) (count : Nat) (symbol : Symbol) : Prop :=
  ∀ cell, symbol.location = some cell → base ≤ cell ∧ cell < base + count

namespace Node

mutual

/-- All cells of a node are among `count` cells from `base` on, and no alternative of a branch has
its code withheld. -/
def Within (base : Int) (count : Nat) : Node → Prop
  | .load symbol => symbol.Within base count
  | .binary _ _ left right => left.Within base count ∧ right.Within base count
  | .declare symbol none => symbol.Within base count
  | .declare symbol (some initial) => symbol.Within base count ∧ initial.Within base count
  | .assign symbol n => symbol.Within base count ∧ n.Within base count
  | .block body => AllWithin base count body
  | .ifElse condition body none => condition.Within base count ∧ body.Within base count
  | .ifElse condition body (some otherwise) =>
    condition.Within base count ∧ body.Within base count ∧ otherwise.Within base count ∧
      otherwise.codeKind ≠ .withheld
  | .loop condition body => condition.Within base count ∧ body.Within base count
  | .output n => n.Within base count
  | _ => True

def AllWithin (base : Int) (count : Nat) : List Node → Prop
  | [] => True
  | n :: ns => n.Within base count ∧ AllWithin base count ns

end

/-- A value does not depend on other cells. -/
theorem value_congr (w : Width) (input : Array Char) {base : Int} {count : Nat}
    {cells cells' : Int → Nat} (hcells : ∀ c, base ≤ c → cells c = cells' c) :
    ∀ (n : Node) (pos : Nat), n.Within base count →
      n.value w input cells pos = n.value w input cells' pos
  | .constant _ true, _, _ => rfl
  | .constant _ false, _, _ => rfl
  | .load symbol, pos, h => by
    simp only [value]
    cases hloc : symbol.location with
    | none => rfl
    | some cell => rw [Option.map_some, Option.map_some, hcells cell (h cell hloc).1]
  | .input, _, _ => rfl
  | .binary _ op left right, pos, h => by
    simp only [value, value_congr w input hcells left pos h.1]
    cases left.value w input cells' pos with
    | none => rfl
    | some r => rw [Option.bind_some, Option.bind_some, value_congr w input hcells right r.2 h.2]
  | .unary _ _, _, _ | .declare _ _, _, _ | .assign _ _, _, _ | .block _, _, _
  | .ifElse _ _ _, _, _ | .loop _ _, _, _ | .output _, _, _ | .exprStmt _, _, _
  | .newName _, _, _ | .nop _, _, _ | .program _, _, _ | .withheld _, _, _ | .bare _, _, _
  | .blank, _, _ | .misfit, _, _ | .deep, _, _ => rfl

end Node

end TapeScript
