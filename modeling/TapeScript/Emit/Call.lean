import TapeScript.Emit.Gadget

set_option autoImplicit false

/-! # Calls

A `Call` names an emission together with its arguments, so that sequences of them, nested in the
bodies of loops and branches, are data. `Call.emit` carries one out.
-/

namespace TapeScript

inductive Call where
  | plus (count : Int)
  | minus (count : Int)
  | moveBy (direction : Direction) (count : Int)
  /-- A bracket on its own; nothing checks that it finds a partner. -/
  | bracket (opening : Bool)
  | output
  | input
  | moveTo (cell : Int)
  | clear (cell : Int)
  | setCell (cell value : Int)
  | moveCell (src dest : Int)
  | copy (src dest temp : Int)
  | loop (cell : Int) (body : List Call)
  | loopWhile (condition body : List Call) (cell : Int)
  | branch (cell : Int) (body : List Call) (otherwise : Option (List Call)) (temp1 temp2 : Int)
  | add (src1 src2 dest temp1 temp2 : Int)
  | subtract (src1 src2 dest temp1 temp2 : Int)
  | equal (src1 src2 dest temp1 temp2 : Int)
  | notEqual (src1 src2 dest temp1 temp2 : Int)
  | greater (src1 src2 dest temp1 temp2 temp3 temp4 : Int)
  | less (src1 src2 dest temp1 temp2 temp3 temp4 : Int)
  | negate (src dest temp1 temp2 : Int)
  | lessOrEqual (src1 src2 dest temp1 temp2 temp3 temp4 : Int)
  | greaterOrEqual (src1 src2 dest temp1 temp2 temp3 temp4 : Int)

mutual

/-- The code of a call. -/
def Call.emit : Call → Emit Code
  | .plus count => Emit.plus count
  | .minus count => Emit.minus count
  | .moveBy direction count => Emit.moveBy direction count
  | .bracket opening => Emit.one (if opening then .enter else .leave)
  | .output => Emit.one .put
  | .input => Emit.one .get
  | .moveTo cell => Emit.moveTo cell
  | .clear cell => Emit.clear cell
  | .setCell cell value => Emit.setCell cell value
  | .moveCell src dest => Emit.moveCell src dest
  | .copy src dest temp => Emit.copy src dest temp
  | .loop cell body => Emit.loop cell (emitAll body)
  | .loopWhile condition body cell =>
    Emit.loopWhile (fun _ => emitAll condition) (emitAll body) cell
  | .branch cell body none temp1 temp2 => Emit.branch cell (emitAll body) none temp1 temp2
  | .branch cell body (some otherwise) temp1 temp2 =>
    Emit.branch cell (emitAll body) (some (emitAll otherwise)) temp1 temp2
  | .add src1 src2 dest temp1 temp2 => Emit.add src1 src2 dest temp1 temp2
  | .subtract src1 src2 dest temp1 temp2 => Emit.subtract src1 src2 dest temp1 temp2
  | .equal src1 src2 dest temp1 temp2 => Emit.equal src1 src2 dest temp1 temp2
  | .notEqual src1 src2 dest temp1 temp2 => Emit.notEqual src1 src2 dest temp1 temp2
  | .greater src1 src2 dest temp1 temp2 temp3 temp4 =>
    Emit.greater src1 src2 dest temp1 temp2 temp3 temp4
  | .less src1 src2 dest temp1 temp2 temp3 temp4 =>
    Emit.less src1 src2 dest temp1 temp2 temp3 temp4
  | .negate src dest temp1 temp2 => Emit.negate src dest temp1 temp2
  | .lessOrEqual src1 src2 dest temp1 temp2 temp3 temp4 =>
    Emit.lessOrEqual src1 src2 dest temp1 temp2 temp3 temp4
  | .greaterOrEqual src1 src2 dest temp1 temp2 temp3 temp4 =>
    Emit.greaterOrEqual src1 src2 dest temp1 temp2 temp3 temp4

/-- The code of calls made one after the other. -/
def emitAll : List Call → Emit Code
  | [] => pure []
  | call :: rest => do
    let first ← call.emit
    let others ← emitAll rest
    return first ++ others

end

end TapeScript
