import TapeScript.Emit.Basic

set_option autoImplicit false

/-! # Gadgets

Code fragments for data movement, loops, branches, arithmetic and comparison of unsigned cells.
A gadget gets the cells it works on and its scratch cells as arguments. Those that would destroy
their own operands refuse cells that are not pairwise distinct, before anything is emitted.
-/

namespace TapeScript

/-- No two of the cells coincide. -/
def areDistinct (cells : List Int) : Bool := decide cells.Nodup

namespace Emit

/-- Refuses cells of which two coincide. -/
def needDistinct (gadget : Gadget) (cells : List Int) : Emit Unit :=
  if areDistinct cells then pure () else throw (.sameCells gadget)

/-! ## Single cells -/

/-- Zeroes a cell; the head ends there. -/
def clear (cell : Int) : Emit Code :=
  seq [moveTo cell, one .enter, one .dec, one .leave]

/-- Stores a number in a cell. -/
def setCell (cell value : Int) : Emit Code := do
  if value < 0 then throw .negativeValue
  seq [clear cell, moveTo cell, plus value]

/-! ## Data movement -/

/-- Moves the value of a cell to another, which leaves zero behind. -/
def moveCell (src dest : Int) : Emit Code :=
  if src = dest then pure []
  else
    seq [clear dest, moveTo src, one .enter, one .dec, moveTo dest, one .inc, moveTo src,
      one .leave]

/-- Copies a cell by way of a scratch cell. -/
def copy (src dest temp : Int) : Emit Code := do
  needDistinct .copy [src, dest, temp]
  seq [clear dest, clear temp,
    moveTo src, one .enter, one .dec, moveTo dest, one .inc, moveTo temp, one .inc, moveTo src,
    one .leave,
    moveTo temp, one .enter, one .dec, moveTo src, one .inc, moveTo temp, one .leave]

/-! ## Loops and branches -/

/-- Repeats the body while the cell is not zero. -/
def loop (cell : Int) (body : Emit Code) : Emit Code :=
  seq [moveTo cell, one .enter, body, moveTo cell, one .leave]

/-- Repeats the body while the condition, evaluated into the cell, is not zero. -/
def loopWhile (condition : Int → Emit Code) (body : Emit Code) (cell : Int) : Emit Code :=
  seq [condition cell, moveTo cell, one .enter, body, condition cell, moveTo cell, one .leave]

/-- Runs the first body if the cell is not zero, and else the second one, if there is one. -/
def branch (cell : Int) (body : Emit Code) (otherwise : Option (Emit Code)) (temp1 temp2 : Int) :
    Emit Code := do
  needDistinct .branch [cell, temp1, temp2]
  let once (inner : Emit Code) : Emit Code := seq [inner, clear temp1, clear temp2]
  match otherwise with
  | none => seq [copy cell temp2 temp1, loop temp2 (once body)]
  | some alternative =>
    seq [copy cell temp2 temp1, setCell temp1 1, loop temp2 (once body),
      loop temp1 (once alternative)]

/-! ## Arithmetic -/

/-- Copies the operands to `dest` and `temp2`, then counts the latter down, each time applying a
command to `dest`. -/
def combine (cmd : Cmd) (src1 src2 dest temp1 temp2 : Int) : Emit Code :=
  seq [clear dest, copy src1 dest temp1, copy src2 temp2 temp1,
    moveTo temp2, one .enter, moveTo dest, one cmd, moveTo temp2, one .dec, one .leave]

def add (src1 src2 dest temp1 temp2 : Int) : Emit Code := do
  needDistinct .add [src1, src2, dest, temp1, temp2]
  combine .inc src1 src2 dest temp1 temp2

def subtract (src1 src2 dest temp1 temp2 : Int) : Emit Code := do
  needDistinct .subtract [src1, src2, dest, temp1, temp2]
  combine .dec src1 src2 dest temp1 temp2

/-! ## Comparison

Each stores one in `dest` if the relation holds and zero if it does not. -/

def equal (src1 src2 dest temp1 temp2 : Int) : Emit Code := do
  needDistinct .equal [src1, src2, dest, temp1, temp2]
  seq [subtract src1 src2 temp1 dest temp2, setCell dest 1,
    loop temp1 (seq [clear temp1, clear dest])]

def notEqual (src1 src2 dest temp1 temp2 : Int) : Emit Code := do
  needDistinct .notEqual [src1, src2, dest, temp1, temp2]
  seq [subtract src1 src2 temp1 dest temp2, clear dest,
    loop temp1 (seq [clear temp1, setCell dest 1])]

/-- Counts copies of both operands down together: the first is greater if the second copy is
found at zero while the first is not. -/
def greater (src1 src2 dest temp1 temp2 temp3 temp4 : Int) : Emit Code := do
  needDistinct .greater [src1, src2, dest, temp1, temp2, temp3, temp4]
  seq [clear dest, copy src1 temp1 temp3, copy src2 temp2 temp3,
    loop temp1 (seq [
      branch temp2 (pure []) (some (seq [clear temp1, setCell dest 1])) temp3 temp4,
      branch temp1 (seq [moveTo temp1, one .dec, moveTo temp2, one .dec]) (some (pure []))
        temp3 temp4])]

def less (src1 src2 dest temp1 temp2 temp3 temp4 : Int) : Emit Code := do
  needDistinct .less [src1, src2, dest, temp1, temp2, temp3, temp4]
  greater src2 src1 dest temp1 temp2 temp3 temp4

/-- One if the source is zero, else zero. -/
def negate (src dest temp1 temp2 : Int) : Emit Code := do
  needDistinct .negate [src, dest, temp1, temp2]
  seq [copy src temp1 temp2, setCell dest 1, loop temp1 (seq [clear temp1, clear dest])]

def lessOrEqual (src1 src2 dest temp1 temp2 temp3 temp4 : Int) : Emit Code := do
  needDistinct .lessOrEqual [src1, src2, dest, temp1, temp2, temp3, temp4]
  seq [greater src1 src2 temp1 temp2 temp3 temp4 dest, negate temp1 dest temp2 temp3]

def greaterOrEqual (src1 src2 dest temp1 temp2 temp3 temp4 : Int) : Emit Code := do
  needDistinct .greaterOrEqual [src1, src2, dest, temp1, temp2, temp3, temp4]
  lessOrEqual src2 src1 dest temp1 temp2 temp3 temp4

end Emit

end TapeScript
