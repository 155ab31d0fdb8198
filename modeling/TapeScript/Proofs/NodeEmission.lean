import TapeScript.Lower.Node
import TapeScript.Proofs.GadgetPlans

set_option autoImplicit false

/-! # Nodes borrow scratch cells

All scratch cells but those of an addition are given back in the order opposite to that in which
they were taken. With `Emit.borrow`, which takes a cell for as long as some code is emitted, the
emission of a node is therefore a composition of sequences, gadgets and borrowing.
-/

namespace TapeScript

namespace Emit

/-- Emits code with the help of a scratch cell, which is given back. -/
def borrow (f : Int → Emit Code) : Emit Code := do
  let cell ← takeScratch
  let code ← f cell
  giveBack cell
  return code

end Emit

namespace Node

open Emit

/-- The operators but addition, which work with two scratch cells and give them back. -/
def operateWith (op : String) (a b dest temp1 temp2 : Int) : Emit Code :=
  if op = "*" then throw (.unsupported .multiplication)
  else if op = "/" then throw (.unsupported .division)
  else if op = "-" then subtract a b dest temp1 temp2
  else if op = "==" then equal a b dest temp1 temp2
  else if op = "!=" then notEqual a b dest temp1 temp2
  else
    match ordering? op with
    | some compare =>
      borrow fun temp3 => borrow fun temp4 => compare a b dest temp1 temp2 temp3 temp4
    | none => do
      giveBack temp2
      giveBack temp1
      throw (.unknownOperation op)

/-- Addition keeps its scratch cells. -/
theorem operate_add (a b dest : Int) :
    operate "+" a b dest = takeScratch >>= fun s => takeScratch >>= fun t => add a b dest s t := by
  unfold operate
  simp only [if_true]

theorem operate_of_ne {op : String} (h : op ≠ "+") (a b dest : Int) :
    operate op a b dest = borrow fun s => borrow fun t => operateWith op a b dest s t := by
  unfold operate operateWith
  simp only [h, if_false, borrow, bind_assoc, pure_bind]
  refine bind_congr fun temp1 => bind_congr fun temp2 => ?_
  split_ifs
  · rfl
  · rfl
  · simp
  · simp
  · simp
  · cases ordering? op <;> simp

theorem emitInto_binary (level : Level) (op : String) (left right : Node) (cell : Int) :
    (Node.binary level op left right).emitInto cell = borrow fun c1 => borrow fun c2 =>
      seq [left.emitInto c1, right.emitInto c2, operate op c1 c2 cell] := by
  simp only [emitInto, borrow, seq, bind_assoc, pure_bind, List.append_nil]

theorem emitInto_load (symbol : Symbol) (cell : Int) :
    (Node.load symbol).emitInto cell = borrow fun temp =>
      match symbol.location with
      | none => throw .wrongUse
      | some source => copy source cell temp := by
  simp only [emitInto, borrow]
  cases symbol.location <;> rfl

theorem emitOutput_eq (n : Node) : emitOutput n = borrow fun temp =>
    seq [n.emitInto temp, moveTo temp, one .put] := rfl

theorem emitLoop_eq (condition body : Node) (rounds : Emit Code) :
    emitLoop condition body rounds = (borrow fun result => do
      let _ ← condition.hasCode
      let _ ← body.hasCode
      loopWhile condition.emitInto rounds result) := by
  simp only [emitLoop, borrow, bind_assoc]

theorem emitBranch_eq (condition body : Node) (first : Emit Code)
    (otherwise : Option (Node × Emit Code)) :
    emitBranch condition body first otherwise
      = borrow fun result => borrow fun temp1 => borrow fun temp2 =>
          seq [condition.emitInto result, do
            let _ ← body.hasCode
            match otherwise with
            | none => throw .wrongUse
            | some (alternative, second) => do
              if ← alternative.hasCode then branch result first (some second) temp1 temp2
              else branch result first none temp1 temp2] := by
  simp only [emitBranch, borrow, seq, bind_assoc, pure_bind, List.append_nil]
  refine bind_congr fun result => bind_congr fun temp1 => bind_congr fun temp2 =>
    bind_congr fun test => bind_congr fun _ => ?_
  cases otherwise with
  | none => rfl
  | some side =>
    simp only [bind_assoc]
    refine bind_congr fun ready => ?_
    split_ifs <;> rfl

end Node

end TapeScript
