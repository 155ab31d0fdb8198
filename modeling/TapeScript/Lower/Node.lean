import TapeScript.Emit.Gadget
import TapeScript.Grammar.Tree
import TapeScript.Scope.Frame

set_option autoImplicit false

/-! # Lowered nodes

A lowered program is made of nodes. A node for a value emits code that stores the value in a given
cell (`Node.emitInto`); a node for a statement emits code on its own (`Node.emit`). Some nodes emit
nothing because they have no code at all; asking them for it is a fault. The calls that emit the code
of a node are nested in those for the nodes around it, and the call stack has room for so many only
(`Node.cut`).
-/

namespace TapeScript

inductive Node where
  /-- A number; one that is not `ready` has not been given its code yet. -/
  | constant (value : Int) (ready : Bool)
  | load (symbol : Symbol)
  | input
  | binary (level : Level) (op : String) (left right : Node)
  /-- A sign in front of a value that is not constant; it has no code. -/
  | unary (op : String) (operand : Node)
  | declare (symbol : Symbol) (initial : Option Node)
  | assign (symbol : Symbol) (value : Node)
  | block (body : List Node)
  | ifElse (condition body : Node) (otherwise : Option Node)
  | loop (condition body : Node)
  | output (value : Node)
  | exprStmt (value : Node)
  | newName (name : String)
  | nop (comment : Option String)
  | program (code : Code)
  /-- A node of any kind whose code was withheld. -/
  | withheld (op : String)
  /-- A symbol on its own. -/
  | bare (symbol : Symbol)
  /-- A record that is no node of any kind. -/
  | blank
  /-- Something that is no record at all. -/
  | misfit
  /-- A node whose code takes more nested calls than there is room for. -/
  | deep

/-- What a node has for code. -/
inductive CodeKind where
  | value
  | action
  | withheld
  | missing
  | misfit
  | deep
  deriving DecidableEq

namespace Node

/-- How the operators of a level are named in nodes. -/
def operatorName (level : Level) (op : String) : String :=
  let known : List (String × String) := match level with
    | .comparison => [("==", "cmp_eq"), ("!=", "cmp_ne"), (">=", "cmp_ge"), ("<=", "cmp_le"),
        (">", "cmp_gt"), ("<", "cmp_lt")]
    | .arithmetic => [("+", "add"), ("-", "sub")]
    | .term => [("*", "mul"), ("/", "div")]
  (known.lookup op).getD ("unknown_op_" ++ op)

/-- The kind of a node by name. -/
def op? : Node → Option String
  | .constant _ _ => some "const"
  | .load _ => some "load_var"
  | .input => some "input"
  | .binary level op _ _ => some (operatorName level op)
  | .unary op _ => some ("unary_" ++ op)
  | .declare _ _ => some "var_decl"
  | .assign _ _ => some "assign"
  | .block _ => some "block"
  | .ifElse _ _ _ => some "if"
  | .loop _ _ => some "while"
  | .output _ => some "output"
  | .exprStmt _ => some "expr_stmt"
  | .newName _ => some "new_name"
  | .nop _ => some "nop"
  | .program _ => some "program"
  | .withheld op => some op
  | .bare _ => some "load_var"
  | .blank => none
  | .misfit => none
  | .deep => none

def codeKind : Node → CodeKind
  | .constant _ ready => if ready then .value else .withheld
  | .load _ | .input | .binary _ _ _ _ => .value
  | .declare _ _ | .assign _ _ | .block _ | .ifElse _ _ _ | .loop _ _ | .output _ => .action
  | .withheld _ => .withheld
  | .unary _ _ | .exprStmt _ | .newName _ | .nop _ | .program _ | .bare _ | .blank => .missing
  | .misfit => .misfit
  | .deep => .deep

/-- Whether a node's code is there or withheld; a node without any is at fault. -/
def hasCode (n : Node) : Except Fault Bool :=
  match n.codeKind with
  | .value | .action | .deep => .ok true
  | .withheld => .ok false
  | .missing => .error .missingPart
  | .misfit => .error .wrongUse

/-- The fault of using a node's code in a way it cannot be used. -/
def misuse (n : Node) : Fault :=
  match n.codeKind with
  | .missing => .missingPart
  | .deep => .tooDeep
  | _ => .wrongUse

def symbol? : Node → Option Symbol
  | .load s | .declare s _ | .assign s _ | .bare s => some s
  | _ => none

/-! ## Operators -/

/-- Which operators need four scratch cells. -/
def ordering? (op : String) : Option (Int → Int → Int → Int → Int → Int → Int → Emit Code) :=
  if op = ">=" then some Emit.greaterOrEqual
  else if op = "<=" then some Emit.lessOrEqual
  else if op = ">" then some Emit.greater
  else if op = "<" then some Emit.less
  else none

/-- Applies an operator to two cells. Addition keeps the scratch cells it takes; so do the
operators that have no code. -/
def operate (op : String) (left right result : Int) : Emit Code := do
  let temp1 ← Emit.takeScratch
  let temp2 ← Emit.takeScratch
  if op = "+" then Emit.add left right result temp1 temp2
  else if op = "*" then throw (.unsupported .multiplication)
  else if op = "/" then throw (.unsupported .division)
  else
    let code ←
      if op = "-" then Emit.subtract left right result temp1 temp2
      else if op = "==" then Emit.equal left right result temp1 temp2
      else if op = "!=" then Emit.notEqual left right result temp1 temp2
      else
        match ordering? op with
        | some compare => do
          let temp3 ← Emit.takeScratch
          let temp4 ← Emit.takeScratch
          let code ← compare left right result temp1 temp2 temp3 temp4
          Emit.giveBack temp4
          Emit.giveBack temp3
          pure code
        | none => do
          Emit.giveBack temp2
          Emit.giveBack temp1
          throw (.unknownOperation op)
    Emit.giveBack temp2
    Emit.giveBack temp1
    return code

/-! ## Values -/

/-- The code that stores a value in a cell. -/
def emitInto : Node → Int → Emit Code
  | .constant value true, cell => Emit.setCell cell value
  | .load symbol, cell => do
    let temp ← Emit.takeScratch
    match symbol.location with
    | none => throw .wrongUse
    | some source =>
      let code ← Emit.copy source cell temp
      Emit.giveBack temp
      return code
  | .input, cell => Emit.seq [Emit.moveTo cell, Emit.one .get]
  | .binary _ op left right, cell => do
    let cell1 ← Emit.takeScratch
    let cell2 ← Emit.takeScratch
    let first ← left.emitInto cell1
    let second ← right.emitInto cell2
    let last ← operate op cell1 cell2 cell
    Emit.giveBack cell2
    Emit.giveBack cell1
    return first ++ (second ++ last)
  | n, _ => throw n.misuse

/-- The code that stores a value at a symbol. A symbol without a cell cannot be stored to. -/
def emitAt (n : Node) (symbol : Symbol) : Emit Code :=
  match symbol.location with
  | some cell => n.emitInto cell
  | none =>
    match n with
    | .constant value true => throw (if value < 0 then .negativeValue else .wrongUse)
    | .load _ => do
      let _ ← Emit.takeScratch
      throw .wrongUse
    | _ => throw .wrongUse

/-! ## Statements -/

/-- The code of a branch, whose sides come with their code; an alternative whose code is withheld is
left out. -/
def emitBranch (condition body : Node) (first : Emit Code) (otherwise : Option (Node × Emit Code)) :
    Emit Code := do
  let result ← Emit.takeScratch
  let temp1 ← Emit.takeScratch
  let temp2 ← Emit.takeScratch
  let test ← condition.emitInto result
  let _ ← body.hasCode
  let code ←
    match otherwise with
    | none => throw .wrongUse
    | some (alternative, second) => do
      if ← alternative.hasCode then Emit.branch result first (some second) temp1 temp2
      else Emit.branch result first none temp1 temp2
  Emit.giveBack temp2
  Emit.giveBack temp1
  Emit.giveBack result
  return test ++ code

/-- The code of a loop, whose body comes with its code. -/
def emitLoop (condition body : Node) (rounds : Emit Code) : Emit Code := do
  let result ← Emit.takeScratch
  let _ ← condition.hasCode
  let _ ← body.hasCode
  let code ← Emit.loopWhile condition.emitInto rounds result
  Emit.giveBack result
  return code

/-- The code that writes a value out. -/
def emitOutput (value : Node) : Emit Code := do
  let temp ← Emit.takeScratch
  let code ← Emit.seq [value.emitInto temp, Emit.moveTo temp, Emit.one .put]
  Emit.giveBack temp
  return code

mutual

/-- The code of a statement. -/
def emit : Node → Emit Code
  | .declare symbol none =>
    match symbol.location with
    | some cell => Emit.setCell cell 0
    | none => throw .wrongUse
  | .declare symbol (some initial) => initial.emitAt symbol
  | .assign symbol value => value.emitAt symbol
  | .block body => emitAll body
  | .ifElse condition body none => emitBranch condition body body.emit none
  | .ifElse condition body (some alternative) =>
    emitBranch condition body body.emit (some (alternative, alternative.emit))
  | .loop condition body => emitLoop condition body body.emit
  | .output value => emitOutput value
  | n => throw n.misuse

/-- The code of statements one after the other. -/
def emitAll : List Node → Emit Code
  | [] => pure []
  | n :: ns => do
    let first ← n.emit
    let rest ← emitAll ns
    return first ++ rest

end

/-! ## Nested calls -/

/-- How deep the calls are nested that apply an operator. -/
def operatorCalls (op : String) : Nat :=
  if op = "+" ∨ op = "-" then 6
  else if op = "==" then 7
  else if op = "!=" then 8
  else if op = ">" then 12
  else if op = "<" ∨ op = "<=" then 13
  else if op = ">=" then 14
  else 2

mutual

/-- How deep the calls are nested that emit the code of a node. -/
def calls : Node → Nat
  | .constant _ ready => if ready then 5 else 0
  | .load _ => 5
  | .input => 3
  | .binary _ op left right => 1 + max (operatorCalls op) (max left.calls right.calls)
  | .declare _ none => 5
  | .declare _ (some value) => 1 + value.calls
  | .assign _ value => 1 + value.calls
  | .block body => 1 + callsAll body
  | .ifElse condition body none => max 7 (max (1 + condition.calls) (4 + body.calls))
  | .ifElse condition body (some alternative) =>
    max 7 (max (1 + condition.calls) (4 + max body.calls alternative.calls))
  | .loop condition body => 2 + max condition.calls body.calls
  | .output value => 1 + value.calls
  | _ => 0

def callsAll : List Node → Nat
  | [] => 0
  | n :: ns => max n.calls (callsAll ns)

end

mutual

/-- What can be emitted of a node with room for so many nested calls: a node around others takes up
some of it and leaves the rest to them, and one that has too little is cut off. -/
def cut (room : Nat) : Node → Node
  | .binary level op left right =>
    if operatorCalls op < room then
      .binary level op (left.cut (room - 1)) (right.cut (room - 1))
    else .deep
  | .declare symbol (some value) =>
    if 0 < room then .declare symbol (some (value.cut (room - 1))) else .deep
  | .assign symbol value => if 0 < room then .assign symbol (value.cut (room - 1)) else .deep
  | .block body => if 0 < room then .block (cutAll (room - 1) body) else .deep
  | .ifElse condition body none =>
    if 7 ≤ room then .ifElse (condition.cut (room - 1)) (body.cut (room - 4)) none else .deep
  | .ifElse condition body (some alternative) =>
    if 7 ≤ room then
      .ifElse (condition.cut (room - 1)) (body.cut (room - 4)) (some (alternative.cut (room - 4)))
    else .deep
  | .loop condition body =>
    if 2 ≤ room then .loop (condition.cut (room - 2)) (body.cut (room - 2)) else .deep
  | .output value => if 0 < room then .output (value.cut (room - 1)) else .deep
  | n => if n.calls ≤ room then n else .deep

def cutAll (room : Nat) : List Node → List Node
  | [] => []
  | n :: ns => n.cut room :: cutAll room ns

end

end Node

/-- The room that the call stack has: for the levels of a syntax tree, and for the nested calls that
emit code. -/
structure CallStack where
  levels : Nat := 490
  calls : Nat := 970

end TapeScript
