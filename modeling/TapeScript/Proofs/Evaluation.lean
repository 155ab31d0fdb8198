import TapeScript.Lower.Rules
import TapeScript.Grammar.Parser
import TapeScript.Source.Include
import TapeScript.Proofs.Block

set_option autoImplicit false

/-! # Direct evaluation

What a script means, told without compiling it. All variables share one namespace; each holds an
unsigned number of the width of a cell and is zero before the script starts. An expression of
constants only is a number without bounds, which is reduced when it is stored; every other
expression is evaluated from left to right on values of the width (`Expr.eval`). Statements change
the variables, read the input and write the output (`Stmt.run`). Loops carry fuel: a script
terminates if it has a result for some fuel.

Only what the compiler accepts has a meaning here: there is none for stacks, functions, and signs,
products and quotients of values that are no constants.
-/

namespace TapeScript

/-- The value of a comparison. -/
def truth (p : Prop) [Decidable p] : Nat := if p then 1 else 0

/-- The value of an operator on two cells. -/
def cellValue (w : Width) (op : String) (a b : Nat) : Option Nat :=
  if op = "+" then some (w.wrap ((a : Int) + b))
  else if op = "-" then some (w.wrap ((a : Int) - b))
  else if op = "==" then some (truth (a = b))
  else if op = "!=" then some (truth (a ≠ b))
  else if op = ">=" then some (truth (b ≤ a))
  else if op = "<=" then some (truth (a ≤ b))
  else if op = ">" then some (truth (b < a))
  else if op = "<" then some (truth (a < b))
  else none

/-- Tests and repeats while the tested value is not zero, testing at most as often as the fuel
allows. -/
def repeatWhile {α : Type} (test : α → Option (Nat × α)) (body : α → Option α) :
    Nat → α → Option α
  | 0, _ => none
  | fuel + 1, a =>
    (test a).bind fun (v, a) => if v = 0 then some a else (body a).bind (repeatWhile test body fuel)

/-! ## Values -/

/-- The value of an expression: a number that is known before the script runs, or the value of a
cell. -/
inductive Value where
  | constant (n : Int)
  | cell (v : Nat)

namespace Value

/-- A value as it is stored. -/
def stored (w : Width) : Value → Nat
  | .constant n => w.wrap n
  | .cell v => v

/-- Applies an operator: to constants as folding does, and otherwise to stored values. -/
def combine (w : Width) (op : String) : Value → Value → Option Value
  | .constant a, .constant b => (Lower.foldValue op a b).toOption.map .constant
  | a, b => (cellValue w op (a.stored w) (b.stored w)).map .cell

/-- Applies a sign, which only constants can have. -/
def signed (sign : String) : Value → Option Value
  | .constant n => some (.constant (if sign = "-" then -n else n))
  | .cell _ => none

end Value

/-- The value of a character literal. -/
def Literal.character (text : String) : Except Fault Int :=
  Literal.characterText text.toList >>= Literal.codePoint

/-! ## Expressions -/

section Eval

variable (defines : DefineTable) (w : Width) (input : Array Char) (vars : String → Nat)

mutual

/-- The value of an expression that is evaluated with the input at the given position, and the
position behind it. -/
def Expr.eval : Expr → Nat → Option (Value × Nat)
  | .number t, pos => (Literal.number t.text).toOption.map fun n => (.constant n, pos)
  | .character t, pos => (Literal.character t.text).toOption.map fun n => (.constant n, pos)
  | .name t, pos =>
    match defines.lookup t.text with
    | some value => (Literal.defineValue value).toOption.map fun n => (.constant n, pos)
    | none => some (.cell (vars t.text), pos)
  | .input, pos => some (.cell (inputAt w input pos).1, (inputAt w input pos).2)
  | .unary sign e, pos =>
    (e.eval pos).bind fun (v, pos) => (v.signed sign.text).map fun v => (v, pos)
  | .chain _ first rest, pos => (first.eval pos).bind fun (v, pos) => evalChain v rest pos
  | .call _ _, _ | .peek _, _ | .pop _, _ => none

/-- Operators and operands behind a value, from left to right. -/
def evalChain : Value → List (Token × Expr) → Nat → Option (Value × Nat)
  | v, [], pos => some (v, pos)
  | v, (op, e) :: rest, pos =>
    (e.eval pos).bind fun (u, pos) =>
      (v.combine w op.text u).bind fun v => evalChain v rest pos

end

end Eval

/-! ## Statements -/

/-- What a script changes as it runs. -/
structure State where
  vars : String → Nat
  inputPos : Nat
  output : String

namespace State

/-- Before a script starts. -/
def initial : State := ⟨fun _ => 0, 0, ""⟩

def set (σ : State) (name : String) (v : Nat) : State :=
  { σ with vars := Function.update σ.vars name v }

end State

section Run

variable (defines : DefineTable) (w : Width) (input : Array Char)

/-- Evaluates an expression to a stored value. -/
def Expr.evalIn (e : Expr) (σ : State) : Option (Nat × State) :=
  (e.eval defines w input σ.vars σ.inputPos).map fun (v, pos) =>
    (v.stored w, { σ with inputPos := pos })

variable (fuel : Nat)

mutual

/-- Runs a statement. -/
def Stmt.run : Stmt → State → Option State
  | .variable name none, σ => some (σ.set name.text 0)
  | .variable name (some e), σ => (e.evalIn defines w input σ).map fun (v, σ) => σ.set name.text v
  | .assign name e, σ => (e.evalIn defines w input σ).map fun (v, σ) => σ.set name.text v
  | .output e, σ =>
    (e.evalIn defines w input σ).map fun (v, σ) =>
      { σ with output := σ.output.push (Char.ofNat (v % 256)) }
  | .ifElse condition body none, σ =>
    (condition.evalIn defines w input σ).bind fun (v, σ) => if v = 0 then some σ else body.run σ
  | .ifElse condition body (some otherwise), σ =>
    (condition.evalIn defines w input σ).bind fun (v, σ) => if v = 0 then otherwise.run σ else body.run σ
  | .loop condition body, σ => repeatWhile (condition.evalIn defines w input) body.run fuel σ
  | .block body, σ => runAll body σ
  | .stack _ _, _ | .expr _, _ | .push _ _, _ | .returning _, _ => none

/-- Runs statements one after the other. -/
def runAll : List Stmt → State → Option State
  | [], σ => some σ
  | st :: sts, σ => (st.run σ).bind (runAll sts)

end

/-- Runs an item; a define has done its part before the script starts. -/
def Item.run : Item → State → Option State
  | .stmt st, σ => st.run defines w input fuel σ
  | .define _ _, σ => some σ
  | .includes _, _ | .function _ _ _, _ => none

def runItems : List Item → State → Option State
  | [], σ => some σ
  | i :: is, σ => (i.run defines w input fuel σ).bind (runItems is)

end Run

/-! ## Declarations -/

mutual

/-- The variables that a statement declares, in the order in which they are written. -/
def Stmt.declared : Stmt → List String
  | .variable name _ => [name.text]
  | .ifElse _ body none => body.declared
  | .ifElse _ body (some otherwise) => body.declared ++ otherwise.declared
  | .loop _ body => body.declared
  | .block body => declaredAll body
  | .stack _ _ | .assign _ _ | .expr _ | .push _ _ | .output _ | .returning _ => []

def declaredAll : List Stmt → List String
  | [] => []
  | st :: sts => st.declared ++ declaredAll sts

end

def Item.declared : Item → List String
  | .stmt st => st.declared
  | .includes _ | .define _ _ | .function _ _ _ => []

def declaredItems : List Item → List String
  | [] => []
  | i :: is => i.declared ++ declaredItems is

/-! ## Scripts -/

/-- A script as it is read from its files: what it says, and the defines of its text. -/
structure Script where
  source : Source
  defines : DefineTable

namespace Script

/-- Reads the script at a path, its includes expanded. -/
def read (fs : FileSystem) (path : String) : Option Script :=
  match Include.expand fs path with
  | .error _ => none
  | .ok text =>
    match Source.parse text.toList with
    | .error _ => none
    | .ok source => some ⟨source, DefineTable.ofText text.toList⟩

/-- The variables of a script, in the order of their declarations. -/
def names (script : Script) : List String := declaredItems script.source.items

/-- Evaluates a script, every loop of which may test its condition as often as there is fuel. -/
def eval (script : Script) (w : Width) (input : String) (fuel : Nat) : Option State :=
  runItems script.defines w input.toList.toArray fuel script.source.items State.initial

end Script

end TapeScript
