import TapeScript.Lower.Literal
import TapeScript.Lower.Session
import TapeScript.Number.Quotient

set_option autoImplicit false

/-! # Lowering rules

One rule for each construct of the language: it takes the lowered parts and gives the lowered whole.
Constants are folded on the way. Declarations take effect as soon as their rule is applied, and a
block is lowered only after its contents, so that what is declared in a block belongs to the scope
around it.
-/

namespace TapeScript

namespace Lower

attribute [local instance (high)] instPowNat

/-! ## Names and literals -/

def number (text : String) : Lower Node := do
  let value ← Literal.number text
  return .constant value true

def character (text : String) : Lower Node := do
  let chars ← Literal.characterText text.toList
  note (String.ofList chars)
  let value ← Literal.codePoint chars
  return .constant value true

def newName (name : String) : Lower Node := return .newName name

/-- A name that is used: a constant if it is defined as one, and else what it was declared as. -/
def declaredName (name : String) : Lower Node := do
  let s ← get
  match s.defines.lookup name with
  | some value =>
    note s!"Transformer: Substituted define '{name}' with value {value}"
    let value ← Literal.defineValue value
    return .constant value true
  | none =>
    match s.lookup name with
    | none => throw (.undefinedName name)
    | some symbol =>
      match symbol.kind with
      | .variable => return .load symbol
      | .stack => throw (.unsupported .stackAccess)
      | .function => throw (.unsupported .call)

/-! ## Constants -/

/-- Numbers beyond this bound are not written out. -/
def writable (n : Int) : Bool := n.natAbs < 10 ^ Text.digitLimit

/-- The value of an operator on constants. -/
def foldValue (op : String) (a b : Int) : Except Fault Int :=
  let truth (p : Bool) : Except Fault Int := .ok (if p then 1 else 0)
  if op = "+" then .ok (a + b)
  else if op = "-" then .ok (a - b)
  else if op = "*" then .ok (a * b)
  else if op = "/" then
    if b = 0 then .error .divisionByZero
    else
      match Number.truncatedQuotient? a b with
      | some q => .ok q
      | none => .error .quotientTooLarge
  else if op = "==" then truth (a = b)
  else if op = "!=" then truth (a ≠ b)
  else if op = ">=" then truth (b ≤ a)
  else if op = "<=" then truth (a ≤ b)
  else if op = ">" then truth (b < a)
  else if op = "<" then truth (a < b)
  else .error (.unknownOperation op)

/-- Whether a node is of the kind of constants. -/
def isConstant (n : Node) : Except Fault Bool :=
  match n with
  | .misfit => .error .wrongUse
  | n =>
    match n.op? with
    | some op => .ok (op = "const")
    | none => .error .missingPart

def constantValue (n : Node) : Except Fault Int :=
  match n with
  | .constant value _ => .ok value
  | _ => .error .missingPart

/-- Both operands are constants. The second is looked at only if the first one is. -/
def bothConstant (left right : Node) : Except Fault Bool := do
  if ← isConstant left then isConstant right else return false

/-- Applies an operator to two nodes: constants are folded, otherwise both sides need code. -/
def combine (level : Level) (left : Node) (op : String) (right : Node) : Lower Node := do
  if ← bothConstant left right then
    let a ← constantValue left
    let b ← constantValue right
    let result ← foldValue op a b
    unless writable a && writable b && writable result do throw .notANumber
    note s!"Transformer: Folded constant expression: {a} {op} {b} -> {result}"
    return .constant result true
  else
    unless ← left.hasCode do throw .operandWithoutCode
    unless ← right.hasCode do throw .operandWithoutCode
    return .binary level op left right

/-- A chain of operators of one level, from left to right. -/
def chain (level : Level) (first : Node) (rest : List (String × Node)) : Lower Node :=
  rest.foldlM (fun left (op, right) => combine level left op right) first

/-- A sign in front of an operand. Only the minus sign changes a constant. -/
def unary (op : String) (operand : Node) : Lower Node := do
  if ← isConstant operand then
    let value ← constantValue operand
    let result := if op = "-" then -value else value
    unless writable value do throw .notANumber
    note s!"Transformer: Folded unary expression: {op}{value} -> {result}"
    return .constant result true
  else return .unary op operand

/-- A lone operand; a constant is given its code if it has none. -/
def operand (n : Node) : Lower Node := do
  if ← n.hasCode then return n
  match n with
  | .constant value _ => return .constant value true
  | n => return n

/-! ## Statements -/

/-- The name a declaration declares. -/
def declaredAs (n : Node) : Except Fault String :=
  match n with
  | .newName name => .ok name
  | .misfit => .error .wrongUse
  | _ => .error .missingPart

def declare (target : Node) (initial : Option Node) : Lower Node := do
  let name ← declaredAs target
  if (← get).current.binds name then throw (.variableRedefined name)
  let symbol ← define { name, kind := .variable, initialised := true }
  match initial with
  | none => return .declare symbol none
  | some value =>
    unless ← value.hasCode do throw .initialiserWithoutCode
    return .declare symbol (some value)

/-- The symbol an assignment goes to. -/
def targetOf (n : Node) : Except Fault Symbol :=
  match n.symbol?, n with
  | some symbol, _ => .ok symbol
  | none, .misfit => .error .wrongUse
  | none, _ => .error .missingPart

def assign (target value : Node) : Lower Node := do
  let symbol ← targetOf target
  if symbol.kind ≠ .variable then throw (.notAssignable symbol.name symbol.kind.name)
  unless ← value.hasCode do throw .assignmentWithoutCode
  return .assign symbol value

/-- A block opens a scope of its own and closes it again; its contents have been lowered before. -/
def block (body : List Node) : Lower Node := do
  enterScope
  leaveScope
  return .block body

/-- The code of the items of a program, in order; items that do nothing are passed over. -/
def program (items : List Node) (room : Nat) : Lower Node := do
  let code ← atBench (Node.emitAll (Node.cutAll room (items.filter fun n => n.op? ≠ some "nop")))
  return .program code

def unsupported {α : Type} (feature : Feature) : Lower α := throw (.unsupported feature)

end Lower

end TapeScript
