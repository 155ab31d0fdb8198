import TapeScript.Lower.Rules
import TapeScript.Grammar.Parser

set_option autoImplicit false

/-! # Lowering a program

Lowers a parsed program bottom-up, from left to right. A failure names the construct whose rule
failed; emission belongs to the rule of the whole program (`start`).
-/

namespace TapeScript

/-- A fault and the construct it arose in; a program that is nested too deeply fails outside all
constructs. -/
structure RuleFault where
  rule : Option String
  fault : Fault
  deriving DecidableEq

abbrev SourceLower := ExceptT RuleFault (StateM Session)

namespace SourceLower

/-- Applies a rule on behalf of a construct. -/
def during {α : Type} (rule : String) (action : Lower α) : SourceLower α := do
  let s ← get
  let (result, s) := action.run s
  set s
  match result with
  | .ok a => return a
  | .error fault => throw ⟨some rule, fault⟩

def declaredName (t : Token) : SourceLower Node :=
  during "DECLARED_NAME" (Lower.declaredName t.text)

def newName (t : Token) : SourceLower Node := during "NEW_NAME" (Lower.newName t.text)

mutual

def expr : Expr → SourceLower Node
  | .number t => during "NUMBER" (Lower.number t.text)
  | .character t => during "CHAR_LITERAL" (Lower.character t.text)
  | .name t => declaredName t
  | .call f [] => do
    let _ ← declaredName f
    during "function_call" (Lower.unsupported .call)
  | .call f (a :: as) => do
    let _ ← declaredName f
    let _ ← expr a
    let _ ← exprs as
    during "argument_list" (Lower.unsupported .arguments)
  | .peek t => do
    let _ ← declaredName t
    during "stack_peek" (Lower.unsupported .peek)
  | .pop t => do
    let _ ← declaredName t
    during "stack_pop" (Lower.unsupported .pop)
  | .input => return .input
  | .unary sign operand => do
    let n ← expr operand
    during "factor" (Lower.unary sign.text n)
  | .chain level first rest => do
    let first ← expr first
    let rest ← operands rest
    during level.name (Lower.chain level first rest)

def exprs : List Expr → SourceLower (List Node)
  | [] => return []
  | e :: es => do
    let n ← expr e
    let ns ← exprs es
    return n :: ns

def operands : List (Token × Expr) → SourceLower (List (String × Node))
  | [] => return []
  | (op, e) :: rest => do
    let n ← expr e
    let ns ← operands rest
    return (op.text, n) :: ns

end

mutual

def stmt : Stmt → SourceLower Node
  | .variable name none => do
    let target ← newName name
    during "variable_declaration" (Lower.declare target none)
  | .variable name (some initial) => do
    let target ← newName name
    let value ← expr initial
    during "variable_declaration" (Lower.declare target (some value))
  | .stack name size => do
    let _ ← newName name
    let _ ← expr size
    during "stack_declaration" (throw .wrongUse)
  | .assign name value => do
    let target ← declaredName name
    let value ← expr value
    during "assignment" (Lower.assign target value)
  | .expr value => expr value
  | .push name value => do
    let _ ← declaredName name
    let _ ← expr value
    during "push_statement" (Lower.unsupported .push)
  | .output value => do
    let value ← expr value
    return .output value
  | .ifElse condition body none => do
    let condition ← expr condition
    let body ← stmt body
    return .ifElse condition body none
  | .ifElse condition body (some otherwise) => do
    let condition ← expr condition
    let body ← stmt body
    let otherwise ← stmt otherwise
    return .ifElse condition body (some otherwise)
  | .loop condition body => do
    let condition ← expr condition
    let body ← stmt body
    return .loop condition body
  | .returning none => during "return_statement" (Lower.unsupported .returning)
  | .returning (some value) => do
    let _ ← expr value
    during "return_statement" (Lower.unsupported .returning)
  | .block body => do
    let body ← stmts body
    during "block" (Lower.block body)

def stmts : List Stmt → SourceLower (List Node)
  | [] => return []
  | s :: ss => do
    let n ← stmt s
    let ns ← stmts ss
    return n :: ns

end

/-- Parameters never get through: their names are used before they could be declared. -/
def parameters : List Token → SourceLower Unit
  | [] => return ()
  | p :: _ => do
    let _ ← declaredName p
    during "parameter" (throw .wrongUse)

def item : Item → SourceLower Node
  | .includes _ => during "STRING" (throw .stringMisplaced)
  | .define name value => do
    let _ ← declaredName name
    let _ ← expr value
    return .nop (some ("define " ++ name.text))
  | .function name params body => do
    during "type_specifier"
      (Lower.note "Warning: No specific transformer method for rule 'type_specifier'. Defaulting.")
    let _ ← newName name
    parameters params
    let body ← stmts body
    let _ ← during "block" (Lower.block body)
    during "function_definition" (Lower.unsupported .functionDefinition)
  | .stmt s => stmt s

def items : List Item → SourceLower (List Node)
  | [] => return []
  | i :: is => do
    let n ← item i
    let ns ← items is
    return n :: ns

/-- Lowers a program and emits its code. An item that is nested too deeply, below the root of the
syntax tree, is refused when those in front of it have been lowered. -/
def source (s : Source) (stack : CallStack := {}) : SourceLower Code := do
  let nodes ← items (s.items.takeWhile fun i => i.tree.depth < stack.levels)
  if stack.levels < s.tree.depth then throw ⟨none, .tooDeep⟩
  match ← during "start" (Lower.program nodes stack.calls) with
  | .program code => return code
  | _ => return []

def run {α : Type} (action : SourceLower α) (s : Session) : Except RuleFault α × Session :=
  (ExceptT.run action).run s

end SourceLower

end TapeScript
