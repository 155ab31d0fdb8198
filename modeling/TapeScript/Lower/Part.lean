import TapeScript.Lower.Rules

set_option autoImplicit false

/-! # Rules by name

Applies a lowering rule, given by the name of the construct, to parts of any shape. Parts that do
not fit the construct are faults, found in the order in which the rule looks at them.
-/

namespace TapeScript

/-- A part of a construct: nothing, a text, several parts, or a lowered node. -/
inductive Part where
  | absent
  | text (s : String)
  | several (parts : List Part)
  | node (n : Node)
  deriving Inhabited

namespace Part

def toNode : Part → Node
  | .node n => n
  | _ => .misfit

/-- Empty parts count as nothing where a part is optional. -/
def isEmpty : Part → Bool
  | .absent => true
  | .text s => s.isEmpty
  | .several parts => parts.isEmpty
  | .node .blank => false
  | .node _ => false

/-- A part written as an operator or a name. -/
def label : Part → String
  | .absent => "None"
  | .text s => s
  | .several _ => "[]"
  | .node _ => "\x7b\x7d"

/-- The optional part at the end of a construct. -/
def optional (p : Part) : Option Node := if p.isEmpty then none else some p.toNode

mutual

/-- The nodes among nested parts. -/
def nodes : Part → List Node
  | .node n => [n]
  | .several parts => nodesOfAll parts
  | .text _ => []
  | .absent => []

def nodesOfAll : List Part → List Node
  | [] => []
  | p :: ps => p.nodes ++ nodesOfAll ps

end

end Part

namespace Lower

/-- Operators and operands behind a first operand. -/
def chainParts (level : Level) : Node → List Part → Lower Node
  | left, [] => return left
  | _, [_] => throw .missingItem
  | left, op :: right :: rest => do
    let combined ← combine level left op.label right.toNode
    chainParts level combined rest

def chainRule (level : Level) : List Part → Lower Part
  | [] => throw .missingItem
  | [single] => return single
  | first :: rest => do return .node (← chainParts level first.toNode rest)

def factorRule : List Part → Lower Part
  | [] => throw .missingItem
  | [op, operand] => do return .node (← unary op.label operand.toNode)
  | single :: _ => do return .node (← operand single.toNode)

/-- The first of the parts. -/
def firstPart : List Part → Lower Part
  | [] => throw .missingItem
  | p :: _ => return p

/-- Applies the rule of the given name. -/
def applyRule (rule : String) (parts : List Part) : Lower Part :=
  match rule, parts with
  | "start", parts => do return .node (← program (Part.nodesOfAll parts) ({} : CallStack).calls)
  | "define_directive", [] => throw .missingItem
  | "define_directive", name :: _ => return .node (.nop (some ("define " ++ name.label)))
  | "global_declaration", parts => firstPart parts
  | "statement", parts => firstPart parts
  | "atom", parts => firstPart parts
  | "function_definition", [_, _, _, _] => unsupported .functionDefinition
  | "parameter_list", _ => unsupported .parameters
  | "parameter", [_, _] => unsupported .parameters
  | "block", parts => do
    return .node (← block ((parts.filter fun p => !p.isEmpty).map Part.toNode))
  | "variable_declaration", [name] => do return .node (← declare name.toNode none)
  | "variable_declaration", [name, initial] => do
    return .node (← declare name.toNode initial.optional)
  | "stack_declaration", [_, _, _] => unsupported .stackDeclaration
  | "assignment", [target, value] => do return .node (← assign target.toNode value.toNode)
  | "expression", [value] => return .node (.exprStmt value.toNode)
  | "push_statement", _ => unsupported .push
  | "stack_pop", _ => unsupported .pop
  | "stack_peek", _ => unsupported .peek
  | "if_statement", [condition, body] =>
    return .node (.ifElse condition.toNode body.toNode none)
  | "if_statement", [condition, body, otherwise] =>
    let alternative := match otherwise with
      | .absent => none
      | p => some p.toNode
    return .node (.ifElse condition.toNode body.toNode alternative)
  | "while_statement", [condition, body] => return .node (.loop condition.toNode body.toNode)
  | "return_statement", _ => unsupported .returning
  | "comparison", parts => chainRule .comparison parts
  | "arithmetic", parts => chainRule .arithmetic parts
  | "term", parts => chainRule .term parts
  | "factor", parts => factorRule parts
  | "function_call", _ => unsupported .call
  | "argument_list", _ => unsupported .arguments
  | "input_call", _ => return .node .input
  | "output_statement", [value] => return .node (.output value.toNode)
  | _, _ => throw .wrongUse

/-- Lowers a terminal, given by its name. -/
def applyTerminal (terminal text : String) : Lower Node :=
  match terminal with
  | "NUMBER" => number text
  | "CHAR_LITERAL" => character text
  | "DECLARED_NAME" => declaredName text
  | "NEW_NAME" => newName text
  | _ => throw .stringMisplaced

end Lower

end TapeScript
