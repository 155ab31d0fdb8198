import TapeScript.Grammar.Token

set_option autoImplicit false

/-! # Programs as trees

Expressions, statements and top-level items of the script language, with the tokens they were read
from, and the labelled tree each of them is written as.
-/

namespace TapeScript

/-- The levels of binary operators, from the loosest to the tightest. -/
inductive Level where
  | comparison
  | arithmetic
  | term
  deriving DecidableEq

namespace Level

def name : Level → String
  | .comparison => "comparison"
  | .arithmetic => "arithmetic"
  | .term => "term"

def operators : Level → List Terminal
  | .comparison => [.eq, .ne, .ge, .le, .gt, .lt]
  | .arithmetic => [.plus, .minus]
  | .term => [.times, .divide]

end Level

inductive Expr where
  | number (token : Token)
  | character (token : Token)
  | name (token : Token)
  | call (name : Token) (arguments : List Expr)
  | peek (stack : Token)
  | pop (stack : Token)
  | input
  | unary (sign : Token) (operand : Expr)
  /-- Operands of one level and the operators between them, from left to right; there is at least
  one operator. -/
  | chain (level : Level) (first : Expr) (rest : List (Token × Expr))

inductive Stmt where
  | variable (name : Token) (initial : Option Expr)
  | stack (name : Token) (size : Expr)
  | assign (name : Token) (value : Expr)
  | expr (value : Expr)
  | push (stack : Token) (value : Expr)
  | output (value : Expr)
  | ifElse (condition : Expr) (body : Stmt) (otherwise : Option Stmt)
  | loop (condition : Expr) (body : Stmt)
  | returning (value : Option Expr)
  | block (body : List Stmt)

inductive Item where
  | includes (file : Token)
  | define (name : Token) (value : Expr)
  | function (name : Token) (parameters : List Token) (body : List Stmt)
  | stmt (s : Stmt)

/-! ## Comparing sources -/

mutual

/-- The two expressions are the same, down to where their tokens stand. -/
def Expr.same : Expr → Expr → Bool
  | .number t, .number u | .character t, .character u | .name t, .name u | .peek t, .peek u
  | .pop t, .pop u => t = u
  | .call t es, .call u fs => t = u && sameExprs es fs
  | .input, .input => true
  | .unary t e, .unary u f => t = u && e.same f
  | .chain level e rest, .chain level' f rest' =>
    level = level' && (e.same f && sameRest rest rest')
  | _, _ => false

def sameExprs : List Expr → List Expr → Bool
  | [], [] => true
  | e :: es, f :: fs => e.same f && sameExprs es fs
  | _, _ => false

def sameRest : List (Token × Expr) → List (Token × Expr) → Bool
  | [], [] => true
  | (t, e) :: rest, (u, f) :: rest' => t = u && (e.same f && sameRest rest rest')
  | _, _ => false

end

mutual

theorem Expr.same_iff : ∀ {e f : Expr}, e.same f = true ↔ e = f
  | .number _, f | .character _, f | .name _, f | .peek _, f | .pop _, f | .input, f => by
    cases f <;> simp [Expr.same]
  | .call _ _, f => by cases f <;> simp [Expr.same, sameExprs_iff]
  | .unary _ e, f => by cases f <;> simp [Expr.same, e.same_iff]
  | .chain _ e _, f => by cases f <;> simp [Expr.same, e.same_iff, sameRest_iff]

theorem sameExprs_iff : ∀ {es fs : List Expr}, sameExprs es fs = true ↔ es = fs
  | [], fs => by cases fs <;> simp [sameExprs]
  | e :: es, fs => by cases fs <;> simp [sameExprs, e.same_iff, sameExprs_iff]

theorem sameRest_iff : ∀ {rest rest' : List (Token × Expr)},
    sameRest rest rest' = true ↔ rest = rest'
  | [], rest' => by cases rest' <;> simp [sameRest]
  | (_, e) :: rest, rest' => by
    cases rest' <;> simp [sameRest, e.same_iff, sameRest_iff, Prod.ext_iff, and_assoc]

end

instance : DecidableEq Expr := fun _ _ => decidable_of_iff _ Expr.same_iff

mutual

def Stmt.same : Stmt → Stmt → Bool
  | .variable t e, .variable u f => t = u && decide (e = f)
  | .stack t e, .stack u f | .assign t e, .assign u f | .push t e, .push u f =>
    t = u && decide (e = f)
  | .expr e, .expr f | .output e, .output f => e = f
  | .returning e, .returning f => e = f
  | .ifElse c st none, .ifElse c' st' none => c = c' && st.same st'
  | .ifElse c st (some o), .ifElse c' st' (some o') => c = c' && (st.same st' && o.same o')
  | .loop c st, .loop c' st' => c = c' && st.same st'
  | .block sts, .block sts' => sameStmts sts sts'
  | _, _ => false

def sameStmts : List Stmt → List Stmt → Bool
  | [], [] => true
  | st :: sts, st' :: sts' => st.same st' && sameStmts sts sts'
  | _, _ => false

end

mutual

theorem Stmt.same_iff : ∀ {st st' : Stmt}, st.same st' = true ↔ st = st'
  | .variable _ _, st' | .stack _ _, st' | .assign _ _, st' | .push _ _, st' | .expr _, st'
  | .output _, st' | .returning _, st' => by cases st' <;> simp [Stmt.same]
  | .ifElse _ st none, st' => by
    cases st' with
    | ifElse c' b' o' => cases o' <;> simp [Stmt.same, st.same_iff]
    | _ => simp [Stmt.same]
  | .ifElse _ st (some o), st' => by
    cases st' with
    | ifElse c' b' o' => cases o' <;> simp [Stmt.same, st.same_iff, o.same_iff]
    | _ => simp [Stmt.same]
  | .loop _ st, st' => by cases st' <;> simp [Stmt.same, st.same_iff]
  | .block _, st' => by cases st' <;> simp [Stmt.same, sameStmts_iff]

theorem sameStmts_iff : ∀ {sts sts' : List Stmt}, sameStmts sts sts' = true ↔ sts = sts'
  | [], sts' => by cases sts' <;> simp [sameStmts]
  | st :: sts, sts' => by cases sts' <;> simp [sameStmts, st.same_iff, sameStmts_iff]

end

instance : DecidableEq Stmt := fun _ _ => decidable_of_iff _ Stmt.same_iff

deriving instance DecidableEq for Item

/-- A source file. -/
structure Source where
  items : List Item
  deriving DecidableEq

/-! ## Labelled trees -/

/-- A tree with the rules of the grammar as labels; `absent` stands for an optional part that is
not there. -/
inductive Tree where
  | node (rule : String) (children : List Tree)
  | leaf (token : Token)
  | absent

mutual

def Expr.tree : Expr → Tree
  | .number t => .leaf t
  | .character t => .leaf t
  | .name t => .leaf t
  | .call f [] => .node "function_call" [.leaf f, .absent]
  | .call f (a :: as) =>
    .node "function_call" [.leaf f, .node "argument_list" (a.tree :: exprTrees as)]
  | .peek t => .node "stack_peek" [.leaf t]
  | .pop t => .node "stack_pop" [.leaf t]
  | .input => .node "input_call" []
  | .unary sign e => .node "factor" [.leaf sign, e.tree]
  | .chain level first rest => .node level.name (first.tree :: chainTrees rest)

def exprTrees : List Expr → List Tree
  | [] => []
  | e :: es => e.tree :: exprTrees es

def chainTrees : List (Token × Expr) → List Tree
  | [] => []
  | (op, e) :: rest => .leaf op :: e.tree :: chainTrees rest

end

mutual

def Stmt.tree : Stmt → Tree
  | .variable name none => statement "variable_declaration" [.leaf name]
  | .variable name (some e) => statement "variable_declaration" [.leaf name, e.tree]
  | .stack name size => statement "stack_declaration" [.leaf name, size.tree]
  | .assign name value => statement "assignment" [.leaf name, value.tree]
  | .expr value => .node "statement" [value.tree]
  | .push name value => statement "push_statement" [.leaf name, value.tree]
  | .output value => statement "output_statement" [value.tree]
  | .ifElse c body none => statement "if_statement" [c.tree, body.tree, .absent]
  | .ifElse c body (some other) => statement "if_statement" [c.tree, body.tree, other.tree]
  | .loop c body => statement "while_statement" [c.tree, body.tree]
  | .returning none => statement "return_statement" [.absent]
  | .returning (some e) => statement "return_statement" [e.tree]
  | .block body => statement "block" (stmtTrees body)
where
  statement (rule : String) (children : List Tree) : Tree :=
    .node "statement" [.node rule children]

def stmtTrees : List Stmt → List Tree
  | [] => []
  | s :: ss => s.tree :: stmtTrees ss

end

def Item.tree : Item → Tree
  | .includes file => .node "include_directive" [.leaf file]
  | .define name value => .node "define_directive" [.leaf name, value.tree]
  | .function name parameters body =>
    let list := match parameters with
      | [] => .absent
      | ps => .node "parameter_list" (ps.map fun p => .node "parameter" [.leaf p])
    .node "function_definition" [.node "type_specifier" [], .leaf name, list,
      .node "block" (stmtTrees body)]
  | .stmt s => s.tree

def Source.tree (s : Source) : Tree := .node "start" (s.items.map Item.tree)

mutual

/-- How many nodes stand on the longest path from the root. -/
def Tree.depth : Tree → Nat
  | .node _ children => depthOfAll children + 1
  | .leaf _ => 0
  | .absent => 0

def depthOfAll : List Tree → Nat
  | [] => 0
  | t :: ts => max t.depth (depthOfAll ts)

end

end TapeScript
