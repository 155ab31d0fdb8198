import TapeScript.Proofs.TokenReadings

set_option autoImplicit false

/-! # The names of a tree

The names at the leaves of a tree, from left to right (`Tree.names`). They do not depend on the places of the
tokens, and a tree is written with just these names, in this order (`Clause.Written.names_eq`).
-/

namespace TapeScript

mutual

/-- The names at the leaves, from left to right. -/
def Tree.names : Tree → List String
  | .node _ children => namesOfAll children
  | .leaf t => Lexeme.names [t.lexeme]
  | .absent => []

def namesOfAll : List Tree → List String
  | [] => []
  | t :: ts => t.names ++ namesOfAll ts

end

@[simp] theorem Tree.names_node (rule : String) (children : List Tree) :
    (Tree.node rule children).names = namesOfAll children := by rw [Tree.names]

@[simp] theorem Tree.names_leaf (t : Token) : (Tree.leaf t).names = Lexeme.names [t.lexeme] := by
  rw [Tree.names]

@[simp] theorem Tree.names_absent : Tree.absent.names = [] := by rw [Tree.names]

@[simp] theorem namesOfAll_nil : namesOfAll [] = [] := by rw [namesOfAll]

@[simp] theorem namesOfAll_cons (t : Tree) (ts : List Tree) :
    namesOfAll (t :: ts) = t.names ++ namesOfAll ts := by rw [namesOfAll]

theorem Item.names_function (name : Token) (params : List Token) (body : List Stmt) :
    (Item.function name params body).tree.names = Lexeme.names [name.lexeme] ++
      (namesOfAll (params.map fun p => .node "parameter" [.leaf p]) ++ namesOfAll (stmtTrees body)) := by
  cases params <;> simp [Item.tree]

/-! ## Places do not matter -/

@[simp] theorem Token.lexeme_bare (t : Token) : t.bare.lexeme = t.lexeme := rfl

mutual

theorem Expr.names_bare : ∀ e : Expr, e.bare.tree.names = e.tree.names
  | .number t | .character t | .name t | .peek t | .pop t => by simp [Expr.bare, Expr.tree]
  | .input => by simp [Expr.bare]
  | .call f [] => by simp [Expr.bare, bareAll, Expr.tree]
  | .call f (a :: as) => by
    simp [Expr.bare, bareAll, Expr.tree, Expr.names_bare a, names_bareAll as]
  | .unary sign e => by simp [Expr.bare, Expr.tree, Expr.names_bare e]
  | .chain level first rest => by
    simp [Expr.bare, Expr.tree, Expr.names_bare first, names_bareRest rest]

theorem names_bareAll : ∀ es : List Expr,
    namesOfAll (exprTrees (bareAll es)) = namesOfAll (exprTrees es)
  | [] => by simp [bareAll]
  | e :: es => by simp [bareAll, exprTrees, Expr.names_bare e, names_bareAll es]

theorem names_bareRest : ∀ rest : List (Token × Expr),
    namesOfAll (chainTrees (bareRest rest)) = namesOfAll (chainTrees rest)
  | [] => by simp [bareRest]
  | (op, e) :: rest => by simp [bareRest, chainTrees, Expr.names_bare e, names_bareRest rest]

end

theorem Expr.names_congr {e e' : Expr} (h : e'.bare = e.bare) : e'.tree.names = e.tree.names := by
  rw [← e'.names_bare, h, e.names_bare]

mutual

theorem Stmt.names_bare : ∀ s : Stmt, s.bare.tree.names = s.tree.names
  | .variable _ none | .returning none => by simp [Stmt.bare, Stmt.tree, Stmt.tree.statement]
  | .variable _ (some e) | .stack _ e | .assign _ e | .expr e | .push _ e | .output e
  | .returning (some e) => by
    simp [Stmt.bare, Stmt.tree, Stmt.tree.statement, Expr.names_bare e]
  | .ifElse c body none | .loop c body => by
    simp [Stmt.bare, Stmt.tree, Stmt.tree.statement, Expr.names_bare c, Stmt.names_bare body]
  | .ifElse c body (some other) => by
    simp [Stmt.bare, Stmt.tree, Stmt.tree.statement, Expr.names_bare c, Stmt.names_bare body,
      Stmt.names_bare other]
  | .block body => by
    simp [Stmt.bare, Stmt.tree, Stmt.tree.statement, names_bareStmts body]

theorem names_bareStmts : ∀ ss : List Stmt,
    namesOfAll (stmtTrees (bareStmts ss)) = namesOfAll (stmtTrees ss)
  | [] => by simp [bareStmts]
  | s :: ss => by simp [bareStmts, stmtTrees, Stmt.names_bare s, names_bareStmts ss]

end

theorem Stmt.names_congr {s s' : Stmt} (h : s'.bare = s.bare) : s'.tree.names = s.tree.names := by
  rw [← s'.names_bare, h, s.names_bare]

theorem names_congr_stmts {ss ss' : List Stmt} (h : bareStmts ss' = bareStmts ss) :
    namesOfAll (stmtTrees ss') = namesOfAll (stmtTrees ss) := by
  rw [← names_bareStmts ss', h, names_bareStmts ss]

/-! ## Names as they are written -/

namespace Lexeme

theorem names_cons (x : Lexeme) (xs : List Lexeme) : names (x :: xs) = names [x] ++ names xs :=
  names_append [x] xs

@[simp] theorem names_nil : names [] = [] := rfl

/-- What is written the same everywhere is no name. -/
theorem names_fixed_cons {t : Terminal} (ht : t.isName = false) (xs : List Lexeme) :
    names (t.lexeme :: xs) = names xs := names_cons_of_not ht xs

end Lexeme

variable {xs : List Lexeme}

/-- The names of an expression and its parts. -/
def Phrase.names : Phrase → List String
  | .expr _ e => e.tree.names
  | .rest _ operands => namesOfAll (chainTrees operands)
  | .arguments es => namesOfAll (exprTrees es)

theorem Phrase.Written.names_eq {p : Phrase} (h : p.Written xs) : Lexeme.names xs = p.names := by
  induction h with
  | number t | character t | name t => simp [Phrase.names, Expr.tree]
  | emptyCall f | peek f | pop f =>
    rw [Lexeme.names_cons]
    simp [Phrase.names, Expr.tree, Lexeme.names_fixed_cons, Terminal.isName]
  | call f ha has ih ih' =>
    rw [Lexeme.names_cons, Lexeme.names_fixed_cons rfl, Lexeme.names_append, Lexeme.names_append, ih, ih']
    simp [Phrase.names, Expr.tree, Lexeme.names_fixed_cons, Terminal.isName]
  | input => simp [Phrase.names, Expr.tree, Lexeme.names_fixed_cons, Terminal.isName]
  | unary sign he ih =>
    rw [Lexeme.names_cons, ih]
    simp [Phrase.names, Expr.tree]
  | parens he ih =>
    rw [Lexeme.names_fixed_cons rfl, Lexeme.names_append, ih]
    simp [Phrase.names, Lexeme.names_fixed_cons, Terminal.isName]
  | alone he ih => exact ih
  | chain hfirst hrest ih ih' =>
    rw [Lexeme.names_append, ih, ih']
    simp [Phrase.names, Expr.tree]
  | restNil level => simp [Phrase.names, chainTrees]
  | restCons op he hrest ih ih' =>
    rw [Lexeme.names_cons, Lexeme.names_append, ih, ih']
    simp [Phrase.names, chainTrees]
  | argumentsNil => simp [Phrase.names, exprTrees]
  | argumentsCons he hes ih ih' =>
    rw [Lexeme.names_fixed_cons rfl, Lexeme.names_append, ih, ih']
    simp [Phrase.names, exprTrees]

theorem Expr.names_of_written {e : Expr} (h : e.Written xs) :
    Lexeme.names xs = e.tree.names := Phrase.Written.names_eq h

def Clause.names : Clause → List String
  | .stmt s => s.tree.names
  | .stmts ss => namesOfAll (stmtTrees ss)

theorem Clause.Written.names_eq {c : Clause} (h : c.Written xs) : Lexeme.names xs = c.names := by
  induction h with
  | uninitialised name =>
    rw [Lexeme.names_fixed_cons rfl, Lexeme.names_cons]
    simp [Clause.names, Stmt.tree, Stmt.tree.statement, Lexeme.names_fixed_cons, Terminal.isName]
  | initialised name he | stack name he =>
    rw [Lexeme.names_fixed_cons rfl, Lexeme.names_cons]
    simp [Clause.names, Stmt.tree, Stmt.tree.statement, Lexeme.names_fixed_cons, Terminal.isName,
      Expr.names_of_written he]
  | assign name he | push name he =>
    rw [Lexeme.names_cons]
    simp [Clause.names, Stmt.tree, Stmt.tree.statement, Lexeme.names_fixed_cons, Terminal.isName,
      Expr.names_of_written he]
  | expr he | output he | returning he =>
    simp [Clause.names, Stmt.tree, Stmt.tree.statement, Lexeme.names_fixed_cons, Terminal.isName,
      Expr.names_of_written he]
  | ifOnly hc hbody ih | loop hc hbody ih =>
    simp [Clause.names, Stmt.tree, Stmt.tree.statement, Lexeme.names_fixed_cons, Terminal.isName,
      Expr.names_of_written hc, ih]
  | ifElse hc hbody hother ih ih' =>
    simp [Clause.names, Stmt.tree, Stmt.tree.statement, Lexeme.names_fixed_cons, Terminal.isName,
      Expr.names_of_written hc, ih, ih']
  | returnOnly =>
    simp [Clause.names, Stmt.tree, Stmt.tree.statement, Lexeme.names_fixed_cons, Terminal.isName]
  | block hbody ih =>
    simp [Clause.names, Stmt.tree, Stmt.tree.statement, Lexeme.names_fixed_cons, Terminal.isName, ih]
  | nil => simp [Clause.names, stmtTrees]
  | cons hs hss ih ih' =>
    rw [Lexeme.names_append, ih, ih']
    simp [Clause.names, stmtTrees]

end TapeScript
