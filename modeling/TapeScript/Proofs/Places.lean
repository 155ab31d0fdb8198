import TapeScript.Lower.Source
import TapeScript.Proofs.Writing

set_option autoImplicit false

/-! # The places of tokens

Where a token stands in the text plays no part in lowering: a program is lowered like the program
without the places of its tokens (`SourceLower.source_bare`).
-/

namespace TapeScript

/-- An item without the places of its tokens. -/
def Item.bare : Item → Item
  | .includes file => .includes file.bare
  | .define name value => .define name.bare value.bare
  | .function name params body => .function name.bare (params.map Token.bare) (bareStmts body)
  | .stmt st => .stmt st.bare

/-- A program without the places of its tokens. -/
def Source.bare (s : Source) : Source := ⟨s.items.map Item.bare⟩

/-! ## Depth -/

mutual

theorem Expr.depth_bare : ∀ e : Expr, e.bare.tree.depth = e.tree.depth
  | .number _ | .character _ | .name _ | .peek _ | .pop _ | .input => rfl
  | .call _ [] => rfl
  | .call f (a :: as) => by
    simp only [Expr.bare, bareAll, Expr.tree, Tree.depth, depthOfAll, Expr.depth_bare a,
      depth_bareAll as]
  | .unary sign e => by
    simp only [Expr.bare, Expr.tree, Tree.depth, depthOfAll, Expr.depth_bare e]
  | .chain level first rest => by
    simp only [Expr.bare, Expr.tree, Tree.depth, depthOfAll, Expr.depth_bare first,
      depth_bareRest rest]

theorem depth_bareAll : ∀ es : List Expr, depthOfAll (exprTrees (bareAll es)) =
    depthOfAll (exprTrees es)
  | [] => rfl
  | e :: es => by
    simp only [bareAll, exprTrees, depthOfAll, Expr.depth_bare e, depth_bareAll es]

theorem depth_bareRest : ∀ rest : List (Token × Expr), depthOfAll (chainTrees (bareRest rest)) =
    depthOfAll (chainTrees rest)
  | [] => rfl
  | (op, e) :: rest => by
    simp only [bareRest, chainTrees, depthOfAll, Tree.depth, Expr.depth_bare e,
      depth_bareRest rest]

end

mutual

theorem Stmt.depth_bare : ∀ st : Stmt, st.bare.tree.depth = st.tree.depth
  | .variable _ none | .returning none => rfl
  | .variable _ (some e) | .stack _ e | .assign _ e | .expr e | .push _ e | .output e
  | .returning (some e) => by
    simp only [Stmt.bare, Stmt.tree, Stmt.tree.statement, Tree.depth, depthOfAll, e.depth_bare]
  | .ifElse c body none | .loop c body => by
    simp only [Stmt.bare, Stmt.tree, Stmt.tree.statement, Tree.depth, depthOfAll, c.depth_bare,
      Stmt.depth_bare body]
  | .ifElse c body (some otherwise) => by
    simp only [Stmt.bare, Stmt.tree, Stmt.tree.statement, Tree.depth, depthOfAll, c.depth_bare,
      Stmt.depth_bare body, Stmt.depth_bare otherwise]
  | .block body => by
    simp only [Stmt.bare, Stmt.tree, Stmt.tree.statement, Tree.depth, depthOfAll,
      depth_bareStmts body]

theorem depth_bareStmts : ∀ sts : List Stmt, depthOfAll (stmtTrees (bareStmts sts)) =
    depthOfAll (stmtTrees sts)
  | [] => rfl
  | st :: sts => by
    simp only [bareStmts, stmtTrees, depthOfAll, Stmt.depth_bare st, depth_bareStmts sts]

end

/-- Parameters are all of the same depth, whatever their tokens. -/
theorem depth_parameters (params : List Token) :
    depthOfAll (params.map fun p => .node "parameter" [.leaf p]) = min params.length 1 := by
  induction params with
  | nil => rfl
  | cons p params ih =>
    simp only [List.map_cons, depthOfAll, Tree.depth, ih, List.length_cons]
    omega

/-- The depth of a function depends on how many parameters there are, and on the body. -/
theorem depth_function (name : Token) (params : List Token) (body : List Stmt) :
    (Item.function name params body).tree.depth =
      max (if params = [] then 0 else 2) (depthOfAll (stmtTrees body) + 1) + 1 := by
  cases params with
  | nil =>
    simp only [Item.tree, Tree.depth, depthOfAll, if_pos]
    omega
  | cons p params =>
    simp only [Item.tree, Tree.depth, depthOfAll, depth_parameters, List.length_cons, reduceCtorEq,
      if_false]
    omega

theorem Item.depth_bare (i : Item) : i.bare.tree.depth = i.tree.depth := by
  cases i with
  | includes file => rfl
  | define name value => simp only [Item.bare, Item.tree, Tree.depth, depthOfAll, value.depth_bare]
  | function name params body =>
    rw [Item.bare, depth_function, depth_function, depth_bareStmts]
    simp only [List.map_eq_nil_iff]
  | stmt st => exact st.depth_bare

theorem depthOfAll_congr {α : Type} {f g : α → Tree} (xs : List α)
    (h : ∀ x ∈ xs, (f x).depth = (g x).depth) :
    depthOfAll (xs.map f) = depthOfAll (xs.map g) := by
  induction xs with
  | nil => rfl
  | cons x xs ih =>
    obtain ⟨hx, hxs⟩ := List.forall_mem_cons.mp h
    rw [List.map_cons, List.map_cons, depthOfAll, depthOfAll, hx, ih hxs]

theorem Source.depth_bare (s : Source) : s.bare.tree.depth = s.tree.depth := by
  rw [Source.tree, Source.tree, Tree.depth, Tree.depth, Source.bare, List.map_map,
    depthOfAll_congr _ fun i _ => i.depth_bare]

/-! ## Lowering -/

namespace SourceLower

mutual

theorem expr_bare : ∀ e : Expr, expr e.bare = expr e
  | .number _ | .character _ | .name _ | .peek _ | .pop _ | .input | .call _ [] => by
    simp only [Expr.bare, bareAll, expr, declaredName, Token.bare]
  | .call f (a :: as) => by
    simp only [Expr.bare, bareAll, expr, declaredName, Token.bare, expr_bare a, exprs_bare as]
  | .unary sign e => by
    simp only [Expr.bare, expr, Token.bare, expr_bare e]
  | .chain level first rest => by
    simp only [Expr.bare, expr, expr_bare first, operands_bare rest]

theorem exprs_bare : ∀ es : List Expr, exprs (bareAll es) = exprs es
  | [] => rfl
  | e :: es => by simp only [bareAll, exprs, expr_bare e, exprs_bare es]

theorem operands_bare : ∀ rest : List (Token × Expr), operands (bareRest rest) = operands rest
  | [] => rfl
  | (op, e) :: rest => by
    simp only [bareRest, operands, Token.bare, expr_bare e, operands_bare rest]

end

mutual

theorem stmt_bare : ∀ st : Stmt, stmt st.bare = stmt st
  | .variable _ none | .returning none => by
    simp only [Stmt.bare, stmt, newName, Token.bare]
  | .variable _ (some e) | .stack _ e | .assign _ e | .expr e | .push _ e | .output e
  | .returning (some e) => by
    simp only [Stmt.bare, stmt, newName, declaredName, Token.bare, expr_bare e]
  | .ifElse c body none | .loop c body => by
    simp only [Stmt.bare, stmt, expr_bare c, stmt_bare body]
  | .ifElse c body (some otherwise) => by
    simp only [Stmt.bare, stmt, expr_bare c, stmt_bare body, stmt_bare otherwise]
  | .block body => by
    simp only [Stmt.bare, stmt, stmts_bare body]

theorem stmts_bare : ∀ sts : List Stmt, stmts (bareStmts sts) = stmts sts
  | [] => rfl
  | st :: sts => by simp only [bareStmts, stmts, stmt_bare st, stmts_bare sts]

end

theorem parameters_bare (params : List Token) :
    parameters (params.map Token.bare) = parameters params := by
  cases params with
  | nil => rfl
  | cons p params => rfl

theorem item_bare (i : Item) : item i.bare = item i := by
  cases i with
  | includes file => rfl
  | define name value =>
    simp only [Item.bare, item, declaredName, Token.bare, expr_bare value]
  | function name params body =>
    simp only [Item.bare, item, newName, Token.bare, parameters_bare, stmts_bare body]
  | stmt st => exact stmt_bare st

theorem items_bare (is : List Item) : items (is.map Item.bare) = items is := by
  induction is with
  | nil => rfl
  | cons i is ih => simp only [List.map_cons, items, item_bare, ih]

theorem source_bare (s : Source) (stack : CallStack) : source s.bare stack = source s stack := by
  unfold source
  rw [Source.depth_bare, Source.bare]
  simp only [List.takeWhile_map, Function.comp_def, Item.depth_bare, items_bare]

/-- Programs that differ in the places of their tokens are lowered alike. -/
theorem source_eq_of_bare {s s' : Source} (h : s.bare = s'.bare) (stack : CallStack) :
    source s stack = source s' stack := by
  rw [← source_bare s, h, source_bare]

end SourceLower

end TapeScript
