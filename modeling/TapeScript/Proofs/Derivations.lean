import TapeScript.Proofs.Productions
import TapeScript.Proofs.TreeNames

set_option autoImplicit false

/-! # What is read is derived

The tokens that a parser takes are derived from the rule it is for, and the names among them are those of
the tree it returns (`Parser.Derives`). A parser that goes on from a token or an operand that has been
taken already derives the two together (`Parser.DerivesBehind`).
-/

namespace TapeScript

open Pattern

namespace Parser

/-! ## Deriving what is taken -/

/-- The tokens taken between two states fit the pattern, and these are the names among them. -/
def Derived (st : ParserState) (p : Pattern) (names : List String) (st' : ParserState) : Prop :=
  ∃ xs, Consumes st xs st' ∧ p.Matches xs ∧ Lexeme.names xs = names

section Derived

variable {st st1 st' : ParserState} {p q : Pattern} {ns ms : List String}

namespace Derived

theorem seq (h : Derived st p ns st1) (h' : Derived st1 q ms st') :
    Derived st (p ++ q) (ns ++ ms) st' := by
  obtain ⟨xs, hxs, hp, rfl⟩ := h
  obtain ⟨ys, hys, hq, rfl⟩ := h'
  exact ⟨xs ++ ys, hxs.append hys, .seq hp hq, Lexeme.names_append xs ys⟩

theorem imp (h : Derived st p ns st') (himp : ∀ xs, p.Matches xs → q.Matches xs) :
    Derived st q ns st' := by
  obtain ⟨xs, hxs, hp, hns⟩ := h
  exact ⟨xs, hxs, himp xs hp, hns⟩

theorem choose (h : Derived st q ns st') (hq : q ∈ p.alternatives) : Derived st p ns st' :=
  h.imp fun _ hxs => hxs.choose hq

theorem rule {r : Rule} (h : Derived st r.body ns st') : Derived st (.rule r) ns st' :=
  h.imp fun _ => .rule

theorem present (h : Derived st p ns st') : Derived st (optional p) ns st' := h.imp fun _ => .present

theorem more (h : Derived st p ns st1) (h' : Derived st1 (many p) ms st') :
    Derived st (many p) (ns ++ ms) st' :=
  (h.seq h').imp fun _ hxs => by
    cases hxs with
    | seq hp hq => exact .more hp hq

theorem congr (h : Derived st p ns st') (hns : ns = ms) : Derived st p ms st' := hns ▸ h

theorem absent (h : Derived st p ns st') (q : Pattern) : Derived st (p ++ optional q) ns st' :=
  (h.seq ⟨[], .nil st', .absent, rfl⟩).congr (List.append_nil ns)

end Derived

theorem derived_stop (st : ParserState) (p : Pattern) : Derived st (many p) [] st :=
  ⟨[], .nil st, .stop, rfl⟩

end Derived

section Parsers

variable {α β : Type}

/-- Whatever the parser takes is derived by the pattern, and has the names of the result. -/
def Derives (parser : Parser α) (p : Pattern) (names : α → List String) : Prop :=
  ∀ st, Ensures parser st fun a st' => Derived st p (names a) st'

/-- Together with something that has been taken before. -/
def DerivesBehind (q : Pattern) (ns : List String) (parser : Parser α) (p : Pattern)
    (names : α → List String) : Prop :=
  ∀ ⦃st0 st : ParserState⦄, Derived st0 q ns st →
    Ensures parser st fun a st' => Derived st0 p (names a) st'

theorem derives_refuse (p : Pattern) (names : α → List String) : Derives refuse p names :=
  fun _ => .refuse

theorem derivesBehind_refuse {q : Pattern} {ns : List String} (p : Pattern)
    (names : α → List String) : DerivesBehind q ns refuse p names := fun _ _ _ => .refuse

/-- One more part of what is derived. -/
theorem Derived.andThen {st0 st : ParserState} {p q : Pattern} {ns : List String} {parser : Parser α}
    {names : α → List String} {f : α → Parser β} {post : β → ParserState → Prop}
    (h0 : Derived st0 p ns st) (hparser : Ensures parser st fun a st1 => Derived st q (names a) st1)
    (hf : ∀ a st1, Derived st0 (p ++ q) (ns ++ names a) st1 → Ensures (f a) st1 post) :
    Ensures (parser >>= f) st post :=
  .bind hparser fun a st1 h => hf a st1 (h0.seq h)

/-! ### Single tokens -/

variable {st : ParserState} {k : Terminal} {mode : Mode}

theorem ensures_token (hahead : st.ahead.map Token.terminal = some k) (hk : k.Leads mode) :
    Ensures (shift mode) st fun t st' => Derived st (token k) (Lexeme.names [t.lexeme]) st' := by
  intro t st' h
  rw [(exists_of_shift h).1] at hahead
  obtain rfl : t.terminal = k := Option.some.inj hahead
  exact ⟨[t.lexeme], .cons h hk (.nil st'), .token t.lexeme, rfl⟩

/-- A token that is no name. -/
theorem ensures_mark (hahead : st.ahead.map Token.terminal = some k)
    (hk : k.Leads mode ∧ k.isName = false) :
    Ensures (shift mode) st fun _ st' => Derived st (token k) [] st' := by
  intro t st' h
  refine (ensures_token hahead hk.1 h).congr (Lexeme.names_cons_of_not ?_ [])
  rw [(exists_of_shift h).1] at hahead
  cases hahead
  exact hk.2

theorem derives_token (hk : k.Leads mode) :
    Derives (expect k mode) (token k) fun t => Lexeme.names [t.lexeme] := by
  refine fun st => .look fun o hahead => ?_
  split
  · next ho => exact ensures_token (hahead.trans ho) hk
  · exact .refuse

theorem derives_mark (hk : k.Leads mode ∧ k.isName = false) :
    Derives (expect k mode) (token k) fun _ => [] := by
  refine fun st => .look fun o hahead => ?_
  split
  · next ho => exact ensures_mark (hahead.trans ho) hk
  · exact .refuse

end Parsers

/-! ## Expressions -/

section Expressions

variable {st : ParserState} {fuel : Nat}

theorem derives_operands {level : Level} {operand : Parser Expr}
    (hoperand : Derives operand (.rule level.operand) (·.tree.names)) (fuel : Nat) :
    Derives (operands level.operators operand fuel) (many (level.operator ++ .rule level.operand))
      fun rest => namesOfAll (chainTrees rest) := by
  induction fuel with
  | zero => exact derives_refuse _ _
  | succ fuel ih =>
    refine fun st => .look fun o hahead => ?_
    split
    · next k =>
      split
      · next hk =>
        have hleads : ∀ k ∈ level.operators, k.Leads .operand := by
          cases level <;> decide
        have hmem : token k ∈ level.operator.alternatives := by
          rw [Level.alternatives_operator]
          exact List.mem_map_of_mem hk
        refine .bind (ensures_token hahead (hleads k hk)) fun op _ hop => ?_
        refine (hop.choose hmem).andThen (hoperand _) fun e _ hfirst => ?_
        refine .bind (ih _) fun rest _ hrest => .pure ((hfirst.more hrest).congr ?_)
        simp [chainTrees]
      · exact .pure ((derived_stop _ _).congr (by simp [chainTrees]))
    · exact .pure ((derived_stop _ _).congr (by simp [chainTrees]))

theorem derives_chain (level : Level) {operand : Parser Expr}
    (hoperand : Derives operand (.rule level.operand) (·.tree.names)) (first : Expr) (fuel : Nat) :
    DerivesBehind (.rule level.operand) first.tree.names (chain level first operand fuel)
      (.rule level.rule) (·.tree.names) := by
  intro st0 st h0
  refine h0.andThen (derives_operands hoperand fuel _) fun rest st1 hwhole => ?_
  have hbody : Derived st0 level.rule.body (first.tree.names ++ namesOfAll (chainTrees rest)) st1 := by
    rw [Level.body_rule]
    exact hwhole
  split
  · exact .pure (hbody.rule.congr (by simp [chainTrees]))
  · exact .pure (hbody.rule.congr (by simp [Expr.tree]))

/-- The three tokens of a call without arguments. -/
theorem ensures_emptyCall {k : Terminal} (hahead : st.ahead.map Token.terminal = some k)
    (hk : k ∈ [Terminal.pop, .peek, .input]) :
    Ensures emptyCall st fun _ st' => ∃ st1 st2, Derived st (token k) [] st1 ∧
      Derived st1 (token .parenOpen) [] st2 ∧ Derived st2 (token .parenClose) [] st' := by
  have hword : ∀ k ∈ [Terminal.pop, .peek, .input], k.Leads .parenOpen ∧ k.isName = false := by decide
  refine .bind (ensures_mark hahead (hword k hk)) fun _ st1 hword => ?_
  refine .bind (derives_mark (by decide) _) fun _ st2 hopen => ?_
  refine .bind (derives_mark (by decide) _) fun _ st3 hclose => .pure ?_
  exact ⟨st1, st2, hword, hopen, hclose⟩

theorem Derived.atom {st' : ParserState} {p : Pattern} {ns : List String} (h : Derived st p ns st')
    (hp : p ∈ Rule.atom.body.alternatives) : Derived st (.rule .factor) ns st' :=
  Derived.rule <| Derived.choose (q := .rule .atom) (h.choose hp).rule (by decide)

theorem derives_stackOperation (name : Token) :
    DerivesBehind (token .declaredName ++ token .dot) (Lexeme.names [name.lexeme]) (stackOperation name)
      (.rule .factor) (·.tree.names) := by
  refine fun st0 st h0 => .look fun o hahead => ?_
  split
  · refine .bind (ensures_emptyCall hahead (by decide)) fun _ st1 hcall => .pure ?_
    obtain ⟨_, _, hword, hopen, hclose⟩ := hcall
    have hpop : Derived st0 (.rule .stackPop) _ st1 := (((h0.seq hword).seq hopen).seq hclose).rule
    exact (hpop.atom (by decide)).congr (by simp [Expr.tree])
  · refine .bind (ensures_emptyCall hahead (by decide)) fun _ st1 hcall => .pure ?_
    obtain ⟨_, _, hword, hopen, hclose⟩ := hcall
    have hpeek : Derived st0 (.rule .stackPeek) _ st1 := (((h0.seq hword).seq hopen).seq hclose).rule
    exact (hpeek.atom (by decide)).congr (by simp [Expr.tree])
  · exact .refuse

/-- All parsers of expressions with the given fuel. -/
structure ExprsDerive (fuel : Nat) : Prop where
  factor : Derives (factor fuel) (.rule .factor) (·.tree.names)
  named : ∀ name, DerivesBehind (token .declaredName) (Lexeme.names [name.lexeme]) (named name fuel)
    (.rule .factor) (·.tree.names)
  arguments : Derives (arguments fuel) (many (token .comma ++ .rule .expression))
    fun es => namesOfAll (exprTrees es)
  expressionFrom : ∀ first, DerivesBehind (.rule .factor) first.tree.names (expressionFrom first fuel)
    (.rule .expression) (·.tree.names)
  term : Derives (term fuel) (.rule .term) (·.tree.names)
  arithmetic : Derives (arithmetic fuel) (.rule .arithmetic) (·.tree.names)
  expression : Derives (expression fuel) (.rule .expression) (·.tree.names)

theorem ExprsDerive.zero : ExprsDerive 0 where
  factor := by rw [Parser.factor]; exact derives_refuse _ _
  named _ := by rw [Parser.named]; exact derivesBehind_refuse _ _
  arguments := by rw [Parser.arguments]; exact derives_refuse _ _
  expressionFrom _ := by rw [Parser.expressionFrom]; exact derivesBehind_refuse _ _
  term := by rw [Parser.term]; exact derives_refuse _ _
  arithmetic := by rw [Parser.arithmetic]; exact derives_refuse _ _
  expression := by rw [Parser.expression]; exact derives_refuse _ _

section Step

variable (ih : ExprsDerive fuel)

include ih

theorem derives_factor_succ : Derives (factor (fuel + 1)) (.rule .factor) (·.tree.names) := by
  rw [factor]
  refine fun st => .look fun o hahead => ?_
  split
  case h_1 | h_2 => -- a sign
    refine .bind (ensures_token hahead (by decide)) fun sign st1 hsign => ?_
    have hsign' : Derived st (token .positive ||| token .negative) _ st1 := hsign.choose (by decide)
    refine hsign'.andThen (ih.factor _) fun operand _ hwhole => .pure ?_
    refine Derived.congr (Derived.rule (hwhole.choose ?_)) ?_
    · decide
    · simp [Expr.tree]
  case h_3 | h_4 => -- a literal
    refine .bind (ensures_token hahead (by decide)) fun t _ ht => .pure ?_
    exact (ht.atom (by decide)).congr (by simp [Expr.tree])
  case h_5 => exact .bind (ensures_token hahead (by decide)) fun name _ hname => ih.named name hname
  case h_6 => -- an input
    refine .bind (ensures_emptyCall hahead (by decide)) fun _ st1 hcall => .pure ?_
    obtain ⟨_, _, hword, hopen, hclose⟩ := hcall
    have hinput : Derived st (.rule .inputCall) _ st1 := ((hword.seq hopen).seq hclose).rule
    exact (hinput.atom (by decide)).congr (by simp [Expr.tree])
  case h_7 => -- an expression in parentheses, of which the tree keeps no trace
    refine .bind (ensures_mark hahead (by decide)) fun _ _ hopen => ?_
    refine hopen.andThen (ih.expression _) fun e _ he => ?_
    refine he.andThen (derives_mark (by decide) _) fun _ _ hwhole => .pure ?_
    exact (hwhole.atom (by decide)).congr (by simp)
  case h_8 => exact .refuse

theorem derives_named_succ (name : Token) :
    DerivesBehind (token .declaredName) (Lexeme.names [name.lexeme]) (named name (fuel + 1))
      (.rule .factor) (·.tree.names) := by
  rw [named]
  refine fun st0 st h0 => .look fun o hahead => ?_
  split
  · refine h0.andThen (ensures_mark hahead (by decide)) fun _ st1 hopen => .look fun o hahead => ?_
    split
    · next hnone =>
      refine (hopen.absent (.rule .argumentList)).andThen
        (ensures_mark (hahead.trans hnone) (by decide)) fun _ st2 hwhole => .pure ?_
      have hcall : Derived st0 (.rule .functionCall) _ st2 := hwhole.rule
      exact (hcall.atom (by decide)).congr (by simp [Expr.tree])
    · refine .bind (ih.expression _) fun first _ hfirst => ?_
      refine hfirst.andThen (ih.arguments _) fun rest st2 hrest => ?_
      have hlist : Derived st1 (.rule .argumentList) _ st2 := hrest.rule
      refine (hopen.seq hlist.present).andThen (derives_mark (by decide) _) fun _ st3 hwhole => .pure ?_
      have hcall : Derived st0 (.rule .functionCall) _ st3 := hwhole.rule
      exact (hcall.atom (by decide)).congr (by simp [Expr.tree])
  · refine h0.andThen (ensures_mark hahead (by decide)) fun _ _ hdot => ?_
    exact derives_stackOperation name (hdot.congr (List.append_nil _))
  · exact .pure ((h0.atom (by decide)).congr (by simp [Expr.tree]))

theorem derives_arguments_succ :
    Derives (arguments (fuel + 1)) (many (token .comma ++ .rule .expression))
      fun es => namesOfAll (exprTrees es) := by
  rw [arguments]
  refine fun st => .look fun o hahead => ?_
  split
  · next ho =>
    refine .bind (ensures_mark (hahead.trans ho) (by decide)) fun _ _ hcomma => ?_
    refine hcomma.andThen (ih.expression _) fun e _ he => ?_
    refine .bind (ih.arguments _) fun es _ hes => .pure ((he.more hes).congr ?_)
    simp [exprTrees]
  · exact .pure ((derived_stop _ _).congr (by simp [exprTrees]))

theorem derives_expressionFrom_succ (first : Expr) :
    DerivesBehind (.rule .factor) first.tree.names (expressionFrom first (fuel + 1))
      (.rule .expression) (·.tree.names) := by
  rw [expressionFrom]
  intro st0 st h0
  refine .bind (derives_chain .term ih.factor first fuel h0) fun t _ ht => ?_
  refine .bind (derives_chain .arithmetic ih.term t fuel ht) fun a _ ha => ?_
  exact fun _ _ h => Derived.rule (derives_chain .comparison ih.arithmetic a fuel ha h)

theorem ExprsDerive.succ : ExprsDerive (fuel + 1) where
  factor := derives_factor_succ ih
  named := derives_named_succ ih
  arguments := derives_arguments_succ ih
  expressionFrom := derives_expressionFrom_succ ih
  term := by
    rw [Parser.term]
    exact fun st => .bind (ih.factor st) fun first _ => (derives_chain .term ih.factor first fuel ·)
  arithmetic := by
    rw [Parser.arithmetic]
    exact fun st => .bind (ih.term st) fun first _ => (derives_chain .arithmetic ih.term first fuel ·)
  expression := by
    rw [Parser.expression]
    exact fun st => .bind (ih.factor st) fun first _ => (ih.expressionFrom first ·)

end Step

theorem exprsDerive (fuel : Nat) : ExprsDerive fuel := by
  induction fuel with
  | zero => exact .zero
  | succ fuel ih => exact .succ ih

end Expressions

/-! ## Statements -/

section Statements

variable {st0 st st' : ParserState} {p : Pattern} {ns : List String}

theorem Derived.statement {ms : List String} (r : Rule) (h : Derived st r.body ns st')
    (hr : .rule r ∈ Rule.statement.body.alternatives) (hns : ns = ms) :
    Derived st (.rule .statement) ms st' :=
  Derived.rule ((h.rule.choose hr).congr hns)

/-- The end of a statement that has a rule of its own. -/
theorem Derived.ended {s : Stmt} (r : Rule) (h0 : Derived st0 p ns st)
    (hbody : r.body = p ++ token .semicolon) (hr : .rule r ∈ Rule.statement.body.alternatives)
    (hns : ns = s.tree.names) :
    Ensures (endStatement s) st fun s st' => Derived st0 (.rule .statement) s.tree.names st' := by
  refine h0.andThen (derives_mark (by decide) _) fun _ st1 hwhole => .pure ?_
  rw [← hbody] at hwhole
  exact hwhole.statement r hr ((List.append_nil ns).trans hns)

theorem derives_parenthesised {mode : Mode} (hmode : Terminal.parenClose.Leads mode) (fuel : Nat)
    (h0 : Derived st0 p ns st) :
    Ensures (parenthesised mode fuel) st fun e st' =>
      Derived st0 (p ++ token .parenOpen ++ .rule .expression ++ token .parenClose)
        (ns ++ e.tree.names) st' := by
  refine h0.andThen (derives_mark (by decide) _) fun _ _ hopen => ?_
  refine hopen.andThen ((exprsDerive fuel).expression _) fun e _ he => ?_
  refine he.andThen (derives_mark ⟨hmode, rfl⟩ _) fun _ _ hwhole => .pure (hwhole.congr ?_)
  simp

variable (fuel : Nat)

theorem derives_expressionStatement (first : Expr) :
    DerivesBehind (.rule .factor) first.tree.names (expressionStatement first fuel) (.rule .statement)
      (·.tree.names) := by
  intro st0 st h0
  refine .bind ((exprsDerive fuel).expressionFrom first h0) fun e _ he => ?_
  refine he.andThen (derives_mark (by decide) _) fun _ _ hwhole => .pure ?_
  exact Derived.rule ((hwhole.choose (by decide)).congr (by simp [Stmt.tree]))

/-- What starts with a name: an assignment, a push or an expression. -/
theorem ensures_namedStatement (hahead : st.ahead.map Token.terminal = some .declaredName) :
    Ensures (namedStatement fuel) st fun s st' => Derived st (.rule .statement) s.tree.names st' := by
  refine .bind (ensures_token hahead (by decide)) fun name st1 hname => .look fun o hahead => ?_
  split
  · -- an assignment
    have hlvalue : Derived st (.rule .lvalue) _ st1 := hname.rule
    refine hlvalue.andThen (ensures_mark hahead (by decide)) fun _ _ hassign => ?_
    refine hassign.andThen ((exprsDerive fuel).expression _) fun e _ hwhole => ?_
    exact hwhole.ended .assignment rfl (by decide) (by simp [Stmt.tree, Stmt.tree.statement])
  · -- a stack, pushed to or read
    refine hname.andThen (ensures_mark hahead (by decide)) fun _ _ hdot => .look fun o hahead => ?_
    split
    · next ho =>
      refine hdot.andThen (ensures_mark (hahead.trans ho) (by decide)) fun _ _ hpush => ?_
      refine .bind (derives_parenthesised (by decide) fuel hpush) fun e _ hwhole => ?_
      exact hwhole.ended .pushStatement rfl (by decide) (by simp [Stmt.tree, Stmt.tree.statement])
    · refine .bind (derives_stackOperation name (hdot.congr (List.append_nil _))) fun first _ hfirst => ?_
      exact derives_expressionStatement fuel first hfirst
  · refine .bind ((exprsDerive fuel).named name hname) fun first _ hfirst => ?_
    exact derives_expressionStatement fuel first hfirst

/-- A statement, given that shorter statements are derived. -/
theorem derives_statement_succ (ih : Derives (statement fuel) (.rule .statement) (·.tree.names))
    (ih' : Derives (statements fuel) (many (.rule .statement)) fun ss => namesOfAll (stmtTrees ss)) :
    Derives (statement (fuel + 1)) (.rule .statement) (·.tree.names) := by
  rw [statement]
  refine fun st => .look fun o hahead => ?_
  split
  case h_1 => -- a variable
    refine .bind (ensures_mark hahead (by decide)) fun _ _ htype => ?_
    refine htype.andThen (derives_token (by decide) _) fun name _ hname => .look fun o hahead => ?_
    split
    · next ho =>
      refine .bind (ensures_mark (hahead.trans ho) (by decide)) fun _ _ hassign => ?_
      refine hassign.andThen ((exprsDerive fuel).expression _) fun e _ hinitial => ?_
      exact (hname.seq hinitial.present).ended .variableDeclaration rfl (by decide)
        (by simp [Stmt.tree, Stmt.tree.statement])
    · exact (hname.absent (token .assign ++ .rule .expression)).ended .variableDeclaration rfl
        (by decide) (by simp [Stmt.tree, Stmt.tree.statement])
  case h_2 => -- a stack
    refine .bind (ensures_mark hahead (by decide)) fun _ _ htype => ?_
    refine htype.andThen (derives_token (by decide) _) fun name _ hname => ?_
    refine hname.andThen (derives_mark (by decide) _) fun _ _ hopen => ?_
    refine hopen.andThen ((exprsDerive fuel).expression _) fun size _ hsize => ?_
    refine hsize.andThen (derives_mark (by decide) _) fun _ _ hclose => ?_
    exact hclose.ended .stackDeclaration rfl (by decide) (by simp [Stmt.tree, Stmt.tree.statement])
  case h_3 => -- an output
    refine .bind (ensures_mark hahead (by decide)) fun _ _ hword => ?_
    refine .bind (derives_parenthesised (by decide) fuel hword) fun e _ hwhole => ?_
    exact hwhole.ended .outputStatement rfl (by decide) (by simp [Stmt.tree, Stmt.tree.statement])
  case h_4 => -- a branch
    refine .bind (ensures_mark hahead (by decide)) fun _ _ hword => ?_
    refine .bind (derives_parenthesised (by decide) fuel hword) fun c _ hc => ?_
    refine hc.andThen (ih _) fun body st1 hhead => .look fun o hahead => ?_
    split
    · next ho =>
      refine .bind (ensures_mark (hahead.trans ho) (by decide)) fun _ _ helse => ?_
      refine helse.andThen (ih _) fun other st2 hother => .pure ?_
      have hclause : Derived st1 (.rule .elseClause) _ st2 := hother.rule
      exact (hhead.seq hclause.present).statement .ifStatement (by decide)
        (by simp [Stmt.tree, Stmt.tree.statement])
    · exact .pure ((hhead.absent (.rule .elseClause)).statement .ifStatement (by decide)
        (by simp [Stmt.tree, Stmt.tree.statement]))
  case h_5 => -- a loop
    refine .bind (ensures_mark hahead (by decide)) fun _ _ hword => ?_
    refine .bind (derives_parenthesised (by decide) fuel hword) fun c _ hc => ?_
    refine hc.andThen (ih _) fun body _ hwhole => .pure ?_
    exact hwhole.statement .whileStatement (by decide) (by simp [Stmt.tree, Stmt.tree.statement])
  case h_6 => -- a return
    refine .bind (ensures_mark hahead (by decide)) fun _ _ hword => .look fun o hahead => ?_
    split
    · exact (hword.absent (.rule .expression)).ended .returnStatement rfl (by decide)
        (by simp [Stmt.tree, Stmt.tree.statement])
    · refine .bind ((exprsDerive fuel).expression _) fun e _ hvalue => ?_
      exact (hword.seq hvalue.present).ended .returnStatement rfl (by decide)
        (by simp [Stmt.tree, Stmt.tree.statement])
  case h_7 => -- a block
    refine .bind (ensures_mark hahead (by decide)) fun _ _ hopen => ?_
    refine hopen.andThen (ih' _) fun body _ hbody => ?_
    refine hbody.andThen (derives_mark (by decide) _) fun _ _ hwhole => .pure ?_
    exact hwhole.statement .block (by decide) (by simp [Stmt.tree, Stmt.tree.statement])
  case h_8 => exact ensures_namedStatement fuel hahead
  case h_9 =>
    refine .bind ((exprsDerive fuel).factor _) fun first _ hfirst => ?_
    exact derives_expressionStatement fuel first hfirst
  case h_10 => exact .refuse

theorem statements_derive : Derives (statement fuel) (.rule .statement) (·.tree.names) ∧
    Derives (statements fuel) (many (.rule .statement)) fun ss => namesOfAll (stmtTrees ss) := by
  induction fuel with
  | zero =>
    rw [statement, statements]
    exact ⟨derives_refuse _ _, derives_refuse _ _⟩
  | succ fuel ih =>
    refine ⟨derives_statement_succ fuel ih.1 ih.2, ?_⟩
    rw [statements]
    refine fun st => .look fun o _ => ?_
    split
    · exact .pure ((derived_stop _ _).congr (by simp [stmtTrees]))
    · refine .bind (ih.1 _) fun s _ hs => .bind (ih.2 _) fun ss _ hss => .pure ?_
      exact (hs.more hss).congr (by simp [stmtTrees])

/-! ## Functions -/

theorem derives_parameter :
    Derives parameter (.rule .parameter) fun t => Lexeme.names [t.lexeme] := by
  refine fun st => .look fun o hahead => ?_
  split
  case h_1 | h_2 =>
    refine .bind (ensures_mark hahead (by decide)) fun _ st1 htype => ?_
    have htype' : Derived st (token .sizeT ||| token .stack) [] st1 := htype.choose (by decide)
    exact fun _ _ h => Derived.rule (htype'.seq (derives_token (by decide) _ h))
  case h_3 => exact .refuse

theorem derives_parameters :
    Derives (parameters fuel) (many (token .comma ++ .rule .parameter))
      fun ps => namesOfAll (ps.map fun p => .node "parameter" [.leaf p]) := by
  induction fuel with
  | zero => exact derives_refuse _ _
  | succ fuel ih =>
    refine fun st => .look fun o hahead => ?_
    split
    · next ho =>
      refine .bind (ensures_mark (hahead.trans ho) (by decide)) fun _ _ hcomma => ?_
      refine hcomma.andThen (derives_parameter _) fun t _ ht => ?_
      exact .bind (ih _) fun ps _ hps => .pure ((ht.more hps).congr (by simp))
    · exact .pure (derived_stop _ _)

theorem ensures_function (hahead : st.ahead.map Token.terminal = some .void) :
    Ensures (function fuel) st fun i st' => Derived st (.rule .functionDefinition) i.tree.names st' ∧
      ∃ name params body, i = .function name params body := by
  refine .bind (ensures_mark hahead (by decide)) fun _ st1 htype => ?_
  have htype' : Derived st (.rule .typeSpecifier) [] st1 := Derived.rule (htype.choose (by decide))
  refine htype'.andThen (derives_token (by decide) _) fun name _ hname => ?_
  refine hname.andThen (derives_mark (by decide) _) fun _ st2 hhead => .look fun o _ => ?_
  -- the body, behind parameters or none
  have hbody : ∀ {params : List Token} {st3 : ParserState},
      Derived st (Pattern.rule .typeSpecifier ++ token .newName ++ token .parenOpen ++
        Pattern.optional (.rule .parameterList)) (Lexeme.names [name.lexeme] ++
          namesOfAll (params.map fun p => .node "parameter" [.leaf p])) st3 →
      Ensures (do
        let _ ← expect .parenClose .functionBody
        let _ ← expect .braceOpen .blockStart
        let body ← statements fuel
        let _ ← expect .braceClose .afterStatement
        return Item.function name params body) st3 fun i st' =>
        Derived st (.rule .functionDefinition) i.tree.names st' ∧
          ∃ name params body, i = .function name params body := by
    intro params st3 h0
    refine h0.andThen (derives_mark (by decide) _) fun _ st4 hclose => ?_
    refine .bind (derives_mark (by decide) _) fun _ _ hopen => ?_
    refine hopen.andThen ((statements_derive fuel).2 _) fun body _ hbody => ?_
    refine hbody.andThen (derives_mark (by decide) _) fun _ st5 hend => .pure ⟨?_, _, _, _, rfl⟩
    have hblock : Derived st4 (.rule .block) _ st5 := hend.rule
    refine Derived.congr (Derived.rule (hclose.seq hblock)) ?_
    rw [Item.names_function]
    simp
  split
  · exact .pure_bind (hbody ((hhead.absent _).congr (by simp)))
  · refine .bind (derives_parameter _) fun first _ hfirst => ?_
    refine hfirst.andThen (derives_parameters fuel _) fun rest st3 hrest => .pure_bind (hbody ?_)
    have hlist : Derived st2 (.rule .parameterList) _ st3 := hrest.rule
    exact (hhead.seq hlist.present).congr (by simp)

end Statements

end Parser

/-! ## The whole text -/

theorem Source.exists_of_parse {text : List Char} {source : Source} (h : parse text = .ok source) :
    ∃ length fuel ahead rest st', length = text.length ∧
      Token.next length .fileStart (Glyph.ofChars text) = .ok (ahead, rest) ∧
      Parser.Takes (Parser.items fuel fuel) ⟨length, rest, ahead, none⟩ source.items st' := by
  have hlength : (Glyph.ofChars text).length = text.length :=
    (List.length_map Glyph.char).symm.trans (congrArg List.length (Glyph.chars_ofChars text))
  unfold parse at h
  cases hnext : Token.next (Glyph.ofChars text).length .fileStart (Glyph.ofChars text) with
  | error fault => simp [hnext, bind, Except.bind] at h
  | ok r =>
    simp only [hnext, bind, Except.bind] at h
    cases hitems : (Parser.items (8 * (Glyph.ofChars text).length + 8)
        (8 * (Glyph.ofChars text).length + 8)).run ⟨(Glyph.ofChars text).length, r.2, r.1, none⟩ with
    | error fault =>
      rw [hitems] at h
      cases h
    | ok r' =>
      rw [hitems] at h
      cases h
      exact ⟨_, _, r.1, r.2, r'.2, hlength, hnext, hitems⟩

end TapeScript
