import TapeScript.Proofs.ItemParsing
import TapeScript.Proofs.Productions

set_option autoImplicit false

/-! # Trees of derived sequences

What the grammar derives is a way to write a tree (`Rule.meaning_of_body`). The tree is the one in which
an `else` belongs to the last `if` that is open, whichever `if` the derivation gives it to
(`Stmt.attach`). Only a function that returns a value is not a tree (`StartsTyped`).
-/

namespace TapeScript

open Pattern

/-- The head of a function that returns a value. -/
def StartsTyped (xs : List Lexeme) : Prop :=
  ∃ k ∈ [Terminal.sizeT, .stack], ∃ name : Lexeme, name.terminal = .newName ∧
    [k.lexeme, name, Terminal.parenOpen.lexeme] <+: xs

/-! ## Tokens -/

/-- A token without a place. -/
def Lexeme.token (x : Lexeme) : Token := ⟨x.terminal, x.text, 0, 0⟩

@[simp] theorem Lexeme.lexeme_token (x : Lexeme) : x.token.lexeme = x := rfl

/-- What a token of the terminal is a way to write. -/
def Terminal.Spells : Terminal → List Lexeme → Prop
  | .declaredName, xs => ∃ t : Token, t.IsName ∧ xs = [t.lexeme]
  | .newName, xs => ∃ t : Token, t.IsNewName ∧ xs = [t.lexeme]
  | .number, xs => ∃ t : Token, t.IsNumber ∧ xs = [t.lexeme]
  | .charLiteral, xs => ∃ t : Token, t.IsCharacter ∧ xs = [t.lexeme]
  | .string, xs => ∃ t : Token, t.IsString ∧ xs = [t.lexeme]
  | k, xs => xs = [k.lexeme]

theorem Terminal.spells_fixed {k : Terminal} (hk : k.literal?.isSome = true) (xs : List Lexeme) :
    k.Spells xs ↔ xs = [k.lexeme] := by
  unfold Terminal.Spells
  split <;> first | rfl | cases hk

theorem Lexeme.Formed.spells {x : Lexeme} (hx : x.Formed) : x.terminal.Spells [x] := by
  cases hx with
  | name hx hword hkeyword =>
    rcases hx with hx | hx
    · rw [hx]
      exact ⟨x.token, ⟨hx, hword, hkeyword⟩, rfl⟩
    · rw [hx]
      exact ⟨x.token, ⟨hx, hword⟩, rfl⟩
  | @number t h =>
    rw [Token.lexeme_terminal, h.terminal_eq]
    exact ⟨t, h, rfl⟩
  | @character t h =>
    rw [Token.lexeme_terminal, h.terminal_eq]
    exact ⟨t, h, rfl⟩
  | @string _ hx body hbody htext =>
    rw [hx]
    exact ⟨x.token, ⟨hx, body, hbody, htext⟩, rfl⟩
  | fixed ht =>
    rw [Terminal.lexeme_terminal, Terminal.spells_fixed ht]

section Tokens

variable {T : Terminal → List Lexeme → Prop} {I : Rule → List Lexeme → Prop} {xs : List Lexeme}

theorem over_alternatives {p : Pattern} (h : p.Over T I xs) :
    ∃ q ∈ p.alternatives, q.Over T I xs := by
  induction p with
  | alt p p' ih ih' =>
    rcases h with h | h
    · obtain ⟨q, hq, h⟩ := ih h
      exact ⟨q, List.mem_append_left _ hq, h⟩
    · obtain ⟨q, hq, h⟩ := ih' h
      exact ⟨q, List.mem_append_right _ hq, h⟩
  | _ => exact ⟨_, List.mem_singleton_self _, h⟩

theorem over_operator {level : Level} (h : level.operator.Over Terminal.Spells I xs) :
    ∃ op ∈ level.operators, xs = [op.lexeme] := by
  obtain ⟨q, hq, h⟩ := over_alternatives h
  rw [Level.alternatives_operator] at hq
  obtain ⟨op, hop, rfl⟩ := List.mem_map.mp hq
  have hfixed : ∀ op ∈ level.operators, op.literal?.isSome = true := by
    cases level <;> decide
  exact ⟨op, hop, (Terminal.spells_fixed (hfixed op hop) xs).mp h⟩

end Tokens

/-! ## What derived sequences mean -/

/-- The tokens are those of an expression. -/
def WritesExpr (level : Option Level) (xs : List Lexeme) : Prop :=
  ∃ e : Expr, Phrase.Written (.expr level e) xs ∧ e.Proper

def WritesStmt (xs : List Lexeme) : Prop := ∃ s : Stmt, Clause.Written (.stmt s) xs ∧ s.Proper

/-- What the tokens of each rule are a way to write. -/
def Rule.Meaning : Rule → List Lexeme → Prop
  | .start, _ => True
  | .topLevelItem, xs | .functionDefinition, xs => WritesItem xs ∨ StartsTyped xs
  | .includeDirective, xs | .defineDirective, xs => WritesItem xs
  | .typeSpecifier, xs => ∃ k ∈ [Terminal.sizeT, .void, .stack], xs = [k.lexeme]
  | .parameterList, xs => ∃ ps, SignatureWritten ps xs ∧ ∀ p ∈ ps, p.IsName
  | .parameter, xs =>
    ∃ k ∈ [Terminal.sizeT, .stack], ∃ p : Token, p.IsName ∧ xs = [k.lexeme, p.lexeme]
  | .block, xs => ∃ ss ys, Clause.Written (.stmts ss) ys ∧ ProperStmts ss ∧
    xs = Terminal.braceOpen.lexeme :: (ys ++ [Terminal.braceClose.lexeme])
  | .statement, xs | .variableDeclaration, xs | .stackDeclaration, xs | .ifStatement, xs
  | .whileStatement, xs | .returnStatement, xs | .assignment, xs | .pushStatement, xs
  | .outputStatement, xs => WritesStmt xs
  | .elseClause, xs => ∃ ys, WritesStmt ys ∧ xs = Terminal.elseWord.lexeme :: ys
  | .lvalue, xs => ∃ t : Token, t.IsName ∧ xs = [t.lexeme]
  | .expression, xs | .comparison, xs => WritesExpr (some .comparison) xs
  | .arithmetic, xs => WritesExpr (some .arithmetic) xs
  | .term, xs => WritesExpr (some .term) xs
  | .factor, xs | .atom, xs | .stackPeek, xs | .stackPop, xs | .functionCall, xs
  | .inputCall, xs => WritesExpr none xs
  | .argumentList, xs => ∃ a as ys zs, Expr.Written a ys ∧ a.Proper ∧
    Phrase.Written (.arguments as) zs ∧ ProperAll as ∧ xs = ys ++ zs

/-- The pattern fits, with the rules in it standing for what they mean. -/
abbrev Pattern.Means (p : Pattern) (xs : List Lexeme) : Prop := p.Over Terminal.Spells Rule.Meaning xs

namespace Rule

variable {xs : List Lexeme}

/-! ## Expressions -/

theorem writes_operand {level : Level} (h : level.operand.Meaning xs) : WritesExpr level.tighter xs := by
  cases level <;> exact h

theorem meaning_operands {level : Level} {parts : List (List Lexeme)}
    (h : ∀ part ∈ parts, (level.operator ++ .rule level.operand).Means part) :
    ∃ rest, Phrase.Written (.rest level rest) parts.flatten ∧ ProperRest level rest ∧
      (rest = [] ↔ parts = []) := by
  induction parts with
  | nil => exact ⟨[], .restNil level, by rw [ProperRest]; trivial, by simp⟩
  | cons part parts ih =>
    obtain ⟨hpart, hparts⟩ := List.forall_mem_cons.mp h
    obtain ⟨rest, hrest, hproper, -⟩ := ih hparts
    obtain ⟨ys, zs, rfl, hop, hoperand⟩ := hpart
    obtain ⟨op, hmem, rfl⟩ := over_operator hop
    obtain ⟨e, he, heproper⟩ := writes_operand hoperand
    refine ⟨(op.lexeme.token, e) :: rest, ?_, ?_, by simp⟩
    · simpa using Phrase.Written.restCons op.lexeme.token he hrest
    · rw [ProperRest]
      exact ⟨⟨op, hmem, rfl⟩, heproper, hproper⟩

theorem meaning_level (level : Level) (h : level.rule.body.Means xs) : WritesExpr (some level) xs := by
  rw [Level.body_rule] at h
  obtain ⟨ys, _, rfl, hfirst, parts, rfl, hparts⟩ := h
  obtain ⟨first, hwritten, hproper⟩ := writes_operand hfirst
  obtain ⟨rest, hrest, hproper', hnil⟩ := meaning_operands hparts
  -- one operand alone is no chain
  by_cases hempty : parts = []
  · subst hempty
    exact ⟨first, by simpa using Phrase.Written.alone hwritten, hproper⟩
  · refine ⟨.chain level first rest, .chain hwritten hrest, ?_⟩
    rw [Expr.Proper]
    exact ⟨hproper, fun h => hempty (hnil.mp h), hproper'⟩

theorem meaning_factor (h : Rule.factor.body.Means xs) : WritesExpr none xs := by
  rcases h with ⟨ys, zs, rfl, hsign, e, he, hproper⟩ | hatom
  · obtain ⟨k, hk, rfl⟩ : ∃ k ∈ [Terminal.positive, .negative], ys = [k.lexeme] := by
      rcases hsign with hsign | hsign
      · exact ⟨_, by decide, hsign⟩
      · exact ⟨_, by decide, hsign⟩
    refine ⟨.unary k.lexeme.token e, .unary k.lexeme.token he, ?_⟩
    rw [Expr.Proper]
    refine ⟨?_, hproper⟩
    simp only [List.mem_cons, List.not_mem_nil, or_false] at hk
    rcases hk with rfl | rfl
    · exact .inl rfl
    · exact .inr rfl
  · exact hatom

theorem meaning_atom (h : Rule.atom.body.Means xs) : WritesExpr none xs := by
  rcases h with ((((((hnumber | hcharacter) | hname) | hcall) | hpeek) | hpop) | hinput) | hparens
  · obtain ⟨t, ht, rfl⟩ := hnumber
    exact ⟨.number t, .number t, by rw [Expr.Proper]; exact ht⟩
  · obtain ⟨t, ht, rfl⟩ := hcharacter
    exact ⟨.character t, .character t, by rw [Expr.Proper]; exact ht⟩
  · obtain ⟨t, ht, rfl⟩ := hname
    exact ⟨.name t, .name t, by rw [Expr.Proper]; exact ht⟩
  · exact hcall
  · exact hpeek
  · exact hpop
  · exact hinput
  · obtain ⟨_, _, rfl, ⟨_, _, rfl, rfl, e, he, hproper⟩, rfl⟩ := hparens
    exact ⟨e, by simpa using Phrase.Written.parens he, hproper⟩

theorem meaning_stackOperation {k : Terminal} {make : Token → Expr} (hk : k.literal?.isSome = true)
    (hmake : ∀ t : Token, Phrase.Written (.expr none (make t)) [t.lexeme, Terminal.dot.lexeme, k.lexeme,
      Terminal.parenOpen.lexeme, Terminal.parenClose.lexeme])
    (hproper : ∀ t : Token, t.IsName → (make t).Proper)
    (h : (token .declaredName ++ token .dot ++ token k ++ token .parenOpen ++ token .parenClose).Means xs) :
    WritesExpr none xs := by
  obtain ⟨_, _, rfl, ⟨_, _, rfl, ⟨_, _, rfl, ⟨_, _, rfl, ⟨t, ht, rfl⟩, rfl⟩, hop⟩, rfl⟩, rfl⟩ := h
  obtain rfl := (Terminal.spells_fixed hk _).mp hop
  exact ⟨make t, hmake t, hproper t ht⟩

theorem meaning_functionCall (h : Rule.functionCall.body.Means xs) : WritesExpr none xs := by
  obtain ⟨_, _, rfl, ⟨_, _, rfl, ⟨_, _, rfl, ⟨f, hf, rfl⟩, rfl⟩, hlist⟩, rfl⟩ := h
  rcases hlist with rfl | ⟨a, as, ys, zs, ha, hproper, has, hproper', rfl⟩
  · refine ⟨.call f [], .emptyCall f, ?_⟩
    rw [Expr.Proper, ProperAll]
    exact ⟨hf, trivial⟩
  · refine ⟨.call f (a :: as), by simpa using Phrase.Written.call f ha has, ?_⟩
    rw [Expr.Proper, ProperAll]
    exact ⟨hf, hproper, hproper'⟩

theorem meaning_arguments {parts : List (List Lexeme)}
    (h : ∀ part ∈ parts, (token .comma ++ .rule .expression).Means part) :
    ∃ es, Phrase.Written (.arguments es) parts.flatten ∧ ProperAll es := by
  induction parts with
  | nil => exact ⟨[], .argumentsNil, by rw [ProperAll]; trivial⟩
  | cons part parts ih =>
    obtain ⟨hpart, hparts⟩ := List.forall_mem_cons.mp h
    obtain ⟨es, hes, hproper⟩ := ih hparts
    obtain ⟨_, _, rfl, rfl, e, he, heproper⟩ := hpart
    refine ⟨e :: es, by simpa using Phrase.Written.argumentsCons he hes, ?_⟩
    rw [ProperAll]
    exact ⟨heproper, hproper⟩

theorem meaning_argumentList (h : Rule.argumentList.body.Means xs) : Rule.argumentList.Meaning xs := by
  obtain ⟨ys, _, rfl, ⟨a, ha, hproper⟩, parts, rfl, hparts⟩ := h
  obtain ⟨as, has, hproper'⟩ := meaning_arguments hparts
  exact ⟨a, as, ys, _, ha, hproper, has, hproper', rfl⟩

theorem meaning_inputCall (h : Rule.inputCall.body.Means xs) : WritesExpr none xs := by
  obtain ⟨_, _, rfl, ⟨_, _, rfl, rfl, rfl⟩, rfl⟩ := h
  exact ⟨.input, .input, by rw [Expr.Proper]; trivial⟩

end Rule

/-! ## Statements -/

/-- Gives the `else` to the last `if` without one. -/
def Stmt.attach : Stmt → Stmt → Stmt
  | .ifElse c body none, other =>
    if body.endsOpen then .ifElse c (body.attach other) none else .ifElse c body (some other)
  | .ifElse c body (some s), other => .ifElse c body (some (s.attach other))
  | .loop c body, other => .loop c (body.attach other)
  | s, _ => s

theorem Stmt.proper_attach {s other : Stmt} (hs : s.Proper) (hother : other.Proper) :
    (s.attach other).Proper := by
  fun_induction Stmt.attach s other with
  | case1 c body other hopen ih =>
    rw [Stmt.Proper] at hs ⊢
    exact ⟨hs.1, ih hs.2 hother⟩
  | case2 c body other hclosed =>
    rw [Stmt.Proper] at hs
    rw [Stmt.Proper]
    exact ⟨hs.1, hs.2, hother, Bool.not_eq_true _ ▸ hclosed⟩
  | case3 c body s other ih =>
    rw [Stmt.Proper] at hs ⊢
    exact ⟨hs.1, hs.2.1, ih hs.2.2.1 hother, hs.2.2.2⟩
  | case4 c body other ih =>
    rw [Stmt.Proper] at hs ⊢
    exact ⟨hs.1, ih hs.2 hother⟩
  | case5 s other _ _ _ => exact hs

/-- The lexemes do not tell which `if` the `else` belongs to. -/
theorem Clause.Written.attach {c : Clause} {xs ys : List Lexeme} (h : c.Written xs) {other : Stmt}
    (hother : Clause.Written (.stmt other) ys) : ∀ {s : Stmt}, c = .stmt s → s.endsOpen = true →
      Clause.Written (.stmt (s.attach other)) (xs ++ Terminal.elseWord.lexeme :: ys) := by
  induction h with
  | @ifOnly c body xs zs hc hbody ih =>
    rintro _ ⟨⟩ _
    rw [Stmt.attach]
    -- an open `if` inside the branch comes first
    cases hopen : body.endsOpen with
    | true => simpa using Clause.Written.ifOnly hc (ih rfl hopen)
    | false => simpa using Clause.Written.ifElse hc hbody hother
  | @ifElse c body s xs zs us hc hbody hs _ ih =>
    rintro _ ⟨⟩ hopen
    rw [Stmt.endsOpen] at hopen
    rw [Stmt.attach]
    simpa using Clause.Written.ifElse hc hbody (ih rfl hopen)
  | @loop c body xs zs hc hbody ih =>
    rintro _ ⟨⟩ hopen
    rw [Stmt.endsOpen] at hopen
    rw [Stmt.attach]
    simpa using Clause.Written.loop hc (ih rfl hopen)
  | nil | cons _ _ _ _ => rintro _ ⟨⟩
  | _ =>
    rintro _ ⟨⟩ hopen
    simp [Stmt.endsOpen] at hopen

namespace Rule

variable {xs : List Lexeme}

theorem meaning_statement (h : Rule.statement.body.Means xs) : WritesStmt xs := by
  rcases h with ((((((((hvariable | hstack) | hassign) | hexpr) | hpush) | houtput) | hif) | hwhile) |
    hreturn) | hblock
  · exact hvariable
  · exact hstack
  · exact hassign
  · obtain ⟨_, _, rfl, ⟨e, he, hproper⟩, rfl⟩ := hexpr
    exact ⟨.expr e, .expr he, by rw [Stmt.Proper]; exact hproper⟩
  · exact hpush
  · exact houtput
  · exact hif
  · exact hwhile
  · exact hreturn
  · obtain ⟨ss, ys, hss, hproper, rfl⟩ := hblock
    exact ⟨.block ss, .block hss, by rw [Stmt.Proper]; exact hproper⟩

theorem meaning_variableDeclaration (h : Rule.variableDeclaration.body.Means xs) : WritesStmt xs := by
  obtain ⟨_, _, rfl, ⟨_, _, rfl, ⟨_, _, rfl, rfl, name, hname, rfl⟩, hinitial⟩, rfl⟩ := h
  rcases hinitial with rfl | ⟨_, _, rfl, rfl, e, he, hproper⟩
  · exact ⟨.variable name none, .uninitialised name, by rw [Stmt.Proper]; exact hname⟩
  · refine ⟨.variable name (some e), by simpa using Clause.Written.initialised name he, ?_⟩
    rw [Stmt.Proper]
    exact ⟨hname, hproper⟩

theorem meaning_stackDeclaration (h : Rule.stackDeclaration.body.Means xs) : WritesStmt xs := by
  obtain ⟨_, _, rfl, ⟨_, _, rfl, ⟨_, _, rfl, ⟨_, _, rfl, ⟨_, _, rfl, rfl, name, hname, rfl⟩, rfl⟩,
    e, he, hproper⟩, rfl⟩, rfl⟩ := h
  refine ⟨.stack name e, by simpa using Clause.Written.stack name he, ?_⟩
  rw [Stmt.Proper]
  exact ⟨hname, hproper⟩

theorem meaning_assignment (h : Rule.assignment.body.Means xs) : WritesStmt xs := by
  obtain ⟨_, _, rfl, ⟨_, _, rfl, ⟨_, _, rfl, ⟨name, hname, rfl⟩, rfl⟩, e, he, hproper⟩, rfl⟩ := h
  refine ⟨.assign name e, by simpa using Clause.Written.assign name he, ?_⟩
  rw [Stmt.Proper]
  exact ⟨hname, hproper⟩

theorem meaning_pushStatement (h : Rule.pushStatement.body.Means xs) : WritesStmt xs := by
  obtain ⟨_, _, rfl, ⟨_, _, rfl, ⟨_, _, rfl, ⟨_, _, rfl, ⟨_, _, rfl, ⟨_, _, rfl, ⟨name, hname, rfl⟩, rfl⟩,
    rfl⟩, rfl⟩, e, he, hproper⟩, rfl⟩, rfl⟩ := h
  refine ⟨.push name e, by simpa using Clause.Written.push name he, ?_⟩
  rw [Stmt.Proper]
  exact ⟨hname, hproper⟩

theorem meaning_outputStatement (h : Rule.outputStatement.body.Means xs) : WritesStmt xs := by
  obtain ⟨_, _, rfl, ⟨_, _, rfl, ⟨_, _, rfl, ⟨_, _, rfl, rfl, rfl⟩, e, he, hproper⟩, rfl⟩, rfl⟩ := h
  exact ⟨.output e, by simpa using Clause.Written.output he, by rw [Stmt.Proper]; exact hproper⟩

theorem meaning_returnStatement (h : Rule.returnStatement.body.Means xs) : WritesStmt xs := by
  obtain ⟨_, _, rfl, ⟨_, _, rfl, rfl, hvalue⟩, rfl⟩ := h
  rcases hvalue with rfl | ⟨e, he, hproper⟩
  · exact ⟨.returning none, .returnOnly, by rw [Stmt.Proper]; trivial⟩
  · exact ⟨.returning (some e), by simpa using Clause.Written.returning he,
      by rw [Stmt.Proper]; exact hproper⟩

/-- A branch with an `else` is one without, to which the `else` is given. -/
theorem meaning_ifStatement (h : Rule.ifStatement.body.Means xs) : WritesStmt xs := by
  obtain ⟨_, _, rfl, ⟨_, _, rfl, ⟨_, _, rfl, ⟨_, _, rfl, ⟨_, _, rfl, rfl, rfl⟩, c, hc, hproper⟩,
    rfl⟩, body, hbody, hproper'⟩, helse⟩ := h
  have hbranch := Clause.Written.ifOnly hc hbody
  have hbranch' : (Stmt.ifElse c body none).Proper := by
    rw [Stmt.Proper]
    exact ⟨hproper, hproper'⟩
  rcases helse with rfl | ⟨ys, ⟨other, hother, hproper''⟩, rfl⟩
  · exact ⟨_, by simpa using hbranch, hbranch'⟩
  · refine ⟨_, ?_, Stmt.proper_attach hbranch' hproper''⟩
    simpa using hbranch.attach hother rfl (by rw [Stmt.endsOpen])

theorem meaning_whileStatement (h : Rule.whileStatement.body.Means xs) : WritesStmt xs := by
  obtain ⟨_, _, rfl, ⟨_, _, rfl, ⟨_, _, rfl, ⟨_, _, rfl, rfl, rfl⟩, c, hc, hproper⟩, rfl⟩, body, hbody,
    hproper'⟩ := h
  refine ⟨.loop c body, by simpa using Clause.Written.loop hc hbody, ?_⟩
  rw [Stmt.Proper]
  exact ⟨hproper, hproper'⟩

theorem meaning_statements {parts : List (List Lexeme)}
    (h : ∀ part ∈ parts, (Pattern.rule .statement).Means part) :
    ∃ ss, Clause.Written (.stmts ss) parts.flatten ∧ ProperStmts ss := by
  induction parts with
  | nil => exact ⟨[], .nil, by rw [ProperStmts]; trivial⟩
  | cons part parts ih =>
    obtain ⟨⟨s, hs, hproper⟩, hparts⟩ := List.forall_mem_cons.mp h
    obtain ⟨ss, hss, hproper'⟩ := ih hparts
    refine ⟨s :: ss, .cons hs hss, ?_⟩
    rw [ProperStmts]
    exact ⟨hproper, hproper'⟩

theorem meaning_block (h : Rule.block.body.Means xs) : Rule.block.Meaning xs := by
  obtain ⟨_, _, rfl, ⟨_, _, rfl, rfl, parts, rfl, hparts⟩, rfl⟩ := h
  obtain ⟨ss, hss, hproper⟩ := meaning_statements hparts
  exact ⟨ss, _, hss, hproper, rfl⟩

/-! ## Items -/

theorem meaning_includeDirective (h : Rule.includeDirective.body.Means xs) : WritesItem xs := by
  obtain ⟨_, _, rfl, rfl, file, hfile, rfl⟩ := h
  exact ⟨.includes file, .includes file, hfile⟩

theorem meaning_defineDirective (h : Rule.defineDirective.body.Means xs) : WritesItem xs := by
  obtain ⟨_, _, rfl, ⟨_, _, rfl, rfl, name, hname, rfl⟩, e, he, hproper⟩ := h
  exact ⟨.define name e, .define name he, hname, hproper⟩

theorem meaning_typeSpecifier (h : Rule.typeSpecifier.body.Means xs) : Rule.typeSpecifier.Meaning xs := by
  rcases h with (h | h) | h
  · exact ⟨_, by decide, h⟩
  · exact ⟨_, by decide, h⟩
  · exact ⟨_, by decide, h⟩

theorem meaning_parameter (h : Rule.parameter.body.Means xs) : Rule.parameter.Meaning xs := by
  obtain ⟨ys, _, rfl, htype, ⟨p, hp, rfl⟩⟩ := h
  obtain ⟨k, hk, rfl⟩ : ∃ k ∈ [Terminal.sizeT, .stack], ys = [k.lexeme] := by
    rcases htype with htype | htype
    · exact ⟨_, by decide, htype⟩
    · exact ⟨_, by decide, htype⟩
  exact ⟨k, hk, p, hp, rfl⟩

theorem meaning_parameters {parts : List (List Lexeme)}
    (h : ∀ part ∈ parts, (token .comma ++ .rule .parameter).Means part) :
    ∃ ps, ParametersWritten ps parts.flatten ∧ ∀ p ∈ ps, p.IsName := by
  induction parts with
  | nil => exact ⟨[], .nil, by simp⟩
  | cons part parts ih =>
    obtain ⟨hpart, hparts⟩ := List.forall_mem_cons.mp h
    obtain ⟨ps, hps, hproper⟩ := ih hparts
    obtain ⟨_, _, rfl, rfl, k, hk, p, hp, rfl⟩ := hpart
    exact ⟨p :: ps, .cons hk p hps, List.forall_mem_cons.mpr ⟨hp, hproper⟩⟩

theorem meaning_parameterList (h : Rule.parameterList.body.Means xs) : Rule.parameterList.Meaning xs := by
  obtain ⟨_, _, rfl, ⟨k, hk, p, hp, rfl⟩, parts, rfl, hparts⟩ := h
  obtain ⟨ps, hps, hproper⟩ := meaning_parameters hparts
  exact ⟨p :: ps, .cons hk p hps, List.forall_mem_cons.mpr ⟨hp, hproper⟩⟩

theorem meaning_functionDefinition (h : Rule.functionDefinition.body.Means xs) :
    WritesItem xs ∨ StartsTyped xs := by
  obtain ⟨_, _, rfl, ⟨_, _, rfl, ⟨_, us, rfl, ⟨_, _, rfl, ⟨_, _, rfl, ⟨k, hk, rfl⟩, ⟨name, hname, rfl⟩⟩, rfl⟩,
    hlist⟩, rfl⟩, ss, ys, hss, hproper, rfl⟩ := h
  by_cases hvoid : k = .void
  · subst hvoid
    obtain ⟨ps, hps, hnames⟩ : ∃ ps, SignatureWritten ps us ∧ ∀ p ∈ ps, p.IsName := by
      rcases hlist with rfl | hlist
      · exact ⟨[], .nil, by simp⟩
      · exact hlist
    exact .inl ⟨.function name ps ss, by simpa using Item.Written.function name hps hss,
      hname, hnames, hproper⟩
  · have htyped : k ∈ [Terminal.sizeT, .stack] := by
      simp only [List.mem_cons, List.not_mem_nil, or_false] at hk ⊢
      tauto
    exact .inr ⟨k, htyped, name.lexeme, hname.terminal_eq, by simp⟩

theorem meaning_topLevelItem (h : Rule.topLevelItem.body.Means xs) : WritesItem xs ∨ StartsTyped xs := by
  rcases h with ((hinclude | hdefine) | hfunction) | ⟨s, hs, hproper⟩
  · exact .inl hinclude
  · exact .inl hdefine
  · exact hfunction
  · exact .inl ⟨.stmt s, .stmt hs, hproper⟩

/-- **Each rule passes the meaning on.** -/
theorem meaning_of_body (r : Rule) (xs : List Lexeme) (h : r.body.Means xs) : r.Meaning xs := by
  cases r with
  | start => trivial
  | topLevelItem => exact meaning_topLevelItem h
  | includeDirective => exact meaning_includeDirective h
  | defineDirective => exact meaning_defineDirective h
  | functionDefinition => exact meaning_functionDefinition h
  | typeSpecifier => exact meaning_typeSpecifier h
  | parameterList => exact meaning_parameterList h
  | parameter => exact meaning_parameter h
  | block => exact meaning_block h
  | statement => exact meaning_statement h
  | variableDeclaration => exact meaning_variableDeclaration h
  | stackDeclaration => exact meaning_stackDeclaration h
  | ifStatement => exact meaning_ifStatement h
  | elseClause =>
    obtain ⟨_, ys, rfl, rfl, hys⟩ := h
    exact ⟨ys, hys, rfl⟩
  | whileStatement => exact meaning_whileStatement h
  | returnStatement => exact meaning_returnStatement h
  | assignment => exact meaning_assignment h
  | pushStatement => exact meaning_pushStatement h
  | outputStatement => exact meaning_outputStatement h
  | lvalue => exact h
  | expression => exact h
  | comparison => exact meaning_level .comparison h
  | arithmetic => exact meaning_level .arithmetic h
  | term => exact meaning_level .term h
  | factor => exact meaning_factor h
  | atom => exact meaning_atom h
  | stackPeek => exact meaning_stackOperation rfl .peek (fun _ ht => by rw [Expr.Proper]; exact ht) h
  | stackPop => exact meaning_stackOperation rfl .pop (fun _ ht => by rw [Expr.Proper]; exact ht) h
  | functionCall => exact meaning_functionCall h
  | argumentList => exact meaning_argumentList h
  | inputCall => exact meaning_inputCall h

end Rule

/-- **What is derived is a tree that is written**, except for functions that return a value. -/
theorem Pattern.Matches.writesItem {xs : List Lexeme} (h : Matches (.rule .topLevelItem) xs)
    (hxs : ∀ x ∈ xs, x.Formed) : WritesItem xs ∨ StartsTyped xs :=
  h.over Rule.meaning_of_body fun x hx => (hxs x hx).spells

end TapeScript
