import TapeScript.Proofs.ExprParsing

set_option autoImplicit false

/-! # Parsing undoes writing

A parser that faces the lexemes of written statements reads the statements back, places aside
(`Parser.stmtReads_written`). An expression statement is the one whose parser is not that of its parts:
behind a name at its start an assignment or a push may still come, so the name is taken in a mode of its
own (`LeadReads`). From the statements the whole text follows (`Source.parse_written`).
-/

namespace TapeScript

namespace Parser

variable {st : ParserState} {xs ys zs : List Lexeme} {e : Expr}

/-! ## Parts of statements -/

theorem exprReads_written (he : e.Written xs) (hproper : e.Proper) :
    ExprReads (some .comparison) e xs := (reads_written he hproper).1

theorem operand_first (he : e.Written xs) (hproper : e.Proper) (zs : List Lexeme) :
    Mode.operand.ReadsFirst (xs ++ zs) := Mode.readsFirst_written (by decide) he hproper zs

/-- An expression up to a bracket or a separator. -/
theorem meets_expression (he : e.Written xs) (hproper : e.Proper) {t : Terminal}
    (h : st.Faces (xs ++ t.lexeme :: zs)) (ht : t ∈ [.comma, .parenClose, .bracketClose, .semicolon])
    {fuel : Nat} (hfuel : 8 * xs.length + 4 ≤ fuel) :
    Meets (expression fuel) st (Leaves Expr.bare e.bare (t.lexeme :: zs)) :=
  exprReads_written he hproper _ st h (followed_of_closer ht rfl) fuel hfuel

theorem meets_endStatement {s s' : Stmt} (hbare : s'.bare = s.bare)
    (h : st.Faces (Terminal.semicolon.lexeme :: zs)) (hzs : Mode.afterStatement.ReadsFirst zs) :
    Meets (endStatement s') st (Leaves Stmt.bare s.bare zs) :=
  (meets_expect h rfl hzs).bind fun _ _ ⟨_, h'⟩ => .pure ⟨hbare, h'⟩

theorem meets_parenthesised {mode : Mode} (he : e.Written xs) (hproper : e.Proper)
    (h : st.Faces (Terminal.parenOpen.lexeme :: (xs ++ Terminal.parenClose.lexeme :: zs)))
    (hmode : mode.ReadsFirst zs) {fuel : Nat} (hfuel : 8 * xs.length + 4 ≤ fuel) :
    Meets (parenthesised mode fuel) st (Leaves Expr.bare e.bare zs) := by
  refine (meets_expect h rfl (operand_first he hproper _)).bind fun _ _ ⟨_, h1⟩ => ?_
  refine (meets_expression he hproper h1 (by decide) hfuel).bind fun e' _ ⟨hbare, h2⟩ => ?_
  exact (meets_expect h2 rfl hmode).bind fun _ _ ⟨_, h3⟩ => .pure ⟨hbare, h3⟩

/-! ## Statements that are read -/

/-- The lexemes are read as the statement, if no `else` that it would take follows. -/
def StmtReads (s : Stmt) (xs : List Lexeme) : Prop :=
  ∀ zs st, st.Faces (xs ++ zs) → Mode.afterStatement.ReadsFirst zs →
    (s.endsOpen = true → ∀ z ∈ zs.head?, z.terminal ≠ .elseWord) →
    ∀ fuel, 8 * xs.length ≤ fuel → Meets (statement (fuel + 1)) st (Leaves Stmt.bare s.bare zs)

/-- The lexemes are read as the statements of a block. -/
def StmtsReads (ss : List Stmt) (xs : List Lexeme) : Prop :=
  ∀ zs st, st.Faces (xs ++ zs) → zs.head? = some Terminal.braceClose.lexeme →
    ∀ fuel, 8 * xs.length + 1 ≤ fuel →
      Meets (statements (fuel + 1)) st (Leaves bareStmts (bareStmts ss) zs)

/-- A statement inside another one. -/
theorem StmtReads.inner {s : Stmt} (h : StmtReads s xs) (hst : st.Faces (xs ++ zs))
    (hzs : Mode.afterStatement.ReadsFirst zs)
    (hopen : s.endsOpen = true → ∀ z ∈ zs.head?, z.terminal ≠ .elseWord) {fuel : Nat}
    (hfuel : 8 * xs.length + 1 ≤ fuel) : Meets (statement fuel) st (Leaves Stmt.bare s.bare zs) := by
  obtain ⟨fuel, rfl⟩ : ∃ f, fuel = f + 1 := ⟨fuel - 1, by omega⟩
  exact h zs st hst hzs hopen fuel (by omega)

/-! ### Declarations -/

section Declarations

variable {name : Token}

theorem stmtReads_uninitialised (hname : name.IsNewName) :
    StmtReads (.variable name none)
      [Terminal.sizeT.lexeme, name.lexeme, Terminal.semicolon.lexeme] := by
  intro zs st h hzs _ fuel _
  rw [statement]
  refine .look h ((meets_shift h (hname.reads.first _)).bind fun _ _ ⟨_, h1⟩ => ?_)
  refine (meets_expect h1 hname.terminal_eq (Mode.first_fixed (by decide) _)).bind
    fun name' _ ⟨hname', h2⟩ => .look h2 (.ite_neg (by decide) (meets_endStatement ?_ h2 hzs))
  rw [Stmt.bare, Stmt.bare, Token.bare_eq hname']

theorem stmtReads_initialised (hname : name.IsNewName) (he : e.Written xs) (hproper : e.Proper) :
    StmtReads (.variable name (some e)) (Terminal.sizeT.lexeme :: name.lexeme ::
      Terminal.assign.lexeme :: (xs ++ [Terminal.semicolon.lexeme])) := by
  intro zs st h hzs _ fuel hfuel
  simp only [List.cons_append, List.append_assoc, List.nil_append] at h
  simp only [List.length_cons, List.length_append] at hfuel
  rw [statement]
  refine .look h ((meets_shift h (hname.reads.first _)).bind fun _ _ ⟨_, h1⟩ => ?_)
  refine (meets_expect h1 hname.terminal_eq (Mode.first_fixed (by decide) _)).bind
    fun name' _ ⟨hname', h2⟩ => .look h2 (.ite_pos rfl ?_)
  refine (meets_shift h2 (operand_first he hproper _)).bind fun _ _ ⟨_, h3⟩ => ?_
  refine (meets_expression he hproper h3 (by decide) (by omega)).bind
    fun e' _ ⟨hbare, h4⟩ => meets_endStatement ?_ h4 hzs
  rw [Stmt.bare, Stmt.bare, hbare, Token.bare_eq hname']

theorem stmtReads_stack (hname : name.IsNewName) (he : e.Written xs) (hproper : e.Proper) :
    StmtReads (.stack name e) (Terminal.stack.lexeme :: name.lexeme ::
      Terminal.bracketOpen.lexeme ::
        (xs ++ [Terminal.bracketClose.lexeme, Terminal.semicolon.lexeme])) := by
  intro zs st h hzs _ fuel hfuel
  simp only [List.cons_append, List.append_assoc, List.nil_append] at h
  simp only [List.length_cons, List.length_append] at hfuel
  rw [statement]
  refine .look h ((meets_shift h (hname.reads.first _)).bind fun _ _ ⟨_, h1⟩ => ?_)
  refine (meets_expect h1 hname.terminal_eq (Mode.first_fixed (by decide) _)).bind
    fun name' _ ⟨hname', h2⟩ => ?_
  refine (meets_expect h2 rfl (operand_first he hproper _)).bind fun _ _ ⟨_, h3⟩ => ?_
  refine (meets_expression he hproper h3 (by decide) (by omega)).bind fun e' _ ⟨hbare, h4⟩ => ?_
  refine (meets_expect h4 rfl (Mode.first_fixed (by decide) _)).bind
    fun _ _ ⟨_, h5⟩ => meets_endStatement ?_ h5 hzs
  rw [Stmt.bare, Stmt.bare, hbare, Token.bare_eq hname']

end Declarations

/-! ### Statements that start with a name -/

section Named

variable {name : Token}

theorem meets_namedStatement {post : Stmt → ParserState → Prop} {fuel : Nat} (hname : name.IsName)
    (h : st.Faces (name.lexeme :: xs)) (hnamed : Meets (namedStatement fuel) st post) :
    Meets (statement (fuel + 1)) st post := by
  rw [statement]
  refine .look h ?_
  rw [Token.lexeme_terminal, hname.terminal_eq]
  exact hnamed

theorem stmtReads_assign (hname : name.IsName) (he : e.Written xs) (hproper : e.Proper) :
    StmtReads (.assign name e)
      (name.lexeme :: Terminal.assign.lexeme :: (xs ++ [Terminal.semicolon.lexeme])) := by
  intro zs st h hzs _ fuel hfuel
  simp only [List.cons_append, List.append_assoc, List.nil_append] at h
  simp only [List.length_cons, List.length_append] at hfuel
  refine meets_namedStatement hname h ?_
  refine (meets_shift h (Mode.first_fixed (by decide) _)).bind fun name' _ ⟨hname', h1⟩ => .look h1 ?_
  refine (meets_shift h1 (operand_first he hproper _)).bind fun _ _ ⟨_, h2⟩ => ?_
  refine (meets_expression he hproper h2 (by decide) (by omega)).bind
    fun e' _ ⟨hbare, h3⟩ => meets_endStatement ?_ h3 hzs
  rw [Stmt.bare, Stmt.bare, hbare, Token.bare_eq hname']

theorem stmtReads_push (hname : name.IsName) (he : e.Written xs) (hproper : e.Proper) :
    StmtReads (.push name e) (name.lexeme :: Terminal.dot.lexeme :: Terminal.push.lexeme ::
      Terminal.parenOpen.lexeme ::
        (xs ++ [Terminal.parenClose.lexeme, Terminal.semicolon.lexeme])) := by
  intro zs st h hzs _ fuel hfuel
  simp only [List.cons_append, List.append_assoc, List.nil_append] at h
  simp only [List.length_cons, List.length_append] at hfuel
  refine meets_namedStatement hname h ?_
  refine (meets_shift h (Mode.first_fixed (by decide) _)).bind fun name' _ ⟨hname', h1⟩ => .look h1 ?_
  refine (meets_shift h1 (Mode.first_fixed (by decide) _)).bind fun _ _ ⟨_, h2⟩ => ?_
  refine .look h2 (.ite_pos rfl ?_)
  refine (meets_shift h2 (Mode.first_fixed (by decide) _)).bind fun _ _ ⟨_, h3⟩ => ?_
  refine (meets_parenthesised he hproper h3 (Mode.first_fixed (by decide) _) (by omega)).bind
    fun e' _ ⟨hbare, h4⟩ => meets_endStatement ?_ h4 hzs
  rw [Stmt.bare, Stmt.bare, hbare, Token.bare_eq hname']

end Named

/-! ### Expression statements -/

/-- What comes behind the first factor of an expression statement. -/
def leadFollowers : List Terminal := .semicolon :: Terminal.binary

/-- The lexemes are read as the first factor of an expression statement. -/
def LeadReads (e : Expr) (xs : List Lexeme) : Prop :=
  ∀ zs st, st.Faces (xs ++ zs) → (∃ t ∈ leadFollowers, zs.head? = some t.lexeme) →
    ∀ fuel, 8 * xs.length + 1 ≤ fuel → ∀ post : Stmt → ParserState → Prop,
      (∀ e' st', Leaves Expr.bare e.bare zs e' st' → Meets (expressionStatement e' fuel) st' post) →
      Meets (statement (fuel + 1)) st post

section Lead

variable {name : Token} {x : Lexeme}

theorem followed_of_lead (h : ∃ t ∈ leadFollowers, zs.head? = some t.lexeme) (xs : List Lexeme) :
    Followed none xs zs := by
  obtain ⟨t, ht, hhead⟩ := h
  have hall : ∀ t ∈ leadFollowers,
      t ∈ Terminal.binary ++ [.comma, .parenClose, .bracketClose, .semicolon] := by decide
  exact followed_of_fixed (hall t ht) List.not_mem_nil hhead

/-- Without a name in front the first factor is read as any other. -/
theorem leadReads_factor (hx : x.terminal ∈ Terminal.operandStart)
    (hname : x.terminal ≠ .declaredName) (he : ExprReads none e (x :: xs)) :
    LeadReads e (x :: xs) := by
  intro zs st h hzs fuel hfuel post hpost
  have hfactor : Meets (factor fuel >>= fun first => expressionStatement first fuel) st post :=
    (he zs st h (followed_of_lead hzs _) fuel hfuel).bind hpost
  rw [statement]
  refine .look h ?_
  generalize x.terminal = t at hx hname
  simp only [Terminal.operandStart, List.mem_cons, List.not_mem_nil, or_false] at hx
  rcases hx with rfl | rfl | rfl | rfl | rfl | rfl | rfl
  · exact absurd rfl hname
  all_goals exact hfactor

/-- A call, or a name alone. -/
theorem leadReads_named (hname : name.IsName) (hreads : NamedReads name e xs)
    (hstart : ∀ zs, (∃ t ∈ leadFollowers, zs.head? = some t.lexeme) →
      ∃ t ∈ .parenOpen :: leadFollowers, (xs ++ zs).head? = some t.lexeme) :
    LeadReads e (name.lexeme :: xs) := by
  intro zs st h hzs fuel hfuel post hpost
  rw [List.cons_append] at h
  rw [List.length_cons] at hfuel
  obtain ⟨t, ht, hhead⟩ := hstart zs hzs
  have hall : ∀ t ∈ Terminal.parenOpen :: leadFollowers,
      t ∈ Mode.afterLeadName.fixed ∧ t ≠ .assign ∧ t ≠ .dot := by
    decide
  have hmode : Mode.afterLeadName.ReadsFirst (xs ++ zs) := by
    intro x hx
    rw [hhead] at hx
    cases hx
    exact Mode.reads_fixed (hall t ht).1
  refine meets_namedStatement hname h ?_
  refine (meets_shift h hmode).bind fun name' _ ⟨hname', h1⟩ => .look_head h1 ?_
  simp only [hhead, Option.map_some, Terminal.lexeme_terminal]
  split
  · next heq => exact absurd (Option.some.inj heq) (hall t ht).2.1
  · next heq => exact absurd (Option.some.inj heq) (hall t ht).2.2
  · obtain ⟨fuel, rfl⟩ : ∃ f, fuel = f + 1 := ⟨fuel - 1, by omega⟩
    exact (hreads name' zs _ hname' h1 (followed_of_lead hzs _) fuel (by omega)).bind hpost

theorem leadReads_operation {op : Terminal} (hname : name.IsName) (hop : OperationReads name op e) :
    LeadReads e [name.lexeme, Terminal.dot.lexeme, op.lexeme, Terminal.parenOpen.lexeme,
      Terminal.parenClose.lexeme] := by
  intro zs st h hzs fuel _ post hpost
  have hbehind := (followed_of_lead hzs []).behind_operand (by rintro ⟨_, ⟨⟩, -⟩)
  refine meets_namedStatement hname h ?_
  refine (meets_shift h (Mode.first_fixed (by decide) _)).bind fun name' _ ⟨hname', h1⟩ => .look h1 ?_
  refine (meets_shift h1 (hop.behind_leadDot.first _)).bind fun _ _ ⟨_, h2⟩ => ?_
  refine .look h2 (.ite_neg (fun heq => hop.ne_push (Option.some.inj heq)) ?_)
  exact (hop.reads hname' h2 hbehind).bind hpost

theorem leadReads_written (h : Phrase.Written (.expr none e) xs) (he : e.Proper) : LeadReads e xs := by
  have hreads : ExprReads none e xs := (reads_written h he).1
  cases h with
  | number t =>
    rw [Expr.Proper] at he
    have hnumber : t.lexeme.terminal = .number := he.terminal_eq
    exact leadReads_factor (hnumber ▸ by decide) (hnumber ▸ by decide) hreads
  | character t =>
    rw [Expr.Proper] at he
    have hcharacter : t.lexeme.terminal = .charLiteral := he.terminal_eq
    exact leadReads_factor (hcharacter ▸ by decide) (hcharacter ▸ by decide) hreads
  | name t =>
    rw [Expr.Proper] at he
    refine leadReads_named he (namedReads_name he.terminal_eq) fun zs hzs => ?_
    obtain ⟨t, ht, hhead⟩ := hzs
    exact ⟨t, List.mem_cons_of_mem _ ht, hhead⟩
  | emptyCall f =>
    rw [Expr.Proper] at he
    exact leadReads_named he.1 namedReads_emptyCall fun _ _ => ⟨.parenOpen, by decide, rfl⟩
  | call f ha has =>
    rw [Expr.Proper, ProperAll] at he
    exact leadReads_named he.1 (namedReads_call (ha.exists_start rfl he.2.1)
      (exprReads_written ha he.2.1) (reads_written has he.2.2))
      fun _ _ => ⟨.parenOpen, by decide, rfl⟩
  | peek t =>
    rw [Expr.Proper] at he
    exact leadReads_operation he (operationReads_peek t)
  | pop t =>
    rw [Expr.Proper] at he
    exact leadReads_operation he (operationReads_pop t)
  | input => exact leadReads_factor (by decide) (by decide) hreads
  | unary sign _ =>
    rw [Expr.Proper] at he
    rcases he.1 with hsign | hsign
    · exact leadReads_factor (hsign ▸ by decide) (hsign ▸ by decide) hreads
    · exact leadReads_factor (hsign ▸ by decide) (hsign ▸ by decide) hreads
  | parens _ => exact leadReads_factor (by decide) (by decide) hreads

theorem stmtReads_expr (h : e.Written xs) (he : e.Proper) :
    StmtReads (.expr e) (xs ++ [Terminal.semicolon.lexeme]) := by
  obtain ⟨-, ⟨split⟩⟩ := reads_written h he
  intro zs st h hzs _ fuel hfuel
  have hfollow : ∃ t ∈ leadFollowers,
      (split.back ++ Terminal.semicolon.lexeme :: zs).head? = some t.lexeme := by
    rcases split.onward_reads.starts.cases with hback | ⟨t, ht, hhead⟩
    · rw [hback]
      exact ⟨.semicolon, by decide, rfl⟩
    · exact ⟨t, List.mem_cons_of_mem _ ht, hhead _⟩
  simp only [split.append_eq, List.append_assoc, List.cons_append, List.nil_append] at h
  simp only [split.append_eq, List.length_append, List.length_cons, List.length_nil] at hfuel
  obtain ⟨fuel, rfl⟩ : ∃ f, fuel = f + 1 := ⟨fuel - 1, by omega⟩
  refine leadReads_written split.written split.proper _ st h hfollow _ (by omega) _ ?_
  intro first' st1 ⟨hbare1, h1⟩
  refine (split.onward_reads.reads first' split.front _ st1 hbare1 h1
    (followed_of_closer (t := .semicolon) (by decide) rfl) fuel (by omega)).bind
      fun e' _ ⟨hbare, h2⟩ => meets_endStatement ?_ h2 hzs
  rw [Stmt.bare, Stmt.bare, hbare]

end Lead

/-! ### Output, `if`, `while`, `return` and blocks -/

section Control

variable {s other : Stmt} {ss : List Stmt}

theorem stmtReads_output (he : e.Written xs) (hproper : e.Proper) :
    StmtReads (.output e) (Terminal.output.lexeme :: Terminal.parenOpen.lexeme ::
      (xs ++ [Terminal.parenClose.lexeme, Terminal.semicolon.lexeme])) := by
  intro zs st h hzs _ fuel hfuel
  simp only [List.cons_append, List.append_assoc, List.nil_append] at h
  simp only [List.length_cons, List.length_append] at hfuel
  rw [statement]
  refine .look h ((meets_shift h (Mode.first_fixed (by decide) _)).bind fun _ _ ⟨_, h1⟩ => ?_)
  refine (meets_parenthesised he hproper h1 (Mode.first_fixed (by decide) _) (by omega)).bind
    fun e' _ ⟨hbare, h2⟩ => meets_endStatement ?_ h2 hzs
  rw [Stmt.bare, Stmt.bare, hbare]

theorem body_first (hs : Clause.Written (.stmt s) ys) (hproper : s.Proper) (zs : List Lexeme) :
    Mode.body.ReadsFirst (ys ++ zs) := by
  obtain ⟨y, ys, rfl, hy⟩ := hs.exists_start hproper
  exact (Mode.reads_statement (by decide) hy).first _

theorem stmtReads_ifOnly (he : e.Written xs) (hproper : e.Proper)
    (hbody : Clause.Written (.stmt s) ys) (hs : s.Proper) (hreads : StmtReads s ys) :
    StmtReads (.ifElse e s none) (Terminal.ifWord.lexeme :: Terminal.parenOpen.lexeme ::
      (xs ++ Terminal.parenClose.lexeme :: ys)) := by
  intro zs st h hzs hopen fuel hfuel
  simp only [List.cons_append, List.append_assoc] at h
  simp only [List.length_cons, List.length_append] at hfuel
  rw [statement]
  refine .look h ((meets_shift h (Mode.first_fixed (by decide) _)).bind fun _ _ ⟨_, h1⟩ => ?_)
  refine (meets_parenthesised he hproper h1 (body_first hbody hs zs) (by omega)).bind
    fun e' _ ⟨hbare, h2⟩ => ?_
  refine (hreads.inner h2 hzs (fun _ => hopen rfl) (by omega)).bind
    fun s' _ ⟨hbares, h3⟩ => .look_head h3 (.ite_neg ?_ (.pure ⟨?_, h3⟩))
  · intro helse
    obtain ⟨z, hz, hterminal⟩ := Option.map_eq_some_iff.mp helse
    exact hopen rfl z hz hterminal
  · rw [Stmt.bare, Stmt.bare, hbare, hbares]

theorem stmtReads_ifElse (he : e.Written xs) (hproper : e.Proper)
    (hbody : Clause.Written (.stmt s) ys) (hs : s.Proper) (hclosed : s.endsOpen = false)
    (hreads : StmtReads s ys) {ys' : List Lexeme} (hother : Clause.Written (.stmt other) ys')
    (hother' : other.Proper) (hreads' : StmtReads other ys') :
    StmtReads (.ifElse e s (some other)) (Terminal.ifWord.lexeme :: Terminal.parenOpen.lexeme ::
      (xs ++ Terminal.parenClose.lexeme :: (ys ++ Terminal.elseWord.lexeme :: ys'))) := by
  intro zs st h hzs hopen fuel hfuel
  simp only [List.cons_append, List.append_assoc] at h
  simp only [List.length_cons, List.length_append] at hfuel
  rw [statement]
  refine .look h ((meets_shift h (Mode.first_fixed (by decide) _)).bind fun _ _ ⟨_, h1⟩ => ?_)
  refine (meets_parenthesised he hproper h1 (body_first hbody hs _) (by omega)).bind
    fun e' _ ⟨hbare, h2⟩ => ?_
  refine (hreads.inner h2 (Mode.first_fixed (by decide) _) (by simp [hclosed]) (by omega)).bind
    fun s' _ ⟨hbares, h3⟩ => .look h3 (.ite_pos rfl ?_)
  refine (meets_shift h3 (body_first hother hother' zs)).bind fun _ _ ⟨_, h4⟩ => ?_
  refine (hreads'.inner h4 hzs hopen (by omega)).bind fun other' _ ⟨hbares', h5⟩ => .pure ⟨?_, h5⟩
  rw [Stmt.bare, Stmt.bare, hbare, hbares, hbares']

theorem stmtReads_loop (he : e.Written xs) (hproper : e.Proper)
    (hbody : Clause.Written (.stmt s) ys) (hs : s.Proper) (hreads : StmtReads s ys) :
    StmtReads (.loop e s) (Terminal.whileWord.lexeme :: Terminal.parenOpen.lexeme ::
      (xs ++ Terminal.parenClose.lexeme :: ys)) := by
  intro zs st h hzs hopen fuel hfuel
  simp only [List.cons_append, List.append_assoc] at h
  simp only [List.length_cons, List.length_append] at hfuel
  rw [statement]
  refine .look h ((meets_shift h (Mode.first_fixed (by decide) _)).bind fun _ _ ⟨_, h1⟩ => ?_)
  refine (meets_parenthesised he hproper h1 (body_first hbody hs zs) (by omega)).bind
    fun e' _ ⟨hbare, h2⟩ => ?_
  refine (hreads.inner h2 hzs hopen (by omega)).bind fun s' _ ⟨hbares, h3⟩ => .pure ⟨?_, h3⟩
  rw [Stmt.bare, Stmt.bare, hbare, hbares]

theorem stmtReads_returnOnly : StmtReads (.returning none)
    [Terminal.returnWord.lexeme, Terminal.semicolon.lexeme] := by
  intro zs st h hzs _ fuel _
  rw [statement]
  refine .look h ((meets_shift h (Mode.first_fixed (by decide) _)).bind fun _ _ ⟨_, h1⟩ => ?_)
  exact .look h1 (.ite_pos rfl (meets_endStatement rfl h1 hzs))

theorem stmtReads_returning (he : e.Written xs) (hproper : e.Proper) :
    StmtReads (.returning (some e))
      (Terminal.returnWord.lexeme :: (xs ++ [Terminal.semicolon.lexeme])) := by
  intro zs st h hzs _ fuel hfuel
  simp only [List.cons_append, List.append_assoc, List.nil_append] at h
  simp only [List.length_cons, List.length_append] at hfuel
  have hstart : Mode.operandOrSemicolon.ReadsFirst (xs ++ Terminal.semicolon.lexeme :: zs) :=
    Mode.readsFirst_written (by decide) he hproper _
  have hnot : (xs ++ Terminal.semicolon.lexeme :: zs).head?.map Lexeme.terminal ≠
      some .semicolon := by
    obtain ⟨x, xs', rfl, hx⟩ := he.exists_start rfl hproper
    exact fun heq => ne_of_mem_of_not_mem hx.terminal_mem (by decide) (Option.some.inj heq)
  rw [statement]
  refine .look h ((meets_shift h hstart).bind fun _ _ ⟨_, h1⟩ => .look_head h1 (.ite_neg hnot ?_))
  refine (meets_expression he hproper h1 (by decide) (by omega)).bind
    fun e' _ ⟨hbare, h2⟩ => meets_endStatement ?_ h2 hzs
  rw [Stmt.bare, Stmt.bare, hbare]

/-! ### Blocks -/

/-- Another statement follows, or the end of the block or of the text. -/
def Resumes (xs : List Lexeme) : Prop :=
  ∀ x ∈ xs.head?, x.StartsStatement ∨ x = Terminal.braceClose.lexeme

theorem Resumes.reads (h : Resumes xs) {mode : Mode} (hmode : mode ∈ [.blockStart, .afterStatement]) :
    mode.ReadsFirst xs := by
  have hclose : ∀ mode ∈ [Mode.blockStart, .afterStatement],
      .braceClose ∈ mode.fixed := by
    decide
  have hsubset : ∀ mode ∈ [Mode.blockStart, .afterStatement], mode ∈ Mode.forStatements := by decide
  intro x hx
  rcases h x hx with hstart | rfl
  · exact Mode.reads_statement (hsubset mode hmode) hstart
  · exact Mode.reads_fixed (hclose mode hmode)

theorem Resumes.ne_else (h : Resumes xs) : ∀ x ∈ xs.head?, x.terminal ≠ .elseWord := by
  intro x hx
  rcases h x hx with hstart | rfl
  · exact ne_of_mem_of_not_mem hstart.terminal_mem (by decide)
  · decide

theorem resumes_written (h : Clause.Written (.stmts ss) xs) (hss : ProperStmts ss)
    (hzs : Resumes zs) : Resumes (xs ++ zs) := by
  cases h with
  | nil => exact hzs
  | cons hs _ =>
    rw [ProperStmts] at hss
    obtain ⟨x, xs', rfl, hx⟩ := hs.exists_start hss.1
    rintro y ⟨⟩
    exact .inl hx

theorem stmtReads_block (h : Clause.Written (.stmts ss) xs) (hss : ProperStmts ss)
    (hreads : StmtsReads ss xs) : StmtReads (.block ss)
      (Terminal.braceOpen.lexeme :: (xs ++ [Terminal.braceClose.lexeme])) := by
  intro zs st hst hzs _ fuel hfuel
  simp only [List.cons_append, List.append_assoc, List.nil_append] at hst
  simp only [List.length_cons, List.length_append] at hfuel
  have hclose : Resumes (Terminal.braceClose.lexeme :: zs) := fun x hx =>
    .inr (Option.some.inj hx).symm
  have hmode : Mode.blockStart.ReadsFirst (xs ++ Terminal.braceClose.lexeme :: zs) :=
    (resumes_written h hss hclose).reads (by decide)
  obtain ⟨fuel, rfl⟩ : ∃ f, fuel = f + 1 := ⟨fuel - 1, by omega⟩
  rw [statement]
  refine .look hst ((meets_shift hst hmode).bind fun _ _ ⟨_, h1⟩ => ?_)
  refine (hreads _ _ h1 rfl fuel (by omega)).bind fun ss' _ ⟨hbares, h2⟩ => ?_
  refine (meets_expect h2 rfl hzs).bind fun _ _ ⟨_, h3⟩ => .pure ⟨?_, h3⟩
  rw [Stmt.bare, Stmt.bare, hbares]

theorem stmtsReads_nil : StmtsReads [] [] := by
  intro zs st h hzs fuel _
  rw [statements]
  refine .look_head h ?_
  simp only [List.nil_append, hzs, Option.map_some, Terminal.lexeme_terminal]
  exact .pure ⟨rfl, h⟩

theorem stmtsReads_cons (hs : Clause.Written (.stmt s) xs) (hproper : s.Proper)
    (hss : Clause.Written (.stmts ss) ys) (hproper' : ProperStmts ss) (hreads : StmtReads s xs)
    (hreads' : StmtsReads ss ys) : StmtsReads (s :: ss) (xs ++ ys) := by
  intro zs st h hzs fuel hfuel
  rw [List.append_assoc] at h
  have hresumes : Resumes (ys ++ zs) := resumes_written hss hproper' fun x hx =>
    .inr (Option.some.inj (hx.symm.trans hzs))
  obtain ⟨x, xs, rfl, hx⟩ := hs.exists_start hproper
  simp only [List.length_append, List.length_cons] at hfuel
  obtain ⟨fuel, rfl⟩ : ∃ f, fuel = f + 1 := ⟨fuel - 1, by omega⟩
  have hne : x.terminal ≠ .braceClose := ne_of_mem_of_not_mem hx.terminal_mem (by decide)
  rw [statements]
  refine .look h (.ite_neg (fun heq => hne (Option.some.inj heq)) ?_)
  refine (hreads _ st h (hresumes.reads (by decide)) (fun _ => hresumes.ne_else) fuel
    (by simp only [List.length_cons]; omega)).bind fun s' _ ⟨hbare, h1⟩ => ?_
  refine (hreads' zs _ h1 hzs fuel (by omega)).bind fun ss' _ ⟨hbares, h2⟩ => .pure ⟨?_, h2⟩
  rw [bareStmts, bareStmts, hbare, hbares]

end Control

/-- What is proved of a clause by induction over the way it is written. -/
def ClauseReads (xs : List Lexeme) : Clause → Prop
  | .stmt s => s.Proper → StmtReads s xs
  | .stmts ss => ProperStmts ss → StmtsReads ss xs

theorem clauseReads_written {c : Clause} (h : c.Written xs) : ClauseReads xs c := by
  induction h with
  | uninitialised name =>
    intro hs
    rw [Stmt.Proper] at hs
    exact stmtReads_uninitialised hs
  | initialised name he =>
    intro hs
    rw [Stmt.Proper] at hs
    exact stmtReads_initialised hs.1 he hs.2
  | stack name he =>
    intro hs
    rw [Stmt.Proper] at hs
    exact stmtReads_stack hs.1 he hs.2
  | assign name he =>
    intro hs
    rw [Stmt.Proper] at hs
    exact stmtReads_assign hs.1 he hs.2
  | expr he =>
    intro hs
    rw [Stmt.Proper] at hs
    exact stmtReads_expr he hs
  | push name he =>
    intro hs
    rw [Stmt.Proper] at hs
    exact stmtReads_push hs.1 he hs.2
  | output he =>
    intro hs
    rw [Stmt.Proper] at hs
    exact stmtReads_output he hs
  | ifOnly hc hbody ih =>
    intro hs
    rw [Stmt.Proper] at hs
    exact stmtReads_ifOnly hc hs.1 hbody hs.2 (ih hs.2)
  | ifElse hc hbody hother ih ih' =>
    intro hs
    rw [Stmt.Proper] at hs
    obtain ⟨hc', hbody', hother', hclosed⟩ := hs
    exact stmtReads_ifElse hc hc' hbody hbody' hclosed (ih hbody') hother hother' (ih' hother')
  | loop hc hbody ih =>
    intro hs
    rw [Stmt.Proper] at hs
    exact stmtReads_loop hc hs.1 hbody hs.2 (ih hs.2)
  | returnOnly => exact fun _ => stmtReads_returnOnly
  | returning he =>
    intro hs
    rw [Stmt.Proper] at hs
    exact stmtReads_returning he hs
  | block hbody ih =>
    intro hs
    rw [Stmt.Proper] at hs
    exact stmtReads_block hbody hs (ih hs)
  | nil => exact fun _ => stmtsReads_nil
  | cons hs hss ih ih' =>
    intro h
    rw [ProperStmts] at h
    exact stmtsReads_cons hs h.1 hss h.2 (ih h.1) (ih' h.2)

/-! ## The whole text -/

theorem meets_item {x : Lexeme} {post : Stmt → ParserState → Prop} {fuel : Nat}
    (h : st.Faces (x :: xs)) (hx : x.StartsStatement) (hs : Meets (statement fuel) st post) :
    Meets (item fuel) st fun i st' => ∃ s, i = .stmt s ∧ post s st' := by
  have hother : ∀ t ∈ [Terminal.includeWord, .defineWord, .void], x.terminal ≠ t := by
    intro t ht heq
    have hnot : ∀ t ∈ [Terminal.includeWord, .defineWord, .void], t ∉ Terminal.statementStart := by
      decide
    exact hnot t ht (heq ▸ hx.terminal_mem)
  refine .look h ?_
  split
  · next heq => exact absurd (Option.some.inj heq) (hother _ (by decide))
  · next heq => exact absurd (Option.some.inj heq) (hother _ (by decide))
  · next heq => exact absurd (Option.some.inj heq) (hother _ (by decide))
  · exact hs.bind fun s _ hpost => .pure ⟨s, rfl, hpost⟩

/-- At the top level the statements go on to the end of the text. -/
theorem meets_items {ss : List Stmt} (hss : ProperStmts ss) :
    ∀ {xs : List Lexeme} {st : ParserState}, Clause.Written (.stmts ss) xs → st.Faces xs →
      ∀ {inner fuel : Nat}, 8 * xs.length + 1 ≤ inner → xs.length ≤ fuel →
        Meets (items inner (fuel + 1)) st fun is _ =>
          ∃ ss', is = ss'.map Item.stmt ∧ bareStmts ss' = bareStmts ss := by
  induction ss with
  | nil =>
    intro xs st hxs h inner fuel _ _
    cases hxs
    exact .look_head h (.pure ⟨[], rfl, rfl⟩)
  | cons s ss ih =>
    intro xs st hxs h inner fuel hinner hfuel
    rw [ProperStmts] at hss
    cases hxs with
    | @cons _ _ xs ys hs hrest =>
      have hresumes : Resumes ys := by
        have hall : Resumes (ys ++ []) := resumes_written hrest hss.2 (by rintro _ ⟨⟩)
        rwa [List.append_nil] at hall
      have hreads : StmtReads s xs := clauseReads_written hs hss.1
      obtain ⟨x, xs, rfl, hx⟩ := hs.exists_start hss.1
      simp only [List.length_append, List.length_cons] at hinner hfuel
      obtain ⟨fuel, rfl⟩ : ∃ f, fuel = f + 1 := ⟨fuel - 1, by omega⟩
      have hs' : Meets (statement inner) st (Leaves Stmt.bare s.bare ys) :=
        hreads.inner h (hresumes.reads (by decide)) (fun _ => hresumes.ne_else)
          (by simp only [List.length_cons]; omega)
      refine .look h ((meets_item h hx hs').bind ?_)
      rintro _ st1 ⟨s', rfl, hbare, h1⟩
      refine (ih hss.2 hrest h1 (by omega) (by omega)).bind ?_
      rintro _ _ ⟨ss', rfl, hbares⟩
      exact .pure ⟨s' :: ss', rfl, by rw [bareStmts, bareStmts, hbare, hbares]⟩

end Parser

theorem fileStart_first {ss : List Stmt} {xs : List Lexeme} (h : Clause.Written (.stmts ss) xs)
    (hss : ProperStmts ss) : Mode.fileStart.ReadsFirst xs := by
  cases h with
  | nil => rintro _ ⟨⟩
  | cons hs _ =>
    rw [ProperStmts] at hss
    obtain ⟨x, xs', rfl, hx⟩ := hs.exists_start hss.1
    exact (Mode.reads_statement (by decide) hx).first _

/-- The first token of a text is found. -/
theorem LaidOut.exists_faces {xs : List Lexeme} {text : List Char} (h : LaidOut xs text)
    (hmode : Mode.fileStart.ReadsFirst xs) :
    xs.length ≤ (Glyph.ofChars text).length ∧ ∃ ahead rest,
      Token.next (Glyph.ofChars text).length .fileStart (Glyph.ofChars text) = .ok (ahead, rest) ∧
      ParserState.Faces ⟨(Glyph.ofChars text).length, rest, ahead, none⟩ xs := by
  have hchars := Glyph.chars_ofChars text
  cases xs with
  | nil =>
    have hfiller : Filler (Token.chars (Glyph.ofChars text)) := by rw [hchars]; exact h
    exact ⟨Nat.zero_le _, none, [], Token.next_of_filler _ hfiller (Nat.le_refl _), rfl⟩
  | cons x xs =>
    obtain ⟨lead, rest, hlead, hrest, htext⟩ := h
    have hx := hmode x rfl
    obtain ⟨token, gs, hnext, htoken, hgs, hlength⟩ :=
      Token.next_of_reads hx hlead hrest.breaks (hchars.trans htext) (Nat.le_refl _)
    refine ⟨?_, some token, gs, hnext, ⟨token, rfl, htoken⟩, by rw [hgs]; exact hrest, hlength⟩
    have hcount := congrArg List.length (hchars.trans htext)
    have hpos := hx.solid.length_pos
    have hle := hrest.length_le
    simp only [Token.chars, List.length_map, List.length_append] at hcount
    rw [List.length_cons]
    omega

/-- A text is parsed if its items are. -/
theorem LaidOut.exists_parse {xs : List Lexeme} {text : List Char} {post : List Item → Prop}
    (h : LaidOut xs text) (hmode : Mode.fileStart.ReadsFirst xs)
    (hitems : ∀ st n, st.Faces xs → xs.length ≤ n →
      Parser.Meets (Parser.items (8 * n + 8) (8 * n + 8)) st fun is _ => post is) :
    ∃ is, Source.parse text = .ok ⟨is⟩ ∧ post is := by
  obtain ⟨hlength, ahead, rest, hnext, hfaces⟩ := h.exists_faces hmode
  obtain ⟨is, st', htakes, hpost⟩ := hitems _ _ hfaces hlength
  refine ⟨is, ?_, hpost⟩
  unfold Parser.Takes at htakes
  unfold Source.parse
  simp only [hnext, bind, Except.bind, htakes]
  rfl

theorem Source.exists_fault {text : List Char} (h : (Source.parse text).toOption = none) :
    ∃ fault, Source.parse text = .error fault := by
  cases hparse : Source.parse text with
  | error fault => exact ⟨fault, rfl⟩
  | ok source =>
    rw [hparse] at h
    cases h

/-- Written statements are read. -/
theorem Source.exists_parse {ss : List Stmt} {xs : List Lexeme} {text : List Char}
    (hss : ProperStmts ss) (hxs : Clause.Written (.stmts ss) xs) (htext : LaidOut xs text) :
    ∃ ss', Source.parse text = .ok ⟨ss'.map Item.stmt⟩ ∧ bareStmts ss' = bareStmts ss := by
  obtain ⟨_, hparse, ss', rfl, hbare⟩ := htext.exists_parse (fileStart_first hxs hss)
    fun st n hfaces hn => Parser.meets_items hss hxs hfaces (by omega) (by omega)
  exact ⟨ss', hparse, hbare⟩

/-- **Writing and reading back.** Proper statements can be written, and however they are written, with
whatever parentheses, blanks and comments, they are read back as the same statements, apart from where
their tokens stand. -/
theorem Source.parse_written {ss : List Stmt} (hss : ProperStmts ss) :
    (∃ xs text, Clause.Written (.stmts ss) xs ∧ LaidOut xs text) ∧
    ∀ xs text, Clause.Written (.stmts ss) xs → LaidOut xs text →
      ∃ ss', Source.parse text = .ok ⟨ss'.map Item.stmt⟩ ∧ bareStmts ss' = bareStmts ss := by
  refine ⟨?_, fun xs text hxs htext => ?_⟩
  · obtain ⟨xs, hxs⟩ := exists_written_stmts ss
    obtain ⟨text, htext⟩ := exists_laidOut xs
    exact ⟨xs, text, hxs, htext⟩
  · exact Source.exists_parse hss hxs htext

/-- The `else` belongs to the outer `if`, and the sum is an operand of the product. -/
def nestedIf : List Stmt :=
  let a : Token := ⟨.declaredName, "a", 0, 0⟩
  let sum : Expr := .chain .arithmetic (.number ⟨.number, "1", 0, 0⟩)
    [(⟨.plus, "+", 0, 0⟩, .number ⟨.number, "2", 0, 0⟩)]
  [.ifElse (.name a) (.block [.ifElse (.name a) (.returning none) none])
    (some (.assign a (.chain .term sum
      [(⟨.times, "*", 0, 0⟩, .unary ⟨.negative, "-", 0, 0⟩ (.name a))])))]

theorem nestedIf_proper : ProperStmts nestedIf := by
  have hname : Token.IsName ⟨.declaredName, "a", 0, 0⟩ := by
    refine ⟨rfl, ⟨'a', [], rfl, rfl, by simp⟩, fun k => ?_⟩
    cases k <;> decide
  have hdigits : Text.isDecimal '1' = true ∧ Text.isDecimal '2' = true := by decide
  have hone : Token.IsNumber ⟨.number, "1", 0, 0⟩ := ⟨rfl, by simp, by simpa using hdigits.1⟩
  have htwo : Token.IsNumber ⟨.number, "2", 0, 0⟩ := ⟨rfl, by simp, by simpa using hdigits.2⟩
  have hplus : Token.IsOperator .arithmetic ⟨.plus, "+", 0, 0⟩ := ⟨.plus, by decide, rfl⟩
  have htimes : Token.IsOperator .term ⟨.times, "*", 0, 0⟩ := ⟨.times, by decide, rfl⟩
  have hminus : Token.IsSign ⟨.negative, "-", 0, 0⟩ := .inr rfl
  simp [nestedIf, ProperStmts, Stmt.Proper, Expr.Proper, ProperRest, Stmt.endsOpen, hname, hone, htwo,
    hplus, htimes, hminus]

/-- A comment, a block that keeps the `else` from the inner `if`, and parentheses around the sum. -/
theorem Source.parse_written_nestedIf :
    ProperStmts nestedIf ∧ ∃ ss', Source.parse
      "// halves\nif ( a ) \x7b if ( a ) return ; \x7d else a = ( 1 + 2 ) * - a ;".toList =
        .ok ⟨ss'.map Item.stmt⟩ ∧ bareStmts ss' = nestedIf := by
  refine ⟨nestedIf_proper, ?_⟩
  have hname := Phrase.Written.name ⟨.declaredName, "a", 0, 0⟩
  have hsum := Phrase.Written.chain
    ((Phrase.Written.number ⟨.number, "1", 0, 0⟩).operand .arithmetic)
    (.restCons ⟨.plus, "+", 0, 0⟩ ((Phrase.Written.number ⟨.number, "2", 0, 0⟩).operand .arithmetic)
      (.restNil .arithmetic))
  have hproduct := Phrase.Written.chain ((Phrase.Written.parens hsum.widen).operand .term)
    (.restCons ⟨.times, "*", 0, 0⟩ ((Phrase.Written.unary ⟨.negative, "-", 0, 0⟩ hname).operand .term)
      (.restNil .term))
  have hinner := Clause.Written.ifOnly (hname.loosen .comparison) .returnOnly
  have hwritten := Clause.Written.cons (.ifElse (hname.loosen .comparison)
    (.block (.cons hinner .nil)) (.assign ⟨.declaredName, "a", 0, 0⟩ hproduct.widen)) .nil
  have hlead : Filler ('/' :: '/' :: (" halves".toList ++ ['\n'])) := .lineComment (by decide) .nil
  exact (Source.parse_written nestedIf_proper).2 _ _ hwritten
    ⟨_, _, hlead, laid_spaced _, by cbv⟩

end TapeScript
