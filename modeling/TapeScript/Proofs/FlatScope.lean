import TapeScript.Proofs.Renaming
import TapeScript.Proofs.WrittenFiles

set_option autoImplicit false

/-! # Names in one flat scope

A block is lowered after its statements, so that it opens and closes a scope in which nothing is ever
declared. Names are therefore resolved in one flat scope. Where that fails so does lowering, for the
same name unless it fails for another cause before; and where it succeeds the script is compiled like
the script with unique names (`Session.names_are_flat`).
-/

namespace TapeScript

/-! ## Runs that fail for a name -/

namespace SourceLower

/-- A fault that is about no name, in any construct. -/
abbrev mild (r : RuleFault) : Prop := r.fault.concernsName = false

/-- The run fails, for the given fault or for one that is about no name. -/
def Refuses {α : Type} (f : Fault) (e : SourceLower α) (s : Session) : Prop :=
  ∃ rule g s1, runFrom e s = (.error ⟨rule, g⟩, s1) ∧ (g = f ∨ g.concernsName = false)

section Refuses

variable {α β : Type} {f : Fault} {e e' : SourceLower α} {k : α → SourceLower β} {s s' : Session}

theorem Refuses.bind (h : Refuses f e s) : Refuses f (e >>= k) s := by
  obtain ⟨rule, g, s1, hrun, hg⟩ := h
  refine ⟨rule, g, s1, ?_, hg⟩
  rw [runFrom_bind, hrun]

/-- What stands in front of the failure runs like what it is renamed to. -/
theorem refuses_after {post : α → α → Session → Session → Prop} (h : Mirrors mild post e e' s s')
    (hk : ∀ a b s1 s1', post a b s1 s1' → Refuses f (k a) s1) : Refuses f (e >>= k) s := by
  unfold Mirrors at h
  unfold Refuses
  rw [runFrom_bind]
  generalize runFrom e s = r at h
  generalize runFrom e' s' = r' at h
  cases h with
  | ok hpost => exact hk _ _ _ _ hpost
  | error hmild _ => exact ⟨_, _, _, rfl, .inr hmild⟩

theorem refuses_during {rule : String} {action : Lower α} {s1 : Session}
    (h : runFrom action s = (.error f, s1)) : Refuses f (during rule action) s := by
  refine ⟨some rule, f, s1, ?_, .inl rfl⟩
  rw [runFrom_during, h]
  rfl

end Refuses

/-- Wherever the names are not resolved, the run fails. -/
def Fails {α γ : Type} (r : Except Fault γ) (e : SourceLower α) (s : Session) : Prop :=
  ∀ f, r = .error f → Refuses f e s

section Fails

variable {α β γ δ : Type} {r : Except Fault γ} {R : γ → Except Fault δ} {e : SourceLower α}
  {k : α → SourceLower β} {s s' : Session}

theorem fails_ok {c : γ} : Fails (.ok c) e s := by
  rintro f ⟨⟩

theorem Fails.left (h : Fails r e s) : Fails r (e >>= k) s := fun f hf => (h f hf).bind

/-- What is resolved last. -/
theorem Fails.last (h : Fails r e s) (hR : ∀ c, ∃ d, R c = .ok d) : Fails (r >>= R) e s := by
  intro f hf
  rcases bind_eq_error.mp hf with hf | ⟨c, -, hf⟩
  · exact h f hf
  · obtain ⟨d, hd⟩ := hR c
    rw [hd] at hf
    cases hf

/-- Behind something without names. -/
theorem fails_after {post : α → α → Session → Session → Prop} {e' : SourceLower α}
    (hm : Mirrors mild post e e' s s') (hk : ∀ a b t t', post a b t t' → Fails r (k a) t) :
    Fails r (e >>= k) s :=
  fun f hf => refuses_after hm fun a b t t' hpost => hk a b t t' hpost f hf

/-- What is resolved runs like what it is renamed to, up to a failure behind it. -/
theorem Fails.bind {post : γ → α → α → Session → Session → Prop} {e' : γ → SourceLower α}
    (h : Fails r e s) (hm : ∀ c, r = .ok c → Mirrors mild (post c) e (e' c) s s')
    (hk : ∀ c a b t t', post c a b t t' → Fails (R c) (k a) t) : Fails (r >>= R) (e >>= k) s := by
  intro f hf
  rcases bind_eq_error.mp hf with hf | ⟨c, hc, hf⟩
  · exact (h f hf).bind
  · exact refuses_after (hm c hc) fun a b t t' hpost => hk c a b t t' hpost f hf

end Fails

end SourceLower

namespace Names

variable {defines : DefineTable} {fresh : Nat → String} {σ : Names} {t : Token} {f : Fault}

theorem use_eq_error (h : σ.use defines t = .error f) :
    defines.lookup t.text = none ∧ σ.find? t.text = none ∧ f = .undefinedName t.text := by
  unfold use at h
  split at h
  · cases h
  · next hdefined =>
    split at h
    · cases h
    · next hfind =>
      cases h
      exact ⟨Option.not_isSome_iff_eq_none.mp hdefined, hfind, rfl⟩

theorem declare_eq_error (h : σ.declare fresh t = .error f) :
    (σ.here.lookup t.text).isSome ∧ f = .variableRedefined t.text := by
  unfold declare at h
  split at h
  · next hbound =>
    cases h
    exact ⟨hbound, rfl⟩
  · cases h

end Names

/-! ## The constructs -/

namespace SourceLower

variable {pool : Nat} {defines : DefineTable} {fresh : Nat → String} {σ τ : Names}
  {s s' : Session} {f : Fault}

variable {rule : String} {t : Token}

theorem mirrors_during {α : Type} {post : α → α → Session → Session → Prop} {e e' : Lower α}
    (h : Mirrors Lower.mild post e e' s s') :
    Mirrors mild post (during rule e) (during rule e') s s' := by
  unfold Mirrors at *
  rw [runFrom_during, runFrom_during]
  generalize runFrom e s = r at h
  generalize runFrom e' s' = r' at h
  cases h with
  | ok hpost => exact .ok hpost
  | error hmild hs => exact .error hmild hs

/-- Both fail, as their construct does in any case. -/
theorem mirrors_fault {α : Type} {post : α → α → Session → Session → Prop}
    (hf : f.concernsName = false) (h : Renames pool defines fresh σ s s') :
    Mirrors mild post (during rule (throw f)) (during rule (throw f)) s s' :=
  mirrors_during (mirrors_throw hf h.agrees)

theorem mirrors_declaredName {t' : Token} (h : Renames pool defines fresh σ s s')
    (ht : σ.use defines t = .ok t') :
    Mirrors mild (Lower.Alongside pool defines fresh σ) (declaredName t) (declaredName t') s s' :=
  mirrors_during (Lower.mirrors_declaredName h ht)

theorem fails_declaredName (h : Renames pool defines fresh σ s s') :
    Fails (σ.use defines t) (declaredName t) s := by
  intro f ht
  obtain ⟨hnone, hfind, rfl⟩ := Names.use_eq_error ht
  rw [Names.find?, h.outer_eq, List.append_nil] at hfind
  have hunbound : t.text ∉ σ.here.map Prod.fst := Names.not_mem_of_lookup hfind
  apply refuses_during
  unfold Lower.declaredName
  rw [runFrom_bind]
  have hlookup : s.lookup t.text = none :=
    (h.flat.lookup_eq t.text).trans (lookup_layout_eq_none.mpr hunbound)
  show runFrom _ s = _
  rw [h.defines_eq, hnone]
  dsimp only
  rw [hlookup]
  rfl

theorem fails_declare (h : Renames pool defines fresh σ s s') (initial : Option Node) :
    Fails (σ.declare fresh t) (during rule (Lower.declare (.newName t.text) initial)) s := by
  intro f ht
  obtain ⟨hbound, rfl⟩ := Names.declare_eq_error ht
  have hmem : t.text ∈ σ.here.map Prod.fst := by
    obtain ⟨new, hnew⟩ := Option.isSome_iff_exists.mp hbound
    obtain ⟨k, hk, -⟩ := Names.exists_getElem? hnew
    exact List.mem_of_getElem? hk
  apply refuses_during
  unfold Lower.declare
  rw [runFrom_bind]
  show runFrom _ s = _
  rw [runFrom_bind]
  show runFrom _ s = _
  rw [if_pos (by rw [h.flat.binds_eq]; simpa using hmem)]
  rfl

theorem mirrors_newName (h : Renames pool defines fresh σ s s') (t t' : Token) :
    Mirrors mild (fun n m t1 t1' => n = .newName t.text ∧ m = .newName t'.text ∧
      Renames pool defines fresh σ t1 t1') (newName t) (newName t') s s' :=
  mirrors_during (mirrors_pure ⟨rfl, rfl, h⟩)

theorem mirrors_declare {t' : Token} {initial initial' : Option Node}
    (h : Renames pool defines fresh σ s s') (ht : σ.declare fresh t = .ok (t', τ))
    (hinitial : Option.Rel Node.Alike initial initial') :
    Mirrors mild (Lower.Alongside pool defines fresh τ)
      (during rule (Lower.declare (.newName t.text) initial))
      (during rule (Lower.declare (.newName t'.text) initial')) s s' := by
  obtain ⟨hnew, rfl, rfl⟩ := Names.declare_eq_ok.mp ht
  exact mirrors_during (Lower.mirrors_declare h hnew hinitial)

/-! ## Names that are resolved -/

mutual

/-- An expression is lowered like the resolved one. -/
theorem mirrors_expr : ∀ (e : Expr) {e' : Expr} {s s' : Session},
    Renames pool defines fresh σ s s' → e.resolve defines σ = .ok e' →
    Mirrors mild (Lower.Alongside pool defines fresh σ) (expr e) (expr e') s s'
  | .number t, _, _, _, h, he => by
    rw [Expr.resolve] at he
    cases he
    rw [expr]
    exact mirrors_during (Lower.mirrors_number h t.text)
  | .character t, _, _, _, h, he => by
    rw [Expr.resolve] at he
    cases he
    rw [expr]
    exact mirrors_during (Lower.mirrors_character h t.text)
  | .input, _, _, _, h, he => by
    rw [Expr.resolve] at he
    cases he
    rw [expr]
    exact mirrors_pure ⟨Node.alike_self rfl, h⟩
  | .name t, _, _, _, h, he => by
    simp only [Expr.resolve, bind_eq_ok, pure_eq_ok] at he
    obtain ⟨t', ht, rfl⟩ := he
    rw [expr, expr]
    exact mirrors_declaredName h ht
  | .peek t, _, _, _, h, he | .pop t, _, _, _, h, he => by
    simp only [Expr.resolve, bind_eq_ok, pure_eq_ok] at he
    obtain ⟨t', ht, rfl⟩ := he
    rw [expr, expr]
    exact (mirrors_declaredName h ht).bind fun _ _ _ _ hpost => mirrors_fault rfl hpost.2
  | .call t [], _, _, _, h, he => by
    simp only [Expr.resolve, resolveExprs, bind_eq_ok, pure_eq_ok] at he
    obtain ⟨t', ht, _, ⟨⟩, rfl⟩ := he
    rw [expr, expr]
    exact (mirrors_declaredName h ht).bind fun _ _ _ _ hpost => mirrors_fault rfl hpost.2
  | .call t (a :: as), _, _, _, h, he => by
    simp only [Expr.resolve, resolveExprs, bind_eq_ok, pure_eq_ok] at he
    obtain ⟨t', ht, _, ⟨a', ha, as', has, rfl⟩, rfl⟩ := he
    rw [expr, expr]
    refine (mirrors_declaredName h ht).bind fun _ _ _ _ h1 => ?_
    refine (mirrors_expr a h1.2 ha).bind fun _ _ _ _ h2 => ?_
    exact (mirrors_exprs as h2.2 has).bind fun _ _ _ _ h3 => mirrors_fault rfl h3.2
  | .unary sign e, _, _, _, h, he => by
    simp only [Expr.resolve, bind_eq_ok, pure_eq_ok] at he
    obtain ⟨e', he, rfl⟩ := he
    rw [expr, expr]
    exact (mirrors_expr e h he).bind fun _ _ _ _ hpost =>
      mirrors_during (Lower.mirrors_unary hpost.2 hpost.1 sign.text)
  | .chain level first rest, _, _, _, h, he => by
    simp only [Expr.resolve, bind_eq_ok, pure_eq_ok] at he
    obtain ⟨first', hfirst, rest', hrest, rfl⟩ := he
    rw [expr, expr]
    refine (mirrors_expr first h hfirst).bind fun _ _ _ _ h1 => ?_
    exact (mirrors_operands rest h1.2 hrest).bind fun _ _ _ _ h2 =>
      mirrors_during (Lower.mirrors_chain level h1.1 h2.1 h2.2)

theorem mirrors_exprs : ∀ (es : List Expr) {es' : List Expr} {s s' : Session},
    Renames pool defines fresh σ s s' → resolveExprs defines σ es = .ok es' →
    Mirrors mild (fun ns ms t t' => List.Forall₂ Node.Alike ns ms ∧
      Renames pool defines fresh σ t t') (exprs es) (exprs es') s s'
  | [], _, _, _, h, hes => by
    rw [resolveExprs] at hes
    cases hes
    rw [exprs]
    exact mirrors_pure ⟨.nil, h⟩
  | e :: es, _, _, _, h, hes => by
    simp only [resolveExprs, bind_eq_ok, pure_eq_ok] at hes
    obtain ⟨e', he, es', hes, rfl⟩ := hes
    rw [exprs, exprs]
    refine (mirrors_expr e h he).bind fun _ _ _ _ h1 => ?_
    exact (mirrors_exprs es h1.2 hes).bind fun _ _ _ _ h2 => mirrors_pure ⟨.cons h1.1 h2.1, h2.2⟩

theorem mirrors_operands : ∀ (rest : List (Token × Expr)) {rest' : List (Token × Expr)}
    {s s' : Session}, Renames pool defines fresh σ s s' →
    resolveRest defines σ rest = .ok rest' →
    Mirrors mild (fun xs ys t t' => Lower.AlikeRest xs ys ∧ Renames pool defines fresh σ t t')
      (operands rest) (operands rest') s s'
  | [], _, _, _, h, hrest => by
    rw [resolveRest] at hrest
    cases hrest
    rw [operands]
    exact mirrors_pure ⟨.nil, h⟩
  | (op, e) :: rest, _, _, _, h, hrest => by
    simp only [resolveRest, bind_eq_ok, pure_eq_ok] at hrest
    obtain ⟨e', he, rest', hrest, rfl⟩ := hrest
    rw [operands, operands]
    refine (mirrors_expr e h he).bind fun _ _ _ _ h1 => ?_
    exact (mirrors_operands rest h1.2 hrest).bind fun _ _ _ _ h2 =>
      mirrors_pure ⟨.cons ⟨rfl, h1.1⟩ h2.1, h2.2⟩

end

mutual

/-- A statement is lowered like the resolved one, and behind it both have the new names as well. -/
theorem mirrors_stmt : ∀ (st : Stmt) {st' : Stmt} {σ τ : Names} {s s' : Session},
    Renames pool defines fresh σ s s' → st.resolve defines .flat fresh σ = .ok (st', τ) →
    Mirrors mild (Lower.Alongside pool defines fresh τ) (stmt st) (stmt st') s s'
  | .variable name none, _, _, _, _, _, h, hst => by
    simp only [Stmt.resolve, bind_eq_ok, pure_eq_ok, Prod.mk.injEq] at hst
    obtain ⟨⟨name', σ1⟩, hname, rfl, rfl⟩ := hst
    rw [stmt, stmt]
    refine (mirrors_newName h name name').bind fun n m _ _ h1 => ?_
    obtain ⟨rfl, rfl, h1⟩ := h1
    exact mirrors_declare h1 hname .none
  | .variable name (some e), _, _, _, _, _, h, hst => by
    simp only [Stmt.resolve, bind_eq_ok, pure_eq_ok, Prod.mk.injEq] at hst
    obtain ⟨e', he, ⟨name', σ1⟩, hname, rfl, rfl⟩ := hst
    rw [stmt, stmt]
    refine (mirrors_newName h name name').bind fun n m _ _ h1 => ?_
    obtain ⟨rfl, rfl, h1⟩ := h1
    exact (mirrors_expr e h1 he).bind fun _ _ _ _ h2 =>
      mirrors_declare h2.2 hname (.some h2.1)
  | .stack name size, _, _, _, _, _, h, hst => by
    simp only [Stmt.resolve, bind_eq_ok, pure_eq_ok, Prod.mk.injEq] at hst
    obtain ⟨size', hsize, rfl, rfl⟩ := hst
    rw [stmt, stmt]
    refine (mirrors_newName h name name).bind fun _ _ _ _ h1 => ?_
    exact (mirrors_expr size h1.2.2 hsize).bind fun _ _ _ _ h2 => mirrors_fault rfl h2.2
  | .assign name e, _, _, _, _, _, h, hst => by
    simp only [Stmt.resolve, bind_eq_ok, pure_eq_ok, Prod.mk.injEq] at hst
    obtain ⟨name', hname, e', he, rfl, rfl⟩ := hst
    rw [stmt, stmt]
    refine (mirrors_declaredName h hname).bind fun _ _ _ _ h1 => ?_
    exact (mirrors_expr e h1.2 he).bind fun _ _ _ _ h2 =>
      mirrors_during (Lower.mirrors_assign h2.2 h1.1 h2.1)
  | .expr e, _, _, _, _, _, h, hst => by
    simp only [Stmt.resolve, bind_eq_ok, pure_eq_ok, Prod.mk.injEq] at hst
    obtain ⟨e', he, rfl, rfl⟩ := hst
    rw [stmt, stmt]
    exact mirrors_expr e h he
  | .push name e, _, _, _, _, _, h, hst => by
    simp only [Stmt.resolve, bind_eq_ok, pure_eq_ok, Prod.mk.injEq] at hst
    obtain ⟨name', hname, e', he, rfl, rfl⟩ := hst
    rw [stmt, stmt]
    refine (mirrors_declaredName h hname).bind fun _ _ _ _ h1 => ?_
    exact (mirrors_expr e h1.2 he).bind fun _ _ _ _ h2 => mirrors_fault rfl h2.2
  | .output e, _, _, _, _, _, h, hst => by
    simp only [Stmt.resolve, bind_eq_ok, pure_eq_ok, Prod.mk.injEq] at hst
    obtain ⟨e', he, rfl, rfl⟩ := hst
    rw [stmt, stmt]
    exact (mirrors_expr e h he).bind fun _ _ _ _ h1 => mirrors_pure ⟨h1.1.output, h1.2⟩
  | .ifElse condition body none, _, _, _, _, _, h, hst => by
    simp only [Stmt.resolve, bind_eq_ok, pure_eq_ok, Prod.mk.injEq] at hst
    obtain ⟨c', hc, ⟨body', σ1⟩, hbody, rfl, rfl⟩ := hst
    rw [stmt, stmt]
    refine (mirrors_expr condition h hc).bind fun _ _ _ _ h1 => ?_
    exact (mirrors_stmt body h1.2 hbody).bind fun _ _ _ _ h2 =>
      mirrors_pure ⟨h1.1.ifElse h2.1 .none, h2.2⟩
  | .ifElse condition body (some otherwise), _, _, _, _, _, h, hst => by
    simp only [Stmt.resolve, bind_eq_ok, pure_eq_ok, Prod.mk.injEq] at hst
    obtain ⟨c', hc, ⟨body', σ1⟩, hbody, ⟨otherwise', σ2⟩, hotherwise, rfl, rfl⟩ := hst
    rw [stmt, stmt]
    refine (mirrors_expr condition h hc).bind fun _ _ _ _ h1 => ?_
    refine (mirrors_stmt body h1.2 hbody).bind fun _ _ _ _ h2 => ?_
    exact (mirrors_stmt otherwise h2.2 hotherwise).bind fun _ _ _ _ h3 =>
      mirrors_pure ⟨h1.1.ifElse h2.1 (.some h3.1), h3.2⟩
  | .loop condition body, _, _, _, _, _, h, hst => by
    simp only [Stmt.resolve, bind_eq_ok, pure_eq_ok, Prod.mk.injEq] at hst
    obtain ⟨c', hc, ⟨body', σ1⟩, hbody, rfl, rfl⟩ := hst
    rw [stmt, stmt]
    refine (mirrors_expr condition h hc).bind fun _ _ _ _ h1 => ?_
    exact (mirrors_stmt body h1.2 hbody).bind fun _ _ _ _ h2 =>
      mirrors_pure ⟨h1.1.loop h2.1, h2.2⟩
  | .returning none, _, _, _, _, _, h, hst => by
    rw [Stmt.resolve] at hst
    cases hst
    rw [stmt]
    exact mirrors_fault rfl h
  | .returning (some e), _, _, _, _, _, h, hst => by
    simp only [Stmt.resolve, bind_eq_ok, pure_eq_ok, Prod.mk.injEq] at hst
    obtain ⟨e', he, rfl, rfl⟩ := hst
    rw [stmt, stmt]
    exact (mirrors_expr e h he).bind fun _ _ _ _ h1 => mirrors_fault rfl h1.2
  | .block body, _, _, _, _, _, h, hst => by
    simp only [Stmt.resolve, bind_eq_ok, pure_eq_ok, Prod.mk.injEq] at hst
    obtain ⟨⟨body', σ1⟩, hbody, rfl, rfl⟩ := hst
    rw [stmt, stmt]
    -- the scope of the block is opened when its statements are done
    exact (mirrors_stmts body h hbody).bind fun _ _ _ _ h1 =>
      mirrors_during (Lower.mirrors_block h1.2 h1.1)

theorem mirrors_stmts : ∀ (sts : List Stmt) {sts' : List Stmt} {σ τ : Names} {s s' : Session},
    Renames pool defines fresh σ s s' →
    resolveStmts defines .flat fresh sts σ = .ok (sts', τ) →
    Mirrors mild (fun ns ms t t' => List.Forall₂ Node.Alike ns ms ∧
      Renames pool defines fresh τ t t') (stmts sts) (stmts sts') s s'
  | [], _, _, _, _, _, h, hsts => by
    rw [resolveStmts] at hsts
    cases hsts
    rw [stmts]
    exact mirrors_pure ⟨.nil, h⟩
  | st :: sts, _, _, _, _, _, h, hsts => by
    simp only [resolveStmts, bind_eq_ok, pure_eq_ok, Prod.mk.injEq] at hsts
    obtain ⟨⟨st', σ1⟩, hst, ⟨sts', σ2⟩, hsts, rfl, rfl⟩ := hsts
    rw [stmts, stmts]
    refine (mirrors_stmt st h hst).bind fun _ _ _ _ h1 => ?_
    exact (mirrors_stmts sts h1.2 hsts).bind fun _ _ _ _ h2 => mirrors_pure ⟨.cons h1.1 h2.1, h2.2⟩

end

theorem mirrors_parameters (params : List Token) {params' : List Token}
    (h : Renames pool defines fresh σ s s') (hparams : params.mapM (σ.use defines) = .ok params') :
    Mirrors mild (fun _ _ t t' => Renames pool defines fresh σ t t') (parameters params)
      (parameters params') s s' := by
  cases params with
  | nil =>
    rw [List.mapM_nil] at hparams
    cases hparams
    exact mirrors_pure h
  | cons p params =>
    simp only [List.mapM_cons, bind_eq_ok, pure_eq_ok] at hparams
    obtain ⟨p', hp, _, _, rfl⟩ := hparams
    exact (mirrors_declaredName h hp).bind fun _ _ _ _ h1 => mirrors_fault rfl h1.2

theorem mirrors_item (i : Item) {i' : Item} (h : Renames pool defines fresh σ s s')
    (hi : i.resolve defines .flat fresh σ = .ok (i', τ)) :
    Mirrors mild (Lower.Alongside pool defines fresh τ) (item i) (item i') s s' := by
  cases i with
  | includes file =>
    cases hi
    exact mirrors_fault rfl h
  | define name value =>
    simp only [Item.resolve, bind_eq_ok, pure_eq_ok, Prod.mk.injEq] at hi
    obtain ⟨name', hname, e', he, rfl, rfl⟩ := hi
    refine (mirrors_declaredName h hname).bind fun _ _ _ _ h1 => ?_
    exact (mirrors_expr value h1.2 he).bind fun _ _ _ _ h2 =>
      mirrors_pure ⟨Node.alike_nop _ _, h2.2⟩
  | function name params body =>
    simp only [Item.resolve, bind_eq_ok, pure_eq_ok, Prod.mk.injEq] at hi
    obtain ⟨params', hparams, ⟨body', σ1⟩, hbody, rfl, rfl⟩ := hi
    refine Mirrors.bind (mirrors_during (Lower.mirrors_note h _ _)) fun _ _ _ _ h1 => ?_
    refine (mirrors_newName h1 name name).bind fun _ _ _ _ h2 => ?_
    refine (mirrors_parameters params h2.2.2 hparams).bind fun _ _ _ _ h3 => ?_
    refine (mirrors_stmts body h3 hbody).bind fun _ _ _ _ h4 => ?_
    exact (mirrors_during (Lower.mirrors_block h4.2 h4.1)).bind fun _ _ _ _ h5 =>
      mirrors_fault rfl h5.2
  | stmt st =>
    simp only [Item.resolve, bind_eq_ok, pure_eq_ok, Prod.mk.injEq] at hi
    obtain ⟨⟨st', σ1⟩, hst, rfl, rfl⟩ := hi
    exact mirrors_stmt st h hst

theorem mirrors_items (is : List Item) {is' : List Item} (h : Renames pool defines fresh σ s s')
    (his : resolveItems defines .flat fresh is σ = .ok (is', τ)) :
    Mirrors mild (fun ns ms t t' => List.Forall₂ Node.Alike ns ms ∧
      Renames pool defines fresh τ t t') (items is) (items is') s s' := by
  induction is generalizing is' σ s s' with
  | nil =>
    cases his
    exact mirrors_pure ⟨.nil, h⟩
  | cons i is ih =>
    simp only [resolveItems, bind_eq_ok, pure_eq_ok, Prod.mk.injEq] at his
    obtain ⟨⟨i', σ1⟩, hi, ⟨is', σ2⟩, his, rfl, rfl⟩ := his
    refine (mirrors_item i h hi).bind fun _ _ _ _ h1 => ?_
    exact (ih h1.2 his).bind fun _ _ _ _ h2 => mirrors_pure ⟨.cons h1.1 h2.1, h2.2⟩

/-! ## Names that are not resolved -/

mutual

/-- An expression with a name that is not declared fails to be lowered. -/
theorem fails_expr : ∀ (e : Expr) {s s' : Session}, Renames pool defines fresh σ s s' →
    Fails (e.resolve defines σ) (expr e) s
  | .number _, _, _, _ | .character _, _, _, _ | .input, _, _, _ => by
    rw [Expr.resolve]
    exact fails_ok
  | .name t, _, _, h => by
    rw [Expr.resolve, expr]
    exact (fails_declaredName h).last fun _ => ⟨_, rfl⟩
  | .peek t, _, _, h | .pop t, _, _, h => by
    rw [Expr.resolve, expr]
    exact (fails_declaredName h).left.last fun _ => ⟨_, rfl⟩
  | .call t [], _, _, h => by
    rw [Expr.resolve, resolveExprs, expr]
    exact (fails_declaredName h).left.last fun _ => ⟨_, rfl⟩
  | .call t (a :: as), _, _, h => by
    rw [Expr.resolve, resolveExprs, expr]
    refine (fails_declaredName h).bind (fun _ => mirrors_declaredName h) fun _ _ _ _ _ h1 => ?_
    refine Fails.last ?_ fun _ => ⟨_, rfl⟩
    refine (fails_expr a h1.2).bind (fun _ => mirrors_expr a h1.2) fun _ _ _ _ _ h2 => ?_
    exact (fails_exprs as h2.2).left.last fun _ => ⟨_, rfl⟩
  | .unary sign e, _, _, h => by
    rw [Expr.resolve, expr]
    exact (fails_expr e h).left.last fun _ => ⟨_, rfl⟩
  | .chain level first rest, _, _, h => by
    rw [Expr.resolve, expr]
    exact (fails_expr first h).bind (fun _ => mirrors_expr first h) fun _ _ _ _ _ h1 =>
      (fails_operands rest h1.2).left.last fun _ => ⟨_, rfl⟩

theorem fails_exprs : ∀ (es : List Expr) {s s' : Session}, Renames pool defines fresh σ s s' →
    Fails (resolveExprs defines σ es) (exprs es) s
  | [], _, _, _ => by
    rw [resolveExprs]
    exact fails_ok
  | e :: es, _, _, h => by
    rw [resolveExprs, exprs]
    exact (fails_expr e h).bind (fun _ => mirrors_expr e h) fun _ _ _ _ _ h1 =>
      (fails_exprs es h1.2).left.last fun _ => ⟨_, rfl⟩

theorem fails_operands : ∀ (rest : List (Token × Expr)) {s s' : Session},
    Renames pool defines fresh σ s s' → Fails (resolveRest defines σ rest) (operands rest) s
  | [], _, _, _ => by
    rw [resolveRest]
    exact fails_ok
  | (op, e) :: rest, _, _, h => by
    rw [resolveRest, operands]
    exact (fails_expr e h).bind (fun _ => mirrors_expr e h) fun _ _ _ _ _ h1 =>
      (fails_operands rest h1.2).left.last fun _ => ⟨_, rfl⟩

end

mutual

/-- So does a statement, or one that declares a name a second time. -/
theorem fails_stmt : ∀ (st : Stmt) {σ : Names} {s s' : Session}, Renames pool defines fresh σ s s' →
    Fails (st.resolve defines .flat fresh σ) (stmt st) s
  | .variable name none, _, _, _, h => by
    rw [Stmt.resolve, stmt]
    refine fails_after (mirrors_newName h name name) ?_
    rintro _ _ _ _ ⟨rfl, -, h1⟩
    exact (fails_declare h1 none).last fun _ => ⟨_, rfl⟩
  | .variable name (some e), _, _, _, h => by
    rw [Stmt.resolve, stmt]
    refine fails_after (mirrors_newName h name name) ?_
    rintro _ _ _ _ ⟨rfl, -, h1⟩
    exact (fails_expr e h1).bind (fun _ => mirrors_expr e h1) fun _ _ _ _ _ h2 =>
      (fails_declare h2.2 _).last fun _ => ⟨_, rfl⟩
  | .stack name size, _, _, _, h => by
    rw [Stmt.resolve, stmt]
    exact fails_after (mirrors_newName h name name) fun _ _ _ _ h1 =>
      (fails_expr size h1.2.2).left.last fun _ => ⟨_, rfl⟩
  | .assign name e, _, _, _, h | .push name e, _, _, _, h => by
    rw [Stmt.resolve, stmt]
    exact (fails_declaredName h).bind (fun _ => mirrors_declaredName h) fun _ _ _ _ _ h1 =>
      (fails_expr e h1.2).left.last fun _ => ⟨_, rfl⟩
  | .expr e, _, _, _, h => by
    rw [Stmt.resolve, stmt]
    exact (fails_expr e h).last fun _ => ⟨_, rfl⟩
  | .output e, _, _, _, h | .returning (some e), _, _, _, h => by
    rw [Stmt.resolve, stmt]
    exact (fails_expr e h).left.last fun _ => ⟨_, rfl⟩
  | .ifElse condition body none, _, _, _, h | .loop condition body, _, _, _, h => by
    rw [Stmt.resolve, stmt]
    exact (fails_expr condition h).bind (fun _ => mirrors_expr condition h) fun _ _ _ _ _ h1 =>
      (fails_stmt body h1.2).left.last fun _ => ⟨_, rfl⟩
  | .ifElse condition body (some otherwise), _, _, _, h => by
    rw [Stmt.resolve, stmt]
    refine (fails_expr condition h).bind (fun _ => mirrors_expr condition h) fun _ _ _ _ _ h1 => ?_
    exact (fails_stmt body h1.2).bind (fun _ => mirrors_stmt body h1.2) fun _ _ _ _ _ h2 =>
      (fails_stmt otherwise h2.2).left.last fun _ => ⟨_, rfl⟩
  | .returning none, _, _, _, _ => by
    rw [Stmt.resolve]
    exact fails_ok
  | .block body, _, _, _, h => by
    rw [Stmt.resolve, stmt]
    exact Fails.last (fails_stmts body h).left fun _ => ⟨_, rfl⟩

theorem fails_stmts : ∀ (sts : List Stmt) {σ : Names} {s s' : Session},
    Renames pool defines fresh σ s s' → Fails (resolveStmts defines .flat fresh sts σ) (stmts sts) s
  | [], _, _, _, _ => by
    rw [resolveStmts]
    exact fails_ok
  | st :: sts, _, _, _, h => by
    rw [resolveStmts, stmts]
    exact (fails_stmt st h).bind (fun _ => mirrors_stmt st h) fun _ _ _ _ _ h1 =>
      (fails_stmts sts h1.2).left.last fun _ => ⟨_, rfl⟩

end

theorem fails_parameters (params : List Token) (h : Renames pool defines fresh σ s s') :
    Fails (params.mapM (σ.use defines)) (parameters params) s := by
  cases params with
  | nil =>
    rw [List.mapM_nil]
    exact fails_ok
  | cons p params =>
    rw [List.mapM_cons]
    -- only the first parameter is looked at
    refine (fails_declaredName h).bind (fun _ => mirrors_declaredName h) fun _ _ _ s1 _ _ f _ => ?_
    exact ⟨_, _, s1, by rw [runFrom_during]; rfl, .inr rfl⟩

theorem fails_item (i : Item) (h : Renames pool defines fresh σ s s') :
    Fails (i.resolve defines .flat fresh σ) (item i) s := by
  cases i with
  | includes file => exact fails_ok
  | define name value =>
    exact (fails_declaredName h).bind (fun _ => mirrors_declaredName h) fun _ _ _ _ _ h1 =>
      (fails_expr value h1.2).left.last fun _ => ⟨_, rfl⟩
  | function name params body =>
    refine fails_after (mirrors_during (Lower.mirrors_note h _ "")) fun _ _ _ _ h1 => ?_
    refine fails_after (mirrors_newName h1 name name) fun _ _ _ _ h2 => ?_
    refine (fails_parameters params h2.2.2).bind (fun _ => mirrors_parameters params h2.2.2)
      fun _ _ _ _ _ h3 => ?_
    exact (fails_stmts body h3).left.last fun _ => ⟨_, rfl⟩
  | stmt st => exact (fails_stmt st h).last fun _ => ⟨_, rfl⟩

theorem fails_items (is : List Item) (h : Renames pool defines fresh σ s s') :
    Fails (resolveItems defines .flat fresh is σ) (items is) s := by
  induction is generalizing σ s s' with
  | nil => exact fails_ok
  | cons i is ih =>
    exact (fails_item i h).bind (fun _ => mirrors_item i h) fun _ _ _ _ _ h1 =>
      (ih h1.2).left.last fun _ => ⟨_, rfl⟩

/-! ## Programs -/

/-- The code of nodes that are alike is the same, and so is what its emission does to the cells. -/
theorem mirrors_program (h : Renames pool defines fresh σ s s') {ns ms : List Node}
    (hns : List.Forall₂ Node.Alike ns ms) (room : Nat) :
    Mirrors Lower.mild (fun n m t t' => n = m ∧ t.bench.Agrees t'.bench) (Lower.program ns room)
      (Lower.program ms room) s s' := by
  have hemission := Node.built_emitAll (Node.cutAll room (working ns))
  obtain ⟨hresult, hbench⟩ := hemission.agree h.agrees
  obtain ⟨-, hfaults⟩ := hemission.allows s.bench
  have hemit : Mirrors Lower.mild (fun code code' t t' => code = code' ∧ t.bench.Agrees t'.bench)
      (Lower.atBench (Node.emitAll (Node.cutAll room (working ns))))
      (Lower.atBench (Node.emitAll (Node.cutAll room (working ms)))) s s' := by
    unfold Mirrors
    rw [Node.emitAll_of_alike (Node.working_of_alike hns), Lower.runFrom_atBench,
      Lower.runFrom_atBench, ← hresult]
    cases hcode : (runFrom (Node.emitAll (Node.cutAll room (working ns))) s.bench).1 with
    | error fault => exact .error (hfaults fault hcode) hbench
    | ok code => exact .ok ⟨rfl, hbench⟩
  unfold Lower.program
  refine hemit.bind fun code code' t t' hpost => ?_
  exact mirrors_pure ⟨by rw [hpost.1], hpost.2⟩

variable (stack : CallStack)

/-- A program is lowered like the resolved one, to the same code. -/
theorem mirrors_source {source resolved : Source} (h : Renames pool defines fresh σ s s')
    (hitems : resolveItems defines .flat fresh source.items σ = .ok (resolved.items, τ)) :
    Mirrors mild (fun code code' t t' => code = code' ∧ t.bench.Agrees t'.bench)
      (SourceLower.source source stack) (SourceLower.source resolved stack) s s' := by
  have hdepth : resolved.tree.depth = source.tree.depth := by
    rw [Source.tree, Source.tree, Tree.depth, Tree.depth, depth_resolveItems _ hitems]
  obtain ⟨τ', hfirst⟩ := resolveItems_takeWhile stack.levels _ hitems
  unfold SourceLower.source
  rw [hdepth]
  refine (mirrors_items _ h hfirst).bind fun ns ms _ _ h1 => ?_
  refine mirrors_ite (fun _ => .error rfl h1.2.agrees) fun _ => ?_
  refine (mirrors_during (mirrors_program h1.2 h1.1 stack.calls)).bind fun n m _ _ h2 => ?_
  obtain ⟨rfl, hbench⟩ := h2
  cases n <;> exact mirrors_pure ⟨rfl, hbench⟩

theorem fails_source (source : Source) (h : Renames pool defines fresh σ s s') :
    Fails (resolveItems defines .flat fresh source.items σ) (SourceLower.source source stack) s := by
  intro f hf
  unfold SourceLower.source
  cases hfirst : resolveItems defines .flat fresh
      (source.items.takeWhile fun i => i.tree.depth < stack.levels) σ with
  | error g =>
    obtain rfl : g = f :=
      Except.error.inj ((resolveItems_takeWhile_eq_error _ hfirst).symm.trans hf)
    exact (fails_items _ h g hfirst).bind
  | ok r =>
    -- the names of the items in front are resolved, so there is one that is too deep behind them
    refine refuses_after (mirrors_items _ h hfirst) fun _ _ s1 _ _ => ?_
    split
    · exact ⟨none, .tooDeep, s1, rfl, .inr rfl⟩
    · next hdepth =>
      rw [source.takeWhile_items (not_lt.mp hdepth), hf] at hfirst
      cases hfirst

end SourceLower

/-! ## Compilations -/

namespace Session

variable {fresh : Nat → String} {script script' : Script} (stack : CallStack)

/-- No name has been declared when the lowering starts. -/
theorem renames_opening (size : Int) (path path' : String) {defines : DefineTable}
    (h : FreshNames defines fresh) : Renames size.toNat defines fresh {}
      (opening size path defines) (opening size path' defines) :=
  ⟨h, rfl, rfl, opening_flat size path defines, opening_flat size path' defines, rfl, rfl⟩

/-- The script fails to compile where its names cannot be resolved. -/
theorem compileScript_of_unresolved (size : Int) (path : String) {f : Fault}
    (hfresh : FreshNames script.defines fresh) (h : script.resolve .flat fresh = .error f) :
    ∃ rule g s', (ofPool size).compileScript path script stack = (.lowerFault ⟨rule, g⟩, s') ∧
      (g = f ∨ g.concernsName = false) := by
  unfold Script.resolve at h
  obtain ⟨rule, g, s1, hrun, hg⟩ := (SourceLower.fails_source stack script.source
    (renames_opening size path path hfresh)).last (fun _ => ⟨_, rfl⟩) f h
  rw [compileScript_ofPool, hrun]
  exact ⟨rule, g, _, rfl, hg⟩

/-- Where they can be resolved, the script is compiled like the resolved one. -/
theorem compileScript_of_resolved (size : Int) (path path' : String)
    (hfresh : FreshNames script.defines fresh) (h : script.resolve .flat fresh = .ok script') :
    ((ofPool size).compileScript path script stack).1 =
      ((ofPool size).compileScript path' script' stack).1 ∧
    ((ofPool size).compileScript path script stack).2.bench.Agrees
      ((ofPool size).compileScript path' script' stack).2.bench ∧
    ∀ rule g, ((ofPool size).compileScript path script stack).1 = .lowerFault ⟨rule, g⟩ →
      g.concernsName = false := by
  simp only [Script.resolve, bind_eq_ok, pure_eq_ok] at h
  obtain ⟨⟨items, σ⟩, hitems, rfl⟩ := h
  have hmirrors : Mirrors SourceLower.mild _ _ (SourceLower.source ⟨items⟩ stack) _ _ :=
    SourceLower.mirrors_source stack (renames_opening size path path' hfresh) hitems
  unfold Mirrors at hmirrors
  rw [compileScript_ofPool, compileScript_ofPool]
  generalize runFrom (SourceLower.source script.source stack) _ = r at hmirrors
  generalize runFrom (SourceLower.source ⟨items⟩ stack) _ = r' at hmirrors
  cases hmirrors with
  | ok hpost =>
    exact ⟨congrArg Outcome.code hpost.1, ⟨hpost.2.head, hpost.2.cells⟩, fun _ _ h => by cases h⟩
  | error hmild hbench =>
    refine ⟨rfl, ⟨hbench.head, hbench.cells⟩, fun _ _ h => ?_⟩
    cases h
    exact hmild

end Session

/-- **Names live in one flat scope.** Let the names of a script be resolved as if a block were nothing
but its statements. Where that fails, the script fails to compile, because of the same name unless
something that is about no name is found before; so a script is refused for a name only where
resolution fails, and one that compiles has its names resolved. Where it succeeds, the script compiles
like any file with the resolved script in it: with the same outcome, the head at the same place and
the same cells in use. Where lexical scoping resolves all names as well, it resolves them alike. -/
theorem Session.names_are_flat (size : Int) (stack : CallStack) {fs : FileSystem} {path : String}
    {script : Script} (hread : Script.read fs path = some script) {fresh : Nat → String}
    (hfresh : FreshNames script.defines fresh) :
    (∀ f, script.resolve .flat fresh = .error f →
      ∃ rule g s', (ofPool size).compile fs path stack = (.lowerFault ⟨rule, g⟩, s') ∧
        (g = f ∨ g.concernsName = false)) ∧
    (∀ resolved, script.resolve .flat fresh = .ok resolved →
      (∀ rule g s', (ofPool size).compile fs path stack = (.lowerFault ⟨rule, g⟩, s') →
        g.concernsName = false) ∧
      ∀ fs' path' script', Script.read fs' path' = some script' →
        script'.source.bare = resolved.source.bare → script'.defines = script.defines →
        ((ofPool size).compile fs path stack).1 = ((ofPool size).compile fs' path' stack).1 ∧
        ((ofPool size).compile fs path stack).2.bench.Agrees
          ((ofPool size).compile fs' path' stack).2.bench) ∧
    ∀ lexical flat, script.resolve .lexical fresh = .ok lexical →
      script.resolve .flat fresh = .ok flat → lexical = flat := by
  rw [compile_of_script _ hread]
  refine ⟨fun f h => compileScript_of_unresolved stack size path hfresh h, fun resolved h => ⟨?_, ?_⟩,
    fun lexical flat h₁ h₂ => Script.resolve_eq h₁ h₂⟩
  · intro rule g s' hcompile
    obtain ⟨-, -, hmild⟩ := compileScript_of_resolved stack size path path hfresh h
    exact hmild rule g (by rw [hcompile])
  · intro fs' path' script' hread' hbare hdefines
    have hsame : (ofPool size).compileScript path' script' stack =
        (ofPool size).compileScript path' resolved stack := by
      rw [compileScript_ofPool, compileScript_ofPool, SourceLower.source_eq_of_bare hbare stack, hdefines,
        Script.defines_resolve h]
    rw [compile_of_script _ hread', hsame]
    obtain ⟨houtcome, hbench, -⟩ := compileScript_of_resolved stack size path path' hfresh h
    exact ⟨houtcome, hbench⟩

/-! ## Blocks are no scopes -/

/-- The names `v`, `vv`, `vvv` and so on. -/
def lengthened (k : Nat) : String := String.ofList (List.replicate (k + 1) 'v')

theorem freshNames_lengthened : FreshNames [] lengthened where
  injective j k h := by
    have hlength := congrArg List.length (String.ofList_injective h)
    simpa using hlength
  unused _ := rfl

/-- A variable is declared in a block and used behind it. -/
def escaping (name : String) : Source :=
  ⟨[.stmt (.block [.variable ⟨.newName, name, 1, 10⟩ (some (.number ⟨.number, "1", 1, 14⟩))]),
    .stmt (.output (.name ⟨.declaredName, name, 1, 26⟩))]⟩

/-- Two blocks that declare a variable of the same name. -/
def siblings : Source :=
  ⟨[.stmt (.block [.variable ⟨.newName, "x", 1, 10⟩ (some (.number ⟨.number, "1", 1, 14⟩))]),
    .stmt (.block [.variable ⟨.newName, "x", 1, 28⟩ (some (.number ⟨.number, "2", 1, 32⟩))])]⟩

theorem Script.read_blocks :
    read (.ofLine "\x7b size_t x = 1; \x7d output(x);") "m" = some ⟨escaping "x", []⟩ ∧
    read (.ofLine "\x7b size_t v = 1; \x7d output(v);") "m" = some ⟨escaping "v", []⟩ ∧
    read (.ofLine "\x7b size_t x = 1; \x7d \x7b size_t x = 2; \x7d") "m" = some ⟨siblings, []⟩ :=
  ⟨read_of_plainLine (by decide +kernel), read_of_plainLine (by decide +kernel),
    read_of_plainLine (by decide +kernel)⟩

theorem Session.compile_escaping : ∃ code s', (ofPool 4).compile
    (.ofLine "\x7b size_t x = 1; \x7d output(x);") "m" = (.code code, s') := by
  apply exists_code_of_any
  rw [Script.read_blocks.1, Option.any_some]
  decide +kernel

/-- The script compiles like the one in which its variable has another name. -/
theorem Session.names_are_flat_escaping :
    ∃ script, Script.read (.ofLine "\x7b size_t x = 1; \x7d output(x);") "m" = some script ∧
      FreshNames script.defines lengthened ∧
      ∃ code s', (ofPool 4).compile (.ofLine "\x7b size_t x = 1; \x7d output(x);") "m" =
          (.code code, s') ∧
        ((ofPool 4).compile (.ofLine "\x7b size_t v = 1; \x7d output(v);") "m").1 = .code code := by
  obtain ⟨hread, hrenamed, -⟩ := Script.read_blocks
  refine ⟨_, hread, freshNames_lengthened, ?_⟩
  obtain ⟨code, s', hcompile⟩ := compile_escaping
  refine ⟨code, s', hcompile, ?_⟩
  obtain ⟨-, hresolved, -⟩ := names_are_flat 4 {} hread freshNames_lengthened
  have hresolve : Script.resolve .flat lengthened ⟨escaping "x", []⟩ = .ok ⟨escaping "v", []⟩ := rfl
  obtain ⟨-, hsame⟩ := hresolved _ hresolve
  obtain ⟨houtcome, -⟩ := hsame _ _ _ hrenamed rfl rfl
  rw [← houtcome, hcompile]

/-- Under lexical scoping two blocks may each declare a variable of the same name, and one that is
declared in a block cannot be used behind it. The first script is refused, and the second compiles. -/
theorem Session.blocks_are_no_scopes :
    (∃ script lexical rule s', Script.read
        (.ofLine "\x7b size_t x = 1; \x7d \x7b size_t x = 2; \x7d") "m" = some script ∧
      script.resolve .lexical lengthened = .ok lexical ∧
      (ofPool 4).compile (.ofLine "\x7b size_t x = 1; \x7d \x7b size_t x = 2; \x7d") "m" =
        (.lowerFault ⟨rule, .variableRedefined "x"⟩, s')) ∧
    ∃ script code s', Script.read (.ofLine "\x7b size_t x = 1; \x7d output(x);") "m" = some script ∧
      script.resolve .lexical lengthened = .error (.undefinedName "x") ∧
      (ofPool 4).compile (.ofLine "\x7b size_t x = 1; \x7d output(x);") "m" = (.code code, s') := by
  obtain ⟨hread, -, hsiblings⟩ := Script.read_blocks
  constructor
  · have hfault : (runFrom (SourceLower.source siblings) (opening 4 "m" [])).1 =
        .error ⟨some "variable_declaration", .variableRedefined "x"⟩ := by
      decide
    rw [compile_of_read 4 hsiblings]
    generalize runFrom (SourceLower.source siblings) _ = r at hfault
    obtain ⟨r, s'⟩ := r
    obtain rfl : r = _ := hfault
    exact ⟨_, _, _, _, hsiblings, rfl, rfl⟩
  · obtain ⟨code, s', hcompile⟩ := compile_escaping
    exact ⟨_, code, s', hread, rfl, hcompile⟩

end TapeScript
