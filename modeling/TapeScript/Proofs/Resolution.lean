import Mathlib.Tactic.Common
import TapeScript.Proofs.Evaluation
import TapeScript.Proofs.Places

set_option autoImplicit false

/-! # What a name refers to

Resolving a script gives each declaration a unique name and each use the name of the declaration that
it refers to; it fails at the first use without a declaration, and at the first declaration of a name
that its scope declares already (`Script.resolve`). There are two ways to do it. Under lexical scoping
a block is a scope: its declarations are gone behind it, and they may hide those around it. In one
flat scope a block is nothing but its statements. Where both ways succeed they come to the same
(`Script.resolve_eq`).

Names of the define table are constants, and no uses.
-/

namespace TapeScript

inductive Scoping where
  | lexical
  | flat

/-- Declared names with the unique names they were given: those of the current scope, those around it,
from the inside out, and how many have been given. -/
structure Names where
  outer : List (String × String) := []
  here : List (String × String) := []
  count : Nat := 0

namespace Names

/-- The unique name of the nearest declaration. -/
def find? (σ : Names) (name : String) : Option String := (σ.here ++ σ.outer).lookup name

/-- A token that uses a name. -/
def use (defines : DefineTable) (σ : Names) (t : Token) : Except Fault Token :=
  if (defines.lookup t.text).isSome then .ok t
  else
    match σ.find? t.text with
    | some new => .ok { t with text := new }
    | none => .error (.undefinedName t.text)

/-- A token that declares a name. -/
def declare (fresh : Nat → String) (σ : Names) (t : Token) : Except Fault (Token × Names) :=
  if (σ.here.lookup t.text).isSome then .error (.variableRedefined t.text)
  else .ok ({ t with text := fresh σ.count },
    { σ with here := σ.here ++ [(t.text, fresh σ.count)], count := σ.count + 1 })

/-- The names at the start of a block. -/
def enter (scoping : Scoping) (σ : Names) : Names :=
  match scoping with
  | .lexical => { outer := σ.here ++ σ.outer, here := [], count := σ.count }
  | .flat => σ

/-- The names behind a block, at the end of which there were the second. -/
def leave (scoping : Scoping) (σ inner : Names) : Names :=
  match scoping with
  | .lexical => { σ with count := inner.count }
  | .flat => inner

end Names

section Resolve

variable (defines : DefineTable)

section Expressions

variable (σ : Names)

mutual

def Expr.resolve : Expr → Except Fault Expr
  | .number t => .ok (.number t)
  | .character t => .ok (.character t)
  | .name t => do
    let t ← σ.use defines t
    return .name t
  | .call f as => do
    let f ← σ.use defines f
    let as ← resolveExprs as
    return .call f as
  | .peek t => do
    let t ← σ.use defines t
    return .peek t
  | .pop t => do
    let t ← σ.use defines t
    return .pop t
  | .input => .ok .input
  | .unary sign e => do
    let e ← e.resolve
    return .unary sign e
  | .chain level first rest => do
    let first ← first.resolve
    let rest ← resolveRest rest
    return .chain level first rest

def resolveExprs : List Expr → Except Fault (List Expr)
  | [] => .ok []
  | e :: es => do
    let e ← e.resolve
    let es ← resolveExprs es
    return e :: es

def resolveRest : List (Token × Expr) → Except Fault (List (Token × Expr))
  | [] => .ok []
  | (op, e) :: rest => do
    let e ← e.resolve
    let rest ← resolveRest rest
    return (op, e) :: rest

end

end Expressions

variable (scoping : Scoping) (fresh : Nat → String)

mutual

/-- The statement with unique names, and the names behind it. -/
def Stmt.resolve : Stmt → Names → Except Fault (Stmt × Names)
  | .variable name none, σ => do
    let (name, σ) ← σ.declare fresh name
    return (.variable name none, σ)
  | .variable name (some e), σ => do
    let e ← e.resolve defines σ
    let (name, σ) ← σ.declare fresh name
    return (.variable name (some e), σ)
  | .stack name size, σ => do
    let size ← size.resolve defines σ
    return (.stack name size, σ)
  | .assign name e, σ => do
    let name ← σ.use defines name
    let e ← e.resolve defines σ
    return (.assign name e, σ)
  | .expr e, σ => do
    let e ← e.resolve defines σ
    return (.expr e, σ)
  | .push name e, σ => do
    let name ← σ.use defines name
    let e ← e.resolve defines σ
    return (.push name e, σ)
  | .output e, σ => do
    let e ← e.resolve defines σ
    return (.output e, σ)
  | .ifElse condition body none, σ => do
    let condition ← condition.resolve defines σ
    let (body, σ) ← body.resolve σ
    return (.ifElse condition body none, σ)
  | .ifElse condition body (some otherwise), σ => do
    let condition ← condition.resolve defines σ
    let (body, σ) ← body.resolve σ
    let (otherwise, σ) ← otherwise.resolve σ
    return (.ifElse condition body (some otherwise), σ)
  | .loop condition body, σ => do
    let condition ← condition.resolve defines σ
    let (body, σ) ← body.resolve σ
    return (.loop condition body, σ)
  | .returning none, σ => .ok (.returning none, σ)
  | .returning (some e), σ => do
    let e ← e.resolve defines σ
    return (.returning (some e), σ)
  | .block body, σ => do
    let (body, inner) ← resolveStmts body (σ.enter scoping)
    return (.block body, σ.leave scoping inner)

def resolveStmts : List Stmt → Names → Except Fault (List Stmt × Names)
  | [], σ => .ok ([], σ)
  | st :: sts, σ => do
    let (st, σ) ← st.resolve σ
    let (sts, σ) ← resolveStmts sts σ
    return (st :: sts, σ)

end

/-- An item with unique names. The parameters of a function are uses, as they are written with names
that are declared. -/
def Item.resolve : Item → Names → Except Fault (Item × Names)
  | .includes file, σ => .ok (.includes file, σ)
  | .define name value, σ => do
    let name ← σ.use defines name
    let value ← value.resolve defines σ
    return (.define name value, σ)
  | .function name params body, σ => do
    let params ← params.mapM (σ.use defines)
    let (body, inner) ← resolveStmts defines scoping fresh body (σ.enter scoping)
    return (.function name params body, σ.leave scoping inner)
  | .stmt st, σ => do
    let (st, σ) ← st.resolve defines scoping fresh σ
    return (.stmt st, σ)

def resolveItems : List Item → Names → Except Fault (List Item × Names)
  | [], σ => .ok ([], σ)
  | i :: is, σ => do
    let (i, σ) ← i.resolve defines scoping fresh σ
    let (is, σ) ← resolveItems is σ
    return (i :: is, σ)

end Resolve

/-- The script with unique names. -/
def Script.resolve (scoping : Scoping) (fresh : Nat → String) (script : Script) :
    Except Fault Script := do
  let (items, _) ← resolveItems script.defines scoping fresh script.source.items {}
  return ⟨⟨items⟩, script.defines⟩

/-! ## Results -/

theorem bind_eq_ok {ε α β : Type} {x : Except ε α} {f : α → Except ε β} {b : β} :
    (x >>= f) = .ok b ↔ ∃ a, x = .ok a ∧ f a = .ok b := by
  cases x with
  | error e =>
    constructor
    · intro h
      cases h
    · rintro ⟨a, h, -⟩
      cases h
  | ok a =>
    constructor
    · intro h
      exact ⟨a, rfl, h⟩
    · rintro ⟨_, ⟨⟩, h⟩
      exact h

theorem pure_eq_ok {ε α : Type} {a b : α} : (pure a : Except ε α) = .ok b ↔ a = b := by
  show Except.ok a = .ok b ↔ _
  rw [Except.ok.injEq]

/-- Where both succeed, their results are related. -/
def Agree {ε α : Type} (post : α → α → Prop) (x y : Except ε α) : Prop :=
  ∀ a b, x = .ok a → y = .ok b → post a b

section Agree

variable {ε α β : Type} {post : α → α → Prop} {post' : β → β → Prop} {x y : Except ε α}
  {f g : α → Except ε β}

theorem Agree.ok {a b : α} (h : post a b) : Agree post (.ok a : Except ε α) (.ok b) := by
  rintro _ _ ⟨⟩ ⟨⟩
  exact h

theorem Agree.bind (h : Agree post x y) (hf : ∀ a b, post a b → Agree post' (f a) (g b)) :
    Agree post' (x >>= f) (y >>= g) := by
  intro c d hx hy
  obtain ⟨a, ha, hc⟩ := bind_eq_ok.mp hx
  obtain ⟨b, hb, hd⟩ := bind_eq_ok.mp hy
  exact hf a b (h a b ha hb) c d hc hd

theorem Agree.bind_eq (h : Agree Eq x y) (hf : ∀ a, Agree post' (f a) (g a)) :
    Agree post' (x >>= f) (y >>= g) :=
  h.bind fun a _ hab => hab ▸ hf a

end Agree

namespace Names

variable {defines : DefineTable} {fresh : Nat → String} {σ τ : Names} {t t1 t2 : Token}

theorem use_eq_ok : σ.use defines t = .ok t1 ↔
    ((defines.lookup t.text).isSome ∧ t1 = t) ∨
      (defines.lookup t.text = none ∧ ∃ new, σ.find? t.text = some new ∧
        t1 = { t with text := new }) := by
  unfold use
  by_cases hdefined : (defines.lookup t.text).isSome
  · have hsome : defines.lookup t.text ≠ none := by
      intro hnone
      simp [hnone] at hdefined
    simp [hdefined, hsome, eq_comm]
  · have hnone : defines.lookup t.text = none := Option.not_isSome_iff_eq_none.mp hdefined
    rw [if_neg hdefined]
    cases hfind : σ.find? t.text with
    | none => simp [hnone]
    | some new => simp [hnone, eq_comm]

theorem declare_eq_ok : σ.declare fresh t = .ok (t1, τ) ↔
    σ.here.lookup t.text = none ∧ t1 = { t with text := fresh σ.count } ∧
      τ = { σ with here := σ.here ++ [(t.text, fresh σ.count)], count := σ.count + 1 } := by
  unfold declare
  cases hlookup : σ.here.lookup t.text with
  | none => simp [eq_comm]
  | some new => simp

/-! ## Both ways -/

/-- All that is visible in the first is declared in the second, which is flat. -/
structure Below (σ τ : Names) : Prop where
  count_eq : σ.count = τ.count
  outer_eq : τ.outer = []
  find : ∀ name new, σ.find? name = some new → τ.here.lookup name = some new

theorem Below.use (h : σ.Below τ) (t : Token) : Agree Eq (σ.use defines t) (τ.use defines t) := by
  intro t1 t2 h1 h2
  rcases use_eq_ok.mp h1 with ⟨hdefined, rfl⟩ | ⟨hnone, new, hnew, rfl⟩
  · rcases use_eq_ok.mp h2 with ⟨-, rfl⟩ | ⟨hnone, -⟩
    · rfl
    · simp [hnone] at hdefined
  · rcases use_eq_ok.mp h2 with ⟨hdefined, -⟩ | ⟨-, new', hnew', rfl⟩
    · simp [hnone] at hdefined
    · have hflat : τ.find? t.text = some new := by
        rw [find?, h.outer_eq, List.append_nil]
        exact h.find _ _ hnew
      rw [hflat] at hnew'
      rw [Option.some.inj hnew']

/-- The results are the same, and the names behind them are as before; in the flat way they are only
added. -/
def BelowBehind {α : Type} (τ : Names) (p q : α × Names) : Prop :=
  p.1 = q.1 ∧ p.2.Below q.2 ∧ τ.here <+: q.2.here

theorem Below.declare (h : σ.Below τ) (t : Token) :
    Agree (BelowBehind τ) (σ.declare fresh t) (τ.declare fresh t) := by
  rintro ⟨t1, σ'⟩ ⟨t2, τ'⟩ h1 h2
  obtain ⟨-, rfl, rfl⟩ := declare_eq_ok.mp h1
  obtain ⟨hnew, rfl, rfl⟩ := declare_eq_ok.mp h2
  refine ⟨by rw [h.count_eq], ⟨by rw [h.count_eq], h.outer_eq, ?_⟩, List.prefix_append _ _⟩
  intro name new hfind
  have hfind : ((σ.here ++ [(t.text, fresh σ.count)]) ++ σ.outer).lookup name = some new := hfind
  rw [List.lookup_append, List.lookup_append] at hfind
  show (τ.here ++ [(t.text, fresh τ.count)]).lookup name = some new
  rw [List.lookup_append]
  cases hhere : σ.here.lookup name with
  | some new' =>
    -- the name was visible before
    have hbefore : σ.find? name = some new' := by
      rw [find?, List.lookup_append, hhere]
      rfl
    rw [hhere] at hfind
    rw [h.find name new' hbefore]
    exact hfind
  | none =>
    rw [hhere] at hfind
    by_cases hname : name = t.text
    · subst hname
      rw [hnew]
      simpa [← h.count_eq] using hfind
    · have hbeq : (name == t.text) = false := by simpa using hname
      have hbefore : σ.find? name = some new := by
        rw [find?, List.lookup_append, hhere]
        simpa [List.lookup_cons, hbeq] using hfind
      rw [h.find name new hbefore]
      rfl

theorem Below.enter (h : σ.Below τ) : (σ.enter .lexical).Below (τ.enter .flat) :=
  ⟨h.count_eq, h.outer_eq, h.find⟩

theorem Below.stays {α : Type} (h : σ.Below τ) (a : α) : BelowBehind τ (a, σ) (a, τ) :=
  ⟨rfl, h, List.prefix_refl _⟩

theorem Below.leave {inner inner' : Names} (h : σ.Below τ) (hinner : inner.Below inner')
    (hgrows : τ.here <+: inner'.here) : (σ.leave .lexical inner).Below (τ.leave .flat inner') := by
  refine ⟨hinner.count_eq, hinner.outer_eq, fun name new hfind => ?_⟩
  obtain ⟨more, hmore⟩ := hgrows
  show inner'.here.lookup name = some new
  rw [← hmore, List.lookup_append, h.find name new hfind]
  rfl

end Names

section Agreement

variable {defines : DefineTable} {fresh : Nat → String}

open Names

mutual

theorem Expr.resolve_below : ∀ (e : Expr) {σ τ : Names}, σ.Below τ →
    Agree Eq (e.resolve defines σ) (e.resolve defines τ)
  | .number _, _, _, _ | .character _, _, _, _ | .input, _, _, _ => by
    rw [Expr.resolve, Expr.resolve]
    exact .ok rfl
  | .name t, _, _, h | .peek t, _, _, h | .pop t, _, _, h => by
    rw [Expr.resolve, Expr.resolve]
    exact (h.use t).bind_eq fun _ => .ok rfl
  | .call f as, _, _, h => by
    rw [Expr.resolve, Expr.resolve]
    exact (h.use f).bind_eq fun _ => (resolveExprs_below as h).bind_eq fun _ => .ok rfl
  | .unary sign e, _, _, h => by
    rw [Expr.resolve, Expr.resolve]
    exact (Expr.resolve_below e h).bind_eq fun _ => .ok rfl
  | .chain level first rest, _, _, h => by
    rw [Expr.resolve, Expr.resolve]
    exact (Expr.resolve_below first h).bind_eq fun _ => (resolveRest_below rest h).bind_eq fun _ => .ok rfl

theorem resolveExprs_below : ∀ (es : List Expr) {σ τ : Names}, σ.Below τ →
    Agree Eq (resolveExprs defines σ es) (resolveExprs defines τ es)
  | [], _, _, _ => by
    rw [resolveExprs, resolveExprs]
    exact .ok rfl
  | e :: es, _, _, h => by
    rw [resolveExprs, resolveExprs]
    exact (Expr.resolve_below e h).bind_eq fun _ => (resolveExprs_below es h).bind_eq fun _ => .ok rfl

theorem resolveRest_below : ∀ (rest : List (Token × Expr)) {σ τ : Names}, σ.Below τ →
    Agree Eq (resolveRest defines σ rest) (resolveRest defines τ rest)
  | [], _, _, _ => by
    rw [resolveRest, resolveRest]
    exact .ok rfl
  | (op, e) :: rest, _, _, h => by
    rw [resolveRest, resolveRest]
    exact (Expr.resolve_below e h).bind_eq fun _ => (resolveRest_below rest h).bind_eq fun _ => .ok rfl

end

mutual

/-- A statement is resolved the same in both ways. -/
theorem Stmt.resolve_below : ∀ (st : Stmt) {σ τ : Names}, σ.Below τ →
    Agree (BelowBehind τ) (st.resolve defines .lexical fresh σ) (st.resolve defines .flat fresh τ)
  | .variable name none, _, _, h => by
    rw [Stmt.resolve, Stmt.resolve]
    refine (h.declare name).bind ?_
    rintro ⟨_, _⟩ ⟨_, _⟩ ⟨rfl, hbehind⟩
    exact .ok ⟨rfl, hbehind⟩
  | .variable name (some e), _, _, h => by
    rw [Stmt.resolve, Stmt.resolve]
    refine (e.resolve_below h).bind_eq fun _ => (h.declare name).bind ?_
    rintro ⟨_, _⟩ ⟨_, _⟩ ⟨rfl, hbehind⟩
    exact .ok ⟨rfl, hbehind⟩
  | .stack _ e, _, _, h | .expr e, _, _, h | .output e, _, _, h | .returning (some e), _, _, h => by
    rw [Stmt.resolve, Stmt.resolve]
    exact (e.resolve_below h).bind_eq fun _ => .ok (h.stays _)
  | .assign name e, _, _, h | .push name e, _, _, h => by
    rw [Stmt.resolve, Stmt.resolve]
    exact (h.use name).bind_eq fun _ => (e.resolve_below h).bind_eq fun _ => .ok (h.stays _)
  | .ifElse condition body none, _, _, h | .loop condition body, _, _, h => by
    rw [Stmt.resolve, Stmt.resolve]
    refine (condition.resolve_below h).bind_eq fun _ => (body.resolve_below h).bind ?_
    rintro ⟨_, _⟩ ⟨_, _⟩ ⟨rfl, hbehind⟩
    exact .ok ⟨rfl, hbehind⟩
  | .ifElse condition body (some otherwise), _, _, h => by
    rw [Stmt.resolve, Stmt.resolve]
    refine (condition.resolve_below h).bind_eq fun _ => (body.resolve_below h).bind ?_
    rintro ⟨_, _⟩ ⟨_, _⟩ ⟨rfl, hbelow, hgrows⟩
    refine (otherwise.resolve_below hbelow).bind ?_
    rintro ⟨_, _⟩ ⟨_, _⟩ ⟨rfl, hbelow', hgrows'⟩
    exact .ok ⟨rfl, hbelow', hgrows.trans hgrows'⟩
  | .returning none, _, _, h => by
    rw [Stmt.resolve, Stmt.resolve]
    exact .ok (h.stays _)
  | .block body, _, _, h => by
    rw [Stmt.resolve, Stmt.resolve]
    refine (resolveStmts_below body h.enter).bind ?_
    rintro ⟨_, _⟩ ⟨_, _⟩ ⟨rfl, hbelow, hgrows⟩
    exact .ok ⟨rfl, h.leave hbelow hgrows, hgrows⟩

theorem resolveStmts_below : ∀ (sts : List Stmt) {σ τ : Names}, σ.Below τ →
    Agree (BelowBehind τ) (resolveStmts defines .lexical fresh sts σ)
      (resolveStmts defines .flat fresh sts τ)
  | [], _, _, h => by
    rw [resolveStmts, resolveStmts]
    exact .ok (h.stays _)
  | st :: sts, _, _, h => by
    rw [resolveStmts, resolveStmts]
    refine (st.resolve_below h).bind ?_
    rintro ⟨_, _⟩ ⟨_, _⟩ ⟨rfl, hbelow, hgrows⟩
    refine (resolveStmts_below sts hbelow).bind ?_
    rintro ⟨_, _⟩ ⟨_, _⟩ ⟨rfl, hbelow', hgrows'⟩
    exact .ok ⟨rfl, hbelow', hgrows.trans hgrows'⟩

end

theorem Names.Below.useAll {σ τ : Names} (h : σ.Below τ) (ts : List Token) :
    Agree Eq (ts.mapM (σ.use defines)) (ts.mapM (τ.use defines)) := by
  induction ts with
  | nil => exact .ok rfl
  | cons t ts ih =>
    rw [List.mapM_cons, List.mapM_cons]
    exact (h.use t).bind_eq fun _ => ih.bind_eq fun _ => .ok rfl

theorem Item.resolve_below (i : Item) {σ τ : Names} (h : σ.Below τ) :
    Agree (BelowBehind τ) (i.resolve defines .lexical fresh σ) (i.resolve defines .flat fresh τ) := by
  cases i with
  | includes file => exact .ok (h.stays _)
  | define name value =>
    exact (h.use name).bind_eq fun _ => (value.resolve_below h).bind_eq fun _ => .ok (h.stays _)
  | function name params body =>
    refine (h.useAll params).bind_eq fun _ => (resolveStmts_below body h.enter).bind ?_
    rintro ⟨_, _⟩ ⟨_, _⟩ ⟨rfl, hbelow, hgrows⟩
    exact .ok ⟨rfl, h.leave hbelow hgrows, hgrows⟩
  | stmt st =>
    refine (st.resolve_below h).bind ?_
    rintro ⟨_, _⟩ ⟨_, _⟩ ⟨rfl, hbehind⟩
    exact .ok ⟨rfl, hbehind⟩

theorem resolveItems_below (is : List Item) {σ τ : Names} (h : σ.Below τ) :
    Agree (fun p q => p.1 = q.1) (resolveItems defines .lexical fresh is σ)
      (resolveItems defines .flat fresh is τ) := by
  induction is generalizing σ τ with
  | nil => exact .ok rfl
  | cons i is ih =>
    refine (i.resolve_below h).bind ?_
    rintro ⟨_, _⟩ ⟨_, _⟩ ⟨rfl, hbelow, -⟩
    refine (ih hbelow).bind ?_
    rintro ⟨_, _⟩ ⟨_, _⟩ rfl
    exact .ok rfl

end Agreement

theorem Script.defines_resolve {scoping : Scoping} {fresh : Nat → String} {script script' : Script}
    (h : script.resolve scoping fresh = .ok script') : script'.defines = script.defines := by
  simp only [Script.resolve, bind_eq_ok, pure_eq_ok] at h
  obtain ⟨⟨is, σ⟩, -, rfl⟩ := h
  rfl

/-- Where both ways succeed they come to the same. -/
theorem Script.resolve_eq {fresh : Nat → String} {script script1 script2 : Script}
    (h1 : script.resolve .lexical fresh = .ok script1)
    (h2 : script.resolve .flat fresh = .ok script2) : script1 = script2 := by
  simp only [Script.resolve, bind_eq_ok, pure_eq_ok] at h1 h2
  obtain ⟨⟨is1, σ1⟩, his1, rfl⟩ := h1
  obtain ⟨⟨is2, τ1⟩, his2, rfl⟩ := h2
  have hstart : ({} : Names).Below {} := ⟨rfl, rfl, fun _ _ h => h⟩
  rw [show is1 = is2 from resolveItems_below _ hstart _ _ his1 his2]

/-! ## Depth -/

section Depth

variable {defines : DefineTable} {scoping : Scoping} {fresh : Nat → String}

mutual

theorem Expr.depth_resolve : ∀ (e : Expr) {σ : Names} {e' : Expr}, e.resolve defines σ = .ok e' →
    e'.tree.depth = e.tree.depth
  | .number _, _, _, he | .character _, _, _, he | .input, _, _, he => by
    rw [Expr.resolve] at he
    cases he
    rfl
  | .name t, _, _, he | .peek t, _, _, he | .pop t, _, _, he => by
    simp only [Expr.resolve, bind_eq_ok, pure_eq_ok] at he
    obtain ⟨t', -, rfl⟩ := he
    rfl
  | .call t [], _, _, he => by
    simp only [Expr.resolve, resolveExprs, bind_eq_ok, pure_eq_ok] at he
    obtain ⟨t', -, _, ⟨⟩, rfl⟩ := he
    rfl
  | .call t (a :: as), _, _, he => by
    simp only [Expr.resolve, resolveExprs, bind_eq_ok, pure_eq_ok] at he
    obtain ⟨t', -, _, ⟨a', ha, as', has, rfl⟩, rfl⟩ := he
    simp only [Expr.tree, Tree.depth, depthOfAll, Expr.depth_resolve a ha,
      depth_resolveExprs as has]
  | .unary sign e, _, _, he => by
    simp only [Expr.resolve, bind_eq_ok, pure_eq_ok] at he
    obtain ⟨e', he, rfl⟩ := he
    simp only [Expr.tree, Tree.depth, depthOfAll, Expr.depth_resolve e he]
  | .chain level first rest, _, _, he => by
    simp only [Expr.resolve, bind_eq_ok, pure_eq_ok] at he
    obtain ⟨first', hfirst, rest', hrest, rfl⟩ := he
    simp only [Expr.tree, Tree.depth, depthOfAll, Expr.depth_resolve first hfirst,
      depth_resolveRest rest hrest]

theorem depth_resolveExprs : ∀ (es : List Expr) {σ : Names} {es' : List Expr},
    resolveExprs defines σ es = .ok es' →
    depthOfAll (exprTrees es') = depthOfAll (exprTrees es)
  | [], _, _, hes => by
    rw [resolveExprs] at hes
    cases hes
    rfl
  | e :: es, _, _, hes => by
    simp only [resolveExprs, bind_eq_ok, pure_eq_ok] at hes
    obtain ⟨e', he, es', hes, rfl⟩ := hes
    simp only [exprTrees, depthOfAll, Expr.depth_resolve e he, depth_resolveExprs es hes]

theorem depth_resolveRest : ∀ (rest : List (Token × Expr)) {σ : Names}
    {rest' : List (Token × Expr)}, resolveRest defines σ rest = .ok rest' →
    depthOfAll (chainTrees rest') = depthOfAll (chainTrees rest)
  | [], _, _, hrest => by
    rw [resolveRest] at hrest
    cases hrest
    rfl
  | (op, e) :: rest, _, _, hrest => by
    simp only [resolveRest, bind_eq_ok, pure_eq_ok] at hrest
    obtain ⟨e', he, rest', hrest, rfl⟩ := hrest
    simp only [chainTrees, depthOfAll, Expr.depth_resolve e he, depth_resolveRest rest hrest]

end

mutual

theorem Stmt.depth_resolve : ∀ (st : Stmt) {σ τ : Names} {st' : Stmt},
    st.resolve defines scoping fresh σ = .ok (st', τ) → st'.tree.depth = st.tree.depth
  | .variable name none, _, _, _, hst => by
    simp only [Stmt.resolve, bind_eq_ok, pure_eq_ok, Prod.mk.injEq] at hst
    obtain ⟨⟨name', σ1⟩, -, rfl, -⟩ := hst
    rfl
  | .variable name (some e), _, _, _, hst => by
    simp only [Stmt.resolve, bind_eq_ok, pure_eq_ok, Prod.mk.injEq] at hst
    obtain ⟨e', he, ⟨name', σ1⟩, -, rfl, -⟩ := hst
    simp only [Stmt.tree, Stmt.tree.statement, Tree.depth, depthOfAll, e.depth_resolve he]
  | .assign name e, _, _, _, hst | .push name e, _, _, _, hst => by
    simp only [Stmt.resolve, bind_eq_ok, pure_eq_ok, Prod.mk.injEq] at hst
    obtain ⟨name', -, e', he, rfl, -⟩ := hst
    simp only [Stmt.tree, Stmt.tree.statement, Tree.depth, depthOfAll, e.depth_resolve he]
  | .stack _ e, _, _, _, hst | .expr e, _, _, _, hst | .output e, _, _, _, hst
  | .returning (some e), _, _, _, hst => by
    simp only [Stmt.resolve, bind_eq_ok, pure_eq_ok, Prod.mk.injEq] at hst
    obtain ⟨e', he, rfl, -⟩ := hst
    simp only [Stmt.tree, Stmt.tree.statement, Tree.depth, depthOfAll, e.depth_resolve he]
  | .ifElse c body none, _, _, _, hst | .loop c body, _, _, _, hst => by
    simp only [Stmt.resolve, bind_eq_ok, pure_eq_ok, Prod.mk.injEq] at hst
    obtain ⟨c', hc, ⟨body', σ1⟩, hbody, rfl, -⟩ := hst
    simp only [Stmt.tree, Stmt.tree.statement, Tree.depth, depthOfAll, c.depth_resolve hc,
      Stmt.depth_resolve body hbody]
  | .ifElse c body (some otherwise), _, _, _, hst => by
    simp only [Stmt.resolve, bind_eq_ok, pure_eq_ok, Prod.mk.injEq] at hst
    obtain ⟨c', hc, ⟨body', σ1⟩, hbody, ⟨otherwise', σ2⟩, hotherwise, rfl, -⟩ := hst
    simp only [Stmt.tree, Stmt.tree.statement, Tree.depth, depthOfAll, c.depth_resolve hc,
      Stmt.depth_resolve body hbody, Stmt.depth_resolve otherwise hotherwise]
  | .returning none, _, _, _, hst => by
    rw [Stmt.resolve] at hst
    cases hst
    rfl
  | .block body, _, _, _, hst => by
    simp only [Stmt.resolve, bind_eq_ok, pure_eq_ok, Prod.mk.injEq] at hst
    obtain ⟨⟨body', σ1⟩, hbody, rfl, -⟩ := hst
    simp only [Stmt.tree, Stmt.tree.statement, Tree.depth, depthOfAll,
      depth_resolveStmts body hbody]

theorem depth_resolveStmts : ∀ (sts : List Stmt) {σ τ : Names} {sts' : List Stmt},
    resolveStmts defines scoping fresh sts σ = .ok (sts', τ) →
    depthOfAll (stmtTrees sts') = depthOfAll (stmtTrees sts)
  | [], _, _, _, hsts => by
    rw [resolveStmts] at hsts
    cases hsts
    rfl
  | st :: sts, _, _, _, hsts => by
    simp only [resolveStmts, bind_eq_ok, pure_eq_ok, Prod.mk.injEq] at hsts
    obtain ⟨⟨st', σ1⟩, hst, ⟨sts', σ2⟩, hsts, rfl, -⟩ := hsts
    simp only [stmtTrees, depthOfAll, Stmt.depth_resolve st hst, depth_resolveStmts sts hsts]

end

theorem Names.useAll_eq_nil {σ : Names} {ts ts' : List Token}
    (h : ts.mapM (σ.use defines) = .ok ts') : ts' = [] ↔ ts = [] := by
  cases ts with
  | nil =>
    rw [List.mapM_nil] at h
    cases h
    rfl
  | cons t ts =>
    simp only [List.mapM_cons, bind_eq_ok, pure_eq_ok] at h
    obtain ⟨t', -, ts', -, rfl⟩ := h
    simp

theorem Item.depth_resolve (i : Item) {σ τ : Names} {i' : Item}
    (h : i.resolve defines scoping fresh σ = .ok (i', τ)) : i'.tree.depth = i.tree.depth := by
  cases i with
  | includes file =>
    cases h
    rfl
  | define name value =>
    simp only [Item.resolve, bind_eq_ok, pure_eq_ok, Prod.mk.injEq] at h
    obtain ⟨name', -, e', he, rfl, -⟩ := h
    simp only [Item.tree, Tree.depth, depthOfAll, value.depth_resolve he]
  | function name params body =>
    simp only [Item.resolve, bind_eq_ok, pure_eq_ok, Prod.mk.injEq] at h
    obtain ⟨params', hparams, ⟨body', σ1⟩, hbody, rfl, -⟩ := h
    rw [depth_function, depth_function, depth_resolveStmts body hbody]
    simp only [Names.useAll_eq_nil hparams]
  | stmt st =>
    simp only [Item.resolve, bind_eq_ok, pure_eq_ok, Prod.mk.injEq] at h
    obtain ⟨⟨st', σ1⟩, hst, rfl, -⟩ := h
    exact st.depth_resolve hst

theorem depth_resolveItems (is : List Item) {σ τ : Names} {is' : List Item}
    (h : resolveItems defines scoping fresh is σ = .ok (is', τ)) :
    depthOfAll (is'.map Item.tree) = depthOfAll (is.map Item.tree) := by
  induction is generalizing σ is' with
  | nil =>
    cases h
    rfl
  | cons i is ih =>
    simp only [resolveItems, bind_eq_ok, pure_eq_ok, Prod.mk.injEq] at h
    obtain ⟨⟨i', σ1⟩, hi, ⟨is', σ2⟩, his, rfl, rfl⟩ := h
    rw [List.map_cons, List.map_cons, depthOfAll, depthOfAll, i.depth_resolve hi, ih his]

theorem bind_eq_error {ε α β : Type} {x : Except ε α} {f : α → Except ε β} {g : ε} :
    (x >>= f) = .error g ↔ x = .error g ∨ ∃ a, x = .ok a ∧ f a = .error g := by
  cases x with
  | error e =>
    constructor
    · intro h
      cases h
      exact .inl rfl
    · rintro (h | ⟨a, h, -⟩)
      · cases h
        rfl
      · cases h
  | ok a =>
    constructor
    · intro h
      exact .inr ⟨a, rfl, h⟩
    · rintro (h | ⟨_, ⟨⟩, h⟩)
      · cases h
      · exact h

/-- A resolution fails where it fails at its first items. -/
theorem resolveItems_takeWhile_eq_error {p : Item → Bool} {f : Fault} (is : List Item) {σ : Names}
    (h : resolveItems defines scoping fresh (is.takeWhile p) σ = .error f) :
    resolveItems defines scoping fresh is σ = .error f := by
  induction is generalizing σ with
  | nil => exact h
  | cons i is ih =>
    rw [List.takeWhile_cons] at h
    split at h
    · simp only [resolveItems, bind_eq_error] at h ⊢
      rcases h with h | ⟨r, hr, h | ⟨_, -, h⟩⟩
      · exact .inl h
      · exact .inr ⟨r, hr, .inl (ih h)⟩
      · cases h
    · cases h

/-- The first items are resolved to the first of the items. -/
theorem resolveItems_takeWhile (levels : Nat) (is : List Item) {σ τ : Names} {is' : List Item}
    (h : resolveItems defines scoping fresh is σ = .ok (is', τ)) :
    ∃ τ', resolveItems defines scoping fresh
      (is.takeWhile fun i => i.tree.depth < levels) σ =
        .ok (is'.takeWhile fun i => i.tree.depth < levels, τ') := by
  induction is generalizing σ is' with
  | nil =>
    cases h
    exact ⟨τ, rfl⟩
  | cons i is ih =>
    simp only [resolveItems, bind_eq_ok, pure_eq_ok, Prod.mk.injEq] at h
    obtain ⟨⟨i', σ1⟩, hi, ⟨is', σ2⟩, his, rfl, rfl⟩ := h
    rw [List.takeWhile_cons, List.takeWhile_cons, i.depth_resolve hi]
    split
    · obtain ⟨τ', hrest⟩ := ih his
      refine ⟨τ', ?_⟩
      simp only [resolveItems, bind_eq_ok, pure_eq_ok, Prod.mk.injEq]
      exact ⟨_, hi, _, hrest, rfl, rfl⟩
    · exact ⟨σ, rfl⟩

end Depth

end TapeScript
