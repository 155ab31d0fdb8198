import TapeScript.Proofs.Folding
import TapeScript.Proofs.PoolSize
import TapeScript.Proofs.StatementSupply
import TapeScript.Proofs.Writing

set_option autoImplicit false

/-! # Basic scripts are lowered

A basic script is made of declarations, assignments, output, blocks, branches and loops, over
variables that are declared once and before they are used (`Script.Basic`). Such a script is always
lowered, and what it is lowered to is known beforehand as far as it matters here: which constants are
left in the code when numbers have been folded (`constantsAll`), how deep the calls are nested that
emit the code (`nestingAll`), and how many scratch cells suffice (`workspaceAll`). There is code for it
only if every branch has an alternative and no variable is assigned to itself (`RegularAll`), and if
besides the constants can be written out, there is some (`SourceLower.gives_basic_stmts`).
-/

namespace TapeScript

open Emit (AllStorable allStorable_append Shows)

/-! ## Basic scripts -/

mutual

/-- Literals, declared variables, input, sums, differences and comparisons. -/
def Expr.Basic (names : List String) : Expr → Prop
  | .number t => t.IsLiteral
  | .character t => t.IsCharacter
  | .name t => t.text ∈ names
  | .input => True
  | .chain _ first rest => rest ≠ [] ∧ first.Basic names ∧ BasicRest names rest
  | _ => False

def BasicRest (names : List String) : List (Token × Expr) → Prop
  | [] => True
  | (op, e) :: rest => op.text ∈ Node.operators ∧ e.Basic names ∧ BasicRest names rest

end

mutual

/-- Declarations, assignments, output, blocks, branches and loops. What is declared on the way may be
used from then on. -/
def Stmt.Basic : List String → Stmt → Prop
  | _, .variable _ none => True
  | names, .variable _ (some e) => e.Basic names
  | names, .assign t e => t.text ∈ names ∧ e.Basic names
  | names, .output e => e.Basic names
  | names, .ifElse condition body none => condition.Basic names ∧ body.Basic names
  | names, .ifElse condition body (some otherwise) =>
    condition.Basic names ∧ body.Basic names ∧ otherwise.Basic (names ++ body.declared)
  | names, .loop condition body => condition.Basic names ∧ body.Basic names
  | names, .block body => BasicAll names body
  | _, _ => False

def BasicAll : List String → List Stmt → Prop
  | _, [] => True
  | names, st :: sts => st.Basic names ∧ BasicAll (names ++ st.declared) sts

end

/-- The script is made of basic statements, every name is declared once, and none is a define. -/
structure Script.Basic (body : List Stmt) (script : Script) : Prop where
  items_eq : script.source.items = body.map .stmt
  basic : BasicAll [] body
  nodup : script.names.Nodup
  plain : ∀ name ∈ script.names, script.defines.lookup name = none

mutual

/-- Every branch has an alternative, and no variable is assigned to itself. -/
def Stmt.Regular : Stmt → Prop
  | .assign t e => ∀ use, e = .name use → use.text ≠ t.text
  | .ifElse _ _ none => False
  | .ifElse _ body (some otherwise) => body.Regular ∧ otherwise.Regular
  | .loop _ body => body.Regular
  | .block body => RegularAll body
  | _ => True

def RegularAll : List Stmt → Prop
  | [] => True
  | st :: sts => st.Regular ∧ RegularAll sts

end

/-! ## What is left of numbers -/

/-- The number that a character literal stands for. -/
def Token.codePoint (t : Token) : Int := (Literal.character t.text).toOption.getD 0

/-- What becomes of an expression when numbers are folded: a number, or code with the constants that
stand in it and the depth to which the calls that emit it are nested. -/
inductive Folded where
  | number (value : Int)
  | code (constants : List Int) (nesting : Nat)

namespace Folded

def constants : Folded → List Int
  | .number value => [value]
  | .code constants _ => constants

def nesting : Folded → Nat
  | .number _ => 5
  | .code _ nesting => nesting

/-- Two numbers are folded; otherwise both sides stand in the code. -/
def combine (op : String) : Folded → Folded → Folded
  | .number a, .number b => .number (exactValue op a b)
  | f, g => .code (f.constants ++ g.constants)
      (1 + max (Node.operatorCalls op) (max f.nesting g.nesting))

/-- A folded number is no larger than so many literals can make it. -/
def Within (m : Nat) : Folded → Prop
  | .number value => value.natAbs ≤ 2 ^ 32 * m
  | .code _ _ => True

end Folded

mutual

def Expr.folded : Expr → Folded
  | .number t => .number t.number
  | .character t => .number t.codePoint
  | .chain _ first rest => foldedFrom first.folded rest
  | .input => .code [] 3
  | _ => .code [] 5

/-- Operators and operands behind what was folded, from left to right. -/
def foldedFrom : Folded → List (Token × Expr) → Folded
  | f, [] => f
  | f, (op, e) :: rest => foldedFrom (f.combine op.text e.folded) rest

end

mutual

/-- The constants in the code of a statement. -/
def Stmt.constants : Stmt → List Int
  | .variable _ (some e) => e.folded.constants
  | .assign _ e => e.folded.constants
  | .output e => e.folded.constants
  | .ifElse condition body none => condition.folded.constants ++ body.constants
  | .ifElse condition body (some otherwise) =>
    condition.folded.constants ++ (body.constants ++ otherwise.constants)
  | .loop condition body => condition.folded.constants ++ body.constants
  | .block body => constantsAll body
  | _ => []

def constantsAll : List Stmt → List Int
  | [] => []
  | st :: sts => st.constants ++ constantsAll sts

end

mutual

/-- How deep the calls are nested that emit the code of a statement. -/
def Stmt.nesting : Stmt → Nat
  | .variable _ none => 5
  | .variable _ (some e) => 1 + e.folded.nesting
  | .assign _ e => 1 + e.folded.nesting
  | .output e => 1 + e.folded.nesting
  | .ifElse condition body none => max 7 (max (1 + condition.folded.nesting) (4 + body.nesting))
  | .ifElse condition body (some otherwise) =>
    max 7 (max (1 + condition.folded.nesting) (4 + max body.nesting otherwise.nesting))
  | .loop condition body => 2 + max condition.folded.nesting body.nesting
  | .block body => 1 + nestingAll body
  | _ => 0

def nestingAll : List Stmt → Nat
  | [] => 0
  | st :: sts => max st.nesting (nestingAll sts)

end

/-! ## How many scratch cells suffice -/

mutual

/-- How many operands there are that are not composed. -/
def Expr.atoms : Expr → Nat
  | .chain _ first rest => first.atoms + atomsRest rest
  | _ => 1

def atomsRest : List (Token × Expr) → Nat
  | [] => 0
  | (_, e) :: rest => e.atoms + atomsRest rest

end

mutual

/-- Seven scratch cells for every operand; the condition of a loop is emitted twice. -/
def Stmt.workspace : Stmt → Nat
  | .variable _ (some e) => 7 * e.atoms
  | .assign _ e => 7 * e.atoms
  | .output e => 7 * e.atoms
  | .ifElse condition body none => 7 * condition.atoms + body.workspace
  | .ifElse condition body (some otherwise) =>
    7 * condition.atoms + (body.workspace + otherwise.workspace)
  | .loop condition body => 14 * condition.atoms + body.workspace
  | .block body => workspaceAll body
  | _ => 0

def workspaceAll : List Stmt → Nat
  | [] => 0
  | st :: sts => st.workspace + workspaceAll sts

end

/-! ## Numbers do not grow too large -/

theorem Token.IsCharacter.exists_char {t : Token} (h : t.IsCharacter) :
    ∃ c, Literal.characterText t.text.toList = .ok [c] ∧ t.codePoint = c.toNat := by
  have hread : ∃ c, Literal.characterText t.text.toList = .ok [c] := by
    rcases h.text_eq with ⟨c, -, -, htext⟩ | ⟨c, hc, htext⟩
    · exact ⟨c, by rw [htext]; rfl⟩
    · rw [htext]
      simp only [List.mem_cons, List.not_mem_nil, or_false] at hc
      rcases hc with rfl | rfl | rfl | rfl
      · exact ⟨'\n', rfl⟩
      · exact ⟨'\t', rfl⟩
      · exact ⟨'\\', rfl⟩
      · exact ⟨'\'', rfl⟩
  obtain ⟨c, hc⟩ := hread
  refine ⟨c, hc, ?_⟩
  unfold Token.codePoint Literal.character
  rw [hc]
  rfl

theorem Folded.Within.combine {op : String} (hop : op ∈ Node.operators) {f g : Folded} {m k : Nat}
    (hf : f.Within m) (hg : g.Within k) (hk : 0 < k) : (f.combine op g).Within (m + k) := by
  cases f with
  | code _ _ => trivial
  | number a =>
    cases g with
    | code _ _ => trivial
    | number b => exact natAbs_exactValue hop hf hg hk

section Sizes

variable {names : List String}

theorem Expr.atoms_pos : ∀ e : Expr, e.Basic names → 0 < e.atoms
  | .chain _ first _, h => by
    have := first.atoms_pos h.2.1
    rw [Expr.atoms]
    omega
  | .number _, _ | .character _, _ | .name _, _ | .input, _ => Nat.one_pos

mutual

theorem Expr.folded_within : ∀ e : Expr, e.Basic names → e.folded.Within e.atoms
  | .number t, h => by
    have hnonneg := h.nonneg
    have hlt := h.lt
    show t.number.natAbs ≤ 2 ^ 32 * 1
    omega
  | .character t, h => by
    obtain ⟨c, -, hc⟩ := h.exists_char
    have hlt : c.toNat < 2 ^ 32 := c.val.toNat_lt
    show t.codePoint.natAbs ≤ 2 ^ 32 * 1
    omega
  | .name _, _ | .input, _ => trivial
  | .chain _ first rest, h => by
    rw [Expr.folded, Expr.atoms]
    exact foldedFrom_within rest h.2.2 (first.folded_within h.2.1)

theorem foldedFrom_within : ∀ (rest : List (Token × Expr)) {f : Folded} {m : Nat},
    BasicRest names rest → f.Within m → (foldedFrom f rest).Within (m + atomsRest rest)
  | [], _, _, _, hf => hf
  | (op, e) :: rest, f, m, h, hf => by
    have hnext := hf.combine h.1 (e.folded_within h.2.1) (e.atoms_pos h.2.1)
    have hrest := foldedFrom_within rest h.2.2 hnext
    rw [foldedFrom, atomsRest, ← Nat.add_assoc]
    exact hrest

end

end Sizes

/-! ## How expressions are lowered -/

namespace Node

variable {base reach : Int} {f : Folded} {m : Nat} {n : Node}

/-- The node is the number that was folded, or code with the constants that are left. -/
inductive FoldsTo : Folded → Node → Prop where
  | number (value : Int) : FoldsTo (.number value) (.constant value true)
  | code {n : Node} {constants : List Int} {nesting : Nat} (h : Lower.isConstant n = .ok false)
      (hnumbers : n.numbers = constants) (hcalls : n.calls = nesting) :
      FoldsTo (.code constants nesting) n

theorem FoldsTo.numbers_eq (h : n.FoldsTo f) : n.numbers = f.constants := by
  cases h with
  | number value => rw [numbers, Folded.constants]
  | code _ hnumbers _ => exact hnumbers

theorem FoldsTo.calls_eq (h : n.FoldsTo f) : n.calls = f.nesting := by
  cases h with
  | number value => rfl
  | code _ _ hcalls => exact hcalls

/-- The node of an expression with so many operands. -/
structure Realises (base reach : Int) (f : Folded) (atoms : Nat) (n : Node) : Prop where
  folds : n.FoldsTo f
  formed : n.Formed base reach
  supply_le : n.supply + 6 ≤ 7 * atoms

theorem realises_constant (value : Int) :
    (Node.constant value true).Realises base reach (.number value) 1 :=
  ⟨.number value, rfl, by simp [supply]⟩

theorem realises_input : Node.input.Realises base reach (.code [] 3) 1 :=
  ⟨.code rfl (by simp [numbers]) rfl, trivial, by simp [supply]⟩

theorem realises_load {symbol : Symbol} {cell : Int} (hcell : symbol.location = some cell)
    (hlow : base ≤ cell) (hlt : cell < reach) :
    (Node.load symbol).Realises base reach (.code [] 5) 1 :=
  ⟨.code rfl (by simp [numbers]) rfl, ⟨cell, hcell, hlow, hlt⟩, by simp [supply]⟩

theorem Realises.hasCode (h : n.Realises base reach f m) : n.hasCode = .ok true := by
  have hformed := h.formed
  cases n with
  | constant value ready =>
    obtain rfl : ready = true := hformed
    rfl
  | load _ | input | binary _ _ _ _ => rfl
  | _ => exact hformed.elim

theorem Realises.emittable (h : n.Realises base reach f m) (hstorable : AllStorable f.constants) :
    n.Emittable base reach :=
  h.formed.emittable (h.folds.numbers_eq ▸ hstorable)

end Node

namespace Lower

variable {base reach : Int} {s : Session}

/-- Two operands are folded or become code. Either way no variable is left on its own. -/
theorem gives_combine_realised (level : Level) {op : String} (hop : op ∈ Node.operators)
    {left right : Node} {f g : Folded} {m k : Nat} (hleft : left.Realises base reach f m)
    (hright : right.Realises base reach g k) (hf : f.Within m) (hg : g.Within k)
    (hsize : 2 ^ 32 * (m + k) < 10 ^ Text.digitLimit) :
    ∃ n s', Gives (combine level left op right) s n s' ∧
      n.Realises base reach (f.combine op g) (m + k) ∧ ∀ symbol, n ≠ .load symbol := by
  have hsupply := hleft.supply_le
  have hsupply' := hright.supply_le
  -- the case in which one of the two is code
  have hcode (hboth : bothConstant left right = .ok false)
      (heq : f.combine op g = .code (f.constants ++ g.constants)
        (1 + max (Node.operatorCalls op) (max f.nesting g.nesting))) :
      ∃ n s', Gives (combine level left op right) s n s' ∧
        n.Realises base reach (f.combine op g) (m + k) ∧ ∀ symbol, n ≠ .load symbol := by
    refine ⟨_, s, gives_combine.mpr (.inr ⟨hboth, hleft.hasCode, hright.hasCode, rfl, rfl⟩), ⟨?_,
      ⟨hop, hleft.formed, hright.formed⟩, ?_⟩, by rintro _ ⟨⟩⟩
    · rw [heq]
      refine .code ?_ ?_ ?_
      on_goal 2 => rw [Node.numbers, hleft.folds.numbers_eq, hright.folds.numbers_eq]
      on_goal 2 => rw [Node.calls, hleft.folds.calls_eq, hright.folds.calls_eq]
      show Except.ok (decide (Node.operatorName level op = "const")) = _
      rw [decide_eq_false (Node.operatorName_ne level op (.inl rfl))]
    · rw [Node.supply]
      omega
  cases hleft.folds with
  | code hconstant _ _ =>
    refine hcode ?_ rfl
    rw [bothConstant, hconstant]
    rfl
  | number a =>
    cases hright.folds with
    | code hconstant _ _ => exact hcode hconstant rfl
    | number b =>
      have hresult : (exactValue op a b).natAbs ≤ 2 ^ 32 * (m + k) :=
        natAbs_exactValue hop hf hg (by omega)
      refine ⟨_, _, gives_combine.mpr (.inl ⟨a, b, _, rfl, rfl, rfl, foldValue_eq hop a b, ?_, rfl,
        rfl⟩), ⟨.number _, rfl, ?_⟩, by rintro _ ⟨⟩⟩
      · rw [writable_of_le hf (by omega), writable_of_le hg (by omega),
          writable_of_le hresult hsize]
        rfl
      · simp only [Node.supply] at hsupply ⊢
        omega

end Lower

namespace Session

/-- Some variables have been declared, and others may be declared behind them; none is a define. -/
structure Awaits (pool : Nat) (names more : List String) (s : Session) : Prop where
  flat : s.Flat pool names
  nodup : (names ++ more).Nodup
  plain : ∀ name ∈ names ++ more, s.defines.lookup name = none

namespace Awaits

variable {pool : Nat} {names more rest : List String} {s s' : Session}

theorem quiet (h : s.Awaits pool names more) (hquiet : s.Quiet s') : s'.Awaits pool names more := by
  refine ⟨h.flat.quiet hquiet, h.nodup, ?_⟩
  rw [hquiet.defines_eq]
  exact h.plain

theorem first (h : s.Awaits pool names (more ++ rest)) : s.Awaits pool names more := by
  have hsub : (names ++ more).Sublist (names ++ (more ++ rest)) :=
    (List.sublist_append_left more rest).append_left names
  exact ⟨h.flat, h.nodup.sublist hsub, fun name hname => h.plain name (hsub.subset hname)⟩

theorem next (h : s.Awaits pool names (more ++ rest))
    (hdeclares : SourceLower.Declares pool names s s' more) : s'.Awaits pool (names ++ more) rest := by
  refine ⟨hdeclares.flat, ?_, ?_⟩
  · rw [List.append_assoc]
    exact h.nodup
  · rw [List.append_assoc, hdeclares.defines_eq]
    exact h.plain

theorem new (h : s.Awaits pool names more) {name : String} (hname : name ∈ more) : name ∉ names :=
  fun hmem => (List.nodup_append.mp h.nodup).2.2 name hmem name hname rfl

end Awaits

end Session

namespace SourceLower

variable {pool : Nat} {names more : List String} {reach : Int}

section Flat

variable {s s1 : Session}

theorem gives_newName (t : Token) : Gives (newName t) s (.newName t.text) s := by
  rw [newName, gives_during]
  exact gives_pure.mpr ⟨rfl, rfl⟩

/-- A new variable gets the next cell, and the node of its declaration. -/
theorem gives_declaration (hflat : s.Flat pool names) {name : String} (hnew : name ∉ names)
    (initial : Option Node) (hcode : ∀ n ∈ initial, n.hasCode = .ok true) :
    ∃ s', Gives (during "variable_declaration" (Lower.declare (.newName name) initial)) s
      (.declare (variableAt pool name names.length) initial) s' := by
  obtain ⟨s', hdefine, -⟩ := hflat.define hnew
  refine ⟨s', ?_⟩
  rw [gives_during, Lower.gives_declare hflat]
  exact ⟨name, _, rfl, hnew, hdefine, hcode, rfl⟩

theorem gives_variable {e : Expr} {n : Node} (hvalue : Gives (expr e) s n s1)
    (hflat : s1.Flat pool names) {t : Token} (hnew : t.text ∉ names) (hcode : n.hasCode = .ok true) :
    ∃ s', Gives (stmt (.variable t (some e))) s
      (.declare (variableAt pool t.text names.length) (some n)) s' := by
  obtain ⟨s', hdeclare⟩ := gives_declaration hflat hnew (some n) (by rintro _ ⟨⟩; exact hcode)
  refine ⟨s', ?_⟩
  simp only [stmt, gives_bind]
  exact ⟨_, s, gives_newName t, n, s1, hvalue, hdeclare⟩

end Flat

/-- A declared variable is loaded from its cell. -/
theorem gives_declared {s : Session} (hs : s.Awaits pool names more) {t : Token}
    (ht : t.text ∈ names) : ∃ k, names[k]? = some t.text ∧
      Gives (declaredName t) s (.load (variableAt pool t.text k)) s := by
  obtain ⟨k, hk⟩ := List.getElem?_of_mem ht
  have hlookup : s.lookup t.text = some (variableAt pool t.text k) :=
    (hs.flat.lookup_eq t.text).trans (lookup_layout_of_getElem? hs.flat.nodup hk)
  refine ⟨k, hk, ?_⟩
  rw [declaredName, gives_during]
  exact Lower.gives_declaredName.mpr (.inr ⟨hs.plain _ (List.mem_append_left more ht), _, hlookup, rfl,
    rfl, rfl⟩)

/-- A variable on its own is loaded from its cell, and nothing else is loaded. -/
inductive Loads (pool : Nat) (names : List String) : Expr → Node → Prop where
  | name {t : Token} {k : Nat} (hk : names[k]? = some t.text) :
      Loads pool names (.name t) (.load (variableAt pool t.text k))
  | other {e : Expr} {n : Node} (he : ∀ t, e ≠ .name t) (hn : ∀ symbol, n ≠ .load symbol) :
      Loads pool names e n

/-- The operands behind the first one. -/
def RealisedRest (base reach : Int) : List (Token × Expr) → List (String × Node) → Prop :=
  List.Forall₂ fun x o => o.1 = x.1.text ∧ o.2.Realises base reach x.2.folded x.2.atoms

/-- A chain comes to a variable on its own only if it is one. -/
theorem gives_chain_realised {base : Int} (level : Level) {rest : List (Token × Expr)}
    {ops : List (String × Node)} (hops : RealisedRest base reach rest ops) {first : Node} {f : Folded}
    {m : Nat} {s : Session} (hfirst : first.Realises base reach f m) (hf : f.Within m)
    (hrest : BasicRest names rest) (hsize : 2 ^ 32 * (m + atomsRest rest) < 10 ^ Text.digitLimit)
    (hload : rest = [] → ∀ symbol, first ≠ .load symbol) :
    ∃ n s', Gives (Lower.chain level first ops) s n s' ∧
      n.Realises base reach (foldedFrom f rest) (m + atomsRest rest) ∧ ∀ symbol, n ≠ .load symbol := by
  unfold Lower.chain
  induction hops generalizing first f m s with
  | nil => exact ⟨first, s, gives_pure.mpr ⟨rfl, rfl⟩, hfirst, hload rfl⟩
  | @cons x o rest ops hx _ ih =>
    obtain ⟨op, e⟩ := x
    obtain ⟨_, right⟩ := o
    obtain ⟨rfl, hright⟩ := hx
    obtain ⟨hop, he, hrest⟩ := hrest
    rw [atomsRest, ← Nat.add_assoc] at hsize
    change right.Realises base reach e.folded e.atoms at hright
    have hg := e.folded_within he
    obtain ⟨n, s1, hcombine, hn, hnload⟩ := Lower.gives_combine_realised (s := s) level hop hfirst
      hright hf hg (by omega)
    obtain ⟨n', s2, hchain, hn', hnload'⟩ := ih (s := s1) hn
      (hf.combine hop hg (e.atoms_pos he)) hrest hsize fun _ => hnload
    refine ⟨n', s2, ?_, ?_, hnload'⟩
    · rw [List.foldlM_cons]
      exact gives_bind.mpr ⟨n, s1, hcombine, hchain⟩
    · rw [foldedFrom, atomsRest, ← Nat.add_assoc]
      exact hn'

mutual

/-- **A basic expression is lowered.** -/
theorem gives_basic_expr (hreach : (pool + names.length : Int) ≤ reach) : ∀ (e : Expr) {s : Session},
    s.Awaits pool names more → e.Basic names → 2 ^ 32 * e.atoms < 10 ^ Text.digitLimit →
    ∃ n s', Gives (expr e) s n s' ∧ n.Realises pool reach e.folded e.atoms ∧ Loads pool names e n
  | .number t, s, _, h, _ => by
    refine ⟨_, s, ?_, Node.realises_constant t.number, .other nofun nofun⟩
    rw [expr, gives_during]
    exact Lower.gives_number.mpr ⟨_, h.reads, rfl, rfl⟩
  | .character t, s, _, h, _ => by
    obtain ⟨c, hread, hpoint⟩ := h.exists_char
    refine ⟨_, s.note (String.ofList [c]), ?_, Node.realises_constant t.codePoint, .other nofun nofun⟩
    rw [expr, gives_during, hpoint]
    exact Lower.gives_character.mpr ⟨c, hread, rfl, rfl⟩
  | .name t, s, hs, h, _ => by
    obtain ⟨k, hk, hgives⟩ := gives_declared hs h
    have hlt : k < names.length := (List.getElem?_eq_some_iff.mp hk).1
    exact ⟨_, s, hgives, Node.realises_load rfl (by omega) (by omega), .name hk⟩
  | .input, s, _, _, _ =>
    ⟨.input, s, gives_pure.mpr ⟨rfl, rfl⟩, Node.realises_input, .other nofun nofun⟩
  | .chain level first rest, s, hs, ⟨hsome, hfirst, hrest⟩, hsize => by
    rw [Expr.atoms] at hsize
    obtain ⟨n, s1, hn, hrealises, -⟩ := gives_basic_expr hreach first hs hfirst (by omega)
    have hs1 := hs.quiet (expr_lowered hs.flat hn).1
    obtain ⟨ops, s2, hops, hrealised⟩ := gives_basic_operands hreach rest hs1 hrest (by omega)
    obtain ⟨m, s3, hm, hrealises', hload⟩ := gives_chain_realised (s := s2) level hrealised hrealises
      (first.folded_within hfirst) hrest hsize fun hnil => (hsome hnil).elim
    refine ⟨m, s3, ?_, hrealises', .other nofun hload⟩
    simp only [expr, gives_bind, gives_during]
    exact ⟨n, s1, hn, ops, s2, hops, hm⟩
  | .call _ _, _, _, h, _ | .peek _, _, _, h, _ | .pop _, _, _, h, _ | .unary _ _, _, _, h, _ => h.elim

theorem gives_basic_operands (hreach : (pool + names.length : Int) ≤ reach) :
    ∀ (rest : List (Token × Expr)) {s : Session}, s.Awaits pool names more → BasicRest names rest →
    2 ^ 32 * atomsRest rest < 10 ^ Text.digitLimit →
    ∃ ops s', Gives (operands rest) s ops s' ∧ RealisedRest pool reach rest ops
  | [], s, _, _, _ => ⟨[], s, gives_pure.mpr ⟨rfl, rfl⟩, .nil⟩
  | (op, e) :: rest, s, hs, ⟨_, he, hrest⟩, hsize => by
    rw [atomsRest] at hsize
    obtain ⟨n, s1, hn, hrealises, -⟩ := gives_basic_expr hreach e hs he (by omega)
    have hs1 := hs.quiet (expr_lowered hs.flat hn).1
    obtain ⟨ops, s2, hops, hrealised⟩ := gives_basic_operands hreach rest hs1 hrest (by omega)
    refine ⟨(op.text, n) :: ops, s2, ?_, .cons ⟨rfl, hrealises⟩ hrealised⟩
    simp only [operands, gives_bind, gives_pure]
    exact ⟨n, s1, hn, ops, s2, hops, rfl, rfl⟩

end

end SourceLower

/-! ## How statements are lowered -/

namespace Node

open Emit

/-- The node of a statement: the constants in it and the calls for it are known, there is code only
if the statement is regular, and if besides the constants can be written out, there is some. -/
structure Embodies (base reach : Int) (st : Stmt) (n : Node) : Prop where
  hasCode : n.hasCode = .ok true
  numbers_eq : n.numbers = st.constants
  calls_eq : n.calls = st.nesting
  regular : Shows st.Regular n.emit
  works : st.Regular → AllStorable st.constants → ∃ k ≤ st.workspace, n.WorksWithin base reach k

/-- The nodes of statements in sequence. -/
structure AllEmbody (base reach : Int) (sts : List Stmt) (ns : List Node) : Prop where
  hasCode : ∀ n ∈ ns, n.hasCode = .ok true
  numbers_eq : numbersAll ns = constantsAll sts
  calls_eq : callsAll ns = nestingAll sts
  regular : Shows (RegularAll sts) (emitAll ns)
  works : RegularAll sts → AllStorable (constantsAll sts) →
    ∃ k ≤ workspaceAll sts, AllWorkWithin base reach k ns

/-- No variable can be stored in its own cell. -/
theorem shows_ne_location (symbol : Symbol) (cell : Int) :
    Shows (symbol.location ≠ some cell) ((Node.load symbol).emitInto cell) := by
  rw [emitInto_load]
  refine Shows.borrow fun temp => ?_
  split
  · exact fun _ _ _ h => (gives_throw h).elim
  · intro w code w' h
    obtain ⟨_, _, hdistinct, -⟩ := gives_bind.mp h
    have hnodup := (gives_needDistinct.mp hdistinct).1
    grind

section Composed

variable {base reach : Int} {condition : Expr} {c : Node}
  (hc : c.Realises base reach condition.folded condition.atoms)

include hc

theorem embodies_output : (Node.output c).Embodies base reach (.output condition) := by
  have hsupply := hc.supply_le
  refine ⟨rfl, ?_, ?_, fun _ _ _ _ => trivial,
    fun _ hstorable => ⟨_, ?_, .output (hc.emittable hstorable)⟩⟩
  · rw [numbers, Stmt.constants, hc.folds.numbers_eq]
  · rw [calls, Stmt.nesting, hc.folds.calls_eq]
  · rw [Stmt.workspace]
    omega

variable {body otherwise : Stmt} {b o : Node} (hb : b.Embodies base reach body)

include hb

/-- There is no code for a branch without an alternative. -/
theorem embodies_lone_branch :
    (Node.ifElse c b none).Embodies base reach (.ifElse condition body none) := by
  refine ⟨rfl, ?_, ?_, shows_ifElse_none, fun hregular => hregular.elim⟩
  · rw [numbers, Stmt.constants, hc.folds.numbers_eq, hb.numbers_eq]
  · rw [calls, Stmt.nesting, hc.folds.calls_eq, hb.calls_eq]

theorem embodies_branch (ho : o.Embodies base reach otherwise) :
    (Node.ifElse c b (some o)).Embodies base reach (.ifElse condition body (some otherwise)) := by
  refine ⟨rfl, ?_, ?_, ?_, fun hregular hstorable => ?_⟩
  · rw [numbers, Stmt.constants, hc.folds.numbers_eq, hb.numbers_eq, ho.numbers_eq]
  · rw [calls, Stmt.nesting, hc.folds.calls_eq, hb.calls_eq, ho.calls_eq]
  · refine (shows_ifElse (fun _ _ _ _ _ => trivial) hb.regular ho.regular fun h => ?_).imp And.right
    cases ho.hasCode.symm.trans h
  · rw [Stmt.constants, allStorable_append, allStorable_append] at hstorable
    obtain ⟨k, hk, hworks⟩ := hb.works hregular.1 hstorable.2.1
    obtain ⟨k', hk', hworks'⟩ := ho.works hregular.2 hstorable.2.2
    have hsupply := hc.supply_le
    refine ⟨_, ?_, .ifElse (hc.emittable hstorable.1) hworks hworks'⟩
    rw [Stmt.workspace]
    omega

theorem embodies_loop : (Node.loop c b).Embodies base reach (.loop condition body) := by
  refine ⟨rfl, ?_, ?_, ?_, fun hregular hstorable => ?_⟩
  · rw [numbers, Stmt.constants, hc.folds.numbers_eq, hb.numbers_eq]
  · rw [calls, Stmt.nesting, hc.folds.calls_eq, hb.calls_eq]
  · exact (shows_loop (fun _ _ _ _ _ => trivial) hb.regular).imp And.right
  · rw [Stmt.constants, allStorable_append] at hstorable
    obtain ⟨k, hk, hworks⟩ := hb.works hregular hstorable.2
    have hsupply := hc.supply_le
    refine ⟨_, ?_, .loop (hc.emittable hstorable.1) hworks⟩
    rw [Stmt.workspace]
    omega

end Composed

section Sequences

variable {base reach : Int} {st : Stmt} {sts : List Stmt} {n : Node} {ns : List Node}

theorem embodies_block (h : AllEmbody base reach sts ns) :
    (Node.block ns).Embodies base reach (.block sts) := by
  refine ⟨rfl, ?_, ?_, ?_, fun hregular hstorable => ?_⟩
  · rw [numbers, Stmt.constants, h.numbers_eq]
  · rw [calls, Stmt.nesting, h.calls_eq]
  · rw [emit]
    exact h.regular
  · rw [Stmt.constants] at hstorable
    obtain ⟨k, hk, hworks⟩ := h.works hregular hstorable
    exact ⟨k, by rwa [Stmt.workspace], .block hworks⟩

theorem AllEmbody.nil : AllEmbody base reach [] [] :=
  ⟨List.forall_mem_nil _, by rw [numbersAll, constantsAll], rfl, fun _ _ _ _ => trivial,
    fun _ _ => ⟨0, Nat.zero_le _, .nil⟩⟩

theorem AllEmbody.cons (h : n.Embodies base reach st) (hs : AllEmbody base reach sts ns) :
    AllEmbody base reach (st :: sts) (n :: ns) := by
  refine ⟨List.forall_mem_cons.mpr ⟨h.hasCode, hs.hasCode⟩, ?_, ?_, shows_cons h.regular hs.regular,
    fun hregular hstorable => ?_⟩
  · rw [numbersAll, constantsAll, h.numbers_eq, hs.numbers_eq]
  · rw [callsAll, nestingAll, h.calls_eq, hs.calls_eq]
  · rw [constantsAll, allStorable_append] at hstorable
    obtain ⟨k, hk, hworks⟩ := h.works hregular.1 hstorable.1
    obtain ⟨k', hk', hworks'⟩ := hs.works hregular.2 hstorable.2
    refine ⟨_, ?_, .cons hworks hworks'⟩
    rw [workspaceAll]
    omega

end Sequences

end Node

namespace SourceLower

variable {pool : Nat} {reach : Int}

section Stores

variable {names : List String} {e : Expr} {n : Node} {t : Token} {k : Nat}

theorem embodies_variable (hreach : (pool + names.length + 1 : Int) ≤ reach)
    (hn : n.Realises pool reach e.folded e.atoms) (hloads : Loads pool names e n) :
    (Node.declare (variableAt pool t.text names.length) (some n)).Embodies pool reach
      (.variable t (some e)) := by
  have hother : ∀ other, n = .load other →
      other.location ≠ some ((pool + names.length : Nat) : Int) := by
    rintro other rfl heq
    cases hloads with
    | other _ hn => exact hn _ rfl
    | name hk =>
      have hlt := (List.getElem?_eq_some_iff.mp hk).1
      simp only [variableAt, Option.some_inj] at heq
      omega
  refine ⟨rfl, ?_, ?_, fun _ _ _ _ => trivial, fun _ hstorable => ?_⟩
  · rw [Node.numbers, Stmt.constants, hn.folds.numbers_eq]
  · rw [Node.calls, Stmt.nesting, hn.folds.calls_eq]
  · have hsupply := hn.supply_le
    refine ⟨n.supply, by rw [Stmt.workspace]; omega, .stores (.declare rfl (by omega) (by omega)
      (hn.emittable hstorable) hother)⟩

/-- A variable is loaded from the cell that is assigned only if it is the one that is assigned. -/
theorem embodies_assign (hnodup : names.Nodup) (hreach : (pool + names.length : Int) ≤ reach)
    (hk : names[k]? = some t.text) (hn : n.Realises pool reach e.folded e.atoms)
    (hloads : Loads pool names e n) :
    (Node.assign (variableAt pool t.text k) n).Embodies pool reach (.assign t e) := by
  have hlt : k < names.length := (List.getElem?_eq_some_iff.mp hk).1
  refine ⟨rfl, ?_, ?_, ?_, fun hregular hstorable => ?_⟩
  · rw [Node.numbers, Stmt.constants, hn.folds.numbers_eq]
  · rw [Node.calls, Stmt.nesting, hn.folds.calls_eq]
  · cases hloads with
    | other he _ => exact fun _ _ _ _ use heq => (he use heq).elim
    | @name use j hj =>
      intro w code w' hg
      rw [Node.emit] at hg
      have hne : (variableAt pool use.text j).location ≠ some ((pool + k : Nat) : Int) :=
        Node.shows_ne_location _ _ _ _ _ hg
      rintro _ ⟨⟩ heq
      rw [heq, ← hk] at hj
      obtain rfl := (List.getElem?_inj hlt hnodup).mp hj.symm
      exact hne rfl
  · have hsupply := hn.supply_le
    refine ⟨n.supply, by rw [Stmt.workspace]; omega, .stores (.assign rfl (by omega) (by omega)
      (hn.emittable hstorable) ?_)⟩
    rintro other rfl heq
    cases hloads with
    | other _ hn => exact hn _ rfl
    | @name use j hj =>
      simp only [variableAt, Option.some_inj] at heq
      obtain rfl : j = k := by omega
      exact hregular use rfl (Option.some_inj.mp (hj.symm.trans hk))

end Stores

mutual

/-- **A basic statement is lowered.** -/
theorem gives_basic_stmt : ∀ (st : Stmt) {names : List String} {s : Session},
    s.Awaits pool names st.declared → st.Basic names →
    (pool + (names ++ st.declared).length : Int) ≤ reach →
    2 ^ 32 * st.workspace < 10 ^ Text.digitLimit →
    ∃ n s', Gives (stmt st) s n s' ∧ n.Embodies pool reach st
  | .variable t none, names, s, hs, _, hreach, _ => by
    have hnew : t.text ∉ names := hs.new (List.mem_singleton_self _)
    obtain ⟨s', hdeclare⟩ := gives_declaration hs.flat hnew none (by rintro _ ⟨⟩)
    rw [Stmt.declared, List.length_append, List.length_singleton] at hreach
    have hstores : (Node.declare (variableAt pool t.text names.length) none).StoresWithin pool reach 0 :=
      .zero rfl (by omega) (by omega)
    refine ⟨_, s', ?_, rfl, ?_, rfl, fun _ _ _ _ => trivial,
      fun _ _ => ⟨0, Nat.zero_le _, .stores hstores⟩⟩
    · simp only [stmt, gives_bind]
      exact ⟨_, s, gives_newName t, hdeclare⟩
    · simp only [Node.numbers, Stmt.constants]
  | .variable t (some e), names, s, hs, h, hreach, hsize => by
    have hnew : t.text ∉ names := hs.new (List.mem_singleton_self _)
    rw [Stmt.workspace] at hsize
    rw [Stmt.declared, List.length_append, List.length_singleton] at hreach
    have hnames : (pool + names.length : Int) ≤ reach := by omega
    obtain ⟨n, s1, hn, hrealises, hloads⟩ := gives_basic_expr hnames e hs h (by omega)
    have hs1 := hs.quiet (expr_lowered hs.flat hn).1
    obtain ⟨s', hdeclare⟩ := gives_variable hn hs1.flat hnew hrealises.hasCode
    exact ⟨_, s', hdeclare, embodies_variable (by omega) hrealises hloads⟩
  | .assign t e, names, s, hs, h, hreach, hsize => by
    rw [Stmt.workspace] at hsize
    rw [Stmt.declared, List.append_nil] at hreach
    obtain ⟨k, hk, htarget⟩ := gives_declared hs h.1
    obtain ⟨n, s1, hn, hrealises, hloads⟩ := gives_basic_expr hreach e hs h.2 (by omega)
    refine ⟨_, s1, ?_, embodies_assign hs.flat.nodup hreach hk hrealises hloads⟩
    simp only [stmt, gives_bind, gives_during]
    exact ⟨_, s, htarget, n, s1, hn, Lower.gives_assign.mpr ⟨_, rfl, rfl, hrealises.hasCode, rfl, rfl⟩⟩
  | .output e, names, s, hs, h, hreach, hsize => by
    rw [Stmt.workspace] at hsize
    rw [Stmt.declared, List.append_nil] at hreach
    obtain ⟨n, s1, hn, hrealises, -⟩ := gives_basic_expr hreach e hs h (by omega)
    refine ⟨.output n, s1, ?_, Node.embodies_output hrealises⟩
    simp only [stmt, gives_bind, gives_pure]
    exact ⟨n, s1, hn, rfl, rfl⟩
  | .ifElse condition body none, names, s, hs, h, hreach, hsize => by
    rw [Stmt.workspace] at hsize
    rw [Stmt.declared] at hs hreach
    have hnames : (pool + names.length : Int) ≤ reach := by
      rw [List.length_append] at hreach
      omega
    obtain ⟨c, s1, hc, hrealises, -⟩ := gives_basic_expr hnames condition hs h.1 (by omega)
    have hs1 := hs.quiet (expr_lowered hs.flat hc).1
    obtain ⟨b, s2, hb, hbody⟩ := gives_basic_stmt body hs1 h.2 hreach (by omega)
    refine ⟨.ifElse c b none, s2, ?_, Node.embodies_lone_branch hrealises hbody⟩
    simp only [stmt, gives_bind, gives_pure]
    exact ⟨c, s1, hc, b, s2, hb, rfl, rfl⟩
  | .ifElse condition body (some otherwise), names, s, hs, h, hreach, hsize => by
    rw [Stmt.workspace] at hsize
    rw [Stmt.declared] at hs hreach
    have hlength := hreach
    rw [List.length_append, List.length_append] at hlength
    have hnames : (pool + names.length : Int) ≤ reach := by omega
    obtain ⟨c, s1, hc, hrealises, -⟩ := gives_basic_expr hnames condition hs h.1 (by omega)
    have hs1 := hs.quiet (expr_lowered hs.flat hc).1
    obtain ⟨b, s2, hb, hbody⟩ := gives_basic_stmt body hs1.first h.2.1
      (by rw [List.length_append]; omega) (by omega)
    obtain ⟨o, s3, ho, hotherwise⟩ := gives_basic_stmt otherwise
      (hs1.next (stmt_means body hs1.flat hb).1) h.2.2 (by rwa [List.append_assoc]) (by omega)
    refine ⟨.ifElse c b (some o), s3, ?_, Node.embodies_branch hrealises hbody hotherwise⟩
    simp only [stmt, gives_bind, gives_pure]
    exact ⟨c, s1, hc, b, s2, hb, o, s3, ho, rfl, rfl⟩
  | .loop condition body, names, s, hs, h, hreach, hsize => by
    rw [Stmt.workspace] at hsize
    rw [Stmt.declared] at hs hreach
    have hnames : (pool + names.length : Int) ≤ reach := by
      rw [List.length_append] at hreach
      omega
    obtain ⟨c, s1, hc, hrealises, -⟩ := gives_basic_expr hnames condition hs h.1 (by omega)
    have hs1 := hs.quiet (expr_lowered hs.flat hc).1
    obtain ⟨b, s2, hb, hbody⟩ := gives_basic_stmt body hs1 h.2 hreach (by omega)
    refine ⟨.loop c b, s2, ?_, Node.embodies_loop hrealises hbody⟩
    simp only [stmt, gives_bind, gives_pure]
    exact ⟨c, s1, hc, b, s2, hb, rfl, rfl⟩
  | .block body, names, s, hs, h, hreach, hsize => by
    rw [Stmt.workspace] at hsize
    rw [Stmt.declared] at hs hreach
    obtain ⟨ns, s1, hns, hall⟩ := gives_basic_stmts body hs h hreach hsize
    obtain ⟨s2, hblock, -⟩ := Lower.gives_block (stmts_mean body hs.flat hns).1.flat.inner ns
    refine ⟨.block ns, s2, ?_, Node.embodies_block hall⟩
    simp only [stmt, gives_bind, gives_during]
    exact ⟨ns, s1, hns, hblock⟩
  | .stack _ _, _, _, _, h, _, _ | .expr _, _, _, _, h, _, _ | .push _ _, _, _, _, h, _, _
  | .returning _, _, _, _, h, _, _ => h.elim

theorem gives_basic_stmts : ∀ (sts : List Stmt) {names : List String} {s : Session},
    s.Awaits pool names (declaredAll sts) → BasicAll names sts →
    (pool + (names ++ declaredAll sts).length : Int) ≤ reach →
    2 ^ 32 * workspaceAll sts < 10 ^ Text.digitLimit →
    ∃ ns s', Gives (stmts sts) s ns s' ∧ Node.AllEmbody pool reach sts ns
  | [], _, s, _, _, _, _ => ⟨[], s, gives_pure.mpr ⟨rfl, rfl⟩, .nil⟩
  | st :: sts, names, s, hs, h, hreach, hsize => by
    rw [workspaceAll] at hsize
    rw [declaredAll] at hs hreach
    have hlength := hreach
    rw [List.length_append, List.length_append] at hlength
    obtain ⟨n, s1, hn, hfirst⟩ := gives_basic_stmt st hs.first h.1
      (by rw [List.length_append]; omega) (by omega)
    obtain ⟨ns, s2, hns, hrest⟩ := gives_basic_stmts sts
      (hs.next (stmt_means st hs.flat hn).1) h.2 (by rwa [List.append_assoc]) (by omega)
    refine ⟨n :: ns, s2, ?_, .cons hfirst hrest⟩
    simp only [stmts, gives_bind, gives_pure]
    exact ⟨n, s1, hn, ns, s2, hns, rfl, rfl⟩

end

theorem items_map_stmt (sts : List Stmt) : items (sts.map .stmt) = stmts sts := by
  induction sts with
  | nil => rfl
  | cons st sts ih => rw [List.map_cons, items, item, stmts, ih]

end SourceLower

theorem declaredItems_map_stmt (sts : List Stmt) : declaredItems (sts.map .stmt) = declaredAll sts := by
  induction sts with
  | nil => rfl
  | cons st sts ih => rw [List.map_cons, declaredItems, Item.declared, declaredAll, ih]

/-- Only nodes without code are passed over. -/
theorem SourceLower.working_of_hasCode {ns : List Node} (h : ∀ n ∈ ns, n.hasCode = .ok true) :
    working ns = ns := by
  refine List.filter_eq_self.mpr fun n hn => decide_eq_true fun hnop => ?_
  have hcode := h n hn
  cases n with
  | binary level op left right => exact Node.operatorName_ne level op (.inr rfl) (Option.some_inj.mp hnop)
  | constant | load | input | declare | assign | block | ifElse | loop | output | deep =>
    simp [Node.op?] at hnop
  | _ => cases hcode

end TapeScript
