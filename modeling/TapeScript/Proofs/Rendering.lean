import TapeScript.Proofs.Lowering
import TapeScript.Proofs.NodeMeaning

set_option autoImplicit false

/-! # Lowered nodes mean what was written

The node that an expression or a statement is lowered to has the same meaning, once the variables
are found in their cells. Expressions have the same value (`SourceLower.expr_means`); statements keep
the variables and their cells together, and come to an end with the same fuel
(`SourceLower.stmt_means`).
-/

namespace TapeScript

/-! ## Values -/

/-- The cells behind the scratch pool hold the variables. -/
def Holding (pool : Nat) (names : List String) (vars : String → Nat) (cells : Int → Nat) : Prop :=
  ∀ (k : Nat) (name : String), names[k]? = some name → vars name = cells ((pool + k : Nat) : Int)

/-- The meaning of an expression. -/
abbrev Meaning := Width → Array Char → (String → Nat) → Nat → Option (Value × Nat)

namespace Node

variable {n : Node}

/-- The value of a node, which is known beforehand for a constant. -/
def asValue (w : Width) (input : Array Char) (cells : Int → Nat) (n : Node) (pos : Nat) :
    Option (Value × Nat) :=
  match n with
  | .constant v true => some (.constant v, pos)
  | n => (n.value w input cells pos).map fun (v, pos) => (.cell v, pos)

theorem value_eq (w : Width) (input : Array Char) (cells : Int → Nat) (n : Node) (pos : Nat) :
    n.value w input cells pos
      = (n.asValue w input cells pos).map fun (v, pos) => (v.stored w, pos) := by
  unfold asValue
  split
  · rfl
  · rw [Option.map_map]
    exact Option.map_id'.symm

theorem asValue_binary (w : Width) (input : Array Char) (cells : Int → Nat) (level : Level)
    (op : String) (left right : Node) (pos : Nat) :
    (Node.binary level op left right).asValue w input cells pos
      = ((left.value w input cells pos).bind fun (a, pos) =>
          (right.value w input cells pos).bind fun (b, pos) =>
            (cellValue w op a b).map fun v => (v, pos)).map fun (v, pos) => (.cell v, pos) := rfl

/-- The nodes that expressions are lowered to. -/
def IsValue : Node → Prop
  | .constant _ true | .load _ | .input | .binary _ _ _ _ | .unary _ _ => True
  | _ => False

theorem lookup_getD_ne {known : List (String × String)} {op name other : String}
    (hknown : ∀ p ∈ known, p.2 ≠ name) (hother : other ≠ name) :
    (known.lookup op).getD other ≠ name := by
  induction known with
  | nil => exact hother
  | cons p known ih =>
    rw [List.lookup_cons]
    split
    · exact hknown p (by simp)
    · exact ih fun q hq => hknown q (by simp [hq])

/-- The names of operators are not those of other nodes. -/
theorem operatorName_ne (level : Level) (op : String) {name : String}
    (h : name = "const" ∨ name = "nop") : operatorName level op ≠ name := by
  have hunknown : "unknown_op_" ++ op ≠ name := by
    intro heq
    have hlist := congrArg String.toList heq
    rcases h with rfl | rfl <;> simp at hlist
  cases level with
  | comparison | arithmetic | term =>
    exact lookup_getD_ne (by rcases h with rfl | rfl <;> decide) hunknown

theorem IsValue.op_ne (h : n.IsValue) : n.op? ≠ some "nop" := by
  cases n with
  | constant v ready => simp [op?]
  | load symbol => simp [op?]
  | input => simp [op?]
  | binary level op left right => simpa [op?] using operatorName_ne level op (.inr rfl)
  | unary op operand =>
    intro heq
    have hlist := congrArg String.toList (Option.some.inj heq)
    simp at hlist
  | _ => exact h.elim

theorem IsValue.codeKind_ne (h : n.IsValue) : n.codeKind ≠ .withheld := by
  cases n with
  | constant v ready =>
    cases ready with
    | true => simp [codeKind]
    | false => exact h.elim
  | load symbol => simp [codeKind]
  | input => simp [codeKind]
  | binary level op left right => simp [codeKind]
  | unary op operand => simp [codeKind]
  | _ => exact h.elim

/-- A value on its own is no statement. -/
theorem IsValue.run_eq (h : n.IsValue) (w : Width) (input : Array Char) (fuel : Nat) (sf : Surface) :
    n.run w input fuel sf = none := by
  cases n with
  | constant v ready => simp only [run]
  | load symbol => simp only [run]
  | input => simp only [run]
  | binary level op left right => simp only [run]
  | unary op operand => simp only [run]
  | _ => exact h.elim

/-- The node has a meaning, given the cells of the variables. -/
structure Means (pool : Nat) (names : List String) (n : Node) (f : Meaning) : Prop where
  isValue : n.IsValue
  within : n.Within pool names.length
  eval_eq : ∀ w input vars cells pos, Holding pool names vars cells →
    f w input vars pos = n.asValue w input cells pos

variable {pool : Nat} {names : List String} {n left right : Node} {f g : Meaning}

theorem means_constant (v : Int) :
    Means pool names (.constant v true) fun _ _ _ pos => some (.constant v, pos) :=
  ⟨trivial, by simp [Within], fun _ _ _ _ _ _ => rfl⟩

/-- A constant whose code is there means its number. -/
theorem Means.eval_of_constant {v : Int} {ready : Bool} (h : Means pool names (.constant v ready) f)
    {w : Width} {input : Array Char} {vars : String → Nat} {cells : Int → Nat}
    (hcells : Holding pool names vars cells) (pos : Nat) :
    f w input vars pos = some (.constant v, pos) := by
  rw [h.eval_eq w input vars cells pos hcells]
  cases ready with
  | true => rfl
  | false => exact h.isValue.elim

/-- Only a constant has a value that is known beforehand. -/
theorem constant_of_asValue {w : Width} {input : Array Char} {cells : Int → Nat} {pos p : Nat}
    {v : Int} (h : n.asValue w input cells pos = some (.constant v, p)) : n = .constant v true := by
  unfold asValue at h
  split at h
  · cases h
    rfl
  · obtain ⟨r, -, hr⟩ := Option.map_eq_some_iff.mp h
    cases hr

end Node

/-- Operands that are not both known beforehand are combined as they are stored. -/
theorem Value.combine_of_not_constants (w : Width) (op : String) {v u : Value}
    (h : ¬ ∃ a b, v = .constant a ∧ u = .constant b) :
    v.combine w op u = (cellValue w op (v.stored w) (u.stored w)).map .cell := by
  cases v with
  | cell v => rfl
  | constant a =>
    cases u with
    | cell u => rfl
    | constant b => exact absurd ⟨a, b, rfl, rfl⟩ h

namespace Lower

variable {s s' : Session} {pool : Nat} {names : List String} {n left right : Node} {f g : Meaning}

/-- An operator applied to two values. -/
theorem means_combine {level : Level} {op : String} (hleft : left.Means pool names f)
    (hright : right.Means pool names g) (h : Gives (combine level left op right) s n s') :
    s.Quiet s' ∧ n.Means pool names fun w input vars pos =>
      (f w input vars pos).bind fun (v, pos) =>
        (g w input vars pos).bind fun (u, pos) => (v.combine w op u).map fun v => (v, pos) := by
  rcases gives_combine.mp h with ⟨a, b, v, -, ha, hb, hv, -, rfl, rfl⟩ |
    ⟨hboth, hcode, hcode', rfl, rfl⟩
  · obtain ⟨r1, rfl⟩ := constantValue_eq_ok.mp ha
    obtain ⟨r2, rfl⟩ := constantValue_eq_ok.mp hb
    refine ⟨.note s (isRequest_folded op a b v), trivial, by simp [Node.Within],
      fun w input vars cells pos hcells => ?_⟩
    simp only [hleft.eval_of_constant hcells, hright.eval_of_constant hcells, Option.bind_some,
      Value.combine, hv]
    rfl
  · refine ⟨.refl _, trivial, by rw [Node.Within]; exact ⟨hleft.within, hright.within⟩,
      fun w input vars cells pos hcells => ?_⟩
    simp only [hleft.eval_eq w input vars cells _ hcells, hright.eval_eq w input vars cells _ hcells]
    rw [Node.asValue_binary]
    simp only [Node.value_eq w input cells left, Node.value_eq w input cells right]
    cases hv : left.asValue w input cells pos with
    | none => rfl
    | some r =>
      obtain ⟨v, p⟩ := r
      simp only [Option.bind_some, Option.map_some]
      cases hu : right.asValue w input cells p with
      | none => rfl
      | some r' =>
        obtain ⟨u, q⟩ := r'
        simp only [Option.bind_some, Option.map_some, Option.map_map]
        rw [Value.combine_of_not_constants w op]
        · rw [Option.map_map]
          rfl
        · rintro ⟨a, b, rfl, rfl⟩
          rw [Node.constant_of_asValue hv, Node.constant_of_asValue hu] at hboth
          have hconstants : bothConstant (.constant a true) (.constant b true) = .ok true := rfl
          rw [hconstants] at hboth
          cases hboth

/-- A sign applied to a value; only constants have one. -/
theorem means_unary {op : String} (hn : left.Means pool names f)
    (h : Gives (unary op left) s n s') :
    s.Quiet s' ∧ n.Means pool names fun w input vars pos =>
      (f w input vars pos).bind fun (v, pos) => (v.signed op).map fun v => (v, pos) := by
  rcases gives_unary.mp h with ⟨v, -, hv, -, rfl, rfl⟩ | ⟨hconstant, rfl, rfl⟩
  · obtain ⟨ready, rfl⟩ := constantValue_eq_ok.mp hv
    refine ⟨.note s (isRequest_foldedSign op v _), trivial, by simp [Node.Within],
      fun w input vars cells pos hcells => ?_⟩
    simp only [hn.eval_of_constant hcells, Option.bind_some, Value.signed]
    rfl
  · refine ⟨.refl _, trivial, by simp [Node.Within],
      fun w input vars cells pos hcells => ?_⟩
    rw [hn.eval_eq w input vars cells pos hcells]
    cases hv : left.asValue w input cells pos with
    | none => rfl
    | some r =>
      obtain ⟨v, p⟩ := r
      cases v with
      | cell v => rfl
      | constant v =>
        rw [Node.constant_of_asValue hv] at hconstant
        simp [isConstant, Node.op?] at hconstant

/-- A chain of operators, from left to right. -/
theorem means_chain (defines : DefineTable) {level : Level} {rest : List (Token × Expr)}
    {operands : List (String × Node)}
    (hrest : List.Forall₂ (fun o r => r.1 = o.1.text ∧
      r.2.Means pool names fun w input vars pos => o.2.eval defines w input vars pos) rest operands)
    (hleft : left.Means pool names f) (h : Gives (chain level left operands) s n s') :
    s.Quiet s' ∧ n.Means pool names fun w input vars pos =>
      (f w input vars pos).bind fun (v, pos) => evalChain defines w input vars v rest pos := by
  induction hrest generalizing left f s with
  | nil =>
    obtain ⟨rfl, rfl⟩ := gives_pure.mp h
    refine ⟨.refl _, hleft.isValue, hleft.within, fun w input vars cells pos hcells => ?_⟩
    simp only [evalChain]
    rw [hleft.eval_eq w input vars cells pos hcells]
    exact Option.bind_fun_some _
  | @cons o r rest operands hfirst _ ih =>
    obtain ⟨op, e⟩ := o
    obtain ⟨hop, hright⟩ := hfirst
    obtain ⟨m, s1, hm, hn⟩ := gives_bind.mp h
    obtain ⟨hquiet1, hmeans1⟩ := means_combine hleft hright hm
    obtain ⟨hquiet2, hmeans2⟩ := ih hmeans1 hn
    refine ⟨hquiet1.trans hquiet2, hmeans2.isValue, hmeans2.within,
      fun w input vars cells pos hcells => ?_⟩
    rw [← hmeans2.eval_eq w input vars cells pos hcells, hop]
    simp only [evalChain, Option.bind_assoc, Option.bind_map]
    rfl

end Lower

namespace SourceLower

variable {pool : Nat} {names all : List String}

/-- The cell of a declared variable. -/
theorem within_variableAt {k : Nat} {name : String} (hk : names[k]? = some name) :
    (variableAt pool name k).Within pool names.length := by
  have hlt : k < names.length := (List.getElem?_eq_some_iff.mp hk).1
  rintro cell hcell
  cases hcell
  omega

theorem getElem?_of_prefix (h : names <+: all) {k : Nat} {name : String}
    (hk : names[k]? = some name) : all[k]? = some name := by
  obtain ⟨more, rfl⟩ := h
  rw [List.getElem?_append_left (List.getElem?_eq_some_iff.mp hk).1, hk]

theorem declaredName_means (hall : names <+: all) {t : Token} {s s' : Session} {n : Node}
    (hflat : s.Flat pool names) (h : Gives (declaredName t) s n s') :
    s.Quiet s' ∧ n.Means pool all fun w input vars pos =>
      (Expr.name t).eval s.defines w input vars pos := by
  rw [declaredName, gives_during] at h
  rcases Lower.gives_declaredName.mp h with ⟨value, v, hlookup, hv, rfl, rfl⟩ |
    ⟨hlookup, sym, hsym, -, rfl, rfl⟩
  · have heval : ∀ w input vars pos, (Expr.name t).eval s.defines w input vars pos
        = some (.constant v, pos) := by
      intro w input vars pos
      simp only [Expr.eval, hlookup, hv]
      rfl
    refine ⟨.note s (Lower.isRequest_substituted _ _), ?_⟩
    simpa only [heval] using Node.means_constant v
  · rw [hflat.lookup_eq] at hsym
    obtain ⟨k, hk, rfl⟩ := lookup_layout_eq_some hsym
    have hk' := getElem?_of_prefix hall hk
    refine ⟨.refl _, trivial, ?_, fun w input vars cells pos hcells => ?_⟩
    · rw [Node.Within]
      exact within_variableAt hk'
    · simp only [Expr.eval, hlookup]
      rw [hcells k t.text hk']
      rfl

mutual

/-- **An expression and its node have the same value.** The node is placed among all variables of
the program, of which some have been declared. -/
theorem expr_means (hall : names <+: all) : ∀ (e : Expr) {s s' : Session} {n : Node}, s.Flat pool names →
    Gives (expr e) s n s' → s.Quiet s' ∧ n.Means pool all fun w input vars pos =>
      e.eval s.defines w input vars pos
  | .number t, s, s', n, _, h => by
    rw [expr, gives_during] at h
    obtain ⟨v, hv, rfl, rfl⟩ := Lower.gives_number.mp h
    refine ⟨.refl _, ?_⟩
    simp only [Expr.eval, hv]
    exact Node.means_constant v
  | .character t, s, s', n, _, h => by
    rw [expr, gives_during] at h
    obtain ⟨c, hc, rfl, rfl⟩ := Lower.gives_character.mp h
    have hvalue : Literal.character t.text = .ok (c.toNat : Int) := by
      rw [Literal.character, hc]
      rfl
    refine ⟨.note s (by simp [isRequest, List.isPrefixOf]), ?_⟩
    simp only [Expr.eval, hvalue]
    exact Node.means_constant (c.toNat : Int)
  | .name t, s, s', n, hflat, h => by
    rw [expr] at h
    exact declaredName_means hall hflat h
  | .call _ [], _, _, _, _, h | .call _ (_ :: _), _, _, _, _, h | .peek _, _, _, _, _, h
  | .pop _, _, _, _, _, h => by
    simp [expr, gives_during, Lower.unsupported] at h
  | .input, s, s', n, _, h => by
    obtain ⟨rfl, rfl⟩ := gives_pure.mp h
    exact ⟨.refl _, trivial, by simp [Node.Within], fun _ _ _ _ _ _ => rfl⟩
  | .unary sign e, s, s', n, hflat, h => by
    simp only [expr, gives_bind, gives_during] at h
    obtain ⟨m, s1, hm, hn⟩ := h
    obtain ⟨hquiet1, hmeans1⟩ := expr_means hall e hflat hm
    obtain ⟨hquiet2, hmeans2⟩ := Lower.means_unary hmeans1 hn
    exact ⟨hquiet1.trans hquiet2, by simpa only [Expr.eval] using hmeans2⟩
  | .chain level first rest, s, s', n, hflat, h => by
    simp only [expr, gives_bind, gives_during] at h
    obtain ⟨m, s1, hm, operands, s2, hoperands, hn⟩ := h
    obtain ⟨hquiet1, hmeans1⟩ := expr_means hall first hflat hm
    obtain ⟨hquiet2, hmeans2⟩ := operands_means hall rest (hflat.quiet hquiet1) hoperands
    rw [hquiet1.defines_eq] at hmeans2
    obtain ⟨hquiet3, hmeans3⟩ := Lower.means_chain s.defines hmeans2 hmeans1 hn
    exact ⟨(hquiet1.trans hquiet2).trans hquiet3, by simpa only [Expr.eval] using hmeans3⟩

theorem operands_means (hall : names <+: all) : ∀ (rest : List (Token × Expr)) {s s' : Session}
    {ns : List (String × Node)}, s.Flat pool names → Gives (operands rest) s ns s' →
    s.Quiet s' ∧ List.Forall₂ (fun o r => r.1 = o.1.text ∧
      r.2.Means pool all fun w input vars pos => o.2.eval s.defines w input vars pos) rest ns
  | [], s, s', ns, _, h => by
    obtain ⟨rfl, rfl⟩ := gives_pure.mp h
    exact ⟨.refl _, .nil⟩
  | (op, e) :: rest, s, s', ns, hflat, h => by
    simp only [operands, gives_bind, gives_pure] at h
    obtain ⟨m, s1, hm, ms, s2, hms, rfl, rfl⟩ := h
    obtain ⟨hquiet1, hmeans1⟩ := expr_means hall e hflat hm
    obtain ⟨hquiet2, hmeans2⟩ := operands_means hall rest (hflat.quiet hquiet1) hms
    rw [hquiet1.defines_eq] at hmeans2
    exact ⟨hquiet1.trans hquiet2, .cons ⟨rfl, hmeans1⟩ hmeans2⟩

end

end SourceLower

/-! ## Statements -/

/-- The surface shows the state: its variables are in their cells. -/
structure State.StoredOn (pool : Nat) (names : List String) (σ : State) (sf : Surface) : Prop where
  inputPos : sf.inputPos = σ.inputPos
  output : sf.output = σ.output
  vars : Holding pool names σ.vars sf.cells

/-- A variable is set by a write to its cell, and distinct variables have distinct cells. -/
theorem State.StoredOn.set {pool : Nat} {names : List String} {σ : State} {sf : Surface}
    (h : σ.StoredOn pool names sf) (hnodup : names.Nodup) {k : Nat} {name : String}
    (hk : names[k]? = some name) (v : Nat) :
    (σ.set name v).StoredOn pool names (sf.write ((pool + k : Nat) : Int) v) := by
  refine ⟨h.inputPos, h.output, fun j other hj => ?_⟩
  simp only [State.set, Surface.write_cells, Function.update_apply]
  by_cases hother : other = name
  · have hjk : j = k := by
      rw [hother] at hj
      exact (List.getElem?_inj (List.getElem?_eq_some_iff.mp hj).1 hnodup).mp (hj.trans hk.symm)
    simp [hother, hjk]
  · have hjk : j ≠ k := by
      rintro rfl
      exact hother (Option.some.inj (hj.symm.trans hk))
    rw [if_neg hother, if_neg (by omega)]
    exact h.vars j other hj

theorem rel_bind {α β γ δ : Type} {R : α → β → Prop} {S : γ → δ → Prop} {a : Option α}
    {b : Option β} {f : α → Option γ} {g : β → Option δ} (h : Option.Rel R a b)
    (hf : ∀ x y, R x y → Option.Rel S (f x) (g y)) : Option.Rel S (a.bind f) (b.bind g) := by
  cases h with
  | none => exact .none
  | some h => exact hf _ _ h

/-- Loops whose tests and bodies agree come to the same. -/
theorem repeatWhile_rel {α β : Type} {R : α → β → Prop} {test : α → Option (Nat × α)}
    {test' : β → Option (Nat × β)} {body : α → Option α} {body' : β → Option β}
    (htest : ∀ x y, R x y → Option.Rel (fun r r' => r.1 = r'.1 ∧ R r.2 r'.2) (test x) (test' y))
    (hbody : ∀ x y, R x y → Option.Rel R (body x) (body' y)) (fuel : Nat) {x : α} {y : β}
    (h : R x y) : Option.Rel R (repeatWhile test body fuel x) (repeatWhile test' body' fuel y) := by
  induction fuel generalizing x y with
  | zero => exact .none
  | succ fuel ih =>
    refine rel_bind (htest x y h) ?_
    rintro ⟨v, x'⟩ ⟨v', y'⟩ ⟨rfl, h'⟩
    by_cases hv : v = 0
    · simp only [hv, if_true]
      exact .some h'
    · simp only [hv, if_false]
      exact rel_bind (hbody x' y' h') fun _ _ => ih

namespace Node

variable {pool : Nat} {names : List String} {n : Node} {ns : List Node}
variable {f g : Width → Array Char → Nat → State → Option State}

/-- The node does to a surface that shows a state what the function does to the state. -/
structure Carries (pool : Nat) (names : List String) (n : Node)
    (f : Width → Array Char → Nat → State → Option State) : Prop where
  within : n.Within pool names.length
  ready : n.codeKind ≠ .withheld := by simp [Node.codeKind]
  op_ne : n.op? ≠ some "nop" := by simp [Node.op?]
  run_rel : ∀ w input fuel σ sf, σ.StoredOn pool names sf →
    Option.Rel (State.StoredOn pool names) (f w input fuel σ) (n.run w input fuel sf)

/-- The nodes, one after the other, do what the function does. -/
structure CarryAll (pool : Nat) (names : List String) (ns : List Node)
    (f : Width → Array Char → Nat → State → Option State) : Prop where
  within : AllWithin pool names.length ns
  run_rel : ∀ w input fuel σ sf, σ.StoredOn pool names sf →
    Option.Rel (State.StoredOn pool names) (f w input fuel σ) (runAll w input fuel ns sf)

theorem carryAll_nil : CarryAll pool names [] fun _ _ _ σ => some σ := by
  refine ⟨by rw [AllWithin]; trivial, fun w input fuel σ sf hσ => ?_⟩
  rw [runAll]
  exact .some hσ

theorem Carries.cons (h : n.Carries pool names f) (hs : CarryAll pool names ns g) :
    CarryAll pool names (n :: ns) fun w input fuel σ =>
      (f w input fuel σ).bind (g w input fuel) := by
  refine ⟨by rw [AllWithin]; exact ⟨h.within, hs.within⟩, fun w input fuel σ sf hσ => ?_⟩
  rw [runAll]
  exact rel_bind (h.run_rel w input fuel σ sf hσ) (hs.run_rel w input fuel)

/-- An evaluated expression. -/
theorem Means.evalOn_rel {defines : DefineTable} {e : Expr}
    (h : n.Means pool names fun w input vars pos => e.eval defines w input vars pos)
    {w : Width} {input : Array Char} {σ : State} {sf : Surface} (hσ : σ.StoredOn pool names sf) :
    Option.Rel (fun r r' => r.1 = r'.1 ∧ r.2.StoredOn pool names r'.2)
      (e.evalIn defines w input σ) (n.evalOn w input sf) := by
  unfold Expr.evalIn Node.evalOn
  rw [value_eq, hσ.inputPos, h.eval_eq w input σ.vars sf.cells σ.inputPos hσ.vars, Option.map_map]
  cases n.asValue w input sf.cells σ.inputPos with
  | none => exact .none
  | some r => exact .some ⟨rfl, rfl, hσ.output, hσ.vars⟩

end Node

namespace SourceLower

variable {pool : Nat} {names : List String} {s s' : Session}
variable {s1 : Session} {n : Node}

/-- The session after some more declarations. -/
structure Declares (pool : Nat) (names : List String) (s s' : Session) (new : List String) :
    Prop where
  flat : s'.Flat pool (names ++ new)
  requests_eq : requests s'.bench.log = requests s.bench.log
  defines_eq : s'.defines = s.defines

/-- The session after some more declarations, and what holds then of the defines and of all the
variables that the program declares. -/
structure Renders (pool : Nat) (names : List String) (s s' : Session) (new : List String)
    (F : DefineTable → List String → Prop) : Prop extends Declares pool names s s' new where
  holds : ∀ all, names ++ new <+: all → all.Nodup → F s.defines all

section Renders

variable {new new1 new2 : List String} {s2 : Session} {F G : DefineTable → List String → Prop}

theorem renders_of_quiet (hflat : s.Flat pool names) (hquiet : s.Quiet s')
    (h : ∀ all, names <+: all → F s.defines all) : Renders pool names s s' [] F := by
  refine ⟨⟨?_, hquiet.requests_eq, hquiet.defines_eq⟩, fun all hall _ => h all ?_⟩
  · rw [List.append_nil]
    exact hflat.quiet hquiet
  · rwa [List.append_nil] at hall

theorem Renders.andThen (h1 : Renders pool names s s1 new1 F)
    (h2 : Renders pool (names ++ new1) s1 s2 new2 G) :
    Renders pool names s s2 (new1 ++ new2) fun defines all => F defines all ∧ G defines all := by
  refine ⟨⟨by rw [← List.append_assoc]; exact h2.flat, h2.requests_eq.trans h1.requests_eq,
    h2.defines_eq.trans h1.defines_eq⟩, fun all hall hnodup => ?_⟩
  rw [← List.append_assoc] at hall
  rw [← h1.defines_eq]
  refine ⟨?_, h2.holds all hall hnodup⟩
  rw [h1.defines_eq]
  exact h1.holds all ((List.prefix_append _ _).trans hall) hnodup

theorem Renders.before_quiet (h : Renders pool names s s1 new F) (hquiet : s1.Quiet s') :
    Renders pool names s s' new F :=
  ⟨⟨h.flat.quiet hquiet, hquiet.requests_eq.trans h.requests_eq,
    hquiet.defines_eq.trans h.defines_eq⟩, h.holds⟩

theorem Renders.imp (h : Renders pool names s s' new F)
    (hFG : ∀ all, names <+: all → all.Nodup → F s.defines all → G s.defines all) :
    Renders pool names s s' new G :=
  ⟨h.toDeclares, fun all hall hnodup =>
    hFG all ((List.prefix_append names new).trans hall) hnodup (h.holds all hall hnodup)⟩

end Renders

/-- A lowered expression means what was written, whatever is declared later. -/
theorem expr_lowered {e : Expr} (hflat : s.Flat pool names) (h : Gives (expr e) s n s') :
    s.Quiet s' ∧ ∀ all, names <+: all →
      n.Means pool all fun w input vars pos => e.eval s.defines w input vars pos :=
  ⟨(expr_means (List.prefix_refl names) e hflat h).1, fun _ hall => (expr_means hall e hflat h).2⟩

theorem renders_expr {e : Expr} (hflat : s.Flat pool names) (h : Gives (expr e) s n s') :
    Renders pool names s s' [] fun defines all =>
      n.Means pool all fun w input vars pos => e.eval defines w input vars pos :=
  renders_of_quiet hflat (expr_lowered hflat h).1 (expr_lowered hflat h).2

theorem renders_declaredName {t : Token} (hflat : s.Flat pool names)
    (h : Gives (declaredName t) s n s') : Renders pool names s s' [] fun _ _ => True :=
  renders_of_quiet hflat (declaredName_means (List.prefix_refl names) hflat h).1 fun _ _ => trivial

/-- Going on one way or another with an evaluated condition. -/
theorem branch_rel {c : Node} {condition : Expr} {defines : DefineTable}
    (hc : c.Means pool names fun w input vars pos => condition.eval defines w input vars pos)
    {f g : State → Option State} {f' g' : Surface → Option Surface}
    (hf : ∀ σ sf, σ.StoredOn pool names sf → Option.Rel (State.StoredOn pool names) (f σ) (f' sf))
    (hg : ∀ σ sf, σ.StoredOn pool names sf → Option.Rel (State.StoredOn pool names) (g σ) (g' sf))
    {w : Width} {input : Array Char} {σ : State} {sf : Surface} (hσ : σ.StoredOn pool names sf) :
    Option.Rel (State.StoredOn pool names)
      ((condition.evalIn defines w input σ).bind fun (v, σ) => if v = 0 then f σ else g σ)
      ((c.evalOn w input sf).bind fun (v, sf) => if v = 0 then f' sf else g' sf) := by
  refine rel_bind (hc.evalOn_rel hσ) ?_
  rintro ⟨v, σ'⟩ ⟨v', sf'⟩ ⟨rfl, hσ'⟩
  by_cases hv : v = 0
  · simp only [hv, if_true]
    exact hf σ' sf' hσ'
  · simp only [hv, if_false]
    exact hg σ' sf' hσ'

/-- Storing a value in the cell of a variable. -/
theorem storeAt_rel {e : Expr} {defines : DefineTable} {k : Nat} {name : String}
    (hn : n.Means pool names fun w input vars pos => e.eval defines w input vars pos)
    (hnodup : names.Nodup) (hk : names[k]? = some name) {w : Width} {input : Array Char} {σ : State}
    {sf : Surface} (hσ : σ.StoredOn pool names sf) :
    Option.Rel (State.StoredOn pool names)
      ((e.evalIn defines w input σ).map fun (v, σ) => σ.set name v)
      (n.storeAt w input (variableAt pool name k) sf) := by
  unfold Node.storeAt
  simp only [variableAt, Option.bind_some, Option.map_eq_bind]
  refine rel_bind (hn.evalOn_rel hσ) ?_
  rintro ⟨v, σ'⟩ ⟨v', sf'⟩ ⟨rfl, hσ'⟩
  exact .some (hσ'.set hnodup hk v)

/-- A declaration binds a new name to the next cell. -/
theorem renders_declare {name : String} {initial : Option Node} (hflat : s.Flat pool names)
    (h : Gives (Lower.declare (.newName name) initial) s n s') :
    n = .declare (variableAt pool name names.length) initial ∧
      Renders pool names s s' [name] fun _ all => all[names.length]? = some name := by
  obtain ⟨_, sym, heq, hnew, hdefine, -, rfl⟩ := (Lower.gives_declare hflat).mp h
  cases heq
  obtain ⟨rfl, hflat', hrequests, hdefines⟩ := Lower.gives_define_of_flat hflat hdefine hnew
  exact ⟨rfl, ⟨hflat', hrequests, hdefines⟩, fun all hall _ => getElem?_of_prefix hall (by simp)⟩

/-- An assignment goes to a declared variable. -/
theorem assign_of_gives {t : Token} {target value : Node} {s2 : Session} (hflat : s.Flat pool names)
    (htarget : Gives (declaredName t) s target s1) (h : Gives (Lower.assign target value) s2 n s') :
    ∃ k, names[k]? = some t.text ∧ n = .assign (variableAt pool t.text k) value ∧ s' = s2 := by
  rw [declaredName, gives_during] at htarget
  obtain ⟨sym, hsym, -, -, rfl, rfl⟩ := Lower.gives_assign.mp h
  rcases Lower.gives_declaredName.mp htarget with ⟨_, v, -, -, rfl, -⟩ | ⟨-, sym', hsym', -, rfl, -⟩
  · cases hsym
  · cases hsym
    rw [hflat.lookup_eq] at hsym'
    obtain ⟨k, hk, rfl⟩ := lookup_layout_eq_some hsym'
    exact ⟨k, hk, rfl, rfl⟩

mutual

/-- **A statement and its node do the same.** The variables that it declares come behind those
declared before. -/
theorem stmt_means : ∀ (st : Stmt) {names : List String} {s s' : Session} {n : Node},
    s.Flat pool names → Gives (stmt st) s n s' →
    Renders pool names s s' st.declared fun defines all =>
      n.Carries pool all fun w input fuel σ => st.run defines w input fuel σ
  | .variable name none, names, s, s', n, hflat, h => by
    simp only [stmt, newName, gives_bind, gives_during] at h
    obtain ⟨target, s1, htarget, hdeclare⟩ := h
    obtain ⟨rfl, rfl⟩ := gives_pure.mp htarget
    obtain ⟨rfl, hnew⟩ := renders_declare hflat hdeclare
    rw [Stmt.declared]
    refine hnew.imp fun all _ hnodup hk =>
      { within := by rw [Node.Within]; exact within_variableAt hk
        run_rel := fun w input fuel σ sf hσ => ?_ }
    simp only [Stmt.run, Node.run, variableAt, Option.map_some]
    exact .some (hσ.set hnodup hk 0)
  | .variable name (some e), names, s, s', n, hflat, h => by
    simp only [stmt, newName, gives_bind, gives_during] at h
    obtain ⟨target, s1, htarget, value, s2, hvalue, hdeclare⟩ := h
    obtain ⟨rfl, rfl⟩ := gives_pure.mp htarget
    have hvalue := renders_expr hflat hvalue
    obtain ⟨rfl, hnew⟩ := renders_declare hvalue.flat hdeclare
    rw [Stmt.declared]
    refine (hvalue.andThen hnew).imp fun all _ hnodup ⟨hmeans, hk⟩ =>
      { within := by rw [Node.Within]; exact ⟨within_variableAt hk, hmeans.within⟩
        run_rel := fun w input fuel σ sf hσ => ?_ }
    simp only [Stmt.run, Node.run]
    exact storeAt_rel hmeans hnodup hk hσ
  | .assign name e, names, s, s', n, hflat, h => by
    simp only [stmt, gives_bind, gives_during] at h
    obtain ⟨target, s1, htarget, value, s2, hvalue, hassign⟩ := h
    obtain ⟨k, hk, rfl, rfl⟩ := assign_of_gives hflat htarget hassign
    have hname := renders_declaredName hflat htarget
    have hvalue := renders_expr hname.flat hvalue
    rw [Stmt.declared]
    refine (hname.andThen hvalue).imp fun all hall hnodup ⟨_, hmeans⟩ => ?_
    have hk' := getElem?_of_prefix hall hk
    refine { within := by rw [Node.Within]; exact ⟨within_variableAt hk', hmeans.within⟩
             run_rel := fun w input fuel σ sf hσ => ?_ }
    simp only [Stmt.run, Node.run]
    exact storeAt_rel hmeans hnodup hk' hσ
  | .stack _ _, _, _, _, _, _, h | .push _ _, _, _, _, _, _, h | .returning none, _, _, _, _, _, h
  | .returning (some _), _, _, _, _, _, h => by
    simp [stmt, gives_during, Lower.unsupported] at h
  | .expr e, names, s, s', n, hflat, h => by
    rw [stmt] at h
    rw [Stmt.declared]
    refine (renders_expr hflat h).imp fun all _ _ hmeans =>
      ⟨hmeans.within, hmeans.isValue.codeKind_ne, hmeans.isValue.op_ne, fun w input fuel σ sf _ => ?_⟩
    -- neither the statement nor its node does anything that could be run
    rw [hmeans.isValue.run_eq]
    simp only [Stmt.run]
    exact .none
  | .output e, names, s, s', n, hflat, h => by
    simp only [stmt, gives_bind, gives_pure] at h
    obtain ⟨value, s1, hvalue, rfl, rfl⟩ := h
    rw [Stmt.declared]
    refine (renders_expr hflat hvalue).imp fun all _ _ hmeans =>
      { within := by rw [Node.Within]; exact hmeans.within
        run_rel := fun w input fuel σ sf hσ => ?_ }
    simp only [Stmt.run, Node.run, Option.map_eq_bind]
    refine rel_bind (hmeans.evalOn_rel hσ) ?_
    rintro ⟨v, σ'⟩ ⟨v', sf'⟩ ⟨rfl, hσ'⟩
    exact .some ⟨hσ'.inputPos, congrArg (String.push · _) hσ'.output, hσ'.vars⟩
  | .ifElse condition body none, names, s, s', n, hflat, h => by
    simp only [stmt, gives_bind, gives_pure] at h
    obtain ⟨c, s1, hc, b, s2, hb, rfl, rfl⟩ := h
    have hc := renders_expr hflat hc
    rw [Stmt.declared]
    refine (hc.andThen (stmt_means body hc.flat hb)).imp fun all _ _ ⟨hcond, hbody⟩ =>
      { within := by rw [Node.Within]; exact ⟨hcond.within, hbody.within⟩
        run_rel := fun w input fuel σ sf hσ => ?_ }
    simp only [Stmt.run, Node.run]
    exact branch_rel hcond (fun _ _ h => .some h) (hbody.run_rel w input fuel) hσ
  | .ifElse condition body (some otherwise), names, s, s', n, hflat, h => by
    simp only [stmt, gives_bind, gives_pure] at h
    obtain ⟨c, s1, hc, b, s2, hb, o, s3, ho, rfl, rfl⟩ := h
    have hc := renders_expr hflat hc
    have hb := hc.andThen (stmt_means body hc.flat hb)
    rw [Stmt.declared]
    refine (hb.andThen (stmt_means otherwise hb.flat ho)).imp
      fun all _ _ ⟨⟨hcond, hbody⟩, hotherwise⟩ => { within := ?_, run_rel := ?_ }
    · rw [Node.Within]
      exact ⟨hcond.within, hbody.within, hotherwise.within, hotherwise.ready⟩
    · intro w input fuel σ sf hσ
      simp only [Stmt.run, Node.run]
      exact branch_rel hcond (hotherwise.run_rel w input fuel) (hbody.run_rel w input fuel) hσ
  | .loop condition body, names, s, s', n, hflat, h => by
    simp only [stmt, gives_bind, gives_pure] at h
    obtain ⟨c, s1, hc, b, s2, hb, rfl, rfl⟩ := h
    have hc := renders_expr hflat hc
    rw [Stmt.declared]
    refine (hc.andThen (stmt_means body hc.flat hb)).imp fun all _ _ ⟨hcond, hbody⟩ =>
      { within := by rw [Node.Within]; exact ⟨hcond.within, hbody.within⟩
        run_rel := fun w input fuel σ sf hσ => ?_ }
    simp only [Stmt.run, Node.run]
    exact repeatWhile_rel (fun _ _ => hcond.evalOn_rel) (hbody.run_rel w input fuel) fuel hσ
  | .block body, names, s, s', n, hflat, h => by
    simp only [stmt, gives_bind, gives_during] at h
    obtain ⟨ns, s1, hns, hblock⟩ := h
    have hbody := stmts_mean body hflat hns
    obtain ⟨s2, hblock', hquiet⟩ := Lower.gives_block hbody.flat.inner ns
    obtain ⟨rfl, rfl⟩ := hblock.unique hblock'
    rw [Stmt.declared]
    refine (hbody.before_quiet hquiet).imp fun all _ _ hbody =>
      { within := by rw [Node.Within]; exact hbody.within
        run_rel := fun w input fuel σ sf hσ => ?_ }
    simp only [Stmt.run, Node.run]
    exact hbody.run_rel w input fuel σ sf hσ

theorem stmts_mean : ∀ (sts : List Stmt) {names : List String} {s s' : Session} {ns : List Node},
    s.Flat pool names → Gives (stmts sts) s ns s' →
    Renders pool names s s' (declaredAll sts) fun defines all =>
      Node.CarryAll pool all ns fun w input fuel σ => runAll defines w input fuel sts σ
  | [], names, s, s', ns, hflat, h => by
    obtain ⟨rfl, rfl⟩ := gives_pure.mp h
    simp only [declaredAll, runAll]
    exact renders_of_quiet hflat (.refl _) fun _ _ => Node.carryAll_nil
  | st :: sts, names, s, s', ns, hflat, h => by
    simp only [stmts, gives_bind, gives_pure] at h
    obtain ⟨n, s1, hn, ns', s2, hns, rfl, rfl⟩ := h
    have hfirst := stmt_means st hflat hn
    simp only [declaredAll, runAll]
    exact (hfirst.andThen (stmts_mean sts hfirst.flat hns)).imp fun _ _ _ h => h.1.cons h.2

end

/-- The nodes that the code of a program is made of. -/
def working (ns : List Node) : List Node := ns.filter fun n => n.op? ≠ some "nop"

/-- **The nodes of a program do what the program says.** -/
theorem items_mean (is : List Item) {names : List String} {s s' : Session} {ns : List Node}
    (hflat : s.Flat pool names) (h : Gives (items is) s ns s') :
    Renders pool names s s' (declaredItems is) fun defines all =>
      Node.CarryAll pool all (working ns) fun w input fuel σ =>
        runItems defines w input fuel is σ := by
  induction is generalizing names s ns with
  | nil =>
    obtain ⟨rfl, rfl⟩ := gives_pure.mp h
    exact renders_of_quiet hflat (.refl _) fun _ _ => Node.carryAll_nil
  | cons i is ih =>
    simp only [items, gives_bind, gives_pure] at h
    obtain ⟨n, s1, hn, ns', s2, hns, rfl, rfl⟩ := h
    cases i with
    | stmt st =>
      have hfirst := stmt_means st hflat hn
      refine (hfirst.andThen (ih hfirst.flat hns)).imp fun all _ _ ⟨hfirst, hrest⟩ => ?_
      have hkept : working (n :: ns') = n :: working ns' := by
        simp [working, hfirst.op_ne]
      rw [hkept]
      exact hfirst.cons hrest
    | define name value =>
      simp only [item, gives_bind, gives_pure] at hn
      obtain ⟨_, s2, hname, _, s3, hvalue, rfl, rfl⟩ := hn
      have hname := renders_declaredName hflat hname
      have hdefine := hname.andThen (renders_expr hname.flat hvalue)
      refine (hdefine.andThen (ih hdefine.flat hns)).imp fun all _ _ ⟨_, hrest⟩ => ?_
      have hdropped : working (.nop (some ("define " ++ name.text)) :: ns') = working ns' := by
        simp [working, Node.op?]
      rw [hdropped]
      exact hrest
    | includes file =>
      simp only [item, gives_during, gives_throw] at hn
    | function name params body =>
      simp [item, gives_during, Lower.unsupported] at hn

end SourceLower

end TapeScript
