import TapeScript.Proofs.GadgetRuns
import TapeScript.Proofs.Supply

set_option autoImplicit false

/-! # Folding against code

An expression of numbers, sums, differences and comparisons can be computed in two ways. As it stands
it is folded into one number, in whole numbers without bounds (`Expr.exact`). With a variable in the
place of each number it is computed by code, in cells that wrap around (`Expr.onCells`). The two agree
in a cell as long as comparisons see only numbers that fit in one (`Expr.onCells_eq`).
-/

namespace TapeScript

variable {op : String}

/-! ## Numbers and operators -/

/-- The value of an operator on whole numbers. -/
def exactValue (op : String) (a b : Int) : Int :=
  if op = "+" then a + b
  else if op = "-" then a - b
  else if op = "==" then truth (a = b)
  else if op = "!=" then truth (a ≠ b)
  else if op = ">=" then truth (b ≤ a)
  else if op = "<=" then truth (a ≤ b)
  else if op = ">" then truth (b < a)
  else truth (a < b)

theorem foldValue_eq (hop : op ∈ Node.operators) (a b : Int) :
    Lower.foldValue op a b = .ok (exactValue op a b) := by
  simp only [Node.operators, List.mem_cons, List.not_mem_nil, or_false] at hop
  rcases hop with rfl | rfl | rfl | rfl | rfl | rfl | rfl | rfl <;>
    simp [Lower.foldValue, exactValue, truth]

theorem exists_cellValue (w : Width) (hop : op ∈ Node.operators) (a b : Nat) :
    ∃ v, cellValue w op a b = some v := by
  simp only [Node.operators, List.mem_cons, List.not_mem_nil, or_false] at hop
  rcases hop with rfl | rfl | rfl | rfl | rfl | rfl | rfl | rfl <;> simp [cellValue]

/-- The number fits in a cell. -/
def Width.Holds (w : Width) (n : Int) : Prop := 0 ≤ n ∧ n < w.modulus

instance (w : Width) (n : Int) : Decidable (w.Holds n) :=
  inferInstanceAs (Decidable (0 ≤ n ∧ n < w.modulus))

theorem Width.wrap_of_holds {w : Width} {n : Int} (h : w.Holds n) : (w.wrap n : Int) = n := by
  unfold wrap
  rw [Int.emod_eq_of_lt h.1 h.2, Int.toNat_of_nonneg h.1]

theorem Width.wrap_truth (w : Width) (p : Prop) [Decidable p] : w.wrap (truth p) = truth p := by
  have hlt : truth p < w.modulus := by
    have := w.one_lt_modulus
    unfold truth
    split_ifs <;> omega
  exact w.wrap_of_lt hlt

theorem Width.coe_wrap (w : Width) (n : Int) : (w.wrap n : Int) = n % w.modulus := by
  have hnonneg := Int.emod_nonneg n (Int.natCast_ne_zero.mpr w.modulus_pos.ne')
  unfold wrap
  rw [Int.toNat_of_nonneg hnonneg]

/-- Sums and differences may be reduced before or after, and comparisons of numbers that fit in a
cell come out the same in cells. -/
theorem cellValue_wrap (w : Width) (hop : op ∈ Node.operators) {a b : Int}
    (h : op = "+" ∨ op = "-" ∨ (w.Holds a ∧ w.Holds b)) :
    cellValue w op (w.wrap a) (w.wrap b) = some (w.wrap (exactValue op a b)) := by
  by_cases hsum : op = "+" ∨ op = "-"
  · rcases hsum with rfl | rfl
    · have heq : w.wrap (w.wrap a + w.wrap b) = w.wrap (a + b) := by
        rw [w.coe_wrap, w.coe_wrap]
        unfold Width.wrap
        rw [← Int.add_emod]
      simp [cellValue, exactValue, heq]
    · have heq : w.wrap (w.wrap a - w.wrap b) = w.wrap (a - b) := by
        rw [w.coe_wrap, w.coe_wrap]
        unfold Width.wrap
        rw [← Int.sub_emod]
      simp [cellValue, exactValue, heq]
  · obtain ⟨ha, hb⟩ : w.Holds a ∧ w.Holds b := by tauto
    have ha := Width.wrap_of_holds ha
    have hb := Width.wrap_of_holds hb
    generalize w.wrap a = m at ha
    generalize w.wrap b = n at hb
    subst ha
    subst hb
    simp only [Node.operators, List.mem_cons, List.not_mem_nil, or_false] at hop
    rcases hop with rfl | rfl | rfl | rfl | rfl | rfl | rfl | rfl <;>
      simp_all [cellValue, exactValue, Width.wrap_truth]

/-! ## Expressions of numbers -/

/-- The number that a literal stands for. -/
def Token.number (t : Token) : Int := (Literal.number t.text).toOption.getD 0

/-- The token is a literal of a number below `2 ^ 32`. -/
structure Token.IsLiteral (t : Token) : Prop where
  reads : Literal.number t.text = .ok t.number
  nonneg : 0 ≤ t.number
  lt : t.number < 2 ^ 32

theorem Token.isLiteral_iff {t : Token} : t.IsLiteral ↔
    (Literal.number t.text).isOk = true ∧ 0 ≤ t.number ∧ t.number < 2 ^ 32 := by
  constructor
  · rintro ⟨hreads, hnonneg, hlt⟩
    exact ⟨by rw [hreads]; rfl, hnonneg, hlt⟩
  · rintro ⟨hok, hnonneg, hlt⟩
    refine ⟨?_, hnonneg, hlt⟩
    unfold Token.number
    cases hread : Literal.number t.text with
    | error fault =>
      rw [hread] at hok
      cases hok
    | ok n => rfl

instance (t : Token) : Decidable t.IsLiteral := decidable_of_iff _ Token.isLiteral_iff.symm

mutual

/-- The expression is made of literals, sums, differences and comparisons. -/
def Expr.Foldable : Expr → Prop
  | .number t => t.IsLiteral
  | .chain _ first rest => rest ≠ [] ∧ first.Foldable ∧ FoldableRest rest
  | _ => False

def FoldableRest : List (Token × Expr) → Prop
  | [] => True
  | (op, e) :: rest => op.text ∈ Node.operators ∧ e.Foldable ∧ FoldableRest rest

end

mutual

def Expr.decideFoldable : ∀ e : Expr, Decidable e.Foldable
  | .number t => inferInstanceAs (Decidable t.IsLiteral)
  | .chain _ first rest =>
    have := Expr.decideFoldable first
    have := decideFoldableRest rest
    inferInstanceAs (Decidable (rest ≠ [] ∧ first.Foldable ∧ FoldableRest rest))
  | .character _ | .name _ | .call _ _ | .peek _ | .pop _ | .input | .unary _ _ => .isFalse id

def decideFoldableRest : ∀ rest : List (Token × Expr), Decidable (FoldableRest rest)
  | [] => .isTrue trivial
  | (op, e) :: rest =>
    have := e.decideFoldable
    have := decideFoldableRest rest
    inferInstanceAs (Decidable (op.text ∈ Node.operators ∧ e.Foldable ∧ FoldableRest rest))

end

instance (e : Expr) : Decidable e.Foldable := e.decideFoldable

mutual

/-- The value in whole numbers. -/
def Expr.exact : Expr → Int
  | .number t => t.number
  | .chain _ first rest => exactFrom first.exact rest
  | _ => 0

/-- Operators and operands behind a number, from left to right. -/
def exactFrom : Int → List (Token × Expr) → Int
  | v, [] => v
  | v, (op, e) :: rest => exactFrom (exactValue op.text v e.exact) rest

end

section OnCells

variable (w : Width)

mutual

/-- The value in cells. -/
def Expr.onCells : Expr → Nat
  | .number t => w.wrap t.number
  | .chain _ first rest => onCellsFrom first.onCells rest
  | _ => 0

def onCellsFrom : Nat → List (Token × Expr) → Nat
  | v, [] => v
  | v, (op, e) :: rest => onCellsFrom ((cellValue w op.text v e.onCells).getD 0) rest

end

mutual

/-- Whatever is compared fits in a cell. -/
def Expr.Comparable : Expr → Prop
  | .chain _ first rest => first.Comparable ∧ ComparableFrom first.exact rest
  | _ => True

def ComparableFrom : Int → List (Token × Expr) → Prop
  | _, [] => True
  | v, (op, e) :: rest =>
    e.Comparable ∧ (op.text = "+" ∨ op.text = "-" ∨ (w.Holds v ∧ w.Holds e.exact)) ∧
      ComparableFrom (exactValue op.text v e.exact) rest

end

mutual

def Expr.decideComparable : ∀ e : Expr, Decidable (e.Comparable w)
  | .chain _ first rest =>
    have := Expr.decideComparable first
    have := decideComparableFrom first.exact rest
    inferInstanceAs (Decidable (first.Comparable w ∧ ComparableFrom w first.exact rest))
  | .number _ | .character _ | .name _ | .call _ _ | .peek _ | .pop _ | .input | .unary _ _ =>
    .isTrue trivial

def decideComparableFrom : ∀ (v : Int) (rest : List (Token × Expr)),
    Decidable (ComparableFrom w v rest)
  | _, [] => .isTrue trivial
  | v, (op, e) :: rest =>
    have := e.decideComparable
    have := decideComparableFrom (exactValue op.text v e.exact) rest
    inferInstanceAs (Decidable (e.Comparable w ∧ (op.text = "+" ∨ op.text = "-" ∨
      (w.Holds v ∧ w.Holds e.exact)) ∧ ComparableFrom w (exactValue op.text v e.exact) rest))

end

instance (e : Expr) : Decidable (e.Comparable w) := e.decideComparable w

end OnCells

mutual

/-- **In cells and in whole numbers the value is the same**, as far as a cell shows it. -/
theorem Expr.onCells_eq (w : Width) : ∀ e : Expr, e.Foldable → e.Comparable w →
    e.onCells w = w.wrap e.exact
  | .number _, _, _ => rfl
  | .chain _ first rest, h, hc => by
    rw [Expr.onCells, Expr.exact, Expr.onCells_eq w first h.2.1 hc.1]
    exact onCellsFrom_eq w rest h.2.2 hc.2
  | .character _, h, _ | .name _, h, _ | .call _ _, h, _ | .peek _, h, _ | .pop _, h, _
  | .input, h, _ | .unary _ _, h, _ => h.elim

theorem onCellsFrom_eq (w : Width) : ∀ (rest : List (Token × Expr)) {v : Int}, FoldableRest rest →
    ComparableFrom w v rest → onCellsFrom w (w.wrap v) rest = w.wrap (exactFrom v rest)
  | [], _, _, _ => rfl
  | (op, e) :: rest, v, h, hc => by
    rw [onCellsFrom, exactFrom, Expr.onCells_eq w e h.2.1 hc.1, cellValue_wrap w h.1 hc.2.1]
    exact onCellsFrom_eq w rest h.2.2 hc.2.2

end

/-! ### How large the numbers get -/

theorem natAbs_exactValue {op : String} (hop : op ∈ Node.operators) {a b : Int} {m n : Nat}
    (ha : a.natAbs ≤ 2 ^ 32 * m) (hb : b.natAbs ≤ 2 ^ 32 * n) (hn : 0 < n) :
    (exactValue op a b).natAbs ≤ 2 ^ 32 * (m + n) := by
  have htruth : ∀ (p : Prop) [Decidable p], ((truth p : Int)).natAbs ≤ 1 := by
    intro p _
    unfold truth
    split_ifs <;> simp
  simp only [Node.operators, List.mem_cons, List.not_mem_nil, or_false] at hop
  rcases hop with rfl | rfl | hop
  · simp only [exactValue, if_true]
    omega
  · simp only [exactValue, if_true, String.reduceEq, if_false]
    omega
  · have hone : (exactValue op a b).natAbs ≤ 1 := by
      rcases hop with rfl | rfl | rfl | rfl | rfl | rfl <;>
        simp only [exactValue, String.reduceEq, if_true, if_false] <;> exact htruth _
    omega

theorem Lower.writable_of_le {n : Int} {m : Nat} (hn : n.natAbs ≤ 2 ^ 32 * m)
    (hm : 2 ^ 32 * m < 10 ^ Text.digitLimit) : writable n = true := by
  unfold writable
  exact decide_eq_true (lt_of_le_of_lt hn hm)

/-- As many literals as there can be cells make no number that is too long. -/
theorem Lower.lt_digitLimit {k : Nat} (h : (k : Int) ≤ Emit.countBound) :
    2 ^ 32 * k < 10 ^ Text.digitLimit := by
  have hbound : Emit.countBound = 2 ^ 63 := rfl
  calc 2 ^ 32 * k < 10 ^ 29 := by omega
    _ ≤ 10 ^ Text.digitLimit := Nat.pow_le_pow_right (by omega) (by decide)

/-! ## Variables in the place of literals -/

section Replaced

variable (held : List (Token × Token))

mutual

/-- The second expression is the first with a variable in the place of each literal; the variables
are listed with the literals that they hold. -/
inductive Expr.Replaced : Expr → Expr → Prop where
  | literal {t v : Token} {p : Token × Token} (hp : p ∈ held) (hname : p.1.text = v.text)
      (hliteral : p.2.text = t.text) : Expr.Replaced (.number t) (.name v)
  | chain {level : Level} {first first' : Expr} {rest rest' : List (Token × Expr)}
      (hfirst : Expr.Replaced first first') (hrest : ReplacedRest rest rest') :
      Expr.Replaced (.chain level first rest) (.chain level first' rest')

inductive ReplacedRest : List (Token × Expr) → List (Token × Expr) → Prop where
  | nil : ReplacedRest [] []
  | cons {op op' : Token} {e e' : Expr} {rest rest' : List (Token × Expr)}
      (hop : op'.text = op.text) (he : Expr.Replaced e e') (hrest : ReplacedRest rest rest') :
      ReplacedRest ((op, e) :: rest) ((op', e') :: rest')

end

end Replaced

variable {held : List (Token × Token)}

mutual

theorem Expr.Replaced.depth_eq : ∀ {e e' : Expr}, e.Replaced held e' →
    e'.tree.depth = e.tree.depth
  | _, _, .literal _ _ _ => rfl
  | _, _, .chain hfirst hrest => by
    simp only [Expr.tree, Tree.depth, depthOfAll, hfirst.depth_eq, hrest.depth_eq]

theorem ReplacedRest.depth_eq : ∀ {rest rest' : List (Token × Expr)}, ReplacedRest held rest rest' →
    depthOfAll (chainTrees rest') = depthOfAll (chainTrees rest)
  | _, _, .nil => rfl
  | _, _, .cons _ he hrest => by
    simp only [chainTrees, depthOfAll, Tree.depth, he.depth_eq, hrest.depth_eq]

end

/-! ## Evaluation -/

section Evaluation

variable {defines : DefineTable} {w : Width} {input : Array Char} {vars : String → Nat} {pos : Nat}

mutual

/-- The numbers as they stand are folded. -/
theorem Expr.eval_foldable : ∀ e : Expr, e.Foldable →
    e.eval defines w input vars pos = some (.constant e.exact, pos)
  | .number t, h => by
    rw [Expr.eval, h.reads]
    rfl
  | .chain _ first rest, h => by
    rw [Expr.eval, Expr.eval_foldable first h.2.1, Option.bind_some]
    exact evalChain_foldable rest h.2.2
  | .character _, h | .name _, h | .call _ _, h | .peek _, h | .pop _, h | .input, h
  | .unary _ _, h => h.elim

theorem evalChain_foldable : ∀ (rest : List (Token × Expr)) {v : Int}, FoldableRest rest →
    evalChain defines w input vars (.constant v) rest pos = some (.constant (exactFrom v rest), pos)
  | [], _, _ => rfl
  | (op, e) :: rest, v, h => by
    rw [evalChain, Expr.eval_foldable e h.2.1]
    simp only [Option.bind_some, Value.combine, foldValue_eq h.1, Except.toOption, Option.map_some]
    exact evalChain_foldable rest h.2.2

end

/-- The variables hold their literals, and none of them is a constant. -/
def HoldLiterals (held : List (Token × Token)) (defines : DefineTable) (w : Width)
    (vars : String → Nat) : Prop :=
  ∀ p ∈ held, defines.lookup p.1.text = none ∧ vars p.1.text = w.wrap p.2.number

mutual

/-- With variables in their place they are computed in cells. -/
theorem Expr.Replaced.eval_eq (hheld : HoldLiterals held defines w vars) : ∀ {e e' : Expr},
    e.Replaced held e' → e.Foldable →
    e'.eval defines w input vars pos = some (.cell (e.onCells w), pos)
  | _, _, .literal hp hname hliteral, _ => by
    obtain ⟨hnone, hvalue⟩ := hheld _ hp
    rw [Expr.eval, ← hname, hnone, hvalue, Expr.onCells, Token.number, Token.number, hliteral]
  | _, _, .chain hfirst hrest, h => by
    rw [Expr.eval, hfirst.eval_eq hheld h.2.1, Option.bind_some]
    exact hrest.eval_eq hheld h.2.2

theorem ReplacedRest.eval_eq (hheld : HoldLiterals held defines w vars) :
    ∀ {rest rest' : List (Token × Expr)} {v : Nat}, ReplacedRest held rest rest' →
    FoldableRest rest →
    evalChain defines w input vars (.cell v) rest' pos = some (.cell (onCellsFrom w v rest), pos)
  | _, _, _, .nil, _ => rfl
  | _, _, v, .cons hop he hrest, h => by
    rename_i op op' e e' rest rest'
    obtain ⟨u, hu⟩ := exists_cellValue w h.1 v (e.onCells w)
    rw [evalChain, he.eval_eq hheld h.2.1, Option.bind_some, onCellsFrom, hop]
    simp only [Value.combine, Value.stored, hu, Option.map_some, Option.bind_some]
    exact hrest.eval_eq hheld h.2.2

end

end Evaluation

end TapeScript
