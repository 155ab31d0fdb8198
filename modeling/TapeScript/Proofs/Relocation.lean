import TapeScript.Proofs.EmissionPairs
import TapeScript.Proofs.Rendering

set_option autoImplicit false

/-! # Lowering with pools of two sizes

The variables of a script lie behind the scratch cells, in the order of their declarations. With a
pool of another size the same script is lowered to the same nodes, the variables of which are so many
cells further to the right or to the left (`SourceLower.items_beside`).
-/

namespace TapeScript

/-! ## Where the variables lie -/

/-- The place of a cell when the pool has `Q` scratch cells instead of `P`: scratch cells stay where
they are, and the cells behind the pool stay behind it. -/
def replace (P Q : Nat) (cell : Int) : Int := if cell < P then cell else cell + Q - P

theorem replace_of_le {P : Nat} (Q : Nat) {cell : Int} (h : (P : Int) ≤ cell) :
    replace P Q cell = cell + Q - P := by
  rw [replace, if_neg (by omega)]

theorem relocate_variableAt (P Q : Nat) (name : String) (k : Nat) :
    (variableAt P name k).relocate (replace P Q) = variableAt Q name k := by
  have hplace : replace P Q ((P + k : Nat) : Int) = ((Q + k : Nat) : Int) := by
    rw [replace_of_le Q (by omega)]
    omega
  simp only [variableAt, Symbol.relocate, Option.map_some, hplace]

theorem lookup_map_snd {α β : Type} (f : α → β) (l : List (String × α)) (name : String) :
    (l.map fun p => (p.1, f p.2)).lookup name = (l.lookup name).map f := by
  induction l with
  | nil => rfl
  | cons p l ih =>
    rw [List.map_cons, List.lookup_cons, List.lookup_cons]
    cases name == p.1 with
    | true => rfl
    | false => exact ih

/-- Each variable is found at its new place. -/
theorem lookup_layout_replace (P Q : Nat) (names : List String) (name : String) :
    (layout Q names).lookup name =
      ((layout P names).lookup name).map (Symbol.relocate (replace P Q)) := by
  have hlayout : layout Q names =
      (layout P names).map fun p => (p.1, p.2.relocate (replace P Q)) := by
    unfold layout
    rw [List.map_map]
    refine List.map_congr_left fun p _ => ?_
    simp only [Function.comp_apply, relocate_variableAt]
  rw [hlayout, lookup_map_snd]

/-! ## Nodes with other cells -/

namespace Node

variable (place : Int → Int)

theorem op?_relocate (n : Node) : (n.relocate place).op? = n.op? := by
  cases n with
  | declare symbol initial => cases initial <;> rfl
  | ifElse condition body otherwise => cases otherwise <;> rfl
  | _ => rfl

theorem symbol?_relocate (n : Node) :
    (n.relocate place).symbol? = n.symbol?.map (Symbol.relocate place) := by
  cases n with
  | declare symbol initial => cases initial <;> rfl
  | ifElse condition body otherwise => cases otherwise <;> rfl
  | _ => rfl

theorem relocateAll_eq_map (ns : List Node) : relocateAll place ns = ns.map (relocate place) := by
  induction ns with
  | nil => rfl
  | cons n ns ih => rw [relocateAll, List.map_cons, ih]

theorem working_relocate (ns : List Node) :
    SourceLower.working (ns.map (relocate place)) = relocateAll place (SourceLower.working ns) := by
  rw [relocateAll_eq_map]
  unfold SourceLower.working
  rw [List.filter_map]
  simp only [Function.comp_def, op?_relocate]

mutual

theorem calls_relocate : ∀ n : Node, (n.relocate place).calls = n.calls
  | .binary _ _ left right => by
    rw [relocate, calls, calls, calls_relocate left, calls_relocate right]
  | .declare _ (some value) | .assign _ value | .output value => by
    rw [relocate, calls, calls, calls_relocate value]
  | .block body => by
    rw [relocate, calls, calls, callsAll_relocate body]
  | .ifElse condition body none | .loop condition body => by
    rw [relocate, calls, calls, calls_relocate condition, calls_relocate body]
  | .ifElse condition body (some otherwise) => by
    rw [relocate, calls, calls, calls_relocate condition, calls_relocate body,
      calls_relocate otherwise]
  | .constant _ _ | .load _ | .input | .unary _ _ | .declare _ none | .exprStmt _ | .newName _
  | .nop _ | .program _ | .withheld _ | .bare _ | .blank | .misfit | .deep => rfl

theorem callsAll_relocate : ∀ ns : List Node, callsAll (relocateAll place ns) = callsAll ns
  | [] => rfl
  | n :: ns => by rw [relocateAll, callsAll, callsAll, calls_relocate n, callsAll_relocate ns]

end

variable {base : Int} {count : Nat}

theorem mem_location_of_within {symbol : Symbol} (h : symbol.Within base count) :
    ∀ c ∈ symbol.location.toList, base ≤ c ∧ c < base + count := by
  intro c hc
  exact h c (Option.mem_toList.mp hc)

mutual

/-- The cells of the variables lie in the stretch of the node. -/
theorem varCells_of_within : ∀ n : Node, n.Within base count →
    ∀ c ∈ n.varCells, base ≤ c ∧ c < base + count
  | .load symbol, h | .declare symbol none, h => by
    rw [Within] at h
    exact mem_location_of_within h
  | .declare symbol (some value), h | .assign symbol value, h => by
    rw [Within] at h
    exact List.forall_mem_append.mpr
      ⟨mem_location_of_within h.1, varCells_of_within value h.2⟩
  | .block body, h => by
    rw [Within] at h
    exact varCellsAll_of_within body h
  | .binary _ _ first second, h | .ifElse first second none, h | .loop first second, h => by
    rw [Within] at h
    exact List.forall_mem_append.mpr
      ⟨varCells_of_within first h.1, varCells_of_within second h.2⟩
  | .ifElse condition body (some otherwise), h => by
    rw [Within] at h
    exact List.forall_mem_append.mpr ⟨varCells_of_within condition h.1,
      List.forall_mem_append.mpr
        ⟨varCells_of_within body h.2.1, varCells_of_within otherwise h.2.2.1⟩⟩
  | .output value, h => by
    rw [Within] at h
    exact varCells_of_within value h
  | .constant _ _, _ | .input, _ | .unary _ _, _ | .exprStmt _, _ | .newName _, _ | .nop _, _
  | .program _, _ | .withheld _, _ | .bare _, _ | .blank, _ | .misfit, _ | .deep, _ => by
    intro c hc
    cases hc

theorem varCellsAll_of_within : ∀ ns : List Node, AllWithin base count ns →
    ∀ c ∈ varCellsAll ns, base ≤ c ∧ c < base + count
  | [], _ => by
    intro c hc
    cases hc
  | n :: ns, h => by
    rw [AllWithin] at h
    exact List.forall_mem_append.mpr
      ⟨varCells_of_within n h.1, varCellsAll_of_within ns h.2⟩

end

end Node

/-! ## The rules -/

namespace Lower

variable (place : Int → Int)

theorem constantValue_relocate (n : Node) :
    constantValue (n.relocate place) = constantValue n := by
  cases n with
  | declare symbol initial => cases initial <;> rfl
  | ifElse condition body otherwise => cases otherwise <;> rfl
  | _ => rfl

theorem isConstant_relocate (n : Node) : isConstant (n.relocate place) = isConstant n := by
  cases n with
  | declare symbol initial => cases initial <;> rfl
  | ifElse condition body otherwise => cases otherwise <;> rfl
  | _ => rfl

theorem bothConstant_relocate (left right : Node) :
    bothConstant (left.relocate place) (right.relocate place) = bothConstant left right := by
  rw [bothConstant, bothConstant, isConstant_relocate, isConstant_relocate]

theorem targetOf_relocate {target : Node} {sym : Symbol} (h : targetOf target = .ok sym) :
    targetOf (target.relocate place) = .ok (sym.relocate place) := by
  have hsymbol : target.symbol? = some sym := by
    unfold targetOf at h
    split at h
    · next heq => rw [heq, Except.ok.inj h]
    · cases h
    · cases h
  unfold targetOf
  simp only [Node.symbol?_relocate, hsymbol, Option.map_some]

end Lower

/-! ## Two sessions side by side -/

namespace SourceLower

variable {P Q : Nat} {names names1 : List String} {s s1 s' s1' : Session}

/-- Two sessions with pools of their own, in which the same names are declared and defined. -/
structure Beside (P Q : Nat) (names : List String) (s s' : Session) : Prop where
  flat : s.Flat P names
  flat' : s'.Flat Q names
  defines_eq : s'.defines = s.defines

theorem Beside.quiet (h : Beside P Q names s s') (hq : s.Quiet s1) (hq' : s'.Quiet s1') :
    Beside P Q names s1 s1' :=
  ⟨h.flat.quiet hq, h.flat'.quiet hq', by rw [hq'.defines_eq, hq.defines_eq, h.defines_eq]⟩

theorem Beside.note (h : Beside P Q names s s') {line : String} (hline : isRequest line = false) :
    Beside P Q names (s.note line) (s'.note line) :=
  h.quiet (.note s hline) (.note s' hline)

section Moves

variable {ε α β γ δ : Type} {image : α → β} {image' : γ → δ}

/-- Whatever the first action gives in its session, the second one gives the image of it in the
other; the names are declared then. -/
def Moves (P Q : Nat) (names : List String) (s s' : Session) (image : α → β)
    (x : ExceptT ε (StateM Session) α) (y : ExceptT ε (StateM Session) β) : Prop :=
  ∀ a s1, Gives x s a s1 → ∃ s1', Gives y s' (image a) s1' ∧ Beside P Q names s1 s1'

theorem Moves.bind {x : ExceptT ε (StateM Session) α} {y : ExceptT ε (StateM Session) β}
    {f : α → ExceptT ε (StateM Session) γ} {g : β → ExceptT ε (StateM Session) δ}
    (hx : Moves P Q names1 s s' image x y)
    (hf : ∀ a s1 s1', Beside P Q names1 s1 s1' →
      Moves P Q names s1 s1' image' (f a) (g (image a))) :
    Moves P Q names s s' image' (x >>= f) (y >>= g) := by
  intro c s2 hc
  obtain ⟨a, s1, ha, hc⟩ := gives_bind.mp hc
  obtain ⟨s1', ha', h1⟩ := hx a s1 ha
  obtain ⟨s2', hc', h2⟩ := hf a s1 s1' h1 c s2 hc
  exact ⟨s2', gives_bind.mpr ⟨_, s1', ha', hc'⟩, h2⟩

theorem Beside.pure (h : Beside P Q names s s') {a : α} {b : β} (hb : image a = b) :
    Moves P Q names s s' image (pure a : ExceptT ε (StateM Session) α) (pure b) := by
  intro a' s1 ha
  obtain ⟨rfl, rfl⟩ := gives_pure.mp ha
  exact ⟨s', gives_pure.mpr ⟨hb, rfl⟩, h⟩

theorem Moves.during {rule : String} {x : Lower α} {y : Lower β}
    (h : Moves P Q names s s' image x y) :
    Moves P Q names s s' image (during rule x) (during rule y) := by
  intro a s1 ha
  rw [gives_during] at ha
  simp only [gives_during]
  exact h a s1 ha

end Moves

/-- An action that gives nodes gives them with their variables at their new places. -/
abbrev MovesNode {ε : Type} (P Q : Nat) (names : List String) (s s' : Session)
    (x y : ExceptT ε (StateM Session) Node) : Prop :=
  Moves P Q names s s' (Node.relocate (replace P Q)) x y

theorem moves_declaredName (h : Beside P Q names s s') (t : Token) :
    MovesNode P Q names s s' (declaredName t) (declaredName t) := by
  refine .during fun n s1 hg => ?_
  rcases Lower.gives_declaredName.mp hg with ⟨value, v, hdefine, hv, rfl, rfl⟩ |
    ⟨hdefine, sym, hsym, hkind, rfl, rfl⟩
  · rw [← h.defines_eq] at hdefine
    exact ⟨_, Lower.gives_declaredName.mpr (.inl ⟨value, v, hdefine, hv, rfl, rfl⟩),
      h.note (Lower.isRequest_substituted _ _)⟩
  · rw [← h.defines_eq] at hdefine
    rw [h.flat.lookup_eq] at hsym
    have hsym' : s'.lookup t.text = some (sym.relocate (replace P Q)) := by
      rw [h.flat'.lookup_eq, lookup_layout_replace P Q, hsym, Option.map_some]
    exact ⟨s', Lower.gives_declaredName.mpr
      (.inr ⟨hdefine, _, hsym', hkind, by rw [Node.relocate], rfl⟩), h⟩

theorem moves_combine (h : Beside P Q names s s') (level : Level) (op : String)
    (left right : Node) :
    MovesNode P Q names s s' (Lower.combine level left op right)
      (Lower.combine level (left.relocate (replace P Q)) op (right.relocate (replace P Q))) := by
  intro n s1 hg
  rcases Lower.gives_combine.mp hg with ⟨a, b, v, hboth, ha, hb, hv, hsmall, rfl, rfl⟩ |
    ⟨hboth, hleft, hright, rfl, rfl⟩
  · rw [← Lower.bothConstant_relocate (replace P Q)] at hboth
    rw [← Lower.constantValue_relocate (replace P Q)] at ha hb
    exact ⟨_, Lower.gives_combine.mpr (.inl ⟨a, b, v, hboth, ha, hb, hv, hsmall, rfl, rfl⟩),
      h.note (Lower.isRequest_folded op a b v)⟩
  · rw [← Lower.bothConstant_relocate (replace P Q)] at hboth
    rw [← Node.hasCode_relocate (replace P Q)] at hleft hright
    exact ⟨_, Lower.gives_combine.mpr (.inr ⟨hboth, hleft, hright, by rw [Node.relocate], rfl⟩), h⟩

theorem moves_chain (level : Level) (operands : List (String × Node)) :
    ∀ {left : Node} {s s' : Session}, Beside P Q names s s' →
    MovesNode P Q names s s' (Lower.chain level left operands)
      (Lower.chain level (left.relocate (replace P Q))
        (operands.map fun r => (r.1, r.2.relocate (replace P Q)))) := by
  induction operands with
  | nil => exact fun h => h.pure rfl
  | cons r operands ih =>
    exact fun h => (moves_combine h level r.1 _ r.2).bind fun _ _ _ h => ih h

theorem moves_unary (h : Beside P Q names s s') (op : String) (operand : Node) :
    MovesNode P Q names s s' (Lower.unary op operand)
      (Lower.unary op (operand.relocate (replace P Q))) := by
  intro n s1 hg
  rcases Lower.gives_unary.mp hg with ⟨v, hconstant, hv, hsmall, rfl, rfl⟩ | ⟨hconstant, rfl, rfl⟩
  · rw [← Lower.isConstant_relocate (replace P Q)] at hconstant
    rw [← Lower.constantValue_relocate (replace P Q)] at hv
    exact ⟨_, Lower.gives_unary.mpr (.inl ⟨v, hconstant, hv, hsmall, rfl, rfl⟩),
      h.note (Lower.isRequest_foldedSign op v _)⟩
  · rw [← Lower.isConstant_relocate (replace P Q)] at hconstant
    exact ⟨_, Lower.gives_unary.mpr (.inr ⟨hconstant, by rw [Node.relocate], rfl⟩), h⟩

mutual

/-- An expression is lowered to the same node, with its variables at their new places. -/
theorem expr_beside : ∀ (e : Expr) {s s' : Session}, Beside P Q names s s' →
    MovesNode P Q names s s' (expr e) (expr e)
  | .number t, s, s', h => by
    rw [expr]
    refine .during fun n s1 hg => ?_
    obtain ⟨v, hv, rfl, rfl⟩ := Lower.gives_number.mp hg
    exact ⟨s', Lower.gives_number.mpr ⟨v, hv, rfl, rfl⟩, h⟩
  | .character t, s, s', h => by
    rw [expr]
    refine .during fun n s1 hg => ?_
    obtain ⟨c, hc, rfl, rfl⟩ := Lower.gives_character.mp hg
    have hline : isRequest (String.ofList [c]) = false := by simp [isRequest, List.isPrefixOf]
    exact ⟨_, Lower.gives_character.mpr ⟨c, hc, rfl, rfl⟩, h.note hline⟩
  | .name t, s, s', h => by
    rw [expr]
    exact moves_declaredName h t
  | .call _ [], _, _, _ | .call _ (_ :: _), _, _, _ | .peek _, _, _, _ | .pop _, _, _, _ => by
    intro n s1 hg
    simp [expr, gives_during, Lower.unsupported] at hg
  | .input, s, s', h => h.pure rfl
  | .unary sign e, s, s', h => by
    rw [expr]
    exact (expr_beside e h).bind fun n _ _ h => .during (moves_unary h sign.text n)
  | .chain level first rest, s, s', h => by
    rw [expr]
    exact (expr_beside first h).bind fun _ _ _ h =>
      (operands_beside rest h).bind fun ns _ _ h => .during (moves_chain level ns h)

theorem operands_beside : ∀ (rest : List (Token × Expr)) {s s' : Session},
    Beside P Q names s s' →
    Moves P Q names s s' (List.map fun r => (r.1, r.2.relocate (replace P Q)))
      (operands rest) (operands rest)
  | [], s, s', h => h.pure rfl
  | (op, e) :: rest, s, s', h => by
    rw [operands]
    exact (expr_beside e h).bind fun _ _ _ h =>
      (operands_beside rest h).bind fun _ _ _ h => h.pure rfl

end

/-- A declaration takes the next cell in either session. -/
theorem moves_declare (h : Beside P Q names s s') (name : String) (initial : Option Node) :
    MovesNode P Q (names ++ [name]) s s' (Lower.declare (.newName name) initial)
      (Lower.declare (.newName name) (initial.map (Node.relocate (replace P Q)))) := by
  intro n s1 hg
  obtain ⟨_, sym, heq, hnew, hdefine, hcode, rfl⟩ := (Lower.gives_declare h.flat).mp hg
  cases heq
  obtain ⟨rfl, hflat, -, hdefines⟩ := Lower.gives_define_of_flat h.flat hdefine hnew
  obtain ⟨s1', hdefine', hflat', -, hdefines'⟩ := h.flat'.define hnew
  refine ⟨s1', (Lower.gives_declare h.flat').mpr ⟨name, _, rfl, hnew, hdefine', ?_, ?_⟩,
    hflat, hflat', by rw [hdefines', hdefines, h.defines_eq]⟩
  · intro value' hvalue'
    obtain ⟨value, hvalue, rfl⟩ := Option.mem_map.mp hvalue'
    rw [Node.hasCode_relocate]
    exact hcode value hvalue
  · cases initial with
    | none => rw [Node.relocate, relocate_variableAt, Option.map_none]
    | some value => rw [Node.relocate, relocate_variableAt, Option.map_some]

theorem moves_newName {names1 : List String} {t : Token} {f g : Node → SourceLower Node}
    (h : MovesNode P Q names1 s s' (f (.newName t.text)) (g (.newName t.text))) :
    MovesNode P Q names1 s s' (newName t >>= f) (newName t >>= g) := by
  intro n s1 hg
  simp only [newName, Lower.newName, gives_bind, gives_during, gives_pure] at hg ⊢
  obtain ⟨_, _, ⟨rfl, rfl⟩, hg⟩ := hg
  obtain ⟨s1', hg', h1⟩ := h n s1 hg
  exact ⟨s1', ⟨_, s', ⟨rfl, rfl⟩, hg'⟩, h1⟩

theorem moves_assign (h : Beside P Q names s s') (target value : Node) :
    MovesNode P Q names s s' (Lower.assign target value)
      (Lower.assign (target.relocate (replace P Q)) (value.relocate (replace P Q))) := by
  intro n s1 hg
  obtain ⟨sym, htarget, hkind, hcode, rfl, rfl⟩ := Lower.gives_assign.mp hg
  rw [← Node.hasCode_relocate (replace P Q)] at hcode
  exact ⟨s', Lower.gives_assign.mpr ⟨_, Lower.targetOf_relocate _ htarget, hkind, hcode,
    by rw [Node.relocate], rfl⟩, h⟩

theorem moves_block (h : Beside P Q names s s') (body : List Node) :
    MovesNode P Q names s s' (Lower.block body)
      (Lower.block (body.map (Node.relocate (replace P Q)))) := by
  intro n s1 hg
  obtain ⟨s2, hblock, hquiet⟩ := Lower.gives_block h.flat.inner body
  obtain ⟨rfl, rfl⟩ := hg.unique hblock
  obtain ⟨s1', hblock', hquiet'⟩ :=
    Lower.gives_block h.flat'.inner (body.map (Node.relocate (replace P Q)))
  rw [Node.relocate, Node.relocateAll_eq_map]
  exact ⟨s1', hblock', h.quiet hquiet hquiet'⟩

mutual

/-- **A statement is lowered to the same node**, with its variables at their new places. -/
theorem stmt_beside : ∀ (st : Stmt) {names : List String} {s s' : Session},
    Beside P Q names s s' → MovesNode P Q (names ++ st.declared) s s' (stmt st) (stmt st)
  | .variable name none, names, s, s', h => by
    rw [stmt]
    exact moves_newName (.during (moves_declare h name.text none))
  | .variable name (some e), names, s, s', h => by
    rw [stmt]
    exact moves_newName ((expr_beside e h).bind fun value _ _ h =>
      .during (moves_declare h name.text (some value)))
  | .assign name e, names, s, s', h => by
    rw [stmt, Stmt.declared, List.append_nil]
    exact (moves_declaredName h name).bind fun target _ _ h =>
      (expr_beside e h).bind fun value _ _ h => .during (moves_assign h target value)
  | .stack _ _, _, _, _, _ | .push _ _, _, _, _, _ | .returning none, _, _, _, _
  | .returning (some _), _, _, _, _ => by
    intro n s1 hg
    simp [stmt, gives_during, Lower.unsupported] at hg
  | .expr e, names, s, s', h => by
    rw [stmt, Stmt.declared, List.append_nil]
    exact expr_beside e h
  | .output e, names, s, s', h => by
    rw [stmt, Stmt.declared, List.append_nil]
    exact (expr_beside e h).bind fun _ _ _ h => h.pure (by rw [Node.relocate])
  | .ifElse condition body none, names, s, s', h | .loop condition body, names, s, s', h => by
    rw [stmt, Stmt.declared]
    exact (expr_beside condition h).bind fun _ _ _ h =>
      (stmt_beside body h).bind fun _ _ _ h => h.pure (by rw [Node.relocate])
  | .ifElse condition body (some otherwise), names, s, s', h => by
    rw [stmt, Stmt.declared, ← List.append_assoc]
    exact (expr_beside condition h).bind fun _ _ _ h =>
      (stmt_beside body h).bind fun _ _ _ h =>
      (stmt_beside otherwise h).bind fun _ _ _ h => h.pure (by rw [Node.relocate])
  | .block body, names, s, s', h => by
    rw [stmt, Stmt.declared]
    exact (stmts_beside body h).bind fun ns _ _ h => .during (moves_block h ns)

theorem stmts_beside : ∀ (sts : List Stmt) {names : List String} {s s' : Session},
    Beside P Q names s s' → Moves P Q (names ++ declaredAll sts) s s'
      (List.map (Node.relocate (replace P Q))) (stmts sts) (stmts sts)
  | [], names, s, s', h => by
    rw [declaredAll, List.append_nil]
    exact h.pure rfl
  | st :: sts, names, s, s', h => by
    rw [stmts, declaredAll, ← List.append_assoc]
    exact (stmt_beside st h).bind fun _ _ _ h =>
      (stmts_beside sts h).bind fun _ _ _ h => h.pure rfl

end

theorem item_beside (i : Item) (h : Beside P Q names s s') :
    MovesNode P Q (names ++ i.declared) s s' (item i) (item i) := by
  cases i with
  | stmt st => exact stmt_beside st h
  | define name value =>
    rw [item, Item.declared, List.append_nil]
    exact (moves_declaredName h name).bind fun _ _ _ h =>
      (expr_beside value h).bind fun _ _ _ h => h.pure rfl
  | includes file =>
    intro n s1 hg
    simp [item, gives_during] at hg
  | function name params body =>
    intro n s1 hg
    simp [item, gives_during, Lower.unsupported] at hg

theorem items_beside (is : List Item) : ∀ {names : List String} {s s' : Session},
    Beside P Q names s s' → Moves P Q (names ++ declaredItems is) s s'
      (List.map (Node.relocate (replace P Q))) (items is) (items is) := by
  induction is with
  | nil =>
    intro names s s' h
    rw [declaredItems, List.append_nil]
    exact h.pure rfl
  | cons i is ih =>
    intro names s s' h
    rw [items, declaredItems, ← List.append_assoc]
    exact (item_beside i h).bind fun _ _ _ h => (ih h).bind fun _ _ _ h => h.pure rfl

end SourceLower

end TapeScript
