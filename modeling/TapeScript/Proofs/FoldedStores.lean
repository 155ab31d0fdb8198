import TapeScript.Proofs.BasicScripts

set_option autoImplicit false

/-! # Storing what was folded

Two scripts store the same expression of numbers in a variable: one as it stands, the other with
variables in the place of the numbers, which are declared first (`Script.Stores`). The first is
folded and the second is not. Both are basic scripts, so that it is known when they compile: given
enough scratch cells, the second does exactly if the call stack has room for the levels of the
expression and for the calls that emit its code, and the first if there is room for the levels and the
folded number can be written out. When both compile, machines for the two codes end with the folded
number, reduced to the width of a cell, and with the number computed in cells
(`Session.folding_against_code`).
-/

namespace TapeScript

/-! ## Scripts that store a value -/

/-- Declarations of variables, each with a literal. -/
def declarations (held : List (Token × Token)) : List Stmt :=
  held.map fun p => .variable p.1 (some (.number p.2))

/-- A value is stored in a variable: where the variable is declared, or where it is used again. -/
def storing (target : Token) (again : Option Token) (e : Expr) : List Stmt :=
  match again with
  | none => [.variable target (some e)]
  | some use => [.variable target none, .assign use e]

/-- The script declares variables that hold literals, and stores a value in one more. -/
structure Script.Stores (held : List (Token × Token)) (target : Token) (again : Option Token)
    (e : Expr) (script : Script) : Prop where
  items_eq : script.source.items = (declarations held ++ storing target again e).map .stmt
  same : ∀ use ∈ again, use.text = target.text
  literals : ∀ p ∈ held, p.2.IsLiteral
  nodup : (held.map (fun p => p.1.text) ++ [target.text]).Nodup
  plain : ∀ name ∈ held.map (fun p => p.1.text) ++ [target.text],
    script.defines.lookup name = none

/-! ## What they say -/

theorem declaredAll_declarations (held : List (Token × Token)) (sts : List Stmt) :
    declaredAll (declarations held ++ sts) = held.map (fun p => p.1.text) ++ declaredAll sts := by
  induction held with
  | nil => rfl
  | cons p held ih => exact congrArg (p.1.text :: ·) ih

theorem depth_declarations (held : List (Token × Token)) (sts : List Stmt) :
    depthOfAll (((declarations held ++ sts).map Item.stmt).map Item.tree) ≤
      max 2 (depthOfAll ((sts.map Item.stmt).map Item.tree)) ∧
    depthOfAll ((sts.map Item.stmt).map Item.tree) ≤
      depthOfAll (((declarations held ++ sts).map Item.stmt).map Item.tree) := by
  induction held with
  | nil => exact ⟨le_max_right .., le_refl _⟩
  | cons p held ih => exact ⟨max_le (le_max_left 2 _) ih.1, ih.2.trans (le_max_right ..)⟩

theorem depth_storing (target : Token) (again : Option Token) (e : Expr) :
    depthOfAll (((storing target again e).map Item.stmt).map Item.tree) = e.tree.depth + 2 := by
  cases again <;>
    simp only [storing, List.map_cons, List.map_nil, Item.tree, Stmt.tree, Stmt.tree.statement,
      Tree.depth, depthOfAll] <;> omega

section Run

variable {defines : DefineTable} {w : Width} {input : Array Char} {fuel : Nat}

theorem runAll_append (sts rest : List Stmt) (σ : State) :
    runAll defines w input fuel (sts ++ rest) σ =
      (runAll defines w input fuel sts σ).bind (runAll defines w input fuel rest) := by
  induction sts generalizing σ with
  | nil => rw [List.nil_append, runAll, Option.bind_some]
  | cons st sts ih =>
    rw [List.cons_append, runAll, runAll, Option.bind_assoc]
    congr 1
    funext σ'
    exact ih σ'

theorem Expr.evalIn_of_eval {e : Expr} {v : Value} {σ : State}
    (h : e.eval defines w input σ.vars σ.inputPos = some (v, σ.inputPos)) :
    e.evalIn defines w input σ = some (v.stored w, σ) := by
  rw [Expr.evalIn, h]
  rfl

variable (defines w input fuel)

/-- The declarations leave each literal in its variable, and other variables as they were. -/
theorem runAll_declarations (held : List (Token × Token)) (σ : State)
    (hliterals : ∀ p ∈ held, p.2.IsLiteral) (hnodup : (held.map fun p => p.1.text).Nodup) :
    ∃ σ', runAll defines w input fuel (declarations held) σ = some σ' ∧
      (∀ p ∈ held, σ'.vars p.1.text = w.wrap p.2.number) ∧
      ∀ name, name ∉ held.map (fun p => p.1.text) → σ'.vars name = σ.vars name := by
  induction held generalizing σ with
  | nil => exact ⟨σ, by rw [declarations, List.map_nil, runAll], by simp, fun _ _ => rfl⟩
  | cons p held ih =>
    obtain ⟨hliteral, hliterals⟩ := List.forall_mem_cons.mp hliterals
    rw [List.map_cons, List.nodup_cons] at hnodup
    obtain ⟨σ', hrun, hheld, hother⟩ := ih (σ.set p.1.text (w.wrap p.2.number)) hliterals hnodup.2
    have hfirst : (Stmt.variable p.1 (some (.number p.2))).run defines w input fuel σ =
        some (σ.set p.1.text (w.wrap p.2.number)) := by
      rw [Stmt.run, Expr.evalIn_of_eval (Expr.eval_foldable (.number p.2) hliteral)]
      rfl
    refine ⟨σ', ?_, ?_, ?_⟩
    · rw [declarations, List.map_cons, runAll, hfirst, Option.bind_some]
      exact hrun
    · refine List.forall_mem_cons.mpr ⟨?_, hheld⟩
      rw [hother _ hnodup.1]
      exact Function.update_self ..
    · intro name hname
      rw [List.map_cons, List.mem_cons, not_or] at hname
      rw [hother name hname.2]
      exact Function.update_of_ne hname.1 ..

/-- What is stored, if the value does not depend on the variable that it is stored in. -/
theorem runAll_storing {target : Token} {again : Option Token} {e : Expr} {v : Value} (σ : State)
    (hsame : ∀ use ∈ again, use.text = target.text)
    (hvalue : ∀ σ' : State, (∀ name, name ≠ target.text → σ'.vars name = σ.vars name) →
      ∀ pos, e.eval defines w input σ'.vars pos = some (v, pos)) :
    ∃ σ', runAll defines w input fuel (storing target again e) σ = some σ' ∧
      σ'.vars target.text = v.stored w := by
  cases again with
  | none =>
    refine ⟨σ.set target.text (v.stored w), ?_, Function.update_self ..⟩
    rw [storing, runAll, Stmt.run, Expr.evalIn_of_eval (hvalue σ (fun _ _ => rfl) σ.inputPos),
      Option.map_some, Option.bind_some, runAll]
  | some use =>
    -- the value is computed when the variable is zero already
    have hzero := hvalue (σ.set target.text 0) fun name hname => Function.update_of_ne hname ..
    refine ⟨(σ.set target.text 0).set target.text (v.stored w), ?_, Function.update_self ..⟩
    rw [storing, runAll, Stmt.run, Option.bind_some, runAll, Stmt.run,
      Expr.evalIn_of_eval (hzero _), hsame use rfl, Option.map_some, Option.bind_some, runAll]

end Run

namespace Script.Stores

variable {held : List (Token × Token)} {target : Token} {again : Option Token} {e : Expr}
  {script : Script}

theorem names_eq (h : script.Stores held target again e) :
    script.names = held.map (fun p => p.1.text) ++ [target.text] := by
  rw [Script.names, h.items_eq, declaredItems_map_stmt, declaredAll_declarations]
  cases again <;> rfl

theorem depth_eq (h : script.Stores held target again e) :
    script.source.tree.depth = e.tree.depth + 3 := by
  have hdepth := depth_declarations held (storing target again e)
  rw [depth_storing] at hdepth
  rw [Source.tree, Tree.depth, h.items_eq]
  omega

theorem nodup_held (h : script.Stores held target again e) :
    (held.map fun p => p.1.text).Nodup :=
  h.nodup.sublist (List.sublist_append_left ..)

theorem target_not_mem (h : script.Stores held target again e) :
    target.text ∉ held.map fun p => p.1.text :=
  fun hmem => (List.nodup_append.mp h.nodup).2.2 _ hmem _ (List.mem_singleton_self _) rfl

/-- The script ends, with the value in the variable. -/
theorem eval_eq (h : script.Stores held target again e) {w : Width} {input : String} {v : Value}
    (hvalue : ∀ vars, HoldLiterals held script.defines w vars →
      ∀ pos, e.eval script.defines w input.toList.toArray vars pos = some (v, pos)) :
    ∃ σ, script.eval w input 0 = some σ ∧ σ.vars target.text = v.stored w := by
  obtain ⟨σ, hfirst, hheld, -⟩ := runAll_declarations script.defines w
    input.toList.toArray 0 held .initial h.literals h.nodup_held
  obtain ⟨σ', hlast, htarget⟩ := runAll_storing script.defines w
    input.toList.toArray 0 σ h.same fun σ' hsame =>
      hvalue σ'.vars fun p hp => by
        have hmem : p.1.text ∈ held.map fun p => p.1.text := List.mem_map_of_mem hp
        refine ⟨h.plain _ (List.mem_append_left _ hmem), ?_⟩
        rw [hsame _ fun heq => h.target_not_mem (heq ▸ hmem), hheld p hp]
  refine ⟨σ', ?_, htarget⟩
  rw [Script.eval, h.items_eq, runItems_map_stmt, runAll_append, hfirst]
  exact hlast

end Script.Stores

/-! ## They are basic scripts -/

mutual

/-- Numbers as they stand are folded to one. -/
theorem Expr.folded_of_foldable : ∀ e : Expr, e.Foldable → e.folded = .number e.exact
  | .number _, _ => rfl
  | .chain _ first rest, h => by
    rw [Expr.folded, Expr.exact, Expr.folded_of_foldable first h.2.1]
    exact foldedFrom_of_foldable rest h.2.2
  | .character _, h | .name _, h | .call _ _, h | .peek _, h | .pop _, h | .input, h
  | .unary _ _, h => h.elim

theorem foldedFrom_of_foldable : ∀ (rest : List (Token × Expr)) {v : Int}, FoldableRest rest →
    foldedFrom (.number v) rest = .number (exactFrom v rest)
  | [], _, _ => rfl
  | (op, e) :: rest, v, h => by
    rw [foldedFrom, exactFrom, Expr.folded_of_foldable e h.2.1]
    exact foldedFrom_of_foldable rest h.2.2

end

section Basic

variable {held : List (Token × Token)} {names : List String}

mutual

theorem Expr.Foldable.basic : ∀ {e : Expr}, e.Foldable → e.Basic names
  | .number _, h => h
  | .chain _ _ _, h => ⟨h.1, Expr.Foldable.basic h.2.1, FoldableRest.basic h.2.2⟩
  | .character _, h | .name _, h | .call _ _, h | .peek _, h | .pop _, h | .input, h
  | .unary _ _, h => h.elim

theorem FoldableRest.basic : ∀ {rest : List (Token × Expr)}, FoldableRest rest →
    BasicRest names rest
  | [], _ => trivial
  | _ :: _, h => ⟨h.1, Expr.Foldable.basic h.2.1, FoldableRest.basic h.2.2⟩

end

mutual

/-- Nothing is folded with variables in the place of numbers, and no constant is left. -/
theorem Expr.Replaced.exists_code : ∀ {e e' : Expr}, e.Replaced held e' →
    ∃ d, 5 ≤ d ∧ e'.folded = .code [] d ∧ e'.atoms = e.atoms
  | _, _, .literal _ _ _ => ⟨5, le_refl 5, rfl, rfl⟩
  | _, _, .chain hfirst hrest => by
    obtain ⟨d, hd, hfolded, hatoms⟩ := hfirst.exists_code
    obtain ⟨d', hd', hfolded', hatoms'⟩ := hrest.exists_code hd
    refine ⟨d', hd', ?_, ?_⟩
    · rw [Expr.folded, hfolded, hfolded']
    · rw [Expr.atoms, Expr.atoms, hatoms, hatoms']

theorem ReplacedRest.exists_code : ∀ {rest rest' : List (Token × Expr)},
    ReplacedRest held rest rest' → ∀ {d : Nat}, 5 ≤ d →
    ∃ d', 5 ≤ d' ∧ foldedFrom (.code [] d) rest' = .code [] d' ∧ atomsRest rest' = atomsRest rest
  | _, _, .nil, d, hd => ⟨d, hd, rfl, rfl⟩
  | _, _, @ReplacedRest.cons _ _ op' _ _ _ _ _ he hrest, d, hd => by
    obtain ⟨d1, -, hfolded, hatoms⟩ := he.exists_code
    have hnext : 5 ≤ 1 + max (Node.operatorCalls op'.text) (max d d1) := by omega
    obtain ⟨d2, hd2, hfolded', hatoms'⟩ := hrest.exists_code hnext
    refine ⟨d2, hd2, ?_, ?_⟩
    · rw [foldedFrom, hfolded]
      exact hfolded'
    · rw [atomsRest, atomsRest, hatoms, hatoms']

end

mutual

theorem Expr.Replaced.basic (hheld : ∀ p ∈ held, p.1.text ∈ names) : ∀ {e e' : Expr},
    e.Replaced held e' → e.Foldable → e'.Basic names
  | _, _, .literal hp hname _, _ => by
    rw [Expr.Basic, ← hname]
    exact hheld _ hp
  | _, _, .chain hfirst hrest, h => by
    refine ⟨?_, hfirst.basic hheld h.2.1, hrest.basic hheld h.2.2⟩
    -- a chain keeps its operators
    rintro rfl
    cases hrest
    exact h.1 rfl

theorem ReplacedRest.basic (hheld : ∀ p ∈ held, p.1.text ∈ names) :
    ∀ {rest rest' : List (Token × Expr)}, ReplacedRest held rest rest' → FoldableRest rest →
    BasicRest names rest'
  | _, _, .nil, _ => trivial
  | _, _, .cons hop he hrest, h =>
    ⟨hop ▸ h.1, he.basic hheld h.2.1, hrest.basic hheld h.2.2⟩

end

variable {sts : List Stmt}

theorem basicAll_declarations (hliterals : ∀ p ∈ held, p.2.IsLiteral)
    (h : BasicAll (names ++ held.map fun p => p.1.text) sts) :
    BasicAll names (declarations held ++ sts) := by
  induction held generalizing names with
  | nil => rwa [List.map_nil, List.append_nil] at h
  | cons p held ih =>
    obtain ⟨hliteral, hliterals⟩ := List.forall_mem_cons.mp hliterals
    rw [List.map_cons, List.append_cons] at h
    exact ⟨hliteral, ih hliterals h⟩

theorem regularAll_declarations (h : RegularAll sts) : RegularAll (declarations held ++ sts) := by
  induction held with
  | nil => exact h
  | cons p held ih => exact ⟨trivial, ih⟩

theorem constantsAll_declarations : constantsAll (declarations held ++ sts) =
    held.map (fun p => p.2.number) ++ constantsAll sts := by
  induction held with
  | nil => rfl
  | cons p held ih =>
    rw [declarations, List.map_cons, List.cons_append, constantsAll, Stmt.constants]
    exact congrArg (p.2.number :: ·) ih

theorem workspaceAll_declarations :
    workspaceAll (declarations held ++ sts) = 7 * held.length + workspaceAll sts := by
  induction held with
  | nil => simp [declarations]
  | cons p held ih =>
    have hfirst : (Stmt.variable p.1 (some (.number p.2))).workspace = 7 := by
      simp only [Stmt.workspace, Expr.atoms]
    rw [declarations, List.map_cons, List.cons_append, workspaceAll, hfirst, List.length_cons]
    have hrest : workspaceAll (List.map _ held ++ sts) = _ := ih
    omega

/-- A declaration takes no more calls than any value that is stored. -/
theorem nestingAll_declarations (h : 6 ≤ nestingAll sts) :
    nestingAll (declarations held ++ sts) = nestingAll sts := by
  induction held with
  | nil => rfl
  | cons p held ih =>
    rw [declarations, List.map_cons, List.cons_append, nestingAll, Stmt.nesting]
    exact (congrArg (max 6) ih).trans (max_eq_right h)

end Basic

/-- The code leaves a value in the cell of a variable: with enough memory, a machine for the code
comes to an end, and the cell then holds the value. -/
def Session.Leaves (size : Int) (fs : FileSystem) (path name : String) (value : Width → Nat)
    (stack : CallStack := {}) : Prop :=
  ∀ script code s', Script.read fs path = some script →
    (Session.ofPool size).compile fs path stack = (.code code, s') →
    ∃ cell : Int, (s'.lookup name).bind Symbol.location = some cell ∧
      ∀ (tape : Option Int) (bits : Int) (w : Width) (input limit : String) (capacity : Nat),
        Width.ofBits? bits = some w → script.FitsOn size capacity tape →
        ∃ m, Machine.build code.text tape bits input limit capacity = .ok m ∧
          (m.Suffices (size.toNat + script.names.length) →
            (∃ n, (m.run n).1 = none) ∧ ∀ n m', m.run n = (none, m') → m'.cellAt cell = value w)

namespace Script.Stores

variable {size : Int} {fs : FileSystem} {path : String} {held : List (Token × Token)}
  {target : Token} {again : Option Token} {e : Expr} {script : Script} {stack : CallStack}

/-- What is left in the cell is the value that the expression has. -/
theorem leaves (size : Int) (h : script.Stores held target again e)
    (hread : Script.read fs path = some script) {v : Width → Value}
    (hvalue : ∀ (w : Width) (input : Array Char) (vars : String → Nat),
      HoldLiterals held script.defines w vars →
      ∀ pos, e.eval script.defines w input vars pos = some (v w, pos)) :
    Session.Leaves size fs path target.text (fun w => (v w).stored w) stack := by
  intro script' code s' hread' hcompile
  obtain rfl := Option.some.inj (hread.symm.trans hread')
  obtain ⟨_, nodes, lowered, bench, hc, rfl⟩ := Session.compile_eq_code.mp hcompile
  obtain rfl := Option.some.inj (hread.symm.trans hc.read)
  have hk : script.names[held.length]? = some target.text := by
    rw [h.names_eq]
    simp
  refine ⟨_, hc.location_eq hk _, fun tape bits w input limit capacity hw htape => ?_⟩
  obtain ⟨m, hbuild, hperforms⟩ := hc.exists_machine hw htape input limit
  obtain ⟨σ, heval, htarget⟩ := h.eval_eq (hvalue w input.toList.toArray)
  refine ⟨m, hbuild, fun hm => ⟨(hperforms hm).ends_iff.mpr ⟨0, by rw [heval]; rfl⟩, ?_⟩⟩
  intro n m' hrun
  obtain ⟨-, -, hcells⟩ := (hperforms hm).shows_result n m' 0 σ hrun heval
  exact (hcells _ _ hk).trans htarget

/-- Whatever is stored, it is stored by a basic script. -/
theorem basic (h : script.Stores held target again e)
    (he : ∀ more, e.Basic (held.map (fun p => p.1.text) ++ more)) :
    script.Basic (declarations held ++ storing target again e) := by
  refine ⟨h.items_eq, basicAll_declarations h.literals ?_, h.names_eq ▸ h.nodup, h.names_eq ▸ h.plain⟩
  rw [List.nil_append]
  cases again with
  | none =>
    have hvalue := he []
    rw [List.append_nil] at hvalue
    exact ⟨hvalue, trivial⟩
  | some use => exact ⟨trivial, ⟨by simp [Stmt.declared, h.same use rfl], he _⟩, trivial⟩

/-- With enough scratch cells, a value that is not the variable itself is stored if there is room for
the levels and for the calls, and the constants that are left can be written out. -/
theorem compiles_iff (h : script.Stores held target again e) (hread : Script.read fs path = some script)
    (he : ∀ more, e.Basic (held.map (fun p => p.1.text) ++ more))
    (hother : ∀ use, e = .name use → use.text ≠ target.text) (hcalls : 5 ≤ e.folded.nesting)
    (hpool : 7 * (held.length + e.atoms) ≤ size.toNat)
    (hreach : (size.toNat + held.length + 1 : Int) ≤ Emit.countBound) :
    Session.Compiles size fs path stack ↔ e.tree.depth + 3 ≤ stack.levels ∧
      e.folded.nesting < stack.calls ∧ Emit.AllStorable e.folded.constants := by
  have hbasic := h.basic he
  have hregular : RegularAll (declarations held ++ storing target again e) := by
    apply regularAll_declarations
    cases again with
    | none => exact ⟨trivial, trivial⟩
    | some use => exact ⟨trivial, fun v hv => h.same use rfl ▸ hother v hv, trivial⟩
  -- declaring the variable first costs neither calls nor cells
  have hnesting : nestingAll (storing target again e) = 1 + e.folded.nesting := by
    cases again <;> simp only [storing, nestingAll, Stmt.nesting] <;> omega
  have hworkspace : workspaceAll (storing target again e) = 7 * e.atoms := by
    cases again <;> simp [storing, workspaceAll, Stmt.workspace]
  have hconstants : constantsAll (storing target again e) = e.folded.constants := by
    cases again <;> simp [storing, constantsAll, Stmt.constants]
  have hliterals : Emit.AllStorable (held.map fun p => p.2.number) := by
    refine List.forall_mem_map.mpr fun p hp => ?_
    have hliteral := h.literals p hp
    exact ⟨hliteral.nonneg, lt_trans hliteral.lt (by decide)⟩
  have hlength : script.names.length = held.length + 1 := by
    rw [h.names_eq]
    simp
  have hsuffices : workspaceAll (declarations held ++ storing target again e) ≤ size.toNat := by
    rw [workspaceAll_declarations, hworkspace]
    omega
  have hsame : nestingAll (declarations held ++ storing target again e) = 1 + e.folded.nesting :=
    (nestingAll_declarations (by omega)).trans hnesting
  rw [← hconstants]
  constructor
  · intro hcompiles
    -- the pool bounds the literals, so that what is folded of them can be written
    obtain ⟨⟨hdepth, hroom⟩, -, hstorable⟩ :=
      hbasic.of_compiles hread (Lower.lt_digitLimit (by omega)) hcompiles
    rw [h.depth_eq] at hdepth
    rw [constantsAll_declarations, Emit.allStorable_append] at hstorable
    exact ⟨hdepth, by omega, hstorable.2⟩
  · rintro ⟨hdepth, hroom, hstorable⟩
    refine hbasic.compiles hread hregular (h.depth_eq ▸ hdepth) (by omega) ?_ hsuffices (by omega)
    rw [constantsAll_declarations, Emit.allStorable_append]
    exact ⟨hliterals, hstorable⟩

/-- Numbers as they stand: the script is compiled if the folded number can be written out. -/
theorem compiles_iff_of_foldable (h : script.Stores [] target again e)
    (hread : Script.read fs path = some script) (hfoldable : e.Foldable)
    (hpool : 7 * e.atoms ≤ size.toNat) (hreach : (size.toNat + 1 : Int) ≤ Emit.countBound) :
    Session.Compiles size fs path stack ↔ e.tree.depth + 3 ≤ stack.levels ∧ 5 < stack.calls ∧
      0 ≤ e.exact ∧ e.exact < Emit.countBound := by
  have hfolded := e.folded_of_foldable hfoldable
  rw [h.compiles_iff hread (fun _ => hfoldable.basic) (by rintro use rfl; exact hfoldable.elim)
    (by rw [hfolded]; exact le_refl 5) (by simpa using hpool) (by simpa using hreach), hfolded]
  exact and_congr_right fun _ => and_congr_right fun _ => List.forall_mem_singleton

/-- Variables in their place: the script is compiled if there is room for the levels and for the
calls. -/
theorem compiles_iff_of_replaced {e0 : Expr} (h : script.Stores held target again e)
    (hread : Script.read fs path = some script) (hfoldable : e0.Foldable)
    (hreplaced : e0.Replaced held e) (hpool : 7 * (held.length + e0.atoms) ≤ size.toNat)
    (hreach : (size.toNat + held.length + 1 : Int) ≤ Emit.countBound) :
    Session.Compiles size fs path stack ↔
      e0.tree.depth + 3 ≤ stack.levels ∧ e.folded.nesting < stack.calls := by
  obtain ⟨d, hd, hfolded, hatoms⟩ := hreplaced.exists_code
  have hother : ∀ use, e = .name use → use.text ≠ target.text := by
    rintro use rfl heq
    cases hreplaced with
    | literal hp hname _ => exact h.target_not_mem (heq ▸ hname ▸ List.mem_map_of_mem hp)
  have hbasic : ∀ more, e.Basic (held.map (fun p => p.1.text) ++ more) := fun more =>
    hreplaced.basic (fun p hp => List.mem_append_left more (List.mem_map.mpr ⟨p, hp, rfl⟩)) hfoldable
  rw [h.compiles_iff hread hbasic hother (by rw [hfolded]; exact hd) (hatoms ▸ hpool) hreach,
    hreplaced.depth_eq, hfolded]
  exact and_congr_right fun _ => and_iff_left (List.forall_mem_nil _)

/-- What is left of numbers as they stand. -/
theorem leaves_exact (size : Int) (h : script.Stores [] target again e)
    (hread : Script.read fs path = some script) (hfoldable : e.Foldable) :
    Session.Leaves size fs path target.text (fun w => w.wrap e.exact) stack :=
  h.leaves size hread (v := fun _ => .constant e.exact) fun _ _ _ _ _ => e.eval_foldable hfoldable

/-- What is left of variables in their place. -/
theorem leaves_onCells (size : Int) {e0 : Expr} (h : script.Stores held target again e)
    (hread : Script.read fs path = some script) (hfoldable : e0.Foldable)
    (hreplaced : e0.Replaced held e) :
    Session.Leaves size fs path target.text (fun w => e0.onCells w) stack :=
  h.leaves size hread (v := fun w => .cell (e0.onCells w)) fun _ _ _ hheld _ =>
    hreplaced.eval_eq hheld hfoldable

end Script.Stores

/-- **Folding against code.** Let an expression of numbers be stored in a variable, as it stands in
one script, and with variables in the place of its numbers in another, and let there be seven scratch
cells for each operand and each of these variables. The second script compiles if and only if the call
stack has room for the levels of the expression and for the nested calls that emit its code, of which
a chain takes one for each operand. The first takes no more calls than one number does, but compiles
only if, besides, the folded number is not negative and can be written out. What is left of it in the
cell of the variable is the folded number, and what is left of the second is the number computed in
cells, whatever the width of a cell; the two are the same if whatever is compared fits in a cell. -/
theorem Session.folding_against_code (size : Int) (stack : CallStack) {fs fs' : FileSystem}
    {path path' : String} {script script' : Script} {held : List (Token × Token)}
    {target target' : Token} {again again' : Option Token} {e e' : Expr}
    (hread : Script.read fs path = some script) (hread' : Script.read fs' path' = some script')
    (hstores : script.Stores [] target again e) (hstores' : script'.Stores held target' again' e')
    (hfoldable : e.Foldable) (hreplaced : e.Replaced held e')
    (hpool : 7 * (held.length + e.atoms) ≤ size.toNat)
    (hreach : (size.toNat + held.length + 1 : Int) ≤ Emit.countBound) :
    (Compiles size fs' path' stack ↔
      e.tree.depth + 3 ≤ stack.levels ∧ e'.folded.nesting < stack.calls) ∧
    (Compiles size fs path stack ↔
      e.tree.depth + 3 ≤ stack.levels ∧ 5 < stack.calls ∧ 0 ≤ e.exact ∧
        e.exact < Emit.countBound) ∧
    Leaves size fs path target.text (fun w => w.wrap e.exact) stack ∧
    Leaves size fs' path' target'.text (fun w => e.onCells w) stack ∧
    ∀ w, e.Comparable w → e.onCells w = w.wrap e.exact :=
  ⟨hstores'.compiles_iff_of_replaced hread' hfoldable hreplaced hpool hreach,
    hstores.compiles_iff_of_foldable hread hfoldable (by omega) (by omega),
    hstores.leaves_exact size hread hfoldable,
    hstores'.leaves_onCells size hread' hfoldable hreplaced, fun w hc => e.onCells_eq w hfoldable hc⟩

-- `1-2` is folded to a number that no cell is set to
example : (runFrom (SourceLower.source ⟨[.stmt (.variable ⟨.newName, "x", 1, 8⟩ (some
    (.chain .arithmetic (.number ⟨.number, "1", 1, 10⟩)
      [(⟨.minus, "-", 1, 11⟩, .number ⟨.number, "2", 1, 12⟩)])))]⟩) (Session.opening 7 "m" [])).1.isOk =
    false := by decide +kernel

/-! ### A sum that is negative on the way -/

/-- `1-2+2==1`. -/
def negativeOnTheWay : Expr :=
  .chain .comparison
    (.chain .arithmetic (.number ⟨.number, "1", 1, 10⟩)
      [(⟨.minus, "-", 1, 11⟩, .number ⟨.number, "2", 1, 12⟩),
        (⟨.plus, "+", 1, 13⟩, .number ⟨.number, "2", 1, 14⟩)])
    [(⟨.eq, "==", 1, 15⟩, .number ⟨.number, "1", 1, 17⟩)]

/-- Variables that hold the two numbers. -/
def oneAndTwo : List (Token × Token) :=
  [(⟨.newName, "a", 1, 8⟩, ⟨.number, "1", 1, 10⟩), (⟨.newName, "b", 1, 19⟩, ⟨.number, "2", 1, 21⟩)]

/-- `a-b+b==a`. -/
def negativeInVariables : Expr :=
  .chain .comparison
    (.chain .arithmetic (.name ⟨.declaredName, "a", 1, 34⟩)
      [(⟨.minus, "-", 1, 35⟩, .name ⟨.declaredName, "b", 1, 36⟩),
        (⟨.plus, "+", 1, 37⟩, .name ⟨.declaredName, "b", 1, 38⟩)])
    [(⟨.eq, "==", 1, 39⟩, .name ⟨.declaredName, "a", 1, 41⟩)]

theorem Script.read_negativeOnTheWay :
    read (.ofLine "size_t x=1-2+2==1;") "m" =
      some ⟨⟨(storing ⟨.newName, "x", 1, 8⟩ none negativeOnTheWay).map .stmt⟩, []⟩ ∧
    read (.ofLine "size_t a=1;size_t b=2;size_t x;x=a-b+b==a;") "m" =
      some ⟨⟨(declarations oneAndTwo ++ storing ⟨.newName, "x", 1, 30⟩
        (some ⟨.declaredName, "x", 1, 32⟩) negativeInVariables).map .stmt⟩, []⟩ :=
  ⟨read_of_plainLine (by decide +kernel), read_of_plainLine (by decide +kernel)⟩

theorem replaced_negativeOnTheWay : negativeOnTheWay.Replaced oneAndTwo negativeInVariables := by
  have hone : ∀ {p}, oneAndTwo[0]? = some p → p ∈ oneAndTwo := List.mem_of_getElem?
  have htwo : ∀ {p}, oneAndTwo[1]? = some p → p ∈ oneAndTwo := List.mem_of_getElem?
  refine .chain (.chain (.literal (hone rfl) rfl rfl) (.cons rfl ?_ (.cons rfl ?_ .nil)))
    (.cons rfl (.literal (hone rfl) rfl rfl) .nil)
  · exact .literal (htwo rfl) rfl rfl
  · exact .literal (htwo rfl) rfl rfl

/-- The sum is negative on the way, and still both scripts leave a one, on cells of any width. -/
theorem Session.folding_against_code_negativeOnTheWay :
    Compiles 42 (.ofLine "size_t x=1-2+2==1;") "m" ∧
    Compiles 42 (.ofLine "size_t a=1;size_t b=2;size_t x;x=a-b+b==a;") "m" ∧
    Leaves 42 (.ofLine "size_t x=1-2+2==1;") "m" "x" (fun w => w.wrap 1) ∧
    Leaves 42 (.ofLine "size_t a=1;size_t b=2;size_t x;x=a-b+b==a;") "m" "x" (fun w => w.wrap 1) := by
  have hexact : negativeOnTheWay.exact = 1 := by decide
  have hcomparable : ∀ w, negativeOnTheWay.Comparable w := by
    intro w
    cases w <;> decide
  have hstores : Script.Stores [] ⟨.newName, "x", 1, 8⟩ none negativeOnTheWay
      ⟨⟨(storing ⟨.newName, "x", 1, 8⟩ none negativeOnTheWay).map .stmt⟩, []⟩ :=
    ⟨rfl, by rintro _ ⟨⟩, by decide, by decide, by decide⟩
  have hstores' : Script.Stores oneAndTwo ⟨.newName, "x", 1, 30⟩ (some ⟨.declaredName, "x", 1, 32⟩)
      negativeInVariables ⟨⟨(declarations oneAndTwo ++ storing ⟨.newName, "x", 1, 30⟩
        (some ⟨.declaredName, "x", 1, 32⟩) negativeInVariables).map .stmt⟩, []⟩ :=
    ⟨rfl, by rintro _ ⟨⟩; rfl, by decide, by decide, by decide⟩
  obtain ⟨hsecond, hfirst, hleaves, hleaves', hsame⟩ := folding_against_code 42 {}
    Script.read_negativeOnTheWay.1 Script.read_negativeOnTheWay.2 hstores hstores' (by decide)
    replaced_negativeOnTheWay (by decide) (by decide)
  rw [hexact] at hfirst hleaves
  refine ⟨hfirst.mpr (by decide), hsecond.mpr (by decide), hleaves, ?_⟩
  simpa only [hsame _ (hcomparable _), hexact] using hleaves'

/-! ### Negative numbers -/

/-- `0 - 1 < 1`. -/
def belowZero : Expr :=
  .chain .comparison
    (.chain .arithmetic (.number ⟨.number, "0", 1, 12⟩)
      [(⟨.minus, "-", 1, 14⟩, .number ⟨.number, "1", 1, 16⟩)])
    [(⟨.lt, "<", 1, 18⟩, .number ⟨.number, "1", 1, 20⟩)]

/-- Variables that hold the two numbers. -/
def zeroAndOne : List (Token × Token) :=
  [(⟨.newName, "a", 1, 8⟩, ⟨.number, "0", 1, 12⟩), (⟨.newName, "b", 1, 22⟩, ⟨.number, "1", 1, 26⟩)]

/-- `a - b < b`. -/
def belowInVariables : Expr :=
  .chain .comparison
    (.chain .arithmetic (.name ⟨.declaredName, "a", 1, 40⟩)
      [(⟨.minus, "-", 1, 42⟩, .name ⟨.declaredName, "b", 1, 44⟩)])
    [(⟨.lt, "<", 1, 46⟩, .name ⟨.declaredName, "b", 1, 48⟩)]

theorem Script.read_belowZero :
    read (.ofLine "size_t x = 0 - 1 < 1;") "m" =
      some ⟨⟨(storing ⟨.newName, "x", 1, 8⟩ none belowZero).map .stmt⟩, []⟩ ∧
    read (.ofLine "size_t a = 0; size_t b = 1; size_t x = a - b < b;") "m" =
      some ⟨⟨(declarations zeroAndOne ++
        storing ⟨.newName, "x", 1, 36⟩ none belowInVariables).map .stmt⟩, []⟩ :=
  ⟨read_of_plainLine (by decide +kernel), read_of_plainLine (by decide +kernel)⟩

theorem replaced_belowZero : belowZero.Replaced zeroAndOne belowInVariables := by
  have hzero : ∀ {p}, zeroAndOne[0]? = some p → p ∈ zeroAndOne := List.mem_of_getElem?
  have hone : ∀ {p}, zeroAndOne[1]? = some p → p ∈ zeroAndOne := List.mem_of_getElem?
  refine .chain (.chain (.literal (hzero rfl) rfl rfl) (.cons rfl ?_ .nil)) (.cons rfl ?_ .nil)
  · exact .literal (hone rfl) rfl rfl
  · exact .literal (hone rfl) rfl rfl

theorem Session.not_compiles_of_all {size : Int} {fs : FileSystem} {path : String}
    (h : ((Script.read fs path).all fun script => !(runFrom (SourceLower.source script.source)
      (opening size path script.defines)).1.isOk) = true) : ¬ Compiles size fs path := by
  rintro ⟨code, s', hcompile⟩
  obtain ⟨script, hread⟩ := read_of_compile hcompile
  rw [hread, Option.all_some] at h
  rw [compile_of_read size hread] at hcompile
  generalize runFrom (SourceLower.source script.source) _ = r at h hcompile
  obtain ⟨r, s⟩ := r
  cases r with
  | error fault => cases hcompile
  | ok code => cases h

/-- A difference below zero cannot be stored, though one of variables can; and where it is compared,
folding goes by its sign and code by what is in the cell. -/
theorem Session.folding_goes_below_zero :
    ¬ Compiles 35 (.ofLine "size_t x = 1 - 4294967295;") "m" ∧
    Compiles 35 (.ofLine "size_t a = 1; size_t b = 4294967295; size_t x = a - b;") "m" ∧
    Compiles 35 (.ofLine "size_t x = 0 - 1 < 1;") "m" ∧
    Compiles 35 (.ofLine "size_t a = 0; size_t b = 1; size_t x = a - b < b;") "m" ∧
    Leaves 35 (.ofLine "size_t x = 0 - 1 < 1;") "m" "x" (fun _ => 1) ∧
    Leaves 35 (.ofLine "size_t a = 0; size_t b = 1; size_t x = a - b < b;") "m" "x" (fun _ => 0) := by
  obtain ⟨hread, hread'⟩ := Script.read_belowZero
  refine ⟨not_compiles_of_all ?_, exists_code_of_any ?_, ?_⟩
  · rw [Script.read_plainLine (by decide +kernel)]
    decide +kernel
  · rw [Script.read_plainLine (by decide +kernel)]
    decide +kernel
  have hfoldable : belowZero.Foldable := by decide
  have hstores : Script.Stores [] ⟨.newName, "x", 1, 8⟩ none belowZero
      ⟨⟨(storing ⟨.newName, "x", 1, 8⟩ none belowZero).map .stmt⟩, []⟩ :=
    ⟨rfl, by rintro _ ⟨⟩, by decide, by decide, by decide⟩
  have hstores' : Script.Stores zeroAndOne ⟨.newName, "x", 1, 36⟩ none belowInVariables
      ⟨⟨(declarations zeroAndOne ++
        storing ⟨.newName, "x", 1, 36⟩ none belowInVariables).map .stmt⟩, []⟩ :=
    ⟨rfl, by rintro _ ⟨⟩, by decide, by decide, by decide⟩
  have hexact : ∀ w : Width, w.wrap belowZero.exact = 1 := by
    intro w
    cases w <;> decide
  have honCells : ∀ w, belowZero.onCells w = 0 := by
    intro w
    cases w <;> decide
  refine ⟨?_, ?_, ?_, ?_⟩
  · exact (hstores.compiles_iff_of_foldable hread hfoldable (by decide) (by decide)).mpr (by decide)
  · exact (hstores'.compiles_iff_of_replaced hread' hfoldable replaced_belowZero (by decide)
      (by decide)).mpr (by decide)
  · simpa only [hexact] using hstores.leaves_exact 35 hread hfoldable
  · simpa only [honCells] using hstores'.leaves_onCells 35 hread' hfoldable replaced_belowZero

end TapeScript
