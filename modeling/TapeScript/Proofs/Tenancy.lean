import TapeScript.Proofs.Compilation
import TapeScript.Proofs.Ownership

set_option autoImplicit false

/-! # Every variable has a cell of its own

Compiling files one after the other, some of which may fail, gives one session a long history. No
scope but the global one ever keeps a name, and a declaration binds the name and takes the cell in
one step; so the variables of a session have the cells of its global scope, one each and in order
(`Session.Settled`). As the cells have one owner each, no two variables share a cell, and none has a
scratch cell.
-/

namespace TapeScript

namespace Session

/-- The variables have the cells of the global scope, one each and in order. -/
structure Settled (s : Session) : Prop where
  inner : s.inner = []
  owns : FrameState.Owns (· ∈ s.bench.cells.scratch)
    ({ frame := s.global, cells := s.bench.cells } : FrameState Symbol)
  located : s.global.names.map (fun p => p.2.location) = s.global.cells.map some
  names : (s.global.names.map Prod.fst).Nodup

/-- A session with more variables than before. -/
structure Continues (s s' : Session) : Prop where
  settled : s'.Settled
  scratch_eq : s'.bench.cells.scratch = s.bench.cells.scratch
  names_prefix : s.global.names <+: s'.global.names

/-- Settled sessions stay settled. -/
def effect (faults : Fault → Prop) : Effect Session Fault where
  leads s s' := s.Settled → s.Continues s'
  faults := faults
  refl _ h := ⟨h, rfl, List.prefix_refl _⟩
  trans h h' hs := by
    have h1 := h hs
    have h2 := h' h1.settled
    exact ⟨h2.settled, h2.scratch_eq.trans h1.scratch_eq, h1.names_prefix.trans h2.names_prefix⟩

theorem settled_ofPool (size : Int) : (ofPool size).Settled where
  inner := rfl
  owns := by
    refine ⟨fun c => ?_, by simp [ofPool], by simp [ofPool], by simp [ofPool]⟩
    simp [ofPool, CellTable.ofSize, CellTable.ofPool, List.mem_eraseDups]
  located := rfl
  names := List.nodup_nil

/-- Nothing but the workbench has changed, and there the cells in use are the same. -/
theorem Settled.continues {s : Session} (h : s.Settled) {bench : Workbench}
    (htaken : bench.cells.taken = s.bench.cells.taken)
    (hscratch : bench.cells.scratch = s.bench.cells.scratch) :
    s.Continues { s with bench } := by
  refine ⟨⟨h.inner, ?_, h.located, h.names⟩, hscratch, List.prefix_refl _⟩
  show FrameState.Owns (· ∈ bench.cells.scratch) _
  rw [hscratch]
  exact h.owns.congr htaken rfl

theorem Settled.lookup_eq {s : Session} (h : s.Settled) (name : String) :
    s.lookup name = s.global.names.lookup name := by
  rw [Session.lookup, h.inner]
  simp [Frame.lookup?]

end Session

/-! ## The rules -/

section Faults

variable {f : Fault}
variable {n : Node}

theorem Literal.concernsName_number {text : String} (h : Literal.number text = .error f) :
    f.concernsName = false := by
  unfold Literal.number at h
  split at h <;> cases h
  rfl

theorem Literal.concernsName_escape {c : Char} (h : Literal.escape c = .error f) :
    f.concernsName = false := by
  unfold Literal.escape at h
  split_ifs at h
  · cases h
    rfl
  · split at h <;> cases h <;> rfl

theorem Literal.concernsName_characterText {text : List Char}
    (h : Literal.characterText text = .error f) : f.concernsName = false := by
  unfold Literal.characterText at h
  split at h
  · cases h
  · exact concernsName_escape h
  · cases h
  · exact concernsName_escape h
  · cases h
    rfl

theorem Literal.concernsName_codePoint {text : List Char} (h : Literal.codePoint text = .error f) :
    f.concernsName = false := by
  unfold Literal.codePoint at h
  split at h <;> cases h
  rfl

theorem Literal.concernsName_defineValue {value : String} (h : Literal.defineValue value = .error f) :
    f.concernsName = false := by
  unfold Literal.defineValue at h
  dsimp only at h
  split_ifs at h
  · exact concernsName_number h
  · split at h <;> cases h
    rfl
  · cases h
    rfl

theorem Lower.concernsName_isConstant (h : Lower.isConstant n = .error f) :
    f.concernsName = false := by
  unfold Lower.isConstant at h
  split at h
  · cases h
    rfl
  · split at h <;> cases h
    rfl

theorem Lower.concernsName_bothConstant {left right : Node}
    (h : Lower.bothConstant left right = .error f) : f.concernsName = false := by
  unfold Lower.bothConstant at h
  cases hleft : Lower.isConstant left with
  | error fault =>
    rw [hleft] at h
    cases h
    exact concernsName_isConstant hleft
  | ok constant =>
    rw [hleft] at h
    cases constant with
    | true => exact concernsName_isConstant h
    | false => cases h

theorem Lower.concernsName_constantValue (h : Lower.constantValue n = .error f) :
    f.concernsName = false := by
  unfold Lower.constantValue at h
  split at h <;> cases h
  rfl

theorem error_of_ite {α : Type} {c : Prop} [Decidable c] {a : α} {e : Except Fault α}
    (h : (if c then .ok a else e) = .error f) : e = .error f := by
  by_cases hc : c
  · rw [if_pos hc] at h
    cases h
  · rwa [if_neg hc] at h

/-- Folding fails for a quotient or an operator that there is not. -/
theorem Lower.concernsName_foldValue {op : String} {a b : Int}
    (h : Lower.foldValue op a b = .error f) : f.concernsName = false := by
  have h := error_of_ite (error_of_ite (error_of_ite h))
  by_cases hdiv : op = "/"
  · rw [if_pos hdiv] at h
    by_cases hb : b = 0
    · rw [if_pos hb] at h
      cases h
      rfl
    · rw [if_neg hb] at h
      split at h <;> cases h
      rfl
  · rw [if_neg hdiv] at h
    -- the six comparisons
    have h := error_of_ite (error_of_ite (error_of_ite (error_of_ite (error_of_ite (error_of_ite h)))))
    cases h
    rfl

theorem Lower.concernsName_targetOf (h : Lower.targetOf n = .error f) : f.concernsName = false := by
  unfold Lower.targetOf at h
  split at h <;> cases h <;> rfl

end Faults

namespace Lower

open Effect

/-- The effect of the rules that bind no name and look none up. -/
abbrev plain : Effect Session Fault := Session.effect fun f => f.concernsName = false

/-- The effect of all rules. -/
abbrev any : Effect Session Fault := Session.effect fun _ => True

theorem allows_any {α : Type} {action : Lower α} (h : plain.Allows action) : any.Allows action :=
  fun s => ⟨(h s).1, fun _ _ => trivial⟩

variable {faults : Fault → Prop}

theorem allows_note (line : String) : (Session.effect faults).Allows (note line) :=
  allows_modify fun _ h => h.continues rfl rfl

theorem allows_number (text : String) : plain.Allows (number text) :=
  allows_bind (allows_lift fun _ => Literal.concernsName_number) fun _ => allows_pure _

theorem allows_character (text : String) : plain.Allows (character text) := by
  apply allows_bind (allows_lift fun _ => Literal.concernsName_characterText)
  intro chars
  apply allows_bind (allows_note _)
  intro _
  apply allows_bind (allows_lift fun _ => Literal.concernsName_codePoint)
  intro value
  exact allows_pure _

theorem allows_declaredName (name : String) : any.Allows (declaredName name) := by
  apply allows_bind allows_get
  intro s
  cases s.defines.lookup name with
  | some value =>
    apply allows_bind (allows_note _)
    intro _
    apply allows_bind (allows_lift fun _ _ => trivial)
    intro value
    exact allows_pure _
  | none =>
    cases s.lookup name with
    | none => exact allows_throw trivial
    | some symbol =>
      dsimp only
      cases symbol.kind with
      | «variable» => exact allows_pure _
      | stack => exact allows_throw trivial
      | function => exact allows_throw trivial

theorem allows_combine (level : Level) (left : Node) (op : String) (right : Node) :
    plain.Allows (combine level left op right) := by
  apply allows_bind (allows_lift fun _ => concernsName_bothConstant)
  intro both
  refine allows_ite (fun _ => ?_) fun _ => ?_
  · apply allows_bind (allows_lift fun _ => concernsName_constantValue)
    intro a
    apply allows_bind (allows_lift fun _ => concernsName_constantValue)
    intro b
    apply allows_bind (allows_lift fun _ => concernsName_foldValue)
    intro result
    have hrest : plain.Allows (do
        note (folded op a b result)
        return Node.constant result true) :=
      allows_bind (allows_note _) fun _ => allows_pure _
    exact allows_ite (fun _ => hrest) fun _ => allows_bind (allows_throw rfl) fun _ => hrest
  · have hbinary : plain.Allows (pure (Node.binary level op left right) : Lower Node) := allows_pure _
    have hright : plain.Allows (do
        unless ← right.hasCode do throw .operandWithoutCode
        return Node.binary level op left right) := by
      apply allows_bind (allows_lift fun _ => Node.concernsName_hasCode)
      intro ready
      exact allows_ite (fun _ => hbinary) fun _ => allows_bind (allows_throw rfl) fun _ => hbinary
    apply allows_bind (allows_lift fun _ => Node.concernsName_hasCode)
    intro ready
    exact allows_ite (fun _ => hright) fun _ => allows_bind (allows_throw rfl) fun _ => hright

theorem allows_chain (level : Level) (first : Node) (rest : List (String × Node)) :
    plain.Allows (chain level first rest) := by
  unfold chain
  induction rest generalizing first with
  | nil => exact allows_pure _
  | cons operand rest ih =>
    rw [List.foldlM_cons]
    exact allows_bind (allows_combine _ _ _ _) ih

theorem allows_unary (op : String) (operand : Node) : plain.Allows (unary op operand) := by
  apply allows_bind (allows_lift fun _ => concernsName_isConstant)
  intro constant
  refine allows_ite (fun _ => ?_) fun _ => allows_pure _
  apply allows_bind (allows_lift fun _ => concernsName_constantValue)
  intro value
  have hrest : ∀ result, plain.Allows (do
      note (foldedSign op value result)
      return Node.constant result true) :=
    fun _ => allows_bind (allows_note _) fun _ => allows_pure _
  exact allows_ite (fun _ => hrest _) fun _ => allows_bind (allows_throw rfl) fun _ => hrest _

theorem allows_assign (target value : Node) : plain.Allows (assign target value) := by
  apply allows_bind (allows_lift fun _ => concernsName_targetOf)
  intro symbol
  have hassigned : plain.Allows (pure (Node.assign symbol value) : Lower Node) := allows_pure _
  have hrest : plain.Allows (do
      unless ← value.hasCode do throw .assignmentWithoutCode
      return Node.assign symbol value) := by
    apply allows_bind (allows_lift fun _ => Node.concernsName_hasCode)
    intro ready
    exact allows_ite (fun _ => hassigned) fun _ => allows_bind (allows_throw rfl) fun _ => hassigned
  exact allows_ite (fun _ => allows_bind (allows_throw rfl) fun _ => hrest) fun _ => hrest

theorem allows_block (body : List Node) : any.Allows (block body) := by
  intro s
  refine ⟨fun hs => ?_, fun _ _ => trivial⟩
  obtain ⟨s', hgives, hquiet⟩ := gives_block hs.inner body
  rw [hgives]
  show s.Continues s'
  rw [hquiet.same]
  exact hs.continues rfl rfl

theorem allows_program (items : List Node) (room : Nat) : plain.Allows (program items room) := by
  refine allows_bind (fun s => ?_) fun _ => allows_pure _
  obtain ⟨⟨htaken, hscratch⟩, hfaults⟩ := (Node.built_emitAll
    (Node.cutAll room (items.filter fun n => n.op? ≠ some "nop"))).allows s.bench
  rw [runFrom_atBench]
  exact ⟨fun hs => hs.continues htaken hscratch, hfaults⟩

/-! ### Declarations -/

/-- The variable that a declaration defines. -/
abbrev fresh (name : String) : Symbol := { name, kind := .variable, initialised := true }

/-- A name that is bound is not defined again. -/
theorem runFrom_define_of_bound {s : Session} {name : String} (h : s.current.binds name = true) :
    runFrom (define (fresh name)) s = (.error (.alreadyDefined name), s) := by
  have hrun : runFrom (FrameM.define (fresh name) id)
      { frame := s.current, cells := s.bench.cells, log := s.bench.log } =
        (.error (.alreadyDefined name),
          { frame := s.current, cells := s.bench.cells, log := s.bench.log }) := by
    unfold FrameM.define
    rw [runFrom_bind, show runFrom get _ = (.ok _, _) from rfl]
    dsimp only
    rw [if_pos h]
    rfl
  unfold define
  rw [runFrom_inScope _ s hrun]
  have hset : s.setCurrent s.current = s := by
    obtain ⟨bench, inner, global, defines⟩ := s
    cases inner <;> rfl
  rw [hset]

/-- In a settled session a new name gets a new cell. -/
theorem exists_define {s : Session} (hs : s.Settled) {name : String}
    (hnew : s.current.binds name = false) :
    ∃ symbol s', Gives (define (fresh name)) s symbol s' ∧ s.Continues s' ∧
      s'.global.names = s.global.names ++ [(name, symbol)] := by
  have hcurrent : s.current = s.global := by rw [Session.current, hs.inner]
  let state : FrameState Symbol :=
    { frame := s.current, cells := s.bench.cells, log := s.bench.log }
  obtain ⟨after, hgives, htable, hcells, hnames⟩ :=
    FrameM.exists_define (s := state) rfl (rfl : (fresh name).demand = .ok (some 1)) Int.one_pos
      hnew id
  have hset : s.setCurrent after.frame = { s with global := after.frame } := by
    rw [Session.setCurrent, hs.inner]
  have hblock : CellTable.block (s.bench.cells.freeStart 1) 1 = [s.bench.cells.freeStart 1] := by
    simp [CellTable.block]
  have hnames : after.frame.names = s.global.names ++
      [(name, { fresh name with location := some (s.bench.cells.freeStart 1) })] := by
    rw [← hcurrent]
    exact hnames
  have hcells : after.frame.cells = s.global.cells ++ [s.bench.cells.freeStart 1] := by
    rw [← hblock, ← hcurrent]
    exact hcells
  have hscratch : after.cells.scratch = s.bench.cells.scratch := by rw [htable]
  refine ⟨_, _, runFrom_inScope _ s hgives, ?_, by rw [hset]; exact hnames⟩
  rw [hset]
  refine ⟨⟨hs.inner, ?_, ?_, ?_⟩, hscratch, ?_⟩
  · show FrameState.Owns (· ∈ after.cells.scratch) _
    rw [hscratch]
    exact hs.owns.grow 1 (by rw [htable]) (by rw [hblock]; exact hcells)
  · show after.frame.names.map (fun p => p.2.location) = after.frame.cells.map some
    rw [hnames, hcells, List.map_append, List.map_append, hs.located]
    rfl
  · show (after.frame.names.map Prod.fst).Nodup
    rw [hnames, List.map_append]
    refine hs.names.append (List.nodup_singleton name) fun other hold hnew' => ?_
    obtain rfl := List.mem_singleton.mp hnew'
    obtain ⟨⟨name', symbol⟩, hmem, rfl⟩ := List.mem_map.mp hold
    have hbound : s.current.binds name' = true := by
      rw [hcurrent, Frame.binds, Frame.lookup?, List.lookup_isSome_iff]
      exact ⟨_, hmem, by simp⟩
    rw [hbound] at hnew
    cases hnew
  · show s.global.names <+: after.frame.names
    rw [hnames]
    exact List.prefix_append _ _

theorem allows_define (name : String) : any.Allows (define (fresh name)) := by
  intro s
  refine ⟨fun hs => ?_, fun _ _ => trivial⟩
  cases hbound : s.current.binds name with
  | true =>
    rw [runFrom_define_of_bound hbound]
    exact any.refl s hs
  | false =>
    obtain ⟨symbol, s', hgives, hcontinues, -⟩ := exists_define hs hbound
    rw [hgives]
    exact hcontinues

theorem allows_declare (target : Node) (initial : Option Node) :
    any.Allows (declare target initial) := by
  apply allows_bind (allows_lift fun _ _ => trivial)
  intro name
  apply allows_bind allows_get
  intro s
  refine allows_ite (fun _ => allows_bind (allows_throw trivial) fun _ => ?_) fun _ => ?_
  all_goals
    apply allows_bind (allows_define name)
    intro symbol
    cases initial with
    | none => exact allows_pure _
    | some value =>
      apply allows_bind (allows_lift fun _ _ => trivial)
      intro ready
      exact allows_ite (fun _ => allows_pure _)
        fun _ => allows_bind (allows_throw trivial) fun _ => allows_pure _

end Lower

/-! ## Programs -/

namespace SourceLower

open Effect

variable {α : Type}

/-- Settled sessions stay settled as a program is lowered. -/
def effect : Effect Session RuleFault where
  leads := Lower.any.leads
  faults _ := True
  refl := Lower.any.refl
  trans := Lower.any.trans

theorem allows_during (rule : String) {action : Lower α} (h : Lower.any.Allows action) :
    effect.Allows (during rule action) := by
  intro s
  rw [runFrom_during]
  exact ⟨(h s).1, fun _ _ => trivial⟩

theorem allows_rule {action : Lower α} (h : action.IsRule) : Lower.any.Allows action := by
  cases h with
  | fault f => exact allows_throw trivial
  | number text => exact Lower.allows_any (Lower.allows_number _)
  | character text => exact Lower.allows_any (Lower.allows_character _)
  | declaredName name => exact Lower.allows_declaredName _
  | newName name => exact allows_pure _
  | unary op operand => exact Lower.allows_any (Lower.allows_unary _ _)
  | chain level first rest => exact Lower.allows_any (Lower.allows_chain _ _ _)
  | declare target initial => exact Lower.allows_declare _ _
  | assign target value => exact Lower.allows_any (Lower.allows_assign _ _)
  | block body => exact Lower.allows_block _
  | note text => exact Lower.allows_note _
  | program items room => exact Lower.allows_any (Lower.allows_program _ _)

theorem Built.allows {e : SourceLower α} (h : Built e) : effect.Allows e := by
  induction h with
  | pure a => exact allows_pure a
  | throw f => exact allows_throw trivial
  | bind _ _ ihx ihk => exact allows_bind ihx ihk
  | during rule h => exact allows_during rule (allows_rule h)

end SourceLower

/-! ## Declared variables -/

namespace SourceLower

variable {s s' : Session}

theorem continues_of_gives {α : Type} {e : SourceLower α} (h : effect.Allows e) {a : α}
    (hs : s.Settled) (hg : Gives e s a s') : s.Continues s' := by
  have hleads := (h s).1
  rw [hg] at hleads
  exact hleads hs

/-- The session has a variable of each of the names. -/
def Binds (names : List String) (s : Session) : Prop :=
  ∀ name ∈ names, name ∈ s.global.names.map Prod.fst

theorem Binds.continues {names : List String} (h : Binds names s) (hs : s.Continues s') :
    Binds names s' := fun name hname => (hs.names_prefix.map Prod.fst).subset (h name hname)

theorem Binds.append {first second : List String} (h1 : Binds first s) (h2 : Binds second s) :
    Binds (first ++ second) s := by
  intro name hname
  rcases List.mem_append.mp hname with hfirst | hsecond
  · exact h1 name hfirst
  · exact h2 name hsecond

theorem binds_of_declare (hs : s.Settled) {name : String} {initial : Option Node} {n : Node}
    (h : Gives (Lower.declare (.newName name) initial) s n s') : Binds [name] s' := by
  unfold Lower.declare at h
  rw [gives_lift_bind] at h
  obtain ⟨_, ⟨⟩, h⟩ := h
  rw [gives_get_bind, gives_when, gives_bind] at h
  obtain ⟨hnew, symbol, s1, hdefine, hrest⟩ := h
  obtain ⟨symbol', s2, hdefine', -, hnames⟩ := Lower.exists_define hs (by simpa using hnew)
  obtain ⟨rfl, rfl⟩ := hdefine.unique hdefine'
  have hsame : s' = s1 := by
    cases initial with
    | none => exact (gives_pure.mp hrest).2
    | some value =>
      rw [gives_lift_bind] at hrest
      obtain ⟨ready, -, hready⟩ := hrest
      rw [gives_unless] at hready
      exact (gives_pure.mp hready.2).2
  intro other hother
  obtain rfl := List.mem_singleton.mp hother
  rw [hsame, hnames]
  simp

mutual

/-- A statement that is lowered has declared its variables. -/
theorem binds_of_stmt : ∀ (st : Stmt) {s s' : Session} {n : Node}, s.Settled →
    Gives (stmt st) s n s' → Binds st.declared s'
  | .variable name none, s, s', n, hs, h => by
    simp only [stmt, newName, gives_bind, gives_during] at h
    obtain ⟨target, s1, htarget, hdeclare⟩ := h
    obtain ⟨rfl, rfl⟩ := gives_pure.mp htarget
    rw [Stmt.declared]
    exact binds_of_declare hs hdeclare
  | .variable name (some e), s, s', n, hs, h => by
    simp only [stmt, newName, gives_bind, gives_during] at h
    obtain ⟨target, s1, htarget, value, s2, hvalue, hdeclare⟩ := h
    obtain ⟨rfl, rfl⟩ := gives_pure.mp htarget
    rw [Stmt.declared]
    exact binds_of_declare (continues_of_gives (built_expr e).allows hs hvalue).settled hdeclare
  | .ifElse condition body none, s, s', n, hs, h | .loop condition body, s, s', n, hs, h => by
    simp only [stmt, gives_bind, gives_pure] at h
    obtain ⟨c, s1, hc, b, s2, hb, rfl, rfl⟩ := h
    have hs1 := (continues_of_gives (built_expr condition).allows hs hc).settled
    rw [Stmt.declared]
    exact binds_of_stmt body hs1 hb
  | .ifElse condition body (some otherwise), s, s', n, hs, h => by
    simp only [stmt, gives_bind, gives_pure] at h
    obtain ⟨c, s1, hc, b, s2, hb, o, s3, ho, rfl, rfl⟩ := h
    have hs1 := (continues_of_gives (built_expr condition).allows hs hc).settled
    have hs2 := (continues_of_gives (built_stmt body).allows hs1 hb).settled
    have hbody := binds_of_stmt body hs1 hb
    rw [Stmt.declared]
    exact (hbody.continues (continues_of_gives (built_stmt otherwise).allows hs2 ho)).append
      (binds_of_stmt otherwise hs2 ho)
  | .block body, s, s', n, hs, h => by
    simp only [stmt, gives_bind, gives_during] at h
    obtain ⟨ns, s1, hns, hblock⟩ := h
    have hs1 := (continues_of_gives (built_stmts body).allows hs hns).settled
    rw [Stmt.declared]
    exact (binds_of_stmts body hs hns).continues (continues_of_gives
      (allows_during "block" (Lower.allows_block ns)) hs1 (gives_during.mpr hblock))
  | .stack _ _, _, _, _, _, _ | .assign _ _, _, _, _, _, _ | .expr _, _, _, _, _, _
  | .push _ _, _, _, _, _, _ | .output _, _, _, _, _, _ | .returning _, _, _, _, _, _ => by
    intro name hname
    simp [Stmt.declared] at hname

theorem binds_of_stmts : ∀ (sts : List Stmt) {s s' : Session} {ns : List Node}, s.Settled →
    Gives (stmts sts) s ns s' → Binds (declaredAll sts) s'
  | [], _, _, _, _, _ => by
    intro name hname
    simp [declaredAll] at hname
  | st :: sts, s, s', ns, hs, h => by
    simp only [stmts, gives_bind, gives_pure] at h
    obtain ⟨n, s1, hn, ns', s2, hns, rfl, rfl⟩ := h
    have hs1 := (continues_of_gives (built_stmt st).allows hs hn).settled
    rw [declaredAll]
    exact ((binds_of_stmt st hs hn).continues (continues_of_gives (built_stmts sts).allows hs1 hns)).append
      (binds_of_stmts sts hs1 hns)

end

theorem binds_of_items (is : List Item) {ns : List Node} (hs : s.Settled)
    (h : Gives (items is) s ns s') : Binds (declaredItems is) s' := by
  induction is generalizing s ns with
  | nil =>
    intro name hname
    simp [declaredItems] at hname
  | cons i is ih =>
    simp only [items, gives_bind, gives_pure] at h
    obtain ⟨n, s1, hn, ns', s2, hns, rfl, rfl⟩ := h
    have hs1 := (continues_of_gives (built_item i).allows hs hn).settled
    have hfirst : Binds i.declared s1 := by
      cases i with
      | stmt st => exact binds_of_stmt st hs hn
      | includes _ | define _ _ | function _ _ _ =>
        intro name hname
        simp [Item.declared] at hname
    exact (hfirst.continues (continues_of_gives (built_items is).allows hs1 hns)).append (ih hs1 hns)

end SourceLower

/-! ## Histories -/

namespace Session

/-- The session after some files were compiled, whatever came of it. -/
def compileAll (s : Session) (calls : List (FileSystem × String)) (stack : CallStack := {}) :
    Session :=
  calls.foldl (fun s call => (s.compile call.1 call.2 stack).2) s

variable {s : Session}

theorem Settled.withDefines (h : s.Settled) (defines : DefineTable) :
    Settled { s with defines } := ⟨h.inner, h.owns, h.located, h.names⟩

theorem Settled.noted (h : s.Settled) (line : String) : (s.note line).Settled :=
  ⟨h.inner, h.owns, h.located, h.names⟩

theorem Settled.compile (h : s.Settled) (fs : FileSystem) (path : String) (stack : CallStack) :
    (s.compile fs path stack).2.Settled ∧
      (s.compile fs path stack).2.bench.cells.scratch = s.bench.cells.scratch := by
  have hstart := h.noted s!"--- Starting Compilation: {path} ---"
  unfold Session.compile
  dsimp only
  split
  · split_ifs
    · exact ⟨hstart.noted _, rfl⟩
    · exact ⟨hstart, rfl⟩
  · next text _ =>
    split
    · exact ⟨hstart.noted _, rfl⟩
    · next source _ =>
      have hleads := ((SourceLower.built_source source stack).allows _).1
        (hstart.withDefines (DefineTable.ofText text.toList))
      unfold SourceLower.run
      unfold runFrom at hleads
      generalize (ExceptT.run (SourceLower.source source stack)).run _ = r at hleads ⊢
      obtain ⟨result, s1⟩ := r
      cases result with
      | error fault => exact ⟨hleads.settled.noted _, hleads.scratch_eq⟩
      | ok code => exact ⟨hleads.settled.noted _, hleads.scratch_eq⟩

theorem Settled.compileAll (h : s.Settled) (calls : List (FileSystem × String))
    (stack : CallStack) :
    (s.compileAll calls stack).Settled ∧
      (s.compileAll calls stack).bench.cells.scratch = s.bench.cells.scratch := by
  induction calls generalizing s with
  | nil => exact ⟨h, rfl⟩
  | cons call calls ih =>
    obtain ⟨hnext, hscratch⟩ := h.compile call.1 call.2 stack
    obtain ⟨hlast, hsame⟩ := ih hnext
    exact ⟨hlast, hsame.trans hscratch⟩

/-- The variables, among them those with the given names, have cells outside the pool, and no two of
them the same cell. -/
structure Houses (pool : List Int) (names : List String) (s : Session) : Prop where
  declared : ∀ name ∈ names, (s.lookup name).isSome
  outside : ∀ name symbol, s.lookup name = some symbol →
    ∃ c, symbol.location = some c ∧ 0 ≤ c ∧ c ∉ pool
  distinct : ∀ x y a b, s.lookup x = some a → s.lookup y = some b → a.location = b.location → x = y

theorem Settled.houses (h : s.Settled) {names : List String} (hnames : SourceLower.Binds names s) :
    s.Houses s.bench.cells.scratch names := by
  have hmem : ∀ name symbol, s.lookup name = some symbol → (name, symbol) ∈ s.global.names := by
    intro name symbol hlookup
    rw [h.lookup_eq] at hlookup
    obtain ⟨before, after, heq, -⟩ := List.lookup_eq_some_iff.mp hlookup
    rw [heq]
    simp
  refine ⟨fun name hname => ?_, fun name symbol hlookup => ?_, fun x y a b ha hb heq => ?_⟩
  · obtain ⟨p, hp, rfl⟩ := List.mem_map.mp (hnames name hname)
    rw [h.lookup_eq, List.lookup_isSome_iff]
    exact ⟨p, hp, by simp⟩
  · have hcell : symbol.location ∈ s.global.cells.map some := by
      rw [← h.located]
      exact List.mem_map.mpr ⟨_, hmem name symbol hlookup, rfl⟩
    obtain ⟨c, hc, hlocation⟩ := List.mem_map.mp hcell
    exact ⟨c, hlocation.symm, h.owns.nonneg c hc, h.owns.apart c hc⟩
  · have hnodup : (s.global.names.map fun p => p.2.location).Nodup := by
      rw [h.located]
      exact h.owns.nodup.map fun _ _ => Option.some.inj
    exact congrArg Prod.fst
      (List.inj_on_of_nodup_map hnodup (hmem x a ha) (hmem y b hb) heq)

/-- The variables of a script that is compiled have cells of their own, whatever was compiled
before. -/
theorem houses_of_compile {size : Int} {stack : CallStack} {calls : List (FileSystem × String)}
    {fs : FileSystem} {path : String} {code : Code} {s' : Session}
    (h : ((ofPool size).compileAll calls stack).compile fs path stack = (.code code, s')) :
    ∃ script, Script.read fs path = some script ∧ s'.Houses (firstCells size.toNat) script.names := by
  obtain ⟨script, hread⟩ := read_of_compile h
  refine ⟨script, hread, ?_⟩
  obtain ⟨hbefore, hpool⟩ := (settled_ofPool size).compileAll calls stack
  have hafter := hbefore.compile fs path stack
  rw [h] at hafter
  rw [compile_of_script _ hread, compileScript] at h
  split at h
  · simp at h
  · next emitted s1 hsource =>
    simp only [Prod.mk.injEq, Outcome.code.injEq] at h
    obtain ⟨-, rfl⟩ := h
    obtain ⟨-, nodes, lowered, bench, hlowers, -, -, rfl⟩ := SourceLower.gives_source.mp hsource
    have hbinds : SourceLower.Binds script.names lowered :=
      SourceLower.binds_of_items _ ((hbefore.noted _).withDefines _) hlowers
    have hhouses : Houses _ script.names _ := hafter.1.houses hbinds
    rw [hafter.2, hpool] at hhouses
    exact hhouses

end Session

/-- **Every cell has one owner.** Let scopes share one table of cells, whatever its scratch pool. After
any moves, failed ones included, the cells in use are those of the pool and those of the scopes, with
none in common and none twice. A scope with cells to draw on is given as many as it asks for, in a
block of which no cell was in use, be it on its own or for a symbol that it defines; every other
demand is refused and changes no cells. In a session, whatever it has compiled before, the variables
of a script that is compiled have cells of their own outside the scratch pool. -/
theorem Forest.cells_have_one_owner (pool : List Int) (moves : List Forest.Move) :
    ((ofPool pool).after moves).Divided pool ∧ ((ofPool pool).after moves).Serves ∧
    ∀ (size : Int) (stack : CallStack) (calls : List (FileSystem × String)) (fs : FileSystem)
      (path : String) (code : Code) (s' : Session),
      ((Session.ofPool size).compileAll calls stack).compile fs path stack = (.code code, s') →
      ∃ script, Script.read fs path = some script ∧
        s'.Houses (firstCells size.toNat) script.names := by
  refine ⟨(divided_ofPool pool).after moves, serves _, ?_⟩
  intro size stack calls fs path code s' hcompile
  exact Session.houses_of_compile hcompile

/-- The files of a script that declares a variable twice. -/
def FileSystem.repeated : FileSystem :=
  ⟨"/", [(["m"], "size_t y;size_t y;".toList.map fun c => UInt8.ofNat c.toNat)]⟩

theorem Script.read_repeated : Script.read .repeated "m" =
    (Source.parse "size_t y;size_t y;".toList).toOption.map fun source =>
      ⟨source, DefineTable.ofText "size_t y;size_t y;".toList⟩ :=
  Script.read_ofLine (by decide +kernel) (by decide +kernel) (by decide +kernel)

/-- Two scopes with a hole between their cells, which is too small for the next block; and a session
that goes on after a script has failed at its second declaration. -/
theorem Forest.cells_have_one_owner_hole :
    (∃ f : Forest, f.Divided [0, 4] ∧ f.Manages 1 ∧ f.cellsOf 0 = [] ∧ f.cellsOf 1 = [5, 6] ∧
      ∃ start f', f.allocate 1 4 = (.ok start, f') ∧ f.HandsOut 1 start 4 f') ∧
    ∃ code s', ((Session.ofPool 5).compileAll [(.repeated, "m")]).compile .countdown "m" =
      (.code code, s') ∧
      ∃ x y, s'.lookup "x" = some x ∧ s'.lookup "y" = some y ∧ x.location ≠ y.location := by
  let moves : List Move := [.create none true, .create (some 0) true, .allocate 0 3, .allocate 1 2,
    .release 0]
  obtain ⟨hdivided, hserves, hhouses⟩ := cells_have_one_owner [0, 4] moves
  have hmanages : ((ofPool [0, 4]).after moves).Manages 1 := ⟨_, rfl, rfl⟩
  refine ⟨⟨_, hdivided, hmanages, rfl, rfl, hserves.allocates 1 4 hmanages (by decide)⟩, ?_⟩
  have hcheck : ((Script.read .repeated "m").any fun first => (Script.read .countdown "m").any
      fun script => match ((Session.ofPool 5).compileScript "m" first).2.compileScript "m" script with
        | (.code _, s') => decide (script.names = ["x"]) && (s'.lookup "y").isSome
        | _ => false) = true := by
    rw [Script.read_repeated, Script.read_countdown]
    decide +kernel
  obtain ⟨first, hfirst, hcheck⟩ := (Option.any_eq_true _ _).mp hcheck
  obtain ⟨script, hscript, hcheck⟩ := (Option.any_eq_true _ _).mp hcheck
  rw [← Session.compile_of_script _ hfirst, ← Session.compile_of_script _ hscript] at hcheck
  split at hcheck
  · next code s' hcompile =>
    obtain ⟨script', hscript', hhoused⟩ := hhouses 5 {} [(.repeated, "m")] _ _ code s' hcompile
    obtain rfl : script' = script := Option.some.inj (hscript'.symm.trans hscript)
    simp only [Bool.and_eq_true, decide_eq_true_eq, Option.isSome_iff_exists] at hcheck
    obtain ⟨hnames, y, hy⟩ := hcheck
    obtain ⟨x, hx⟩ := Option.isSome_iff_exists.mp (hhoused.declared "x" (by simp [hnames]))
    refine ⟨code, s', hcompile, x, y, hx, hy, fun heq => ?_⟩
    exact absurd (hhoused.distinct "x" "y" x y hx hy heq) (by decide)
  · cases hcheck

end TapeScript
