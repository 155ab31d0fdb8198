import TapeScript.Proofs.FirstFit

set_option autoImplicit false

/-! # What defining a symbol changes

A scope binds the name of a symbol before it looks for the cells the symbol asks for. If the name is new
and the cells can be had, the symbol gets a free block of its size, which the scope owns from then on
(`Forest.exists_defines`). If the name is bound already, nothing changes. But if the cells are refused, the
name stays bound to a symbol without them, so that later lookups find it and later definitions of the
name fail (`Forest.exists_leavesName`). Thus a definition is all or nothing unless the cells are refused.
-/

namespace TapeScript

/-- Why the cells a symbol asks for are refused; `managed` says whether there are any to hand out. -/
def Symbol.refusal? (managed : Bool) (s : Symbol) : Option Fault :=
  match s.demand with
  | .error fault => some fault
  | .ok none => none
  | .ok (some size) =>
    if managed then if 0 < size then none else some .sizeNotPositive else some .noCells

theorem Symbol.refusal?_eq_none {managed : Bool} {s : Symbol} (h : s.refusal? managed = none) :
    s.demand = .ok none ∨ ∃ size, s.demand = .ok (some size) ∧ managed = true ∧ 0 < size := by
  unfold refusal? at h
  split at h
  · cases h
  · next hdemand => exact .inl hdemand
  · next size hdemand =>
    by_cases hmanaged : managed = true
    · by_cases hsize : 0 < size
      · exact .inr ⟨size, hdemand, hmanaged, hsize⟩
      · simp [hmanaged, hsize] at h
    · simp [hmanaged] at h

/-! ## In one frame -/

namespace Frame

variable {α : Type} {frame : Frame α} {name : String}

theorem lookup?_bind_self (h : frame.binds name = false) (value : α) :
    (frame.bind name value).lookup? name = some value := by
  have hnone : frame.names.lookup name = none := by simpa [binds, lookup?] using h
  simp [bind, lookup?, List.lookup_append, hnone]

end Frame

namespace FrameM

variable {α : Type} {s : FrameState α} {symbol : Symbol} {fault : Fault}

theorem runFrom_allocate_unmanaged (h : s.managed = false) (size : Int) :
    runFrom (allocate size) s = (.error .noCells, s) := by
  unfold allocate
  rw [runFrom_bind, show runFrom get s = (.ok s, s) from rfl]
  dsimp only
  rw [if_neg (by simp [h])]
  rfl

theorem runFrom_allocate_of_le (h : s.managed = true) {size : Int} (hsize : size ≤ 0) :
    runFrom (allocate size) s = (.error .sizeNotPositive, s) := by
  unfold allocate
  rw [runFrom_bind, show runFrom get s = (.ok s, s) from rfl]
  dsimp only
  rw [if_pos h, CellTable.allocate, if_pos hsize]
  rfl

theorem runFrom_locate_of_refusal (h : symbol.refusal? s.managed = some fault) :
    runFrom (locate symbol) s = (.error fault, s) := by
  unfold Symbol.refusal? at h
  unfold locate
  rw [runFrom_bind]
  split at h
  · next hdemand =>
    cases h
    rw [hdemand]
    rfl
  · cases h
  · next size hdemand =>
    rw [hdemand, show runFrom (liftM (Except.ok (some size) : Except Fault (Option Int))) s =
      (.ok (some size), s) from rfl]
    dsimp only
    rw [runFrom_bind]
    by_cases hmanaged : s.managed = true
    · by_cases hsize : 0 < size
      · simp [hmanaged, hsize] at h
      · simp only [hmanaged, hsize, if_true, if_false, Option.some.injEq] at h
        rw [runFrom_allocate_of_le hmanaged (by omega), ← h]
    · have hmanaged : s.managed = false := by simpa using hmanaged
      simp only [hmanaged, Bool.false_eq_true, if_false, Option.some.injEq] at h
      rw [runFrom_allocate_unmanaged hmanaged, ← h]

theorem runFrom_define_of_binds (h : s.frame.binds symbol.name = true) (reference : Symbol → α) :
    runFrom (define symbol reference) s = (.error (.alreadyDefined symbol.name), s) := by
  unfold define
  rw [runFrom_bind, show runFrom get s = (.ok s, s) from rfl]
  dsimp only
  rw [if_pos h]
  rfl

/-- The name is bound although the cells are refused. -/
theorem runFrom_define_of_refusal (hnew : s.frame.binds symbol.name = false)
    (h : symbol.refusal? s.managed = some fault) (reference : Symbol → α) :
    runFrom (define symbol reference) s =
      (.error fault, { s with frame := s.frame.bind symbol.name (reference symbol) }) := by
  unfold define
  rw [runFrom_bind, show runFrom get s = (.ok s, s) from rfl]
  dsimp only
  rw [if_neg (by simp [hnew]), runFrom_bind, runFrom_tryCatch, runFrom_locate_of_refusal h]
  rfl

/-- A symbol that asks for no cells is only bound. -/
theorem exists_define_unplaced (hnew : s.frame.binds symbol.name = false)
    (h : symbol.demand = .ok none) (reference : Symbol → α) :
    ∃ log, Gives (define symbol reference) s symbol
      { s with frame := s.frame.bind symbol.name (reference symbol), log } := by
  have hlocate : Gives (locate symbol) s symbol s := by
    unfold locate
    exact gives_lift_bind.mpr ⟨none, h, gives_pure.mpr ⟨rfl, rfl⟩⟩
  refine ⟨s.log.push s!"Scope: Defined {symbol.text}", ?_⟩
  unfold define note
  rw [gives_get_bind, if_neg (by simp [hnew])]
  simp only [gives_bind, gives_modify, gives_pure]
  exact ⟨_, s, (gives_tryCatch (by simp)).mpr hlocate, (), _, rfl, (), _, rfl, rfl, rfl⟩

end FrameM

/-! ## Among scopes -/

namespace Forest

/-- Cells, their owners and the symbols with their locations are what they were. -/
structure SameCells (f f' : Forest) : Prop where
  cells_eq : f'.cells = f.cells
  owned_eq : ∀ scope, f'.cellsOf scope = f.cellsOf scope
  symbols_eq : f'.symbols = f.symbols

/-- A symbol is defined in a scope. It is found there with its location, and a block of the size it
asks for, which was free, is now its own: the location is where the block starts, and the scope owns
it. -/
structure Defines (f : Forest) (scope number : Nat) (symbol located : Symbol) (f' : Forest) : Prop where
  found : f'.lookup scope symbol.name = some located
  located_eq : located = { symbol with location := located.location }
  names_eq : f'.names scope = f.names scope ++ [symbol.name]
  placed : ∀ size, symbol.demand = .ok (some size) → ∃ start, located.location = some start ∧
    0 < size ∧ f.HandsOut scope start size f' ∧ f.cells.Reserves size start f'.cells
  unplaced : symbol.demand = .ok none → located = symbol ∧ f.SameCells f'
  others : ∀ j, j ≠ number → f'.symbols[j]? = f.symbols[j]?

/-- A symbol is left without cells, but its name is bound: it is found, and no symbol of that name can
be defined in the scope any more. -/
structure LeavesName (f : Forest) (scope : Nat) (symbol : Symbol) (f' : Forest) : Prop where
  same : f.SameCells f'
  names_eq : f'.names scope = f.names scope ++ [symbol.name]
  found : f'.lookup scope symbol.name = some symbol
  closed : ∀ (other : Nat) (s : Symbol), f'.symbols[other]? = some s → s.name = symbol.name →
    f'.define scope other = (.error (.alreadyDefined symbol.name), f')

/-- Defining a symbol is all or nothing. -/
structure Atomic (f : Forest) (scope number : Nat) (symbol : Symbol) : Prop where
  unchanged : ∀ fault f', f.define scope number = (.error fault, f') →
    f'.scopes = f.scopes ∧ f'.cells = f.cells ∧ f'.symbols = f.symbols
  defined : ∀ located f', f.define scope number = (.ok located, f') →
    f.Defines scope number symbol located f'

variable {f : Forest} {scope number : Nat} {node : ScopeNode} {symbol : Symbol}

theorem bindsLocally_of_some (hnode : f.scopes[scope]? = some node) (name : String) :
    f.bindsLocally scope name = node.frame.binds name := by
  simp [bindsLocally, hnode]

/-- Putting back what is there changes nothing. -/
theorem setIfInBounds_of_getElem? {α : Type} {xs : Array α} {i : Nat} {a : α} (h : xs[i]? = some a) :
    xs.setIfInBounds i a = xs := by
  obtain ⟨hlt, rfl⟩ := Array.getElem?_eq_some_iff.mp h
  rw [Array.setIfInBounds_def, dif_pos hlt, Array.set_getElem_self]

theorem put_stateOf (hnode : f.scopes[scope]? = some node) : f.put scope node (f.stateOf node) = f := by
  show { f with scopes := f.scopes.setIfInBounds scope node } = f
  rw [setIfInBounds_of_getElem? hnode]

theorem scopes_put_self (hnode : f.scopes[scope]? = some node) (s : FrameState Nat) :
    (f.put scope node s).scopes[scope]? = some { node with frame := s.frame } := by
  have hlt : scope < f.scopes.size := (Array.getElem?_eq_some_iff.mp hnode).1
  simp [put, hlt]

theorem names_of_some (hnode : f.scopes[scope]? = some node) :
    f.names scope = node.frame.names.map Prod.fst := by
  rw [names, hnode]

/-- What a name is bound to in a scope is found from there. -/
theorem lookup_of_bound {name : String} (hnode : f.scopes[scope]? = some node)
    (h : node.frame.lookup? name = some number) : f.lookup scope name = f.symbols[number]? := by
  unfold lookup lookupFrom
  simp only [hnode, h]

theorem define_of_binds (hnode : f.scopes[scope]? = some node)
    (hsymbol : f.symbols[number]? = some symbol)
    (hbound : f.bindsLocally scope symbol.name = true) :
    f.define scope number = (.error (.alreadyDefined symbol.name), f) := by
  rw [bindsLocally_of_some hnode] at hbound
  unfold define
  rw [hsymbol]
  dsimp only
  rw [within_of_some hnode,
    FrameM.runFrom_define_of_binds (s := f.stateOf node) hbound, put_stateOf hnode]

theorem exists_leavesName (hnode : f.scopes[scope]? = some node)
    (hsymbol : f.symbols[number]? = some symbol)
    (hnew : f.bindsLocally scope symbol.name = false) {fault : Fault}
    (hrefusal : symbol.refusal? node.managed = some fault) :
    ∃ f', f.define scope number = (.error fault, f') ∧ f.LeavesName scope symbol f' := by
  rw [bindsLocally_of_some hnode] at hnew
  let state : FrameState Nat :=
    { f.stateOf node with frame := node.frame.bind symbol.name number }
  have hdefine : f.define scope number = (.error fault, f.put scope node state) := by
    unfold define
    rw [hsymbol]
    dsimp only
    rw [within_of_some hnode,
      FrameM.runFrom_define_of_refusal (s := f.stateOf node) hnew hrefusal fun _ => number]
    rfl
  have hscope := scopes_put_self hnode state
  have hbound : (node.frame.bind symbol.name number).lookup? symbol.name = some number :=
    Frame.lookup?_bind_self hnew number
  refine ⟨_, hdefine, ⟨rfl, fun j => ?_, rfl⟩, ?_, ?_, fun other s hs hname => ?_⟩
  · by_cases hj : j = scope
    · subst hj
      rw [cellsOf_put_self hnode, cellsOf_of_some hnode]
      rfl
    · exact cellsOf_put_of_ne hj state
  · rw [names_of_some hscope, names_of_some hnode]
    simp [state, Frame.bind]
  · rw [lookup_of_bound hscope hbound]
    exact hsymbol
  · rw [← hname]
    refine define_of_binds hscope hs ?_
    rw [bindsLocally_of_some hscope, hname]
    simp [state, Frame.binds, hbound]

/-- What shows in the forest of a definition that succeeds in one of its scopes. -/
theorem define_of_gives (hnode : f.scopes[scope]? = some node)
    (hsymbol : f.symbols[number]? = some symbol)
    (hnew : node.frame.binds symbol.name = false) {located : Symbol} {s : FrameState Nat}
    (hgives : Gives (FrameM.define symbol fun _ => number) (f.stateOf node) located s)
    (hnames : s.frame.names = node.frame.names ++ [(symbol.name, number)]) {f' : Forest}
    (hf' : f' = { f.put scope node s with symbols := f.symbols.setIfInBounds number located }) :
    f.define scope number = (.ok located, f') ∧ f'.lookup scope symbol.name = some located ∧
      f'.names scope = f.names scope ++ [symbol.name] ∧
      ∀ j, j ≠ number → f'.symbols[j]? = f.symbols[j]? := by
  subst hf'
  have hnumber : number < f.symbols.size := (Array.getElem?_eq_some_iff.mp hsymbol).1
  have hscope := scopes_put_self hnode s
  have hbound : s.frame.lookup? symbol.name = some number := by
    rw [Frame.lookup?, hnames]
    exact Frame.lookup?_bind_self hnew number
  refine ⟨?_, ?_, ?_, fun j hj => ?_⟩
  · unfold define
    rw [hsymbol]
    dsimp only
    rw [within_of_some hnode, hgives]
    rfl
  · rw [lookup_of_bound (f := { f.put scope node s with
      symbols := f.symbols.setIfInBounds number located }) hscope hbound]
    simp [hnumber]
  · rw [names_of_some (f := { f.put scope node s with
      symbols := f.symbols.setIfInBounds number located }) hscope, names_of_some hnode, hnames]
    simp
  · exact Array.getElem?_setIfInBounds_ne hj.symm

theorem exists_defines (hnode : f.scopes[scope]? = some node)
    (hsymbol : f.symbols[number]? = some symbol)
    (hnew : f.bindsLocally scope symbol.name = false)
    (hrefusal : symbol.refusal? node.managed = none) :
    ∃ located f', f.define scope number = (.ok located, f') ∧
      f.Defines scope number symbol located f' := by
  rw [bindsLocally_of_some hnode] at hnew
  rcases Symbol.refusal?_eq_none hrefusal with hnone | ⟨size, hdemand, hmanaged, hsize⟩
  · obtain ⟨log, hgives⟩ := FrameM.exists_define_unplaced (s := f.stateOf node) hnew hnone
      fun _ => number
    obtain ⟨hdefine, hfound, hnames, hothers⟩ :=
      define_of_gives hnode hsymbol hnew hgives rfl rfl
    refine ⟨symbol, _, hdefine, hfound, rfl, hnames, fun size hsome => ?_, fun _ => ⟨rfl, ?_⟩,
      hothers⟩
    · rw [hnone] at hsome
      cases hsome
    · refine ⟨rfl, fun j => ?_, setIfInBounds_of_getElem? hsymbol⟩
      by_cases hj : j = scope
      · subst hj
        exact (cellsOf_put_self hnode _).trans (cellsOf_of_some hnode).symm
      · exact cellsOf_put_of_ne hj _
  · obtain ⟨s, hgives, hcells, hframe, hnamed⟩ :=
      FrameM.exists_define (s := f.stateOf node) hmanaged hdemand hsize hnew fun _ => number
    obtain ⟨hdefine, hfound, hnames, hothers⟩ :=
      define_of_gives hnode hsymbol hnew hgives hnamed rfl
    have hout := handsOut_put hnode size hframe
    refine ⟨_, _, hdefine, hfound, rfl, hnames, fun size' hsome => ?_, fun hnone => ?_, hothers⟩
    · obtain rfl : size' = size := by simpa using hsome.symm.trans hdemand
      refine ⟨_, rfl, hsize, ⟨hout.searched, hout.nonneg, hout.free, hout.owned, hout.others⟩, ?_⟩
      show f.cells.Reserves size' (f.cells.freeStart size') s.cells
      rw [hcells]
      exact ⟨fun c => by rw [List.mem_append, CellTable.mem_block]; rfl, rfl, rfl, rfl⟩
    · rw [hdemand] at hnone
      cases hnone

/-! ## All or nothing -/

theorem atomic_of_binds (hnode : f.scopes[scope]? = some node)
    (hsymbol : f.symbols[number]? = some symbol)
    (hbound : f.bindsLocally scope symbol.name = true) : f.Atomic scope number symbol := by
  have hdefine := define_of_binds hnode hsymbol hbound
  constructor
  · intro fault f' h
    cases hdefine.symm.trans h
    exact ⟨rfl, rfl, rfl⟩
  · intro located f' h
    cases hdefine.symm.trans h

theorem atomic_of_no_refusal (hnode : f.scopes[scope]? = some node)
    (hsymbol : f.symbols[number]? = some symbol)
    (hrefusal : symbol.refusal? node.managed = none) : f.Atomic scope number symbol := by
  by_cases hbound : f.bindsLocally scope symbol.name = true
  · exact atomic_of_binds hnode hsymbol hbound
  · obtain ⟨located, f', hdefine, hdefines⟩ :=
      exists_defines hnode hsymbol (by simpa using hbound) hrefusal
    constructor
    · intro fault f'' h
      cases hdefine.symm.trans h
    · intro located' f'' h
      cases hdefine.symm.trans h
      exact hdefines

theorem LeavesName.not_atomic {fault : Fault} {f' : Forest}
    (hdefine : f.define scope number = (.error fault, f')) (h : f.LeavesName scope symbol f') :
    ¬ f.Atomic scope number symbol := by
  intro hatomic
  obtain ⟨hscopes, -, -⟩ := hatomic.unchanged fault f' hdefine
  have hnames := h.names_eq
  simp [names, hscopes] at hnames

/-- **Defining a symbol is all or nothing unless its cells are refused.** Let a symbol be defined in a
scope, with or without cells to hand out. If its name is bound there, the definition fails and changes
nothing. If the name is new and the cells it asks for are refused, the definition fails for that reason
and changes no cell, no owner and no location, but it leaves the name bound to the symbol without
cells. Otherwise it succeeds, and the symbol is found with a block of its size of which no cell was in
use. So it is all or nothing if and only if the name is bound or no cells are refused. -/
theorem define_leaves_name (hnode : f.scopes[scope]? = some node)
    (hsymbol : f.symbols[number]? = some symbol) :
    (f.bindsLocally scope symbol.name = true →
      f.define scope number = (.error (.alreadyDefined symbol.name), f)) ∧
    (f.bindsLocally scope symbol.name = false → ∀ fault, symbol.refusal? node.managed = some fault →
      ∃ f', f.define scope number = (.error fault, f') ∧ f.LeavesName scope symbol f') ∧
    (f.bindsLocally scope symbol.name = false → symbol.refusal? node.managed = none →
      ∃ located f', f.define scope number = (.ok located, f') ∧
        f.Defines scope number symbol located f') ∧
    (f.Atomic scope number symbol ↔
      f.bindsLocally scope symbol.name = true ∨ symbol.refusal? node.managed = none) := by
  refine ⟨define_of_binds hnode hsymbol, fun hnew fault => exists_leavesName hnode hsymbol hnew,
    exists_defines hnode hsymbol, ?_, ?_⟩
  · intro hatomic
    by_cases hbound : f.bindsLocally scope symbol.name = true
    · exact .inl hbound
    · refine .inr (Option.eq_none_iff_forall_ne_some.mpr fun fault hrefusal => ?_)
      obtain ⟨f', hdefine, hleaves⟩ :=
        exists_leavesName hnode hsymbol (by simpa using hbound) hrefusal
      exact hleaves.not_atomic hdefine hatomic
  · rintro (hbound | hrefusal)
    · exact atomic_of_binds hnode hsymbol hbound
    · exact atomic_of_no_refusal hnode hsymbol hrefusal

/-- A scope without names, and a stack whose size is not known. -/
def beforeStack : Forest :=
  { cells := .ofPool [0]
    scopes := #[{ parent := none, managed := true }]
    symbols := #[{ name := "s", kind := .stack }] }

/-- The stack is refused, since its size is not known, and nothing but its name is left of it. -/
theorem define_leaves_name_stack :
    beforeStack.scopes[0]? = some { parent := none, managed := true } ∧
    beforeStack.symbols[0]? = some { name := "s", kind := .stack } ∧
    ∃ f', beforeStack.define 0 0 = (.error .stackWithoutSize, f') ∧
      beforeStack.LeavesName 0 { name := "s", kind := .stack } f' := by
  have hnode : beforeStack.scopes[0]? = some { parent := none, managed := true } := rfl
  have hsymbol : beforeStack.symbols[0]? = some { name := "s", kind := .stack } := rfl
  obtain ⟨-, hleaves, -, -⟩ := define_leaves_name hnode hsymbol
  exact ⟨hnode, hsymbol, hleaves rfl .stackWithoutSize rfl⟩

/-- The stack is refused, and its name bound. -/
theorem failed_definition_binds_name :
    (beforeStack.define 0 0).1 = .error .stackWithoutSize ∧ beforeStack.names 0 = [] ∧
      (beforeStack.define 0 0).2.names 0 = ["s"] ∧
      ¬ beforeStack.Atomic 0 0 { name := "s", kind := .stack } := by
  have hnames : (beforeStack.define 0 0).2.names 0 = ["s"] := rfl
  refine ⟨rfl, rfl, hnames, fun hatomic => ?_⟩
  have hscopes : (beforeStack.define 0 0).2.scopes = beforeStack.scopes :=
    (hatomic.unchanged .stackWithoutSize (beforeStack.define 0 0).2 rfl).1
  rw [names, hscopes] at hnames
  cases hnames

end Forest

end TapeScript
