import Mathlib.Data.List.Induction
import Mathlib.Data.List.Nodup
import TapeScript.Lower.Source
import TapeScript.Proofs.Gives

set_option autoImplicit false

/-! # Lowering in a fresh session

What the lowering rules do in a session that has compiled nothing yet. Blocks leave no scope open, and
what is declared in them belongs to the global scope; so a session stays flat while a program is
lowered: its scratch cells are untouched, and the variables declared so far have the cells behind
them, in the order of their declarations (`Session.Flat`). Apart from declarations the rules change
nothing but the log (`Session.Quiet`).
-/

namespace TapeScript

/-! ## The log -/

/-- Whether a log line tells of a scratch cell handed out or given back. -/
def isRequest (line : String) : Bool := "MemoryManager: ".toList.isPrefixOf line.toList

/-- The scratch cells handed out and given back, as they are logged. -/
def requests (log : Array String) : List String := log.toList.filter isRequest

theorem requests_push (log : Array String) (line : String) :
    requests (log.push line) = requests log ++ if isRequest line then [line] else [] := by
  unfold requests
  rw [Array.toList_push, List.filter_append]
  by_cases h : isRequest line <;> simp [h]

theorem requests_push_of_not {log : Array String} {line : String} (h : isRequest line = false) :
    requests (log.push line) = requests log := by
  rw [requests_push, h]
  simp

namespace Session

/-- Only the log has changed, and no scratch cells were handed out. -/
structure Quiet (s s' : Session) : Prop where
  same : s' = { s with bench := { s.bench with log := s'.bench.log } }
  requests_eq : requests s'.bench.log = requests s.bench.log

namespace Quiet

theorem refl (s : Session) : s.Quiet s := ⟨rfl, rfl⟩

theorem trans {s1 s2 s3 : Session} (h1 : s1.Quiet s2) (h2 : s2.Quiet s3) : s1.Quiet s3 := by
  refine ⟨?_, h2.requests_eq.trans h1.requests_eq⟩
  rw [h2.same, h1.same]

theorem defines_eq {s s' : Session} (h : s.Quiet s') : s'.defines = s.defines := by
  rw [h.same]

theorem note (s : Session) {line : String} (h : isRequest line = false) : s.Quiet (s.note line) :=
  ⟨rfl, requests_push_of_not h⟩

end Quiet

end Session

/-! ## Running the rules -/

namespace Lower

variable {α : Type} {s s' : Session}

theorem gives_note {line : String} {u : Unit} : Gives (note line) s u s' ↔ s' = s.note line :=
  gives_modify

theorem gives_note_bind {line : String} {f : Unit → Lower α} {a : α} :
    Gives (note line >>= f) s a s' ↔ Gives (f ()) (s.note line) a s' := by
  simp only [gives_bind, gives_note]
  constructor
  · rintro ⟨_, _, rfl, h⟩
    exact h
  · intro h
    exact ⟨(), _, rfl, h⟩

theorem runFrom_atBench (action : Emit α) (s : Session) : runFrom (atBench action) s =
    ((runFrom action s.bench).1, { s with bench := (runFrom action s.bench).2 }) := by
  unfold atBench
  rw [runFrom_bind, show runFrom get s = (.ok s, s) from rfl]
  show runFrom (do
    set { s with bench := (runFrom action s.bench).2 }
    liftM (runFrom action s.bench).1) s = _
  rw [runFrom_bind]
  cases (runFrom action s.bench).1 <;> rfl

theorem gives_atBench {action : Emit α} {a : α} : Gives (atBench action) s a s' ↔
    ∃ bench, Gives action s.bench a bench ∧ s' = { s with bench } := by
  unfold Gives
  rw [runFrom_atBench]
  cases runFrom action s.bench with
  | mk r bench => simp [eq_comm]

theorem runFrom_inScope (action : FrameM Symbol α) (s : Session) {r : Except Fault α}
    {after : FrameState Symbol}
    (h : runFrom action { frame := s.current, cells := s.bench.cells, log := s.bench.log }
      = (r, after)) :
    runFrom (inScope action) s = (r, { s.setCurrent after.frame with
      bench := { s.bench with cells := after.cells, log := after.log } }) := by
  unfold inScope
  rw [runFrom_bind, show runFrom get s = (.ok s, s) from rfl]
  have hrun : action.runOn { frame := s.current, cells := s.bench.cells, log := s.bench.log }
      = (r, after) := h
  simp only [hrun]
  rw [runFrom_bind]
  cases r <;> rfl

end Lower

namespace SourceLower

theorem runFrom_during {α : Type} (rule : String) (action : Lower α) (s : Session) :
    runFrom (during rule action) s =
      ((runFrom action s).1.mapError fun fault => ⟨some rule, fault⟩, (runFrom action s).2) := by
  unfold during
  rw [runFrom_bind, show runFrom get s = (.ok s, s) from rfl]
  have hrun : action.run s = ((runFrom action s).1, (runFrom action s).2) := rfl
  simp only [hrun]
  rw [runFrom_bind]
  cases (runFrom action s).1 <;> rfl

theorem gives_during {α : Type} {rule : String} {action : Lower α} {s s' : Session} {a : α} :
    Gives (during rule action) s a s' ↔ Gives action s a s' := by
  unfold Gives
  rw [runFrom_during]
  cases runFrom action s with
  | mk r s1 => cases r <;> simp [Except.mapError]

end SourceLower

/-! ## Cells in a row -/

/-- The first cells of the tape. -/
def firstCells (n : Nat) : List Int := (List.range n).map Int.ofNat

theorem mem_firstCells {n : Nat} {c : Int} : c ∈ firstCells n ↔ 0 ≤ c ∧ c < n := by
  unfold firstCells
  simp only [List.mem_map, List.mem_range, Int.ofNat_eq_natCast]
  constructor
  · rintro ⟨k, hk, rfl⟩
    omega
  · rintro ⟨h0, hlt⟩
    exact ⟨c.toNat, by omega, by omega⟩

theorem firstCells_succ (n : Nat) : firstCells (n + 1) = firstCells n ++ [(n : Int)] := by
  simp [firstCells, List.range_succ]

theorem nodup_firstCells (n : Nat) : (firstCells n).Nodup :=
  (List.nodup_range).map fun _ _ h => Int.ofNat_inj.mp h

theorem eraseDups_of_nodup {l : List Int} (h : l.Nodup) : l.eraseDups = l := by
  induction l with
  | nil => rfl
  | cons a l ih =>
    obtain ⟨hnot, hrest⟩ := List.nodup_cons.mp h
    have hfilter : l.filter (fun b => !b == a) = l := by
      refine List.filter_eq_self.mpr fun b hb => ?_
      have hne : b ≠ a := fun heq => hnot (heq ▸ hb)
      simp [hne]
    rw [List.eraseDups_cons, hfilter, ih hrest]

namespace CellTable

/-- With the first cells in use, the search for a cell goes through all of them. -/
theorem searchFrom_firstCells {m r k : Nat} (h : k + r = m) :
    searchFrom (firstCells m) 1 r k = m := by
  induction r generalizing k with
  | zero => rw [searchFrom, ← h, Nat.add_zero]
  | succ r ih =>
    have hmem : (k : Int) ∈ firstCells m := mem_firstCells.mpr ⟨by omega, by omega⟩
    have hconflict : conflict? (firstCells m) k 1 = some 0 := by
      simp [conflict?, hmem]
    rw [searchFrom, hconflict]
    have hnext := ih (k := k + 1) (by omega)
    simpa using hnext

theorem allocate_one {t : CellTable} {m : Nat} (h : t.taken = firstCells m) :
    t.allocate 1 = .ok ((m : Int), { t with taken := firstCells (m + 1) }) := by
  have hlen : t.taken.length = m := by simp [h, firstCells]
  have hstart : t.freeStart 1 = m := by
    unfold freeStart
    rw [hlen, h]
    exact searchFrom_firstCells (Nat.zero_add m)
  unfold allocate
  rw [if_neg (by decide), hstart, firstCells_succ, h]
  simp [block]

end CellTable

/-! ## Flat sessions -/

/-- A variable with its cell behind the scratch pool. -/
def variableAt (pool : Nat) (name : String) (k : Nat) : Symbol :=
  { name, kind := .variable, initialised := true, location := some ((pool + k : Nat) : Int) }

/-- The declared variables, each with the next cell. -/
def layout (pool : Nat) (names : List String) : List (String × Symbol) :=
  names.zipIdx.map fun (name, k) => (name, variableAt pool name k)

theorem layout_append (pool : Nat) (names : List String) (name : String) :
    layout pool (names ++ [name])
      = layout pool names ++ [(name, variableAt pool name names.length)] := by
  simp [layout, List.zipIdx_append]

theorem lookup_layout_eq_some {pool : Nat} {names : List String} {name : String} {sym : Symbol}
    (h : (layout pool names).lookup name = some sym) :
    ∃ k, names[k]? = some name ∧ sym = variableAt pool name k := by
  induction names using List.reverseRecOn with
  | nil => cases h
  | append_singleton names last ih =>
    rw [layout_append, List.lookup_append] at h
    cases hfirst : (layout pool names).lookup name with
    | some sym' =>
      rw [hfirst] at h
      cases h
      obtain ⟨k, hk, hsym⟩ := ih hfirst
      have hlt : k < names.length := (List.getElem?_eq_some_iff.mp hk).1
      exact ⟨k, by rw [List.getElem?_append_left hlt, hk], hsym⟩
    | none =>
      rw [hfirst] at h
      by_cases heq : name = last
      · subst heq
        refine ⟨names.length, by simp, ?_⟩
        simpa [eq_comm] using h
      · have hbeq : (name == last) = false := by simpa using heq
        simp [List.lookup_cons, hbeq] at h

theorem lookup_layout_eq_none {pool : Nat} {names : List String} {name : String} :
    (layout pool names).lookup name = none ↔ name ∉ names := by
  have hkeys : (layout pool names).map Prod.fst = names := by
    simp [layout, Function.comp_def]
  rw [List.lookup_eq_none_iff]
  constructor
  · intro h hmem
    rw [← hkeys] at hmem
    obtain ⟨p, hp, hname⟩ := List.mem_map.mp hmem
    simpa [hname] using h p hp
  · intro h p hp
    have hmem : p.1 ∈ names := by
      rw [← hkeys]
      exact List.mem_map_of_mem hp
    simp only [bne_iff_ne, ne_eq]
    rintro rfl
    exact h hmem

namespace FrameM

variable {fs : FrameState Symbol} {m : Nat}

theorem gives_allocate (hmanaged : fs.managed = true) (htaken : fs.cells.taken = firstCells m) :
    ∃ after, Gives (allocate 1) fs (m : Int) after ∧
      after.cells = { fs.cells with taken := firstCells (m + 1) } ∧
      after.frame.names = fs.frame.names ∧ requests after.log = requests fs.log := by
  refine ⟨{ fs with
    cells := { fs.cells with taken := firstCells (m + 1) }
    frame := { fs.frame with cells := fs.frame.cells ++ CellTable.block m 1 }
    log := fs.log.push s!"Scope: Allocated {(1 : Int)} cells starting at {(m : Int)}" },
    ?_, rfl, rfl, requests_push_of_not (by simp [isRequest, List.isPrefixOf, toString])⟩
  unfold allocate note
  rw [gives_bind]
  refine ⟨fs, fs, gives_get.mpr ⟨rfl, rfl⟩, ?_⟩
  rw [if_pos hmanaged]
  simp only [gives_bind, gives_lift, gives_modify, gives_pure]
  exact ⟨_, fs, ⟨CellTable.allocate_one htaken, rfl⟩, (), _, rfl, (), _, rfl, rfl, rfl⟩

/-- Defining a variable takes the first cell that is not in use. -/
theorem gives_define (hmanaged : fs.managed = true) (htaken : fs.cells.taken = firstCells m)
    {name : String} (hnew : fs.frame.binds name = false) :
    ∃ after, Gives (define { name, kind := .variable, initialised := true } id) fs
        (variableAt m name 0) after ∧
      after.cells = { fs.cells with taken := firstCells (m + 1) } ∧
      after.frame.names = fs.frame.names ++ [(name, variableAt m name 0)] ∧
      requests after.log = requests fs.log := by
  obtain ⟨fs1, hallocate, hcells, hnames, hlog⟩ := gives_allocate hmanaged htaken
  have hlocate : Gives (locate { name, kind := .variable, initialised := true }) fs
      (variableAt m name 0) fs1 := by
    unfold locate
    rw [gives_bind]
    refine ⟨some 1, fs, gives_lift.mpr ⟨rfl, rfl⟩, ?_⟩
    exact gives_bind.mpr ⟨_, fs1, hallocate, gives_pure.mpr ⟨rfl, rfl⟩⟩
  refine ⟨{ fs1 with
    frame := fs1.frame.bind name (variableAt m name 0)
    log := fs1.log.push s!"Scope: Defined {(variableAt m name 0).text}" }, ?_, hcells, ?_, ?_⟩
  · unfold define note
    rw [gives_bind]
    refine ⟨fs, fs, gives_get.mpr ⟨rfl, rfl⟩, ?_⟩
    rw [if_neg (by simp [hnew])]
    simp only [gives_bind, gives_modify, gives_pure]
    exact ⟨_, fs1, (gives_tryCatch (by simp)).mpr hlocate, (), _, rfl, (), _, rfl, rfl, rfl⟩
  · rw [← hnames]
    rfl
  · refine (requests_push_of_not ?_).trans hlog
    simp [isRequest, List.isPrefixOf, toString]

end FrameM

namespace Session

/-- Nothing has been emitted, no scope is open inside the global one, and the variables have the
cells behind the scratch pool. -/
structure Flat (pool : Nat) (names : List String) (s : Session) : Prop where
  head : s.bench.head = 0
  scratch : s.bench.cells.scratch = firstCells pool
  free : s.bench.cells.free = firstCells pool
  maxScratch : s.bench.cells.maxScratch = 0
  taken : s.bench.cells.taken = firstCells (pool + names.length)
  inner : s.inner = []
  global : s.global.names = layout pool names
  nodup : names.Nodup

namespace Flat

variable {pool : Nat} {names : List String} {s s' : Session}

theorem ofPool (size : Int) : (Session.ofPool size).Flat size.toNat [] where
  head := rfl
  scratch := rfl
  free := rfl
  maxScratch := rfl
  taken := eraseDups_of_nodup (nodup_firstCells _)
  inner := rfl
  global := rfl
  nodup := List.nodup_nil

theorem quiet (h : s.Flat pool names) (hq : s.Quiet s') : s'.Flat pool names := by
  rw [hq.same]
  exact ⟨h.head, h.scratch, h.free, h.maxScratch, h.taken, h.inner, h.global, h.nodup⟩

theorem current_eq (h : s.Flat pool names) : s.current = s.global := by
  rw [Session.current, h.inner]

theorem lookup_eq (h : s.Flat pool names) (name : String) :
    s.lookup name = (layout pool names).lookup name := by
  rw [Session.lookup, h.inner, ← h.global]
  simp [Frame.lookup?]

theorem binds_eq (h : s.Flat pool names) (name : String) :
    s.current.binds name = decide (name ∈ names) := by
  rw [h.current_eq, Frame.binds, Frame.lookup?, h.global]
  cases hlookup : (layout pool names).lookup name with
  | none => simp [lookup_layout_eq_none.mp hlookup]
  | some sym =>
    have hmem : name ∈ names := by
      by_contra hnot
      rw [lookup_layout_eq_none.mpr hnot] at hlookup
      cases hlookup
    simp [hmem]

/-- A variable that is defined gets the next cell. -/
theorem define (h : s.Flat pool names) {name : String} (hnew : name ∉ names) :
    ∃ s', Gives (Lower.define { name, kind := .variable, initialised := true }) s
        (variableAt pool name names.length) s' ∧
      s'.Flat pool (names ++ [name]) ∧ requests s'.bench.log = requests s.bench.log ∧
      s'.defines = s.defines := by
  let before : FrameState Symbol :=
    { frame := s.current, cells := s.bench.cells, log := s.bench.log }
  have hmanaged : before.managed = true := rfl
  obtain ⟨after, hgives, hcells, hframe, hlog⟩ := FrameM.gives_define hmanaged h.taken
    (by rw [h.binds_eq]; simpa using hnew)
  have hset : s.setCurrent after.frame = { s with global := after.frame } := by
    rw [Session.setCurrent, h.inner]
  refine ⟨_, Lower.runFrom_inScope _ s hgives, ?_, hlog, by rw [hset]⟩
  rw [hset, hcells]
  refine ⟨h.head, h.scratch, h.free, h.maxScratch, ?_, h.inner, ?_, ?_⟩
  · rw [List.length_append]
    rfl
  · rw [layout_append, ← h.global, ← h.current_eq]
    exact hframe
  · exact List.nodup_append.mpr ⟨h.nodup, List.nodup_singleton name, by
      rintro a ha b hb rfl
      exact hnew ((List.mem_singleton.mp hb) ▸ ha)⟩

end Flat

end Session

/-! ## The rules -/

namespace Lower

variable {s s' : Session} {n : Node}
variable {name : String} {target : Node}

theorem gives_number {text : String} : Gives (number text) s n s' ↔
    ∃ v, Literal.number text = .ok v ∧ n = .constant v true ∧ s' = s := by
  unfold number
  simp only [gives_bind, gives_lift, gives_pure]
  constructor
  · rintro ⟨v, _, ⟨hv, rfl⟩, rfl, rfl⟩
    exact ⟨v, hv, rfl, rfl⟩
  · rintro ⟨v, hv, rfl, rfl⟩
    exact ⟨v, s', ⟨hv, rfl⟩, rfl, rfl⟩

theorem codePoint_eq_ok {chars : List Char} {v : Int} :
    Literal.codePoint chars = .ok v ↔ ∃ c, chars = [c] ∧ v = c.toNat := by
  unfold Literal.codePoint
  split
  · simp [eq_comm]
  · simp_all

theorem gives_character {text : String} : Gives (character text) s n s' ↔
    ∃ c, Literal.characterText text.toList = .ok [c] ∧ n = .constant c.toNat true ∧
      s' = s.note (String.ofList [c]) := by
  unfold character
  simp only [gives_bind, gives_lift, gives_pure, gives_note]
  constructor
  · rintro ⟨chars, _, ⟨hchars, rfl⟩, _, _, rfl, v, _, ⟨hv, rfl⟩, rfl, rfl⟩
    obtain ⟨c, rfl, rfl⟩ := codePoint_eq_ok.mp hv
    exact ⟨c, hchars, rfl, rfl⟩
  · rintro ⟨c, hchars, rfl, rfl⟩
    exact ⟨[c], s, ⟨hchars, rfl⟩, (), _, rfl, _, _, ⟨rfl, rfl⟩, rfl, rfl⟩

/-- The line that tells that a define was used. -/
def substituted (name value : String) : String :=
  s!"Transformer: Substituted define '{name}' with value {value}"

theorem isRequest_substituted (name value : String) : isRequest (substituted name value) = false := by
  unfold isRequest substituted
  simp [List.isPrefixOf, toString]

theorem gives_declaredName : Gives (declaredName name) s n s' ↔
    (∃ value v, s.defines.lookup name = some value ∧ Literal.defineValue value = .ok v ∧
      n = .constant v true ∧ s' = s.note (substituted name value)) ∨
    (s.defines.lookup name = none ∧ ∃ sym, s.lookup name = some sym ∧ sym.kind = .variable ∧
      n = .load sym ∧ s' = s) := by
  unfold declaredName
  rw [gives_get_bind]
  cases hdef : s.defines.lookup name with
  | some value =>
    simp only [gives_bind, gives_note, gives_lift, gives_pure]
    constructor
    · rintro ⟨_, _, rfl, v, _, ⟨hv, rfl⟩, rfl, rfl⟩
      exact .inl ⟨value, v, rfl, hv, rfl, rfl⟩
    · rintro (⟨_, v, heq, hv, rfl, rfl⟩ | ⟨heq, -⟩)
      · cases heq
        exact ⟨(), _, rfl, v, _, ⟨hv, rfl⟩, rfl, rfl⟩
      · cases heq
  | none =>
    cases hsym : s.lookup name with
    | none => simp
    | some sym =>
      cases hkind : sym.kind <;> simp [hkind]

theorem constantValue_eq_ok {a : Int} :
    constantValue n = .ok a ↔ ∃ ready, n = .constant a ready := by
  unfold constantValue
  split
  · next v r => simp [eq_comm]
  · next h =>
      constructor
      · intro heq
        cases heq
      · rintro ⟨ready, rfl⟩
        exact absurd rfl (h a ready)

/-- The line that tells of a folded operator. -/
def folded (op : String) (a b result : Int) : String :=
  s!"Transformer: Folded constant expression: {a} {op} {b} -> {result}"

theorem isRequest_folded (op : String) (a b result : Int) :
    isRequest (folded op a b result) = false := by
  unfold isRequest folded
  simp [List.isPrefixOf, toString]

theorem gives_combine {level : Level} {left right : Node} {op : String} :
    Gives (combine level left op right) s n s' ↔
      (∃ a b v, bothConstant left right = .ok true ∧ constantValue left = .ok a ∧
        constantValue right = .ok b ∧ foldValue op a b = .ok v ∧
        (writable a && writable b && writable v) = true ∧ n = .constant v true ∧
        s' = s.note (folded op a b v)) ∨
      (bothConstant left right = .ok false ∧ left.hasCode = .ok true ∧ right.hasCode = .ok true ∧
        n = .binary level op left right ∧ s' = s) := by
  unfold combine
  simp only [gives_lift_bind]
  constructor
  · rintro ⟨both, hboth, h⟩
    cases both with
    | true =>
      simp only [if_true, gives_lift_bind, gives_unless, gives_note_bind, gives_pure] at h
      obtain ⟨a, ha, b, hb, v, hv, hsmall, rfl, rfl⟩ := h
      exact .inl ⟨a, b, v, hboth, ha, hb, hv, hsmall, rfl, rfl⟩
    | false =>
      simp only [Bool.false_eq_true, if_false, gives_lift_bind, gives_unless, gives_pure] at h
      obtain ⟨_, hleft, rfl, _, hright, rfl, rfl, rfl⟩ := h
      exact .inr ⟨hboth, hleft, hright, rfl, rfl⟩
  · rintro (⟨a, b, v, hboth, ha, hb, hv, hsmall, rfl, rfl⟩ | ⟨hboth, hleft, hright, rfl, rfl⟩)
    · refine ⟨true, hboth, ?_⟩
      simp only [if_true, gives_lift_bind, gives_unless, gives_note_bind, gives_pure]
      exact ⟨a, ha, b, hb, v, hv, hsmall, rfl, rfl⟩
    · refine ⟨false, hboth, ?_⟩
      simp only [Bool.false_eq_true, if_false, gives_lift_bind, gives_unless, gives_pure]
      exact ⟨_, hleft, rfl, _, hright, rfl, trivial, trivial⟩

/-- The line that tells of a sign that was applied. -/
def foldedSign (op : String) (v result : Int) : String :=
  s!"Transformer: Folded unary expression: {op}{v} -> {result}"

theorem isRequest_foldedSign (op : String) (v result : Int) :
    isRequest (foldedSign op v result) = false := by
  unfold isRequest foldedSign
  simp [List.isPrefixOf, toString]

theorem gives_unary {op : String} {operand : Node} : Gives (unary op operand) s n s' ↔
      (∃ v, isConstant operand = .ok true ∧ constantValue operand = .ok v ∧ writable v = true ∧
        n = .constant (if op = "-" then -v else v) true ∧
        s' = s.note (foldedSign op v (if op = "-" then -v else v))) ∨
      (isConstant operand = .ok false ∧ n = .unary op operand ∧ s' = s) := by
  unfold unary
  simp only [gives_lift_bind]
  constructor
  · rintro ⟨constant, hconstant, h⟩
    cases constant with
    | true =>
      simp only [if_true, gives_lift_bind, gives_unless, gives_note_bind, gives_pure] at h
      obtain ⟨v, hv, hsmall, rfl, rfl⟩ := h
      exact .inl ⟨v, hconstant, hv, hsmall, rfl, rfl⟩
    | false =>
      simp only [Bool.false_eq_true, if_false, gives_pure] at h
      exact .inr ⟨hconstant, h.1, h.2⟩
  · rintro (⟨v, hconstant, hv, hsmall, rfl, rfl⟩ | ⟨hconstant, rfl, rfl⟩)
    · refine ⟨true, hconstant, ?_⟩
      simp only [if_true, gives_lift_bind, gives_unless, gives_note_bind, gives_pure]
      exact ⟨v, hv, hsmall, rfl, rfl⟩
    · refine ⟨false, hconstant, ?_⟩
      simp only [Bool.false_eq_true, if_false, gives_pure, and_self]

theorem gives_assign {value : Node} : Gives (assign target value) s n s' ↔
    ∃ sym, targetOf target = .ok sym ∧ sym.kind = .variable ∧ value.hasCode = .ok true ∧
      n = .assign sym value ∧ s' = s := by
  unfold assign
  simp only [gives_lift_bind, gives_when, gives_unless, gives_pure, not_not]
  constructor
  · rintro ⟨sym, hsym, hkind, _, hcode, rfl, rfl, rfl⟩
    exact ⟨sym, hsym, hkind, hcode, rfl, rfl⟩
  · rintro ⟨sym, hsym, hkind, hcode, rfl, rfl⟩
    exact ⟨sym, hsym, hkind, true, hcode, rfl, rfl, rfl⟩

theorem gives_define_of_flat {pool : Nat} {names : List String} (h : s.Flat pool names)
    {sym : Symbol} (hg : Gives (define { name, kind := .variable, initialised := true }) s sym s')
    (hnew : name ∉ names) :
    sym = variableAt pool name names.length ∧ s'.Flat pool (names ++ [name]) ∧
      requests s'.bench.log = requests s.bench.log ∧ s'.defines = s.defines := by
  obtain ⟨s1, hg1, hflat, hlog, hdefines⟩ := h.define hnew
  obtain ⟨rfl, rfl⟩ := hg.unique hg1
  exact ⟨rfl, hflat, hlog, hdefines⟩

theorem declaredAs_eq_ok : declaredAs target = .ok name ↔ target = .newName name := by
  unfold declaredAs
  split <;> simp_all

/-- A declaration in a flat session declares a new name. -/
theorem gives_declare {pool : Nat} {names : List String} (h : s.Flat pool names)
    {initial : Option Node} : Gives (declare target initial) s n s' ↔
      ∃ name sym, target = .newName name ∧ name ∉ names ∧
        Gives (define { name, kind := .variable, initialised := true }) s sym s' ∧
        (∀ value ∈ initial, value.hasCode = .ok true) ∧ n = .declare sym initial := by
  unfold declare
  simp only [gives_lift_bind, gives_get_bind, gives_when, h.binds_eq, decide_eq_true_eq,
    declaredAs_eq_ok]
  simp only [gives_bind]
  constructor
  · rintro ⟨name, rfl, hnew, sym, s1, hdefine, hrest⟩
    cases initial with
    | none =>
      obtain ⟨rfl, rfl⟩ := gives_pure.mp hrest
      exact ⟨name, sym, rfl, hnew, hdefine, by simp, rfl⟩
    | some value =>
      simp only [gives_lift_bind, gives_unless, gives_pure] at hrest
      obtain ⟨_, hcode, rfl, rfl, rfl⟩ := hrest
      exact ⟨name, sym, rfl, hnew, hdefine, by simpa using hcode, rfl⟩
  · rintro ⟨name, sym, rfl, hnew, hdefine, hcode, rfl⟩
    refine ⟨name, rfl, hnew, sym, s', hdefine, ?_⟩
    cases initial with
    | none => exact gives_pure.mpr ⟨rfl, rfl⟩
    | some value =>
      simp only [gives_lift_bind, gives_unless, gives_pure]
      exact ⟨true, hcode value rfl, rfl, trivial, trivial⟩

/-- A block changes nothing, since its contents were lowered outside it. -/
theorem gives_block (h : s.inner = []) (body : List Node) :
    ∃ s', Gives (block body) s (.block body) s' ∧ s.Quiet s' := by
  have hrelease : s.bench.cells.release [] = s.bench.cells := by
    simp [CellTable.release]
  let entered := ({ s with inner := [{}] } : Session).note
    "Transformer: Entered new scope (parent: True)"
  have henter : Gives enterScope s () entered := by
    unfold enterScope
    simp only [gives_bind, gives_modify, gives_note]
    exact ⟨(), _, rfl, by rw [h]⟩
  have hfree : Gives (FrameM.release (α := Symbol))
      { frame := {}, cells := s.bench.cells, log := entered.bench.log } ()
      { frame := {}, cells := s.bench.cells
        log := entered.bench.log.push s!"Scope: Releasing cells {FrameM.cellsText []}" } := by
    unfold FrameM.release FrameM.note
    rw [gives_get_bind, if_pos rfl]
    simp only [gives_bind, gives_modify]
    exact ⟨(), _, rfl, by rw [hrelease]⟩
  let left : Session := { s with
    inner := []
    bench := { s.bench with
      log := (entered.bench.log.push s!"Scope: Releasing cells {FrameM.cellsText []}").push
        "Transformer: Exiting scope. Returning to parent." } }
  have hleave : Gives leaveScope entered () left := by
    unfold leaveScope
    rw [gives_get_bind, gives_when]
    refine ⟨by simp [entered, Session.note], ?_⟩
    simp only [gives_bind, gives_note, gives_modify]
    exact ⟨(), _, runFrom_inScope _ entered hfree, (), _, rfl, rfl⟩
  refine ⟨left, gives_bind.mpr ⟨(), entered, henter, gives_bind.mpr ⟨(), left, hleave,
    gives_pure.mpr ⟨rfl, rfl⟩⟩⟩, ?_, ?_⟩
  · show left = { s with bench := left.bench }
    rw [h]
  · refine (requests_push_of_not (by decide)).trans ((requests_push_of_not ?_).trans
      (requests_push_of_not (by decide)))
    simp [isRequest, List.isPrefixOf, toString]

end Lower

/-! ## How lowering is composed -/

/-- The actions that constructs are lowered by. -/
inductive Lower.IsRule : {α : Type} → Lower α → Prop where
  | fault {α : Type} (f : Fault) : IsRule (throw f : Lower α)
  | number (text : String) : IsRule (number text)
  | character (text : String) : IsRule (character text)
  | declaredName (name : String) : IsRule (declaredName name)
  | newName (name : String) : IsRule (newName name)
  | unary (op : String) (operand : Node) : IsRule (unary op operand)
  | chain (level : Level) (first : Node) (rest : List (String × Node)) : IsRule (chain level first rest)
  | declare (target : Node) (initial : Option Node) : IsRule (declare target initial)
  | assign (target value : Node) : IsRule (assign target value)
  | block (body : List Node) : IsRule (block body)
  | note (text : String) : IsRule (note text)
  | program (items : List Node) (room : Nat) : IsRule (program items room)

namespace SourceLower

/-- All lowering is composed of rules, one after another. -/
inductive Built : {α : Type} → SourceLower α → Prop where
  | pure {α : Type} (a : α) : Built (Pure.pure a)
  | throw {α : Type} (f : RuleFault) : Built (throw f : SourceLower α)
  | bind {α β : Type} {x : SourceLower α} {k : α → SourceLower β} (hx : Built x)
      (hk : ∀ a, Built (k a)) : Built (x >>= k)
  | during {α : Type} (rule : String) {action : Lower α} (h : action.IsRule) :
      Built (during rule action)

theorem built_declaredName (t : Token) : Built (declaredName t) := .during _ (.declaredName _)

theorem built_newName (t : Token) : Built (newName t) := .during _ (.newName _)

mutual

theorem built_expr : ∀ e : Expr, Built (expr e)
  | .number t => by
    rw [expr]
    exact .during _ (.number _)
  | .character t => by
    rw [expr]
    exact .during _ (.character _)
  | .name t => by
    rw [expr]
    exact built_declaredName t
  | .call f (a :: as) => by
    rw [expr]
    exact (built_declaredName f).bind fun _ => (built_expr a).bind fun _ =>
      (built_exprs as).bind fun _ => .during _ (.fault _)
  | .call t [] | .peek t | .pop t => by
    rw [expr]
    exact (built_declaredName t).bind fun _ => .during _ (.fault _)
  | .input => by
    rw [expr]
    exact .pure _
  | .unary sign operand => by
    rw [expr]
    exact (built_expr operand).bind fun _ => .during _ (.unary _ _)
  | .chain level first rest => by
    rw [expr]
    exact (built_expr first).bind fun _ => (built_operands rest).bind fun _ => .during _ (.chain _ _ _)

theorem built_exprs : ∀ es : List Expr, Built (exprs es)
  | [] => by
    rw [exprs]
    exact .pure _
  | e :: es => by
    rw [exprs]
    exact (built_expr e).bind fun _ => (built_exprs es).bind fun _ => .pure _

theorem built_operands : ∀ rest : List (Token × Expr), Built (operands rest)
  | [] => by
    rw [operands]
    exact .pure _
  | (op, e) :: rest => by
    rw [operands]
    exact (built_expr e).bind fun _ => (built_operands rest).bind fun _ => .pure _

end

mutual

theorem built_stmt : ∀ st : Stmt, Built (stmt st)
  | .variable name none => by
    rw [stmt]
    exact (built_newName name).bind fun _ => .during _ (.declare _ _)
  | .variable name (some initial) => by
    rw [stmt]
    exact (built_newName name).bind fun _ => (built_expr initial).bind fun _ =>
      .during _ (.declare _ _)
  | .stack name size => by
    rw [stmt]
    exact (built_newName name).bind fun _ => (built_expr size).bind fun _ => .during _ (.fault _)
  | .assign name value => by
    rw [stmt]
    exact (built_declaredName name).bind fun _ => (built_expr value).bind fun _ =>
      .during _ (.assign _ _)
  | .expr value => by
    rw [stmt]
    exact built_expr value
  | .push name value => by
    rw [stmt]
    exact (built_declaredName name).bind fun _ => (built_expr value).bind fun _ =>
      .during _ (.fault _)
  | .output value => by
    rw [stmt]
    exact (built_expr value).bind fun _ => .pure _
  | .ifElse condition body none | .loop condition body => by
    rw [stmt]
    exact (built_expr condition).bind fun _ => (built_stmt body).bind fun _ => .pure _
  | .ifElse condition body (some otherwise) => by
    rw [stmt]
    exact (built_expr condition).bind fun _ => (built_stmt body).bind fun _ =>
      (built_stmt otherwise).bind fun _ => .pure _
  | .returning none => by
    rw [stmt]
    exact .during _ (.fault _)
  | .returning (some value) => by
    rw [stmt]
    exact (built_expr value).bind fun _ => .during _ (.fault _)
  | .block body => by
    rw [stmt]
    exact (built_stmts body).bind fun _ => .during _ (.block _)

theorem built_stmts : ∀ sts : List Stmt, Built (stmts sts)
  | [] => by
    rw [stmts]
    exact .pure _
  | st :: sts => by
    rw [stmts]
    exact (built_stmt st).bind fun _ => (built_stmts sts).bind fun _ => .pure _

end

theorem built_parameters : ∀ params : List Token, Built (parameters params)
  | [] => .pure _
  | p :: _ => (built_declaredName p).bind fun _ => .during _ (.fault _)

theorem built_item : ∀ i : Item, Built (item i)
  | .includes _ => .during _ (.fault _)
  | .define name value =>
    (built_declaredName name).bind fun _ => (built_expr value).bind fun _ => .pure _
  | .function name params body =>
    (Built.during _ (.note _)).bind fun _ => (built_newName name).bind fun _ =>
      (built_parameters params).bind fun _ => (built_stmts body).bind fun _ =>
        (Built.during _ (.block _)).bind fun _ => .during _ (.fault _)
  | .stmt st => built_stmt st

theorem built_items : ∀ is : List Item, Built (items is)
  | [] => .pure _
  | i :: is => (built_item i).bind fun _ => (built_items is).bind fun _ => .pure _

theorem built_source (source : Source) (stack : CallStack) :
    Built (SourceLower.source source stack) := by
  refine (built_items _).bind fun nodes => ?_
  split
  on_goal 1 => refine (Built.throw _).bind fun _ => ?_
  all_goals
    refine (Built.during _ (.program nodes stack.calls)).bind fun n => ?_
    split <;> exact .pure _

end SourceLower

end TapeScript
