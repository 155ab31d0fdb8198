import TapeScript.Proofs.PoolSize
import TapeScript.Proofs.Resolution
import TapeScript.Proofs.Tenancy

set_option autoImplicit false

/-! # Lowering up to names

Two scripts that differ in the names of their variables only are lowered side by side (`Mirrors`):
from sessions that have the same cells for other names (`Renames`), each rule leads to nodes that
differ only in the names of their symbols (`Node.Alike`), or both fail with the same fault, which is
then about no name. Emission takes no notice of names.
-/

namespace TapeScript

/-! ## Nodes up to names -/

/-- The two are variables with the same cell. -/
structure Symbol.Alike (a b : Symbol) : Prop where
  first : a.kind = .variable
  second : b.kind = .variable
  cell : ∃ c, a.location = some c ∧ b.location = some c

/-- The two emit the same code, also inside of other nodes. -/
structure Node.SameCode (n m : Node) : Prop where
  kind_eq : m.codeKind = n.codeKind
  emit_eq : m.emit = n.emit
  into_eq : ∀ cell, m.emitInto cell = n.emitInto cell

/-- The two differ at most in the names of their symbols, as far as can be seen. -/
structure Node.Alike (n m : Node) : Prop where
  op_eq : m.op? = n.op?
  value_eq : Lower.constantValue m = Lower.constantValue n
  symbols : Option.Rel Symbol.Alike n.symbol? m.symbol?
  code : ∀ room, (n.cut room).SameCode (m.cut room)

namespace Node

variable {n m condition condition' : Node} {a b : Symbol} {ns ms : List Node}

namespace SameCode

theorem refl (n : Node) : n.SameCode n := ⟨rfl, rfl, fun _ => rfl⟩

theorem hasCode_eq (h : n.SameCode m) : m.hasCode = n.hasCode := by
  rw [hasCode, hasCode, h.kind_eq]

/-- Where there is no room, both are cut off. -/
theorem ite {c : Prop} [Decidable c] (h : n.SameCode m) :
    (if c then n else .deep).SameCode (if c then m else .deep) := by
  split
  · exact h
  · exact refl _

theorem load (h : a.Alike b) : (Node.load a).SameCode (.load b) := by
  obtain ⟨c, ha, hb⟩ := h.cell
  refine ⟨rfl, rfl, fun cell => ?_⟩
  rw [emitInto_load, emitInto_load, ha, hb]

theorem binary {left left' right right' : Node} (hleft : left.SameCode left')
    (hright : right.SameCode right') (level : Level) (op : String) :
    (Node.binary level op left right).SameCode (.binary level op left' right') := by
  refine ⟨rfl, rfl, fun cell => ?_⟩
  rw [emitInto_binary, emitInto_binary]
  simp only [hleft.into_eq, hright.into_eq]

theorem emitAt_eq (h : n.SameCode m) (hsymbol : a.Alike b) : m.emitAt b = n.emitAt a := by
  obtain ⟨c, ha, hb⟩ := hsymbol.cell
  simp only [emitAt, ha, hb, h.into_eq]

theorem declare_none (h : a.Alike b) : (Node.declare a none).SameCode (.declare b none) := by
  obtain ⟨c, ha, hb⟩ := h.cell
  refine ⟨rfl, ?_, fun _ => rfl⟩
  rw [emit, emit, ha, hb]

theorem declare (h : n.SameCode m) (hsymbol : a.Alike b) :
    (Node.declare a (some n)).SameCode (.declare b (some m)) := by
  refine ⟨rfl, ?_, fun _ => rfl⟩
  rw [emit, emit]
  exact h.emitAt_eq hsymbol

theorem assign (h : n.SameCode m) (hsymbol : a.Alike b) :
    (Node.assign a n).SameCode (.assign b m) := by
  refine ⟨rfl, ?_, fun _ => rfl⟩
  rw [emit, emit]
  exact h.emitAt_eq hsymbol

theorem output (h : n.SameCode m) : (Node.output n).SameCode (.output m) := by
  refine ⟨rfl, ?_, fun _ => rfl⟩
  rw [emit, emit, emitOutput_eq, emitOutput_eq]
  simp only [h.into_eq]

theorem loop (hcondition : condition.SameCode condition') (hbody : n.SameCode m) :
    (Node.loop condition n).SameCode (.loop condition' m) := by
  refine ⟨rfl, ?_, fun _ => rfl⟩
  have hinto : condition'.emitInto = condition.emitInto := funext hcondition.into_eq
  rw [emit, emit, emitLoop_eq, emitLoop_eq, hcondition.hasCode_eq, hbody.hasCode_eq, hinto,
    hbody.emit_eq]

theorem ifElse (hcondition : condition.SameCode condition') (hbody : n.SameCode m)
    {otherwise otherwise' : Option Node} (hotherwise : Option.Rel SameCode otherwise otherwise') :
    (Node.ifElse condition n otherwise).SameCode (.ifElse condition' m otherwise') := by
  refine ⟨rfl, ?_, fun _ => rfl⟩
  cases hotherwise with
  | none =>
    rw [emit, emit, emitBranch_eq, emitBranch_eq]
    simp only [hcondition.into_eq, hbody.hasCode_eq]
  | some hother =>
    rw [emit, emit, emitBranch_eq, emitBranch_eq]
    simp only [hcondition.into_eq, hbody.hasCode_eq, hother.hasCode_eq, hbody.emit_eq,
      hother.emit_eq]

end SameCode

theorem alike_self (h : n.symbol? = none) : n.Alike n :=
  ⟨rfl, rfl, by rw [h]; exact .none, fun _ => .refl _⟩

theorem Alike.kind_eq (h : n.Alike m) : m.codeKind = n.codeKind := by
  have hcode := (h.code (max n.calls m.calls)).kind_eq
  rwa [cut_of_le n (le_max_left _ _), cut_of_le m (le_max_right _ _)] at hcode

theorem Alike.hasCode_eq (h : n.Alike m) : m.hasCode = n.hasCode := by
  rw [hasCode, hasCode, h.kind_eq]

theorem eq_misfit_iff : n = .misfit ↔ n.codeKind = .misfit := by
  constructor
  · rintro rfl
    rfl
  · intro h
    cases n <;> simp [codeKind] at h ⊢
    split at h <;> cases h

theorem Alike.isConstant_eq (h : n.Alike m) : Lower.isConstant m = Lower.isConstant n := by
  by_cases hn : n = .misfit
  · have hm : m = .misfit := eq_misfit_iff.mpr (h.kind_eq.trans (eq_misfit_iff.mp hn))
    rw [hn, hm]
  · have hm : m ≠ .misfit := fun hm => hn (eq_misfit_iff.mpr (h.kind_eq.symm.trans (eq_misfit_iff.mp hm)))
    have hself : ∀ k : Node, k ≠ .misfit → Lower.isConstant k =
        k.op?.elim (.error .missingPart) fun op => .ok (op = "const") := by
      intro k hk
      cases k <;> first | rfl | exact absurd rfl hk
    rw [hself m hm, hself n hn, h.op_eq]

theorem alike_load (h : a.Alike b) : (Node.load a).Alike (.load b) :=
  ⟨rfl, rfl, .some h, fun _ => (SameCode.load h).ite⟩

theorem Alike.binary {left left' right right' : Node} (level : Level) (op : String)
    (hleft : left.Alike left') (hright : right.Alike right') :
    (Node.binary level op left right).Alike (.binary level op left' right') := by
  refine ⟨rfl, rfl, .none, fun room => ?_⟩
  rw [cut, cut]
  exact ((hleft.code _).binary (hright.code _) level op).ite

theorem alike_unary (op : String) (n m : Node) : (Node.unary op n).Alike (.unary op m) :=
  ⟨rfl, rfl, .none, fun _ => SameCode.ite ⟨rfl, rfl, fun _ => rfl⟩⟩

theorem alike_nop (comment comment' : Option String) : (Node.nop comment).Alike (.nop comment') :=
  ⟨rfl, rfl, .none, fun _ => SameCode.ite ⟨rfl, rfl, fun _ => rfl⟩⟩

theorem alike_declare (h : a.Alike b) {initial initial' : Option Node}
    (hinitial : Option.Rel Alike initial initial') :
    (Node.declare a initial).Alike (.declare b initial') := by
  refine ⟨rfl, rfl, .some h, fun room => ?_⟩
  cases hinitial with
  | none => exact (SameCode.declare_none h).ite
  | some hvalue =>
    rw [cut, cut]
    exact ((hvalue.code _).declare h).ite

theorem Alike.assign (h : n.Alike m) (hsymbol : a.Alike b) :
    (Node.assign a n).Alike (.assign b m) := by
  refine ⟨rfl, rfl, .some hsymbol, fun room => ?_⟩
  rw [cut, cut]
  exact ((h.code _).assign hsymbol).ite

theorem Alike.output (h : n.Alike m) : (Node.output n).Alike (.output m) := by
  refine ⟨rfl, rfl, .none, fun room => ?_⟩
  rw [cut, cut]
  exact (h.code _).output.ite

theorem Alike.loop (hcondition : condition.Alike condition') (hbody : n.Alike m) :
    (Node.loop condition n).Alike (.loop condition' m) := by
  refine ⟨rfl, rfl, .none, fun room => ?_⟩
  rw [cut, cut]
  exact ((hcondition.code _).loop (hbody.code _)).ite

theorem Alike.ifElse (hcondition : condition.Alike condition') (hbody : n.Alike m)
    {otherwise otherwise' : Option Node} (hotherwise : Option.Rel Alike otherwise otherwise') :
    (Node.ifElse condition n otherwise).Alike (.ifElse condition' m otherwise') := by
  refine ⟨rfl, rfl, .none, fun room => ?_⟩
  cases hotherwise with
  | none =>
    rw [cut, cut]
    exact ((hcondition.code _).ifElse (hbody.code _) .none).ite
  | some hother =>
    rw [cut, cut]
    exact ((hcondition.code _).ifElse (hbody.code _) (.some (hother.code _))).ite

theorem emitAll_of_alike (h : List.Forall₂ Alike ns ms) (room : Nat) :
    emitAll (cutAll room ms) = emitAll (cutAll room ns) := by
  induction h with
  | nil => rfl
  | cons hfirst _ ih => rw [cutAll, cutAll, emitAll, emitAll, (hfirst.code room).emit_eq, ih]

theorem alike_block (h : List.Forall₂ Alike ns ms) : (Node.block ns).Alike (.block ms) := by
  refine ⟨rfl, rfl, .none, fun room => ?_⟩
  rw [cut, cut]
  refine SameCode.ite ⟨rfl, ?_, fun _ => rfl⟩
  rw [emit, emit, emitAll_of_alike h]

theorem working_of_alike (h : List.Forall₂ Alike ns ms) :
    List.Forall₂ Alike (SourceLower.working ns) (SourceLower.working ms) := by
  unfold SourceLower.working
  induction h with
  | nil => exact .nil
  | cons hfirst _ ih =>
    rw [List.filter_cons, List.filter_cons, hfirst.op_eq]
    split
    · exact .cons hfirst ih
    · exact ih

end Node

/-! ## Two runs side by side -/

/-- Both runs succeed and leave something alike, or both fail with the same mild fault and leave
workbenches that agree. -/
inductive Mirrored {ε α : Type} (mild : ε → Prop) (post : α → α → Session → Session → Prop) :
    Except ε α × Session → Except ε α × Session → Prop where
  | ok {a b : α} {s s' : Session} (h : post a b s s') : Mirrored mild post (.ok a, s) (.ok b, s')
  | error {f : ε} {s s' : Session} (h : mild f) (hs : s.bench.Agrees s'.bench) :
      Mirrored mild post (.error f, s) (.error f, s')

/-- The two actions from two sessions. -/
def Mirrors {ε α : Type} (mild : ε → Prop) (post : α → α → Session → Session → Prop)
    (e e' : ExceptT ε (StateM Session) α) (s s' : Session) : Prop :=
  Mirrored mild post (runFrom e s) (runFrom e' s')

section Mirrors

variable {ε α β : Type} {mild : ε → Prop} {post : α → α → Session → Session → Prop}
  {post' : β → β → Session → Session → Prop} {s s' : Session}

theorem mirrors_pure {a b : α} (h : post a b s s') :
    Mirrors mild post (pure a) (pure b) s s' := .ok h

theorem mirrors_throw {f : ε} (h : mild f) (hs : s.bench.Agrees s'.bench) :
    Mirrors mild post (throw f) (throw f) s s' := .error h hs

theorem Mirrors.bind {e e' : ExceptT ε (StateM Session) α} {k k' : α → ExceptT ε (StateM Session) β}
    (h : Mirrors mild post e e' s s')
    (hk : ∀ a b s1 s1', post a b s1 s1' → Mirrors mild post' (k a) (k' b) s1 s1') :
    Mirrors mild post' (e >>= k) (e' >>= k') s s' := by
  unfold Mirrors at *
  rw [runFrom_bind, runFrom_bind]
  generalize runFrom e s = r at h
  generalize runFrom e' s' = r' at h
  cases h with
  | ok hpost => exact hk _ _ _ _ hpost
  | error hmild hs => exact .error hmild hs

theorem mirrors_get_bind {k k' : Session → ExceptT ε (StateM Session) β}
    (h : Mirrors mild post' (k s) (k' s') s s') : Mirrors mild post' (get >>= k) (get >>= k') s s' := by
  unfold Mirrors at *
  rw [runFrom_bind, runFrom_bind]
  exact h

/-- The same check in both. -/
theorem mirrors_check {x : Except ε α} {k k' : α → ExceptT ε (StateM Session) β}
    (hmild : ∀ f, x = .error f → mild f) (hs : s.bench.Agrees s'.bench)
    (hk : ∀ a, x = .ok a → Mirrors mild post' (k a) (k' a) s s') :
    Mirrors mild post' (liftM x >>= k) (liftM x >>= k') s s' := by
  unfold Mirrors at *
  rw [runFrom_bind, runFrom_bind]
  cases x with
  | error f => exact .error (hmild f rfl) hs
  | ok a => exact hk a rfl

/-- Checks of which each passes. -/
theorem mirrors_passed {x x' : Except ε α} {a b : α} {k k' : α → ExceptT ε (StateM Session) β}
    (hx : x = .ok a) (hx' : x' = .ok b) (hk : Mirrors mild post' (k a) (k' b) s s') :
    Mirrors mild post' (liftM x >>= k) (liftM x' >>= k') s s' := by
  unfold Mirrors at *
  rw [runFrom_bind, runFrom_bind, hx, hx']
  exact hk

theorem mirrors_ite {c : Prop} [Decidable c] {x x' y y' : ExceptT ε (StateM Session) α}
    (hx : c → Mirrors mild post x x' s s') (hy : ¬ c → Mirrors mild post y y' s s') :
    Mirrors mild post (if c then x else y) (if c then x' else y') s s' := by
  split
  · next h => exact hx h
  · next h => exact hy h

end Mirrors

/-! ## Sessions up to names -/

/-- Names to be given, each for one declaration, none of which is a constant. -/
structure FreshNames (defines : DefineTable) (fresh : Nat → String) : Prop where
  injective : Function.Injective fresh
  unused : ∀ k, defines.lookup (fresh k) = none

/-- Two flat sessions, the variables of which have their own names in the first and unique names in
the second. -/
structure Renames (pool : Nat) (defines : DefineTable) (fresh : Nat → String) (σ : Names)
    (s s' : Session) : Prop where
  isFresh : FreshNames defines fresh
  outer_eq : σ.outer = []
  new_eq : σ.here.map Prod.snd = (List.range σ.count).map fresh
  flat : s.Flat pool (σ.here.map Prod.fst)
  flat' : s'.Flat pool (σ.here.map Prod.snd)
  defines_eq : s.defines = defines
  defines_eq' : s'.defines = defines

theorem Session.Flat.note {pool : Nat} {names : List String} {s : Session} (h : s.Flat pool names)
    (line : String) : (s.note line).Flat pool names :=
  ⟨h.head, h.scratch, h.free, h.maxScratch, h.taken, h.inner, h.global, h.nodup⟩

/-- A name and its unique name stand at the same place. -/
theorem Names.exists_getElem? {σ : Names} {name new : String}
    (h : σ.here.lookup name = some new) :
    ∃ k : Nat, (σ.here.map Prod.fst)[k]? = some name ∧ (σ.here.map Prod.snd)[k]? = some new := by
  obtain ⟨before, after, hsplit, -⟩ := List.lookup_eq_some_iff.mp h
  refine ⟨before.length, ?_, ?_⟩
  · simp [hsplit]
  · simp [hsplit]

theorem Names.not_mem_of_lookup {σ : Names} {name : String} (h : σ.here.lookup name = none) :
    name ∉ σ.here.map Prod.fst := by
  intro hmem
  obtain ⟨p, hp, rfl⟩ := List.mem_map.mp hmem
  have := List.lookup_eq_none_iff.mp h p hp
  simp at this

namespace Renames

variable {pool : Nat} {defines : DefineTable} {fresh : Nat → String} {σ : Names} {s s' : Session}

theorem agrees (h : Renames pool defines fresh σ s s') : s.bench.Agrees s'.bench := by
  refine ⟨h.flat.head.trans h.flat'.head.symm, ?_⟩
  have htaken : s.bench.cells.taken = s'.bench.cells.taken := by
    rw [h.flat.taken, h.flat'.taken, List.length_map, List.length_map]
  have hscratch := h.flat.scratch.trans h.flat'.scratch.symm
  have hfree := h.flat.free.trans h.flat'.free.symm
  have hmax := h.flat.maxScratch.trans h.flat'.maxScratch.symm
  cases hcells : s.bench.cells with
  | mk scratch free taken maxScratch =>
    cases hcells' : s'.bench.cells with
    | mk scratch' free' taken' maxScratch' =>
      rw [hcells, hcells'] at htaken hscratch hfree hmax
      simp only at htaken hscratch hfree hmax
      rw [htaken, hscratch, hfree, hmax]

theorem note (h : Renames pool defines fresh σ s s') (line line' : String) :
    Renames pool defines fresh σ (s.note line) (s'.note line') :=
  ⟨h.isFresh, h.outer_eq, h.new_eq, h.flat.note line, h.flat'.note line', h.defines_eq, h.defines_eq'⟩

theorem exists_fresh (h : Renames pool defines fresh σ s s') {name new : String}
    (hfind : σ.here.lookup name = some new) : ∃ k, new = fresh k := by
  obtain ⟨k, -, hk⟩ := Names.exists_getElem? hfind
  rw [h.new_eq] at hk
  obtain ⟨j, -, hj⟩ := List.mem_map.mp (List.mem_of_getElem? hk)
  exact ⟨j, hj.symm⟩

theorem quiet {s1 s1' : Session} (h : Renames pool defines fresh σ s s') (hq : s.Quiet s1)
    (hq' : s'.Quiet s1') : Renames pool defines fresh σ s1 s1' :=
  ⟨h.isFresh, h.outer_eq, h.new_eq, h.flat.quiet hq, h.flat'.quiet hq',
    hq.defines_eq.trans h.defines_eq, hq'.defines_eq.trans h.defines_eq'⟩

end Renames

/-! ## The rules -/

namespace Lower

/-- A fault that is about no name. -/
abbrev mild (f : Fault) : Prop := f.concernsName = false

variable {pool : Nat} {defines : DefineTable} {fresh : Nat → String} {σ : Names} {s s' : Session}

/-- The nodes are alike, and the sessions still differ in names only. -/
def Alongside (pool : Nat) (defines : DefineTable) (fresh : Nat → String) (σ : Names) (n m : Node)
    (s s' : Session) : Prop := n.Alike m ∧ Renames pool defines fresh σ s s'

theorem mirrors_note_bind {β : Type} {post : β → β → Session → Session → Prop}
    {k k' : Unit → Lower β} {line line' : String}
    (h : Mirrors mild post (k ()) (k' ()) (s.note line) (s'.note line')) :
    Mirrors mild post (note line >>= k) (note line' >>= k') s s' := by
  unfold Mirrors at *
  rw [runFrom_bind, runFrom_bind]
  exact h

theorem mirrors_note (h : Renames pool defines fresh σ s s') (line line' : String) :
    Mirrors mild (fun _ _ t t' => Renames pool defines fresh σ t t') (note line) (note line') s s' :=
  .ok (h.note line line')

/-- A condition that both require. -/
theorem mirrors_unless {α β : Type} {post : β → β → Session → Session → Prop} {c : Prop}
    [Decidable c] {f : Fault} {x x' : Lower β} {y y' : α → Lower β} (hf : f.concernsName = false)
    (hs : s.bench.Agrees s'.bench) (hx : Mirrors mild post x x' s s') :
    Mirrors mild post (if c then x else throw f >>= y) (if c then x' else throw f >>= y') s s' :=
  mirrors_ite (fun _ => hx) fun _ => .error hf hs

theorem alongside_constant (h : Renames pool defines fresh σ s s') (v : Int) :
    Mirrors mild (Alongside pool defines fresh σ) (pure (.constant v true))
      (pure (.constant v true)) s s' := mirrors_pure ⟨Node.alike_self rfl, h⟩

theorem mirrors_number (h : Renames pool defines fresh σ s s') (text : String) :
    Mirrors mild (Alongside pool defines fresh σ) (number text) (number text) s s' :=
  mirrors_check (fun _ => Literal.concernsName_number) h.agrees fun v _ => alongside_constant h v

theorem mirrors_character (h : Renames pool defines fresh σ s s') (text : String) :
    Mirrors mild (Alongside pool defines fresh σ) (character text) (character text) s s' := by
  refine mirrors_check (fun _ => Literal.concernsName_characterText) h.agrees fun chars _ => ?_
  apply mirrors_note_bind
  have hnoted := h.note (String.ofList chars) (String.ofList chars)
  exact mirrors_check (fun _ => Literal.concernsName_codePoint) hnoted.agrees fun v _ =>
    alongside_constant hnoted v

theorem bothConstant_of_alike {left left' right right' : Node} (hleft : left.Alike left')
    (hright : right.Alike right') : bothConstant left' right' = bothConstant left right := by
  rw [bothConstant, bothConstant, hleft.isConstant_eq, hright.isConstant_eq]

theorem mirrors_combine (h : Renames pool defines fresh σ s s') {left left' right right' : Node}
    (hleft : left.Alike left') (hright : right.Alike right') (level : Level) (op : String) :
    Mirrors mild (Alongside pool defines fresh σ) (combine level left op right)
      (combine level left' op right') s s' := by
  unfold combine
  rw [bothConstant_of_alike hleft hright, hleft.value_eq, hright.value_eq, hleft.hasCode_eq,
    hright.hasCode_eq]
  refine mirrors_check (fun _ => concernsName_bothConstant) h.agrees fun both _ => ?_
  refine mirrors_ite (fun _ => ?_) fun _ => ?_
  · refine mirrors_check (fun _ => concernsName_constantValue) h.agrees fun a _ => ?_
    refine mirrors_check (fun _ => concernsName_constantValue) h.agrees fun b _ => ?_
    refine mirrors_check (fun _ => concernsName_foldValue) h.agrees fun v _ => ?_
    apply mirrors_unless rfl h.agrees
    apply mirrors_note_bind
    exact alongside_constant (h.note _ _) v
  · refine mirrors_check (fun _ => Node.concernsName_hasCode) h.agrees fun _ _ => ?_
    apply mirrors_unless rfl h.agrees
    refine mirrors_check (fun _ => Node.concernsName_hasCode) h.agrees fun _ _ => ?_
    apply mirrors_unless rfl h.agrees
    exact mirrors_pure ⟨hleft.binary level op hright, h⟩

/-- Operands that are alike, with the same operators in front. -/
abbrev AlikeRest : List (String × Node) → List (String × Node) → Prop :=
  List.Forall₂ fun x y => y.1 = x.1 ∧ x.2.Alike y.2

theorem mirrors_chain (level : Level) {first first' : Node} {rest rest' : List (String × Node)}
    (hfirst : first.Alike first') (hrest : AlikeRest rest rest')
    (h : Renames pool defines fresh σ s s') :
    Mirrors mild (Alongside pool defines fresh σ) (chain level first rest)
      (chain level first' rest') s s' := by
  unfold chain
  induction hrest generalizing first first' s s' with
  | nil => exact mirrors_pure ⟨hfirst, h⟩
  | cons hx _ ih =>
    rename_i x y _ _ _
    obtain ⟨op, right⟩ := x
    obtain ⟨op', right'⟩ := y
    obtain ⟨rfl, hright⟩ := hx
    rw [List.foldlM_cons, List.foldlM_cons]
    exact (mirrors_combine h hfirst hright level _).bind fun n m s1 s1' hpost =>
      ih hpost.1 hpost.2

theorem mirrors_unary (h : Renames pool defines fresh σ s s') {n m : Node} (hn : n.Alike m)
    (op : String) :
    Mirrors mild (Alongside pool defines fresh σ) (unary op n) (unary op m) s s' := by
  unfold unary
  rw [hn.isConstant_eq, hn.value_eq]
  refine mirrors_check (fun _ => concernsName_isConstant) h.agrees fun _ _ => ?_
  refine mirrors_ite (fun _ => ?_) fun _ => mirrors_pure ⟨Node.alike_unary op n m, h⟩
  refine mirrors_check (fun _ => concernsName_constantValue) h.agrees fun v _ => ?_
  apply mirrors_unless rfl h.agrees
  apply mirrors_note_bind
  exact alongside_constant (h.note _ _) _

theorem targetOf_cases {n m : Node} (hn : n.Alike m) :
    (∃ a b, targetOf n = .ok a ∧ targetOf m = .ok b ∧ a.Alike b) ∨
      ∃ f, targetOf n = .error f ∧ targetOf m = .error f := by
  have hsymbols := hn.symbols
  unfold targetOf
  generalize n.symbol? = x at hsymbols
  generalize m.symbol? = y at hsymbols
  cases hsymbols with
  | some h => exact .inl ⟨_, _, rfl, rfl, h⟩
  | none =>
    right
    by_cases hmisfit : n = .misfit
    · have hm : m = .misfit :=
        Node.eq_misfit_iff.mpr (hn.kind_eq.trans (Node.eq_misfit_iff.mp hmisfit))
      rw [hmisfit, hm]
      exact ⟨_, rfl, rfl⟩
    · have hm : m ≠ .misfit := fun hm => hmisfit
        (Node.eq_misfit_iff.mpr (hn.kind_eq.symm.trans (Node.eq_misfit_iff.mp hm)))
      refine ⟨.missingPart, ?_, ?_⟩
      · cases n <;> first | rfl | exact absurd rfl hmisfit
      · cases m <;> first | rfl | exact absurd rfl hm

theorem mirrors_assign (h : Renames pool defines fresh σ s s') {target target' value value' : Node}
    (htarget : target.Alike target') (hvalue : value.Alike value') :
    Mirrors mild (Alongside pool defines fresh σ) (assign target value) (assign target' value')
      s s' := by
  unfold assign
  rw [hvalue.hasCode_eq]
  rcases targetOf_cases htarget with ⟨a, b, ha, hb, hab⟩ | ⟨f, hf, hf'⟩
  · refine mirrors_passed ha hb ?_
    rw [if_neg (not_not.mpr hab.first), if_neg (not_not.mpr hab.second)]
    refine mirrors_check (fun _ => Node.concernsName_hasCode) h.agrees fun _ _ => ?_
    apply mirrors_unless rfl h.agrees
    exact mirrors_pure ⟨hvalue.assign hab, h⟩
  · rw [hf, hf']
    exact .error (concernsName_targetOf hf) h.agrees

theorem alike_variableAt (pool : Nat) (name name' : String) (k : Nat) :
    (variableAt pool name k).Alike (variableAt pool name' k) := ⟨rfl, rfl, _, rfl, rfl⟩

/-- In both sessions a new name gets the next cell. -/
theorem mirrors_declare (h : Renames pool defines fresh σ s s') {name : String}
    (hnew : σ.here.lookup name = none) {initial initial' : Option Node}
    (hinitial : Option.Rel Node.Alike initial initial') :
    Mirrors mild (Alongside pool defines fresh { σ with
        here := σ.here ++ [(name, fresh σ.count)], count := σ.count + 1 })
      (declare (.newName name) initial) (declare (.newName (fresh σ.count)) initial') s s' := by
  have hname : name ∉ σ.here.map Prod.fst := Names.not_mem_of_lookup hnew
  have hname' : fresh σ.count ∉ σ.here.map Prod.snd := by
    rw [h.new_eq]
    intro hmem
    obtain ⟨k, hk, heq⟩ := List.mem_map.mp hmem
    have := h.isFresh.injective heq
    have := List.mem_range.mp hk
    omega
  obtain ⟨s1, hdefine, hflat, -, hdefines⟩ := h.flat.define hname
  obtain ⟨s1', hdefine', hflat', -, hdefines'⟩ := h.flat'.define hname'
  have hafter : Renames pool defines fresh { σ with
      here := σ.here ++ [(name, fresh σ.count)], count := σ.count + 1 } s1 s1' := by
    refine ⟨h.isFresh, h.outer_eq, ?_, ?_, ?_, hdefines.trans h.defines_eq,
      hdefines'.trans h.defines_eq'⟩
    · simp only [List.map_append, List.map_cons, List.map_nil, h.new_eq, List.range_succ]
    · simpa using hflat
    · simpa using hflat'
  unfold declare
  refine mirrors_passed rfl rfl ?_
  apply mirrors_get_bind
  rw [if_neg (by rw [h.flat.binds_eq]; simpa using hname),
    if_neg (by rw [h.flat'.binds_eq]; simpa using hname')]
  have hdefined : Mirrors mild (fun a b t t' => a.Alike b ∧ Renames pool defines fresh { σ with
      here := σ.here ++ [(name, fresh σ.count)], count := σ.count + 1 } t t')
      (define { name, kind := .variable, initialised := true })
      (define { name := fresh σ.count, kind := .variable, initialised := true }) s s' := by
    unfold Mirrors
    rw [hdefine, hdefine']
    refine .ok ⟨?_, hafter⟩
    rw [List.length_map, List.length_map]
    exact alike_variableAt _ _ _ _
  refine hdefined.bind fun a b t t' hpost => ?_
  cases hinitial with
  | none => exact mirrors_pure ⟨Node.alike_declare hpost.1 .none, hpost.2⟩
  | some hvalue =>
    dsimp only
    rw [hvalue.hasCode_eq]
    refine mirrors_check (fun _ => Node.concernsName_hasCode) hpost.2.agrees fun _ _ => ?_
    apply mirrors_unless rfl hpost.2.agrees
    exact mirrors_pure ⟨Node.alike_declare hpost.1 (.some hvalue), hpost.2⟩

theorem mirrors_block (h : Renames pool defines fresh σ s s') {ns ms : List Node}
    (hns : List.Forall₂ Node.Alike ns ms) :
    Mirrors mild (Alongside pool defines fresh σ) (block ns) (block ms) s s' := by
  obtain ⟨s1, hblock, hquiet⟩ := gives_block h.flat.inner ns
  obtain ⟨s1', hblock', hquiet'⟩ := gives_block h.flat'.inner ms
  unfold Mirrors
  rw [hblock, hblock']
  exact .ok ⟨Node.alike_block hns, h.quiet hquiet hquiet'⟩

/-- A use that is resolved is lowered to the same constant, or to a variable with the same cell. -/
theorem mirrors_declaredName (h : Renames pool defines fresh σ s s') {t t' : Token}
    (ht : σ.use defines t = .ok t') :
    Mirrors mild (Alongside pool defines fresh σ) (declaredName t.text) (declaredName t'.text)
      s s' := by
  unfold declaredName
  apply mirrors_get_bind
  rw [h.defines_eq, h.defines_eq']
  rcases Names.use_eq_ok.mp ht with ⟨hdefined, rfl⟩ | ⟨hnone, new, hnew, rfl⟩
  · obtain ⟨value, hvalue⟩ := Option.isSome_iff_exists.mp hdefined
    rw [hvalue]
    apply mirrors_note_bind
    have hnoted := h.note (substituted t'.text value) (substituted t'.text value)
    exact mirrors_check (fun _ => Literal.concernsName_defineValue) hnoted.agrees fun v _ =>
      alongside_constant hnoted v
  · rw [Names.find?, h.outer_eq, List.append_nil] at hnew
    obtain ⟨k, hk⟩ := Names.exists_getElem? hnew
    have hfound := (h.flat.lookup_eq t.text).trans (lookup_layout_of_getElem? h.flat.nodup hk.1)
    have hfound' := (h.flat'.lookup_eq new).trans (lookup_layout_of_getElem? h.flat'.nodup hk.2)
    obtain ⟨j, rfl⟩ := h.exists_fresh hnew
    rw [hnone, h.isFresh.unused j, hfound, hfound']
    exact mirrors_pure ⟨Node.alike_load (alike_variableAt pool _ _ k), h⟩

end Lower

end TapeScript
