import TapeScript.Proofs.Compilation
import TapeScript.Proofs.Relocation

set_option autoImplicit false

/-! # How large the pool has to be

A compilation reports how many scratch cells it used. Two compilations of one script with pools of
different sizes hand out the same scratch cells as long as the smaller pool has any left, since cells
are taken from the front of the pool and come back to its front: what is left of the two pools differs
only in cells that were never handed out (`Pairing.resized`). So a pool of the reported size does, with
the same cells handed out and code that behaves the same, and every smaller one runs out of cells.
-/

namespace TapeScript

open Emit

variable {a n : Nat}

/-! ## What is left of two pools -/

theorem drop_firstCells (h : a < n) :
    (firstCells n).drop a = (a : Int) :: (firstCells n).drop (a + 1) := by
  have hlen : a < (firstCells n).length := by simpa [firstCells] using h
  rw [List.drop_eq_getElem_cons hlen]
  simp [firstCells]

theorem drop_firstCells_of_le (h : n ≤ a) : (firstCells n).drop a = [] :=
  List.drop_eq_nil_of_le (by simpa [firstCells] using h)

theorem mem_drop_firstCells {c : Int} : c ∈ (firstCells n).drop a ↔ (a : Int) ≤ c ∧ c < n := by
  by_cases h : a ≤ n
  · induction h using Nat.decreasingInduction with
    | self =>
      rw [drop_firstCells_of_le (le_refl n)]
      simp
    | of_succ a ha ih =>
      rw [drop_firstCells ha, List.mem_cons, ih]
      omega
  · rw [drop_firstCells_of_le (by omega)]
    simp only [List.not_mem_nil, false_iff]
    omega

/-- Cells that were handed out and have come back, and behind them all cells from the `a`-th on, in
pools of `P` and of `Q` cells. -/
structure Leftover (P Q a : Nat) (back : List Int) (t t' : CellTable) : Prop where
  free : t.free = back ++ (firstCells P).drop a
  free' : t'.free = back ++ (firstCells Q).drop a
  back_lt : ∀ c ∈ back, 0 ≤ c ∧ c < a
  le : a ≤ P
  le' : a ≤ Q
  maxScratch : t.maxScratch = a
  maxScratch' : t'.maxScratch = a
  scratch : t.scratch = firstCells P
  scratch' : t'.scratch = firstCells Q

/-- The workbenches of two compilations of one script, with `P` and with `Q` scratch cells. Cells
that never were handed out are left at the end of either pool. -/
structure Resized (P Q : Nat) (w w' : Workbench) : Prop where
  leftover : ∃ a back, Leftover P Q a back w.cells w'.cells
  requests_eq : requests w'.log = requests w.log
  head : Reachable w'.head

section Resized

variable {P Q : Nat} {w w' w1 : Workbench} {c : Int}

theorem requests_congr {log log' : Array String} (h : requests log' = requests log) (line : String) :
    requests (log'.push line) = requests (log.push line) := by
  rw [requests_push, requests_push, h]

/-- The next cell is the same in both pools, unless the second one is used up. -/
theorem Resized.take (h : Resized P Q w w') (hg : Gives takeScratch w c w1) :
    (∃ w1', Gives takeScratch w' c w1' ∧ Resized P Q w1 w1' ∧ 0 ≤ c ∧ c < P ∧ c < Q) ∨
      Starves takeScratch w' ∧ (Q : Int) < w1.cells.maxScratch := by
  obtain ⟨⟨a, back, hleft⟩, hlog, hhead⟩ := h
  obtain ⟨rest, hfree, rfl⟩ := gives_takeScratch.mp hg
  have hle := hleft.le
  have hle' := hleft.le'
  cases back with
  | cons d back =>
    -- a cell that came back before
    have hcons := hleft.free
    rw [hfree, List.cons_append, List.cons.injEq] at hcons
    obtain ⟨rfl, rfl⟩ := hcons
    obtain ⟨hlow, hlt⟩ := hleft.back_lt c (by simp)
    refine .inl ⟨_, gives_takeScratch.mpr ⟨_, hleft.free', rfl⟩, ⟨⟨a, back, ?_⟩, ?_, hhead⟩,
      hlow, by omega, by omega⟩
    · refine ⟨rfl, rfl, fun e he => hleft.back_lt e (by simp [he]), hle, hle', ?_, ?_,
        hleft.scratch, hleft.scratch'⟩
      · show max w.cells.maxScratch (c + 1) = a
        rw [hleft.maxScratch]
        omega
      · show max w'.cells.maxScratch (c + 1) = a
        rw [hleft.maxScratch']
        omega
    · exact requests_congr hlog _
  | nil =>
    -- a cell that is handed out for the first time
    have hnew := hleft.free
    rw [hfree, List.nil_append] at hnew
    have hlt : a < P := by
      by_contra hnot
      rw [drop_firstCells_of_le (by omega)] at hnew
      cases hnew
    rw [drop_firstCells hlt, List.cons.injEq] at hnew
    obtain ⟨rfl, rfl⟩ := hnew
    have hmax : max w.cells.maxScratch ((a : Int) + 1) = ((a + 1 : Nat) : Int) := by
      rw [hleft.maxScratch]
      omega
    by_cases hlt' : a < Q
    · have hfree' : w'.cells.free = (a : Int) :: (firstCells Q).drop (a + 1) := by
        rw [hleft.free', List.nil_append, drop_firstCells hlt']
      refine .inl ⟨_, gives_takeScratch.mpr ⟨_, hfree', rfl⟩, ⟨⟨a + 1, [], ?_⟩, ?_, hhead⟩,
        by omega, by omega, by omega⟩
      · refine ⟨rfl, rfl, by simp, hlt, hlt', hmax, ?_, hleft.scratch, hleft.scratch'⟩
        rw [← hmax, hleft.maxScratch, hleft.maxScratch']
      · exact requests_congr hlog _
    · have hempty : w'.cells.free = [] := by
        rw [hleft.free', List.nil_append, drop_firstCells_of_le (by omega)]
      refine .inr ⟨starves_takeScratch hempty, ?_⟩
      show (Q : Int) < max w.cells.maxScratch ((a : Int) + 1)
      rw [hmax]
      omega

/-- A cell goes back to both pools. -/
theorem Resized.giveBack (h : Resized P Q w w') {u : Unit} (hg : Gives (giveBack c) w u w1)
    (hc : c < Q) : ∃ w1', Gives (Emit.giveBack c) w' () w1' ∧ Resized P Q w1 w1' := by
  obtain ⟨⟨a, back, hleft⟩, hlog, hhead⟩ := h
  obtain ⟨hnot, hmem, rfl⟩ := gives_giveBack.mp hg
  rw [hleft.scratch, mem_firstCells] at hmem
  obtain ⟨hlow, hlt⟩ := hmem
  rw [hleft.free, List.mem_append, mem_drop_firstCells, not_or] at hnot
  -- cells that were never handed out cannot come back
  have hout : c < a := by
    by_contra hge
    exact hnot.2 ⟨by omega, hlt⟩
  have hnot' : c ∉ w'.cells.free := by
    rw [hleft.free', List.mem_append, mem_drop_firstCells, not_or]
    exact ⟨hnot.1, by omega⟩
  have hmem' : c ∈ w'.cells.scratch := by
    rw [hleft.scratch', mem_firstCells]
    exact ⟨hlow, hc⟩
  refine ⟨_, gives_giveBack.mpr ⟨hnot', hmem', rfl⟩, ⟨a, c :: back, ?_⟩, ?_, hhead⟩
  · refine ⟨?_, ?_, List.forall_mem_cons.mpr ⟨⟨hlow, hout⟩, hleft.back_lt⟩, hleft.le, hleft.le',
      hleft.maxScratch, hleft.maxScratch', hleft.scratch, hleft.scratch'⟩
    · rw [hleft.free, List.cons_append]
    · rw [hleft.free', List.cons_append]
  · exact requests_congr hlog _

end Resized

/-- Scratch cells that both pools have stay where they are, and the variables are found behind the
pool. -/
def Pairing.resized (P Q count : Nat) (hreach : ((Q + count : Nat) : Int) ≤ countBound) : Pairing where
  cells c c' := c' = c ∧ 0 ≤ c ∧ c < P ∧ c < Q ∨
    (P : Int) ≤ c ∧ c < P + count ∧ c' = c + Q - P
  benches := Resized P Q
  short w := (Q : Int) < w.cells.maxScratch
  reachable := by
    rintro c c' (⟨rfl, hlow, -, hlt⟩ | ⟨hlow, hlt, rfl⟩)
    · exact ⟨hlow, by omega⟩
    · exact ⟨by omega, by omega⟩
  eq_of_eq := by
    rintro c d c' d' hc hd heq
    omega
  head h := h.head
  goto h _ _ hh := ⟨h.leftover, h.requests_eq, hh⟩
  take := by
    rintro w w' c w1 h hg
    rcases h.take hg with ⟨w1', hg', h', hlow, hlt, hlt'⟩ | hstarves
    · exact .inl ⟨w1', hg', h', .inl ⟨rfl, hlow, hlt, hlt'⟩⟩
    · exact .inr hstarves
  giveBack := by
    rintro w w' c u w1 h hc hg
    refine h.giveBack hg ?_
    obtain ⟨-, hmem, -⟩ := gives_giveBack.mp hg
    obtain ⟨a, back, hleft⟩ := h.leftover
    rw [hleft.scratch, mem_firstCells] at hmem
    omega
  short_mono h hle := lt_of_lt_of_le h hle

/-! ## Two compilations -/

theorem lookup_layout_of_getElem? {pool : Nat} {names : List String} (hnodup : names.Nodup) {k : Nat}
    {name : String} (hk : names[k]? = some name) :
    (layout pool names).lookup name = some (variableAt pool name k) := by
  cases hlookup : (layout pool names).lookup name with
  | none =>
    have hmem : name ∈ names := List.mem_of_getElem? hk
    exact absurd hmem (lookup_layout_eq_none.mp hlookup)
  | some sym =>
    obtain ⟨j, hj, rfl⟩ := lookup_layout_eq_some hlookup
    have hjk : j = k := (List.getElem?_inj (List.getElem?_eq_some_iff.mp hj).1 hnodup).mp
      (hj.trans hk.symm)
    rw [hjk]

/-- The code of a script could not be emitted for want of a scratch cell. -/
theorem SourceLower.source_starves {source : Source} {stack : CallStack} {s s1 : Session}
    {nodes : List Node} (hshallow : source.tree.depth ≤ stack.levels)
    (hitems : Gives (items source.items) s nodes s1)
    (hfits : Node.callsAll (working nodes) ≤ stack.calls)
    (hstarves : Starves (Node.emitAll (working nodes)) s1.bench) :
    ∃ s', runFrom (SourceLower.source source stack) s =
      (.error ⟨some "start", .outOfScratch⟩, s') := by
  obtain ⟨bench, hrun⟩ := hstarves
  have hfirst : runFrom (items source.items) s = (.ok nodes, s1) := hitems
  have hprogram : runFrom (Lower.program nodes stack.calls) s1 =
      (.error .outOfScratch, { s1 with bench }) := by
    unfold Lower.program
    rw [runFrom_bind, Lower.runFrom_atBench, show (nodes.filter fun n => n.op? ≠ some "nop") =
      working nodes from rfl, Node.cutAll_of_le _ hfits, hrun]
  refine ⟨{ s1 with bench }, ?_⟩
  unfold SourceLower.source
  rw [source.takeWhile_items hshallow, runFrom_bind, hfirst]
  simp only
  rw [if_neg (not_lt.mpr hshallow)]
  rw [runFrom_bind, runFrom_during, hprogram]
  rfl

namespace Compilation

variable {stack : CallStack} {size : Int} {fs : FileSystem} {path : String} {script : Script}
  {nodes : List Node} {lowered : Session} {code : Code} {bench : Workbench}

/-- The variables have the cells behind the pool when all is done. -/
theorem location_eq (h : Compilation stack size fs path script nodes lowered code bench) {k : Nat}
    {name : String} (hk : script.names[k]? = some name) (line : String) :
    ((({ lowered with bench } : Session).note line).lookup name).bind Symbol.location =
      some (size.toNat + k : Int) := by
  have hflat := h.declares.1
  have hlookup : (({ lowered with bench } : Session).note line).lookup name =
      lowered.lookup name := rfl
  rw [hlookup, hflat.lookup_eq, lookup_layout_of_getElem? hflat.nodup hk]
  rfl

/-- With a pool of another size the compilation goes the same way, or it runs out of scratch cells
and has used more of them in the first place. -/
theorem resized (h : Compilation stack size fs path script nodes lowered code bench) {size' : Int}
    (hreach : ((size'.toNat + script.names.length : Nat) : Int) ≤ countBound) :
    (∃ nodes' lowered' code' bench',
      Compilation stack size' fs path script nodes' lowered' code' bench' ∧
        Resized size.toNat size'.toNat bench bench') ∨
      (∃ s', runFrom (SourceLower.source script.source stack)
        (Session.opening size' path script.defines) =
          (.error ⟨some "start", .outOfScratch⟩, s')) ∧ size'.toNat < bench.cells.maxScratch := by
  let P := size.toNat
  let Q := size'.toNat
  obtain ⟨hflat, hlog⟩ := h.declares
  -- the same script is lowered to the same nodes, with other cells
  have hopening : SourceLower.Beside P Q [] (Session.opening size path script.defines)
      (Session.opening size' path script.defines) :=
    ⟨Session.opening_flat .., Session.opening_flat .., rfl⟩
  obtain ⟨lowered', hlowers', -⟩ := SourceLower.items_beside _ hopening _ _ h.lowers
  obtain ⟨hdeclares', -⟩ :=
    SourceLower.items_mean script.source.items (Session.opening_flat ..) hlowers'
  have hflat' : lowered'.Flat Q script.names := hdeclares'.flat
  have hlog' := hdeclares'.requests_eq.trans (Session.requests_opening size' path script.defines)
  -- and both pools are untouched when emission begins
  have hbench : Resized P Q lowered.bench lowered'.bench := by
    refine ⟨⟨0, [], ?_⟩, hlog'.trans hlog.symm, ?_⟩
    · exact ⟨hflat.free, hflat'.free, by simp, Nat.zero_le P, Nat.zero_le Q, hflat.maxScratch,
        hflat'.maxScratch, hflat.scratch, hflat'.scratch⟩
    · rw [hflat'.head]
      exact ⟨le_refl 0, countBound_pos⟩
  obtain ⟨-, hmeans⟩ :=
    SourceLower.items_mean script.source.items (Session.opening_flat ..) h.lowers
  obtain ⟨hwithin, -⟩ := hmeans script.names (List.prefix_refl _) hflat.nodup
  have hplaced : Node.Placed (.resized P Q script.names.length hreach) (replace P Q)
      (Node.varCellsAll (SourceLower.working nodes)) := by
    intro c hc
    obtain ⟨hlow, hlt⟩ := Node.varCellsAll_of_within _ hwithin c hc
    exact .inr ⟨hlow, hlt, replace_of_le Q hlow⟩
  have hmatches := (Node.matches_emitAll _ hplaced).pairs h.emits hbench
  have hfits := h.fits
  rw [← Node.callsAll_relocate (replace P Q), ← Node.working_relocate] at hfits
  rw [← Node.working_relocate] at hmatches
  rcases hmatches with ⟨code', bench', hemits', hresized⟩ | ⟨hstarves, hshort⟩
  · exact .inl ⟨_, lowered', code', bench', ⟨h.read, h.shallow, hlowers', hfits, hemits'⟩, hresized⟩
  · exact .inr ⟨SourceLower.source_starves h.shallow hlowers' hfits hstarves, hshort⟩

end Compilation

/-! ## Machines that behave alike -/

/-- Runs of the two machines fail for nothing but the time limit, both machines come to an end or
neither does, and then they have written the same output and read as much input. -/
structure Machine.Alike (m m' : Machine) : Prop where
  faultless : ∀ n f, (m.run n).1 = some f → f = .timeLimit m.setup.limit
  faultless' : ∀ n f, (m'.run n).1 = some f → f = .timeLimit m'.setup.limit
  ends_iff : (∃ n, (m.run n).1 = none) ↔ ∃ n, (m'.run n).1 = none
  same_result : ∀ n r n' r', m.run n = (none, r) → m'.run n' = (none, r') →
    r'.output = r.output ∧ r'.inputPos = r.inputPos

/-- Machines that perform the same behave alike. -/
theorem Machine.Performs.alike {P Q : Nat} {names : List String} {result : Nat → Option State}
    {m m' : Machine} (h : m.Performs P names result) (h' : m'.Performs Q names result) :
    m.Alike m' := by
  refine ⟨h.faultless, h'.faultless, h.ends_iff.trans h'.ends_iff.symm,
    fun n r n' r' hrun hrun' => ?_⟩
  obtain ⟨fuel, hsome⟩ := h.ends_iff.mp ⟨n, by rw [hrun]⟩
  obtain ⟨σ, hσ⟩ := Option.isSome_iff_exists.mp hsome
  obtain ⟨houtput, hinput, -⟩ := h.shows_result n r fuel σ hrun hσ
  obtain ⟨houtput', hinput', -⟩ := h'.shows_result n' r' fuel σ hrun' hσ
  exact ⟨houtput'.trans houtput.symm, hinput'.trans hinput.symm⟩

/-- **The reported number of scratch cells is what a script needs.** Let a script be compiled with a
pool of some size. With a pool of any other size from the reported number of scratch cells on, it is
compiled too: the same scratch cells are handed out and given back in the same order, the `k`-th
variable is `k` cells behind the pool, and machines for the two codes behave alike. With a pool of any
smaller size the compilation runs out of scratch cells. -/
theorem Session.compile_pool_exact {size : Int} {fs : FileSystem} {path : String}
    {stack : CallStack} {code : Code} {s : Session}
    (hcompile : (Session.ofPool size).compile fs path stack = (.code code, s)) :
    ∃ script, Script.read fs path = some script ∧ ∀ size' : Int,
      (size'.toNat + script.names.length : Int) ≤ countBound →
      (s.bench.cells.maxScratch ≤ size'.toNat →
        ∃ code' s', (Session.ofPool size').compile fs path stack = (.code code', s') ∧
          requests s'.bench.log = requests s.bench.log ∧
          (∀ (k : Nat) (name : String), script.names[k]? = some name →
            (s.lookup name).bind Symbol.location = some (size.toNat + k : Int) ∧
            (s'.lookup name).bind Symbol.location = some (size'.toNat + k : Int)) ∧
          ∀ (tape tape' : Option Int) (bits : Int) (input limit limit' : String)
            (capacity capacity' : Nat), (Width.ofBits? bits).isSome →
            script.FitsOn size capacity tape → script.FitsOn size' capacity' tape' →
            ∃ m m', Machine.build code.text tape bits input limit capacity = .ok m ∧
              Machine.build code'.text tape' bits input limit' capacity' = .ok m' ∧
              (m.Suffices (size.toNat + script.names.length) →
                m'.Suffices (size'.toNat + script.names.length) → m.Alike m')) ∧
      (size'.toNat < s.bench.cells.maxScratch →
        ∃ s', (Session.ofPool size').compile fs path stack =
          (.lowerFault ⟨some "start", .outOfScratch⟩, s')) := by
  obtain ⟨script, nodes, lowered, bench, h, rfl⟩ := compile_eq_code.mp hcompile
  have hquiet : ∀ n : Int, isRequest s!"Max Temp used: {n}" = false := by
    simp [isRequest, List.isPrefixOf, toString]
  refine ⟨script, h.read, fun size' hreach => ⟨fun hle => ?_, fun hlt => ?_⟩⟩
  · rcases h.resized hreach with ⟨nodes', lowered', code', bench', h', hresized⟩ | ⟨-, hshort⟩
    · refine ⟨code', _, compile_eq_code.mpr ⟨script, nodes', lowered', bench', h', rfl⟩, ?_, ?_, ?_⟩
      · exact (requests_push_of_not (hquiet bench'.cells.maxScratch)).trans
          (hresized.requests_eq.trans (requests_push_of_not (hquiet bench.cells.maxScratch)).symm)
      · intro k name hk
        exact ⟨h.location_eq hk _, h'.location_eq hk _⟩
      · intro tape tape' bits input limit limit' capacity capacity' hbits htape htape'
        obtain ⟨w, hw⟩ := Option.isSome_iff_exists.mp hbits
        obtain ⟨m, hbuild, hperforms⟩ := h.exists_machine hw htape input limit
        obtain ⟨m', hbuild', hperforms'⟩ := h'.exists_machine hw htape' input limit'
        exact ⟨m, m', hbuild, hbuild', fun hm hm' => (hperforms hm).alike (hperforms' hm')⟩
    · exact absurd hle (by show ¬ bench.cells.maxScratch ≤ _; omega)
  · rcases h.resized hreach with ⟨nodes', lowered', code', bench', h', hresized⟩ | ⟨⟨s', hrun⟩, -⟩
    · -- no pool hands out more cells than it has
      obtain ⟨a, back, hleft⟩ := hresized.leftover
      have hle := hleft.le'
      have hmax : bench.cells.maxScratch = a := hleft.maxScratch
      exact absurd hlt (by show ¬ _ < bench.cells.maxScratch; omega)
    · rw [compile_of_read size' h.read, hrun]
      exact ⟨_, rfl⟩

-- what is read takes a scratch cell, also when it is written at once
example : (runFrom (SourceLower.source ⟨[.stmt (.output .input)]⟩) (Session.opening 0 "m" [])).1.isOk =
    false := by decide +kernel

/-- A loop that counts down needs five scratch cells. -/
theorem Session.compile_pool_exact_countdown :
    ∃ code s, (Session.ofPool 9).compile .countdown "m" = (.code code, s) ∧
      s.bench.cells.maxScratch = 5 ∧
      (∃ code' s', (Session.ofPool 5).compile .countdown "m" = (.code code', s') ∧
        (s'.lookup "x").bind Symbol.location = some 5) ∧
      ∃ s', (Session.ofPool 4).compile .countdown "m" =
        (.lowerFault ⟨some "start", .outOfScratch⟩, s') := by
  have hsource : ((Script.read .countdown "m").any fun script =>
      let r := runFrom (SourceLower.source script.source) (opening 9 "m" script.defines)
      r.1.isOk && r.2.bench.cells.maxScratch == 5 && script.names == ["x"]) = true := by
    rw [Script.read_countdown]
    decide +kernel
  obtain ⟨script, hread, hrun⟩ := (Option.any_eq_true _ _).mp hsource
  simp only [Bool.and_eq_true, beq_iff_eq] at hrun
  obtain ⟨⟨hok, hmax⟩, hnames⟩ := hrun
  have hcompile : (Session.ofPool 9).compile .countdown "m" = _ := compile_of_read 9 hread
  cases hresult : runFrom (SourceLower.source script.source) (opening 9 "m" script.defines) with
  | mk outcome s =>
    rw [hresult] at hcompile hok hmax
    cases outcome with
    | error fault => cases hok
    | ok code =>
      obtain ⟨script', hread', hpool⟩ := compile_pool_exact hcompile
      obtain rfl := Option.some.inj (hread.symm.trans hread')
      rw [hnames] at hpool
      have hmax' : (s.note s!"Max Temp used: {s.bench.cells.maxScratch}").bench.cells.maxScratch =
          5 := hmax
      rw [hmax'] at hpool
      obtain ⟨code', s', hcompile', -, hplaces, -⟩ := (hpool 5 (by decide)).1 (by decide)
      exact ⟨code, _, hcompile, hmax', ⟨code', s', hcompile', (hplaces 0 "x" rfl).2⟩,
        (hpool 4 (by decide)).2 (by decide)⟩

end TapeScript
