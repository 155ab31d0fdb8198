import TapeScript.Proofs.Block

set_option autoImplicit false

/-! # Linked programs are blocks

Reading a program text groups its commands into runs and links its brackets. Both steps are
described by blocks: a text that is read without a fault has the code of a block, and the program
is made of the block's instructions, with every bracket pointing at its partner
(`Program.exists_block_of_ofChars`). Conversely every text with balanced brackets, in particular
the code of a block, is read without a fault (`Program.exists_ofChars_of_balanced`).
-/

namespace TapeScript

/-- An instruction without its place in the text: all that running it depends on. -/
def Instr.essence (i : Instr) : Cmd × Nat := (i.cmd, i.arg)

/-! ## Nesting -/

/-- The nesting depth behind code that starts at depth `d`; there is none if a bracket closes that
was never opened. -/
def Code.depth : Nat → Code → Option Nat
  | d, [] => some d
  | d, .enter :: rest => Code.depth (d + 1) rest
  | 0, .leave :: _ => none
  | d + 1, .leave :: rest => Code.depth d rest
  | d, _ :: rest => Code.depth d rest

/-- Every bracket finds its partner. -/
def Code.Balanced (code : Code) : Prop := Code.depth 0 code = some 0

theorem Code.depth_plain {c : Cmd} (henter : c ≠ .enter) (hleave : c ≠ .leave) (d : Nat)
    (rest : Code) : Code.depth d (c :: rest) = Code.depth d rest := by
  cases c <;> simp_all [Code.depth]

namespace Block

/-- The code of a block keeps the depth of what surrounds it. -/
theorem depth_code_append (b : Block) (d : Nat) (rest : Code) :
    Code.depth d (b.code ++ rest) = Code.depth d rest := by
  induction b generalizing d rest with
  | done => rfl
  | act op b ih =>
    have hops : ∀ n, Code.depth d (List.replicate n op.cmd ++ (b.code ++ rest))
        = Code.depth d (b.code ++ rest) := by
      intro n
      induction n with
      | zero => rfl
      | succ n ihn =>
        rw [List.replicate_succ, List.cons_append,
          Code.depth_plain op.cmd_ne_enter op.cmd_ne_leave, ihn]
    rw [code, List.append_assoc, Op.code, hops, ih]
  | loop body b ihb ihr =>
    rw [code, List.append_assoc, List.cons_append, List.cons_append, Code.depth, ihb, Code.depth,
      ihr]

theorem balanced_code (b : Block) : b.code.Balanced := by
  have h := depth_code_append b 0 []
  rwa [List.append_nil] at h

/-- How many instructions a block takes. -/
def size : Block → Nat
  | .done => 0
  | .act _ rest => rest.size + 1
  | .loop body rest => body.size + rest.size + 2

/-- The instructions of a block before its brackets are linked. -/
def unlinked : Block → List (Cmd × Nat)
  | .done => []
  | .act op rest => (op.cmd, op.count) :: rest.unlinked
  | .loop body rest => (.enter, 1) :: body.unlinked ++ (.leave, 1) :: rest.unlinked

/-- The instructions of a block that starts at the given index. -/
def linked : Nat → Block → List (Cmd × Nat)
  | _, .done => []
  | k, .act op rest => (op.cmd, op.count) :: rest.linked (k + 1)
  | k, .loop body rest =>
    (.enter, k + 1 + body.size) :: body.linked (k + 1) ++
      (.leave, k) :: rest.linked (k + body.size + 2)

@[simp] theorem length_linked (b : Block) (k : Nat) : (b.linked k).length = b.size := by
  induction b generalizing k with
  | done => rfl
  | act op rest ih => simp [linked, size, ih]
  | loop body rest ihb ihr => simp [linked, size, ihb, ihr]; omega

/-- Writing every run out gives the code. -/
theorem flatMap_unlinked (b : Block) :
    (b.unlinked.flatMap fun i => List.replicate i.2 i.1) = b.code := by
  induction b with
  | done => rfl
  | act op rest ih => simp [unlinked, code, Op.code, ih]
  | loop body rest ihb ihr => simp [unlinked, code, ihb, ihr, List.flatMap_append]

/-- The operation of a counted command. Brackets are not among them, and commands that are not
repeated count one. -/
theorem exists_op {c : Cmd} {n : Nat} (henter : c ≠ .enter) (hleave : c ≠ .leave)
    (hone : c.repeats = false → n = 1) : ∃ op : Op, (op.cmd, op.count) = (c, n) := by
  cases c with
  | right => exact ⟨.right n, rfl⟩
  | left => exact ⟨.left n, rfl⟩
  | inc => exact ⟨.inc n, rfl⟩
  | dec => exact ⟨.dec n, rfl⟩
  | put => exact ⟨.put, by rw [hone rfl]; rfl⟩
  | get => exact ⟨.get, by rw [hone rfl]; rfl⟩
  | enter => exact absurd rfl henter
  | leave => exact absurd rfl hleave

end Block

namespace Program

variable {i : Instr} {l : Linking} {instrs : List Instr}

/-! ## Grouping -/

/-- Commands that are not repeated stand alone. -/
theorem arg_of_mem_group {cs : List (Nat × Cmd)} (hi : i ∈ group cs) (hr : i.cmd.repeats = false) :
    i.arg = 1 := by
  induction cs with
  | nil => cases hi
  | cons c cs ih =>
    rw [group, List.foldr_cons, ← group] at hi
    unfold addCommand at hi
    cases hg : group cs with
    | nil =>
      rw [hg] at hi
      simp only [List.mem_singleton] at hi
      rw [hi]
    | cons next rest =>
      rw [hg] at hi ih
      simp only at hi
      split at hi
      · next hc =>
          rcases List.mem_cons.mp hi with rfl | hi
          · simp only [Bool.and_eq_true, hr] at hc
            cases hc.1
          · exact ih (List.mem_cons_of_mem _ hi)
      · rcases List.mem_cons.mp hi with rfl | hi
        · rfl
        · exact ih hi

/-- Writing every run out gives the commands back. -/
theorem flatMap_group (cs : List (Nat × Cmd)) :
    ((group cs).flatMap fun i => List.replicate i.arg i.cmd) = cs.map Prod.snd := by
  induction cs with
  | nil => rfl
  | cons c cs ih =>
    rw [group, List.foldr_cons, ← group, List.map_cons, ← ih]
    unfold addCommand
    cases group cs with
    | nil => rfl
    | cons next rest =>
      simp only
      split
      · next hc =>
          simp only [Bool.and_eq_true, beq_iff_eq] at hc
          simp only [List.flatMap_cons, hc.2, List.replicate_succ, List.cons_append]
      · simp [List.flatMap_cons]

/-- The commands of a text, their places left out. -/
theorem map_snd_commandsFrom (text : List Char) (k : Nat) :
    ((text.zipIdx k).filterMap fun (c, i) => (Cmd.ofChar? c).map fun cmd => (i, cmd)).map Prod.snd
      = text.filterMap Cmd.ofChar? := by
  induction text generalizing k with
  | nil => rfl
  | cons c l ih =>
    rw [List.zipIdx_cons, List.filterMap_cons, List.filterMap_cons]
    cases hc : Cmd.ofChar? c with
    | none => simpa [hc] using ih (k + 1)
    | some cmd => simpa [hc] using ih (k + 1)

theorem map_snd_commands (text : List Char) :
    (commands text).map Prod.snd = text.filterMap Cmd.ofChar? := map_snd_commandsFrom text 0

/-! ## Linking -/

theorem add_plain (henter : i.cmd ≠ .enter) (hleave : i.cmd ≠ .leave) :
    l.add i = .ok { l with done := l.done.push i } := by
  unfold Linking.add
  cases hc : i.cmd <;> simp_all

theorem add_enter (hc : i.cmd = .enter) :
    l.add i = .ok { done := l.done.push { i with arg := 0 }, pending := l.done.size :: l.pending } := by
  unfold Linking.add
  rw [hc]

theorem add_leave (hc : i.cmd = .leave) {start : Nat} {outer : List Nat}
    (hp : l.pending = start :: outer) :
    l.add i = .ok
      { done := (l.done.modify start fun opening => { opening with arg := l.done.size }).push
          { i with arg := start }
        pending := outer } := by
  unfold Linking.add
  rw [hc, hp]

/-- A closing bracket links its partner and leaves everything else as it is. -/
theorem map_essence_modify (before after : List Instr) (i : Instr) (arg : Nat) :
    ((before ++ i :: after).modify before.length fun o => { o with arg := arg }).map Instr.essence
      = before.map Instr.essence ++ (i.cmd, arg) :: after.map Instr.essence := by
  induction before with
  | nil => rfl
  | cons b bs ih =>
    rw [List.cons_append, List.length_cons, List.modify_succ_cons, List.map_cons, ih]
    rfl

/-- Linking the instructions of a block: they are appended with their brackets linked, and no
bracket is left open or closed. -/
theorem foldlM_add_block (b : Block) (l : Linking) (h : instrs.map Instr.essence = b.unlinked) :
    ∃ l', instrs.foldlM Linking.add l = .ok l' ∧ l'.pending = l.pending ∧
      l'.done.toList.map Instr.essence
        = l.done.toList.map Instr.essence ++ b.linked l.done.size := by
  induction b generalizing instrs l with
  | done =>
    rw [Block.unlinked, List.map_eq_nil_iff] at h
    subst h
    exact ⟨l, rfl, rfl, by simp [Block.linked]⟩
  | act op rest ih =>
    obtain ⟨i, is, rfl, hi, his⟩ := List.map_eq_cons_iff.mp h
    have hcmd : i.cmd = op.cmd := congrArg Prod.fst hi
    have hadd := add_plain (l := l) (i := i) (by rw [hcmd]; exact op.cmd_ne_enter)
      (by rw [hcmd]; exact op.cmd_ne_leave)
    obtain ⟨l', hrun, hpend, hdone⟩ := ih { l with done := l.done.push i } his
    refine ⟨l', ?_, hpend, ?_⟩
    · rw [List.foldlM_cons, hadd]
      exact hrun
    · rw [hdone]
      simp [Block.linked, hi]
  | loop body rest ihb ihr =>
    rw [Block.unlinked, List.cons_append] at h
    obtain ⟨i, is, rfl, hi, his⟩ := List.map_eq_cons_iff.mp h
    obtain ⟨bs, js, rfl, hbs, hjs⟩ := List.map_eq_append_iff.mp his
    obtain ⟨j, rs, rfl, hj, hrs⟩ := List.map_eq_cons_iff.mp hjs
    have hienter : i.cmd = .enter := congrArg Prod.fst hi
    have hjleave : j.cmd = .leave := congrArg Prod.fst hj
    -- the opening bracket, then the body, then the closing bracket, then the rest
    obtain ⟨l1, hrun1, hpend1, hdone1⟩ := ihb
      { done := l.done.push { i with arg := 0 }, pending := l.done.size :: l.pending } hbs
    simp only [Array.toList_push, List.map_append, Array.size_push] at hdone1
    have hsize1 : l1.done.size = l.done.size + 1 + body.size := by
      have := congrArg List.length hdone1
      simp at this
      omega
    obtain ⟨before, rest1, hsplit, hbefore, hrest1⟩ :
        ∃ before rest1, l1.done.toList = before ++ rest1 ∧
          before.map Instr.essence = l.done.toList.map Instr.essence ∧
          rest1.map Instr.essence = (.enter, 0) :: body.linked (l.done.size + 1) := by
      rw [List.append_assoc] at hdone1
      obtain ⟨p, q, hpq, hp, hq⟩ := List.map_eq_append_iff.mp hdone1
      refine ⟨p, q, hpq, hp, ?_⟩
      rw [hq]
      simp [Instr.essence, hienter]
    obtain ⟨o, tail, rfl, ho, htail⟩ := List.map_eq_cons_iff.mp hrest1
    have hlen : before.length = l.done.size := by
      have := congrArg List.length hbefore
      simpa using this
    have hadd := add_leave (l := l1) (i := j) hjleave hpend1
    obtain ⟨l2, hrun2, hpend2, hdone2⟩ := ihr
      { done := (l1.done.modify l.done.size fun o => { o with arg := l1.done.size }).push
          { j with arg := l.done.size }
        pending := l.pending } hrs
    refine ⟨l2, ?_, hpend2, ?_⟩
    · rw [List.foldlM_cons, add_enter hienter]
      show (bs ++ j :: rs).foldlM Linking.add _ = _
      rw [List.foldlM_append, hrun1]
      show (j :: rs).foldlM Linking.add l1 = _
      rw [List.foldlM_cons, hadd]
      exact hrun2
    · rw [hdone2]
      simp only [Array.toList_push, List.map_append, Array.toList_modify, Array.size_push,
        Array.size_modify, hsize1]
      rw [hsplit, ← hlen, map_essence_modify, hbefore, htail, hlen]
      have hocmd : o.cmd = .enter := congrArg Prod.fst ho
      have hk : l.done.size + 1 + body.size + 1 = l.done.size + body.size + 2 := by omega
      simp [Block.linked, Instr.essence, hjleave, hocmd, hk]

/-- The instructions of a block and of further blocks, each behind a bracket that closes an earlier
one. -/
def closing : Block → List Block → List (Cmd × Nat)
  | b, [] => b.unlinked
  | b, outer :: outers => b.unlinked ++ (.leave, 1) :: closing outer outers

/-- A fold that leaves no bracket open has read one block, and one more for each bracket that was
open at its start. -/
theorem exists_closing (hone : ∀ i ∈ instrs, i.cmd.repeats = false → i.arg = 1) {l' : Linking}
    (h : instrs.foldlM Linking.add l = .ok l') (hend : l'.pending = []) :
    ∃ b bs, bs.length = l.pending.length ∧ instrs.map Instr.essence = closing b bs := by
  induction instrs generalizing l with
  | nil =>
    cases h
    exact ⟨.done, [], by rw [hend]; rfl, rfl⟩
  | cons i is ih =>
    have honeis : ∀ j ∈ is, j.cmd.repeats = false → j.arg = 1 := fun j hj => hone j (by simp [hj])
    have hi := hone i (by simp)
    rw [List.foldlM_cons] at h
    by_cases henter : i.cmd = .enter
    · rw [add_enter henter] at h
      obtain ⟨b, bs, hlen, hmap⟩ := ih honeis h
      -- one block for the body, one for what follows its end
      cases bs with
      | nil => cases hlen
      | cons c cs =>
        refine ⟨.loop b c, cs, by simpa using hlen, ?_⟩
        have hess : i.essence = (.enter, 1) := by
          rw [Instr.essence, henter, hi (by rw [henter]; rfl)]
        rw [List.map_cons, hess, hmap]
        cases cs with
        | nil => rfl
        | cons d ds => simp [closing, Block.unlinked]
    · by_cases hleave : i.cmd = .leave
      · cases hp : l.pending with
        | nil =>
          have : l.add i = .error (.strayClose i.pos) := by
            unfold Linking.add
            rw [hleave, hp]
          rw [this] at h
          cases h
        | cons start outer =>
          rw [add_leave hleave hp] at h
          obtain ⟨b, bs, hlen, hmap⟩ := ih honeis h
          refine ⟨.done, b :: bs, by simpa using hlen, ?_⟩
          have hess : i.essence = (.leave, 1) := by
            rw [Instr.essence, hleave, hi (by rw [hleave]; rfl)]
          rw [List.map_cons, hess, hmap]
          rfl
      · rw [add_plain henter hleave] at h
        obtain ⟨b, bs, hlen, hmap⟩ := ih honeis h
        obtain ⟨op, hop⟩ := Block.exists_op henter hleave hi
        refine ⟨.act op b, bs, hlen, ?_⟩
        rw [List.map_cons, hmap, Instr.essence, ← hop]
        cases bs <;> rfl

/-- What links without a fault is a block. -/
theorem exists_block_of_link (hone : ∀ i ∈ instrs, i.cmd.repeats = false → i.arg = 1) {p : Program}
    (h : link instrs = .ok p) :
    ∃ b : Block, instrs.map Instr.essence = b.unlinked ∧ p.toList.map Instr.essence = b.linked 0 := by
  unfold link at h
  cases hf : instrs.foldlM Linking.add {} with
  | error f => rw [hf] at h; cases h
  | ok l =>
    rw [hf] at h
    have hfin : l.finish = .ok p := h
    have hpend : l.pending = [] := by
      unfold Linking.finish at hfin
      split at hfin
      · assumption
      · cases hfin
    obtain ⟨b, bs, hlen, hmap⟩ := exists_closing hone hf hpend
    obtain rfl : bs = [] := by simpa using hlen
    obtain ⟨l', hrun, -, hdone⟩ := foldlM_add_block b {} hmap
    rw [hf] at hrun
    cases hrun
    have hp : p = l.done := by
      unfold Linking.finish at hfin
      rw [hpend] at hfin
      exact (Except.ok.inj hfin).symm
    exact ⟨b, hmap, by rw [hp, hdone]; rfl⟩

/-! ## Balanced brackets -/

/-- Linking fails at no bracket if the nesting depth never falls below zero. -/
theorem foldlM_add_of_depth (l : Linking) {d : Nat}
    (h : Code.depth l.pending.length (instrs.map Instr.cmd) = some d) :
    ∃ l', instrs.foldlM Linking.add l = .ok l' ∧ l'.pending.length = d := by
  induction instrs generalizing l with
  | nil => exact ⟨l, rfl, Option.some.inj h⟩
  | cons i is ih =>
    rw [List.map_cons] at h
    by_cases henter : i.cmd = .enter
    · rw [henter, Code.depth] at h
      rw [List.foldlM_cons, add_enter henter]
      exact ih { done := l.done.push { i with arg := 0 }, pending := l.done.size :: l.pending } h
    · by_cases hleave : i.cmd = .leave
      · rw [hleave] at h
        cases hp : l.pending with
        | nil => rw [hp] at h; cases h
        | cons start outer =>
          rw [hp] at h
          rw [List.foldlM_cons, add_leave hleave hp]
          exact ih { done := _, pending := outer } h
      · rw [Code.depth_plain henter hleave] at h
        rw [List.foldlM_cons, add_plain henter hleave]
        exact ih { l with done := l.done.push i } h

/-- Grouping keeps the nesting. -/
theorem depth_group (d : Nat) (cs : List (Nat × Cmd)) :
    Code.depth d ((group cs).map Instr.cmd) = Code.depth d (cs.map Prod.snd) := by
  have hcons : ∀ (c : Cmd) (d : Nat) {xs ys : Code},
      (∀ d, Code.depth d xs = Code.depth d ys) → Code.depth d (c :: xs) = Code.depth d (c :: ys) := by
    intro c d xs ys h
    cases c <;> cases d <;> simp [Code.depth, h]
  induction cs generalizing d with
  | nil => rfl
  | cons c cs ih =>
    rw [group, List.foldr_cons, ← group, List.map_cons]
    refine Eq.trans ?_ (hcons c.2 d ih)
    unfold addCommand
    cases group cs with
    | nil => rfl
    | cons next rest =>
      simp only
      split
      · next hc =>
          simp only [Bool.and_eq_true, beq_iff_eq] at hc
          rw [List.map_cons, List.map_cons, hc.2]
          have hplain : c.2 ≠ .enter ∧ c.2 ≠ .leave := by
            constructor <;> intro he <;> rw [he] at hc <;> cases hc.1
          rw [Code.depth_plain hplain.1 hplain.2, Code.depth_plain hplain.1 hplain.2,
            Code.depth_plain hplain.1 hplain.2]
      · rfl

/-! ## Texts -/

/-- **Accepted texts are blocks.** The commands of a text that is read without a fault are the code
of a block, and the program is that block with its brackets linked. -/
theorem exists_block_of_ofChars {text : List Char} {p : Program} (h : ofChars text = .ok p) :
    ∃ b : Block, text.filterMap Cmd.ofChar? = b.code ∧ p.toList.map Instr.essence = b.linked 0 := by
  obtain ⟨b, hmap, hp⟩ := exists_block_of_link (fun i hi => arg_of_mem_group hi) h
  refine ⟨b, ?_, hp⟩
  rw [← map_snd_commands, ← flatMap_group, ← Block.flatMap_unlinked, ← hmap, List.flatMap_map]
  rfl

/-- Texts with balanced brackets are accepted. -/
theorem exists_ofChars_of_balanced {text : List Char}
    (h : Code.Balanced (text.filterMap Cmd.ofChar?)) : ∃ p, ofChars text = .ok p := by
  have hd : Code.depth 0 ((group (commands text)).map Instr.cmd) = some 0 := by
    rw [depth_group, map_snd_commands]
    exact h
  obtain ⟨l, hrun, hlen⟩ := foldlM_add_of_depth {} hd
  have hpend : l.pending = [] := List.eq_nil_of_length_eq_zero hlen
  refine ⟨l.done, ?_⟩
  unfold ofChars link
  rw [hrun]
  show l.finish = _
  unfold Linking.finish
  rw [hpend]

/-- Emitted code is read back as it was emitted. -/
theorem filterMap_text (code : Code) : code.text.toList.filterMap Cmd.ofChar? = code := by
  rw [Code.text, String.toList_ofList, List.filterMap_map]
  have : Cmd.ofChar? ∘ Cmd.toChar = some := funext Cmd.ofChar?_toChar
  rw [this, List.filterMap_some]

/-- The code of a block can be read, as a program that consists of a block with that code. -/
theorem exists_of_block (b : Block) :
    ∃ (p : Program) (b' : Block), ofText b.code.text = .ok p ∧ b'.code = b.code ∧
      p.toList.map Instr.essence = b'.linked 0 := by
  have hcmds := filterMap_text b.code
  have hbalanced : Code.Balanced (b.code.text.toList.filterMap Cmd.ofChar?) := by
    rw [hcmds]
    exact b.balanced_code
  obtain ⟨p, hp⟩ := exists_ofChars_of_balanced hbalanced
  obtain ⟨b', hcode, hlinked⟩ := exists_block_of_ofChars hp
  exact ⟨p, b', hp, hcode.symm.trans hcmds, hlinked⟩

/-- Linking changes neither the commands nor the places. -/
theorem map_place_link {l' : Linking} (h : instrs.foldlM Linking.add l = .ok l') :
    l'.done.toList.map (fun i => (i.cmd, i.pos))
      = l.done.toList.map (fun i => (i.cmd, i.pos)) ++ instrs.map fun i => (i.cmd, i.pos) := by
  induction instrs generalizing l with
  | nil => cases h; simp
  | cons i is ih =>
    rw [List.foldlM_cons] at h
    cases hadd : l.add i with
    | error f => rw [hadd] at h; cases h
    | ok l1 =>
      rw [hadd] at h
      have hone : l1.done.toList.map (fun i => (i.cmd, i.pos))
          = l.done.toList.map (fun i => (i.cmd, i.pos)) ++ [(i.cmd, i.pos)] := by
        unfold Linking.add at hadd
        split at hadd
        · cases hadd; simp
        · split at hadd
          · cases hadd
          · next start outer _ =>
              cases hadd
              simp only [Array.toList_push, Array.toList_modify, List.map_append]
              congr 1
              apply List.ext_getElem?
              intro k
              simp only [List.getElem?_map, List.getElem?_modify]
              cases l.done.toList[k]? with
              | none => rfl
              | some j => simp only [Option.map_some]; split <;> rfl
        · cases hadd; simp
      rw [ih h, hone]
      simp

end Program

end TapeScript
