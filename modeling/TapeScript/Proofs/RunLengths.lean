import Mathlib.Data.List.Chain
import TapeScript.Proofs.Brackets
import TapeScript.Proofs.MachineRun

set_option autoImplicit false

/-! # The run-length form of a text

A text is read into instructions that stand for its commands and for nothing else
(`Program.Represents`): written out they are the commands of the text, no two runs could be joined, each
instruction knows the place of its first character, and an opening bracket and its partner point at
each other. A text whose brackets do not match has no such form, and the place reported is that of the
first closing bracket without a partner, or, if all of these have one, that of the last opening bracket
without a partner.
-/

namespace TapeScript

/-- The commands an instruction stands for; the number a bracket carries is no count. -/
def Instr.expand (i : Instr) : Code :=
  if i.cmd.repeats then List.replicate i.arg i.cmd else [i.cmd]

/-- The program is the canonical form of the text. -/
structure Program.Represents (p : Program) (text : List Char) : Prop where
  expands : p.toList.flatMap Instr.expand = text.filterMap Cmd.ofChar?
  counts : ∀ i ∈ p.toList, i.cmd ≠ .enter → i.cmd ≠ .leave → 1 ≤ i.arg
  /-- No two neighbours are runs of the same command. -/
  maximal : p.toList.IsChain fun a b => a.cmd.repeats = true → b.cmd ≠ a.cmd
  increasing : (p.toList.map Instr.pos).Pairwise (· < ·)
  /-- An instruction stands at the place of its command behind the commands of those before it. -/
  starts : ∀ before i after, p.toList = before ++ i :: after →
    (∃ c, text[i.pos]? = some c ∧ Cmd.ofChar? c = some i.cmd) ∧
    (text.take i.pos).filterMap Cmd.ofChar? = before.flatMap Instr.expand
  /-- An opening bracket points at its partner, which points back. -/
  linked : ∀ (i j pos : Nat), p[i]? = some ⟨.enter, j, pos⟩ →
    i < j ∧ (∃ pos', p[j]? = some ⟨.leave, i, pos'⟩) ∧
    Code.Balanced (((p.toList.take j).drop (i + 1)).map Instr.cmd)

/-! ## Runs -/

namespace Program

/-- A command joins the run that follows, or is put before it. -/
theorem addCommand_cases (c : Nat × Cmd) (grouped : List Instr) :
    (∃ next rest, grouped = next :: rest ∧ c.2.repeats = true ∧ next.cmd = c.2 ∧
      addCommand c grouped = ⟨c.2, next.arg + 1, c.1⟩ :: rest) ∨
    ((∀ next ∈ grouped.head?, c.2.repeats = true → next.cmd ≠ c.2) ∧
      addCommand c grouped = ⟨c.2, 1, c.1⟩ :: grouped) := by
  unfold addCommand
  cases grouped with
  | nil => exact .inr ⟨by simp, rfl⟩
  | cons next rest =>
    by_cases h : c.2.repeats = true ∧ next.cmd = c.2
    · exact .inl ⟨next, rest, rfl, h.1, h.2, by simp [h.1, h.2]⟩
    · refine .inr ⟨?_, ?_⟩
      · simpa using h
      · have : (c.2.repeats && next.cmd == c.2) = false := by simpa using h
        simp [this]

theorem group_cons (c : Nat × Cmd) (cs : List (Nat × Cmd)) :
    group (c :: cs) = addCommand c (group cs) := rfl

variable {cs : List (Nat × Cmd)}
variable {i : Instr}

theorem one_le_arg_of_mem_group (hi : i ∈ group cs) : 1 ≤ i.arg := by
  induction cs with
  | nil => cases hi
  | cons c cs ih =>
    rw [group_cons] at hi
    rcases addCommand_cases c (group cs) with ⟨next, rest, hg, -, -, hadd⟩ | ⟨-, hadd⟩
    · rw [hadd] at hi
      rcases List.mem_cons.mp hi with rfl | hi
      · exact Nat.le_add_left _ _
      · exact ih (hg ▸ List.mem_cons_of_mem _ hi)
    · rw [hadd] at hi
      rcases List.mem_cons.mp hi with rfl | hi
      · exact Nat.le_refl _
      · exact ih hi

theorem isChain_group (cs : List (Nat × Cmd)) :
    (group cs).IsChain fun a b => a.cmd.repeats = true → b.cmd ≠ a.cmd := by
  induction cs with
  | nil => exact .nil
  | cons c cs ih =>
    rw [group_cons]
    rcases addCommand_cases c (group cs) with ⟨next, rest, hg, -, hcmd, hadd⟩ | ⟨hhead, hadd⟩
    · -- the run has got longer, but its command is the same
      rw [hg, List.isChain_cons] at ih
      rw [hadd, List.isChain_cons]
      exact ⟨by simpa [hcmd] using ih.1, ih.2⟩
    · rw [hadd, List.isChain_cons]
      exact ⟨hhead, ih⟩

/-- The places of the runs are places of commands. -/
theorem map_pos_group_sublist (cs : List (Nat × Cmd)) :
    ((group cs).map Instr.pos).Sublist (cs.map Prod.fst) := by
  induction cs with
  | nil => exact .slnil
  | cons c cs ih =>
    rw [group_cons]
    rcases addCommand_cases c (group cs) with ⟨next, rest, hg, -, -, hadd⟩ | ⟨-, hadd⟩
    · rw [hg, List.map_cons] at ih
      rw [hadd, List.map_cons, List.map_cons]
      exact ((List.sublist_cons_self _ _).trans ih).cons_cons _
    · rw [hadd, List.map_cons, List.map_cons]
      exact ih.cons_cons _

/-- A run starts at a command, and the runs before it are the commands before that. -/
theorem exists_of_group_eq {before after : List Instr} (h : group cs = before ++ i :: after) :
    ∃ cs1 cs2, cs = cs1 ++ (i.pos, i.cmd) :: cs2 ∧
      cs1.map Prod.snd = before.flatMap fun i => List.replicate i.arg i.cmd := by
  induction cs generalizing before with
  | nil => simp [group] at h
  | cons c cs ih =>
    rw [group_cons] at h
    rcases addCommand_cases c (group cs) with ⟨next, rest, hg, -, hcmd, hadd⟩ | ⟨-, hadd⟩
    · rw [hadd] at h
      cases before with
      | nil =>
        obtain ⟨rfl, -⟩ := List.cons.inj h
        exact ⟨[], cs, rfl, rfl⟩
      | cons first before =>
        obtain ⟨rfl, rfl⟩ := List.cons.inj h
        have hrest : group cs = (next :: before) ++ i :: after := hg
        obtain ⟨cs1, cs2, rfl, hcs1⟩ := ih hrest
        refine ⟨c :: cs1, cs2, rfl, ?_⟩
        rw [List.map_cons, hcs1]
        simp [hcmd, List.replicate_succ]
    · rw [hadd] at h
      cases before with
      | nil =>
        obtain ⟨rfl, -⟩ := List.cons.inj h
        exact ⟨[], cs, rfl, rfl⟩
      | cons first before =>
        obtain ⟨rfl, hrest⟩ := List.cons.inj h
        obtain ⟨cs1, cs2, rfl, hcs1⟩ := ih hrest
        refine ⟨c :: cs1, cs2, rfl, ?_⟩
        rw [List.map_cons, hcs1]
        simp

/-- Commands that are not repeated cut the runs. -/
theorem group_append_cons {q : Nat} {c : Cmd} (hc : c.repeats = false) (cs1 cs2 : List (Nat × Cmd)) :
    group (cs1 ++ (q, c) :: cs2) = group cs1 ++ ⟨c, 1, q⟩ :: group cs2 := by
  induction cs1 with
  | nil =>
    rw [List.nil_append, group_cons]
    rcases addCommand_cases (q, c) (group cs2) with ⟨-, -, -, hrepeats, -, -⟩ | ⟨-, hadd⟩
    · rw [hc] at hrepeats
      cases hrepeats
    · exact hadd
  | cons a cs1 ih =>
    rw [List.cons_append, group_cons, ih, group_cons]
    cases hg : group cs1 with
    | nil =>
      -- what follows is the command that is not repeated
      have hne : (a.2.repeats && c == a.2) = false := by
        by_cases heq : c = a.2
        · simp [← heq, hc]
        · simp [heq]
      simp [addCommand, hne]
    | cons next rest =>
      simp only [addCommand, List.cons_append]
      split <;> rfl

theorem expand_of_mem_group (hi : i ∈ group cs) : i.expand = List.replicate i.arg i.cmd := by
  unfold Instr.expand
  by_cases hr : i.cmd.repeats = true
  · rw [if_pos hr]
  · rw [if_neg hr, arg_of_mem_group hi (by simpa using hr)]
    rfl

/-! ## Places -/

/-- The commands of a text that starts at the given place. -/
def commandsFrom (k : Nat) (text : List Char) : List (Nat × Cmd) :=
  (text.zipIdx k).filterMap fun (c, i) => (Cmd.ofChar? c).map fun cmd => (i, cmd)

theorem commands_eq (text : List Char) : commands text = commandsFrom 0 text := rfl

theorem commandsFrom_append_cons {c : Char} {cmd : Cmd} (hc : Cmd.ofChar? c = some cmd) (k : Nat)
    (before after : List Char) : commandsFrom k (before ++ c :: after) =
      commandsFrom k before ++ (k + before.length, cmd) ::
        commandsFrom (k + before.length + 1) after := by
  simp [commandsFrom, List.zipIdx_append, List.zipIdx_cons, hc]

/-- A command among those of a text is one of its characters. -/
theorem exists_of_commandsFrom_eq {k q : Nat} {cmd : Cmd} {text : List Char}
    {cs1 cs2 : List (Nat × Cmd)} (h : commandsFrom k text = cs1 ++ (q, cmd) :: cs2) :
    ∃ before c after, text = before ++ c :: after ∧ q = k + before.length ∧
      Cmd.ofChar? c = some cmd ∧ commandsFrom k before = cs1 := by
  induction text generalizing k cs1 with
  | nil => simp [commandsFrom] at h
  | cons c text ih =>
    cases hc : Cmd.ofChar? c with
    | none =>
      have hskip : ∀ xs, commandsFrom k (c :: xs) = commandsFrom (k + 1) xs := by
        intro xs
        simp [commandsFrom, List.zipIdx_cons, hc]
      rw [hskip] at h
      obtain ⟨before, d, after, rfl, rfl, hd, hbefore⟩ := ih h
      exact ⟨c :: before, d, after, rfl, by simp; omega, hd, (hskip before).trans hbefore⟩
    | some first =>
      have hstep : ∀ xs, commandsFrom k (c :: xs) = (k, first) :: commandsFrom (k + 1) xs := by
        intro xs
        simp [commandsFrom, List.zipIdx_cons, hc]
      rw [hstep] at h
      cases cs1 with
      | nil =>
        obtain ⟨heq, -⟩ := List.cons.inj h
        cases heq
        exact ⟨[], c, text, rfl, rfl, hc, rfl⟩
      | cons x cs1 =>
        obtain ⟨rfl, hrest⟩ := List.cons.inj h
        obtain ⟨before, d, after, rfl, rfl, hd, hbefore⟩ := ih hrest
        exact ⟨c :: before, d, after, rfl, by simp; omega, hd, by rw [hstep, hbefore]⟩

theorem pairwise_commandsFrom (k : Nat) (text : List Char) :
    ((commandsFrom k text).map Prod.fst).Pairwise (· < ·) := by
  have hsub : ((commandsFrom k text).map Prod.fst).Sublist (List.range' k text.length) := by
    induction text generalizing k with
    | nil => exact .slnil
    | cons c text ih =>
      rw [List.length_cons, List.range'_succ]
      cases hc : Cmd.ofChar? c with
      | none =>
        simp only [commandsFrom, List.zipIdx_cons, List.filterMap_cons, hc, Option.map_none]
        exact (ih (k + 1)).cons k
      | some cmd =>
        simp only [commandsFrom, List.zipIdx_cons, List.filterMap_cons, hc, Option.map_some,
          List.map_cons]
        exact (ih (k + 1)).cons_cons k
  exact (List.pairwise_lt_range' (s := k) (n := text.length)).sublist hsub

/-! ## Links -/

/-- An instruction before its bracket is linked. -/
def unlink (i : Instr) : Instr :=
  match i.cmd with
  | .enter | .leave => { i with arg := 1 }
  | _ => i

@[simp] theorem cmd_unlink (i : Instr) : (unlink i).cmd = i.cmd := by
  unfold unlink
  split <;> rfl

@[simp] theorem pos_unlink (i : Instr) : (unlink i).pos = i.pos := by
  unfold unlink
  split <;> rfl

theorem map_pos_unlink (is : List Instr) : (is.map unlink).map Instr.pos = is.map Instr.pos := by
  rw [List.map_map]
  exact List.map_congr_left fun i _ => pos_unlink i

theorem expand_unlink (i : Instr) : (unlink i).expand = i.expand := by
  unfold unlink Instr.expand
  split <;> simp_all [Cmd.repeats]

theorem unlink_of_plain (henter : i.cmd ≠ .enter) (hleave : i.cmd ≠ .leave) : unlink i = i := by
  unfold unlink
  split <;> simp_all

theorem map_pos_of_foldlM {instrs : List Instr} {l l' : Linking}
    (h : instrs.foldlM Linking.add l = .ok l') :
    l'.done.toList.map Instr.pos = l.done.toList.map Instr.pos ++ instrs.map Instr.pos := by
  have hplace := congrArg (List.map Prod.snd) (map_place_link h)
  rwa [List.map_append, List.map_map, List.map_map, List.map_map] at hplace

theorem exists_of_link {instrs : List Instr} {p : Program} (h : link instrs = .ok p) :
    ∃ l, instrs.foldlM Linking.add {} = .ok l ∧ p = l.done := by
  unfold link at h
  cases hf : instrs.foldlM Linking.add {} with
  | error f =>
    rw [hf] at h
    cases h
  | ok l =>
    rw [hf] at h
    have hfinish : l.finish = .ok p := h
    unfold Linking.finish at hfinish
    split at hfinish
    · exact ⟨l, rfl, (Except.ok.inj hfinish).symm⟩
    · cases hfinish

end Program

namespace Block

/-- An instruction without its place, before its bracket is linked. -/
def unlinkEssence (e : Cmd × Nat) : Cmd × Nat :=
  match e.1 with
  | .enter | .leave => (e.1, 1)
  | _ => e

theorem unlinkEssence_op (op : Op) : unlinkEssence (op.cmd, op.count) = (op.cmd, op.count) := by
  cases op <;> rfl

theorem map_unlinkEssence_linked (b : Block) (k : Nat) :
    (b.linked k).map unlinkEssence = b.unlinked := by
  induction b generalizing k with
  | done => rfl
  | act op rest ih => simp [linked, unlinked, ih, unlinkEssence_op]
  | loop body rest ihb ihr => simp [linked, unlinked, ihb, ihr, unlinkEssence]

theorem depth_linked_append (b : Block) (k d : Nat) (rest : Code) :
    Code.depth d ((b.linked k).map Prod.fst ++ rest) = Code.depth d rest := by
  induction b generalizing k d rest with
  | done => rfl
  | act op b ih =>
    rw [linked, List.map_cons, List.cons_append,
      Code.depth_plain op.cmd_ne_enter op.cmd_ne_leave, ih]
  | loop body b ihb ihr =>
    simp only [linked, List.cons_append, List.map_cons, List.map_append, List.append_assoc]
    rw [Code.depth, ihb, Code.depth, ihr]

theorem balanced_linked (b : Block) (k : Nat) : Code.Balanced ((b.linked k).map Prod.fst) := by
  have h := depth_linked_append b k 0 []
  rwa [List.append_nil] at h

/-- An opening bracket of a block is followed by the body of its loop and by its partner. -/
theorem exists_body_of_enter {b : Block} {k j : Nat} {before after : List (Cmd × Nat)}
    (h : b.linked k = before ++ (.enter, j) :: after) :
    ∃ (body : Block) (rest : List (Cmd × Nat)), j = k + before.length + 1 + body.size ∧
      after = body.linked (k + before.length + 1) ++ (.leave, k + before.length) :: rest := by
  induction b generalizing k before after with
  | done => simp [linked] at h
  | act op b ih =>
    cases before with
    | nil =>
      have hcmd : op.cmd = .enter := congrArg Prod.fst (List.cons.inj h).1
      exact absurd hcmd op.cmd_ne_enter
    | cons first before =>
      obtain ⟨body, rest, hj, hafter⟩ := ih (List.cons.inj h).2
      rw [Nat.add_right_comm k 1, Nat.add_assoc k before.length 1] at hj hafter
      exact ⟨body, rest, hj, hafter⟩
  | loop body b ihb ihr =>
    cases before with
    | nil =>
      obtain ⟨hfirst, rfl⟩ := List.cons.inj h
      exact ⟨body, b.linked (k + body.size + 2), (congrArg Prod.snd hfirst).symm, rfl⟩
    | cons first before =>
      have htail : body.linked (k + 1) ++ (.leave, k) :: b.linked (k + body.size + 2) =
          before ++ (.enter, j) :: after := (List.cons.inj h).2
      -- the bracket stands in the body or behind it; between them is a closing one
      rcases List.append_eq_append_iff.mp htail with ⟨xs, hbefore, hxs⟩ | ⟨xs, hbody, hxs⟩
      · cases xs with
        | nil => cases (List.cons.inj hxs).1
        | cons x xs =>
          obtain ⟨inner, rest, hj, hafter⟩ := ihr (List.cons.inj hxs).2
          have hlength : k + body.size + 2 + xs.length = k + (first :: before).length := by
            simp [hbefore]
            omega
          rw [hlength] at hj hafter
          exact ⟨inner, rest, hj, hafter⟩
      · cases xs with
        | nil => cases (List.cons.inj hxs).1
        | cons x xs =>
          obtain ⟨rfl, hafter'⟩ := List.cons.inj hxs
          obtain ⟨inner, rest, hj, rfl⟩ := ihb hbody
          rw [Nat.add_right_comm k 1, Nat.add_assoc k before.length 1] at hj hafter'
          exact ⟨inner, rest ++ (.leave, k) :: b.linked (k + body.size + 2), hj,
            by simp [hafter']⟩

end Block

namespace Program

variable {text : List Char} {p : Program} {before after : List Instr} {i : Instr}

/-! ## Texts that are read -/

/-- A program is its runs with the brackets linked. -/
theorem map_unlink_of_ofChars (h : ofChars text = .ok p) :
    p.toList.map unlink = group (commands text) := by
  obtain ⟨b, hgroup, hp⟩ := exists_block_of_link (fun _ hi => arg_of_mem_group hi) h
  obtain ⟨l, hfold, rfl⟩ := exists_of_link h
  have hpos := map_pos_of_foldlM hfold
  -- an instruction is its essence and its place
  have hrebuild : ∀ is : List Instr,
      is = List.zipWith (fun e pos => ⟨e.1, e.2, pos⟩) (is.map Instr.essence) (is.map Instr.pos) := by
    intro is
    simp [List.zipWith_map, Instr.essence]
  have hessence : (l.done.toList.map unlink).map Instr.essence = b.unlinked := by
    rw [← Block.map_unlinkEssence_linked b 0, ← hp, List.map_map, List.map_map]
    refine List.map_congr_left fun i _ => ?_
    cases i with
    | mk cmd arg pos => cases cmd <;> rfl
  calc l.done.toList.map unlink
      = List.zipWith (fun e pos => ⟨e.1, e.2, pos⟩) ((l.done.toList.map unlink).map Instr.essence)
          ((l.done.toList.map unlink).map Instr.pos) := hrebuild _
    _ = List.zipWith (fun e pos => ⟨e.1, e.2, pos⟩) ((group (commands text)).map Instr.essence)
          ((group (commands text)).map Instr.pos) := by
        rw [hessence, hgroup, map_pos_unlink, hpos]
        rfl
    _ = group (commands text) := (hrebuild _).symm

theorem flatMap_expand_unlink (is : List Instr) :
    (is.map unlink).flatMap Instr.expand = is.flatMap Instr.expand := by
  rw [List.flatMap_map]
  exact congrArg (List.flatMap · is) (funext expand_unlink)

theorem flatMap_expand_of_group {cs : List (Nat × Cmd)} {is : List Instr} (h : ∀ i ∈ is, i ∈ group cs) :
    is.flatMap Instr.expand = is.flatMap fun i => List.replicate i.arg i.cmd := by
  rw [List.flatMap_def, List.flatMap_def,
    List.map_congr_left fun i hi => expand_of_mem_group (h i hi)]

/-- An instruction starts where the commands of those before it end. -/
theorem start_of_ofChars (h : ofChars text = .ok p) (hp : p.toList = before ++ i :: after) :
    (∃ c, text[i.pos]? = some c ∧ Cmd.ofChar? c = some i.cmd) ∧
    (text.take i.pos).filterMap Cmd.ofChar? = before.flatMap Instr.expand := by
  have hunlink := map_unlink_of_ofChars h
  rw [hp, List.map_append, List.map_cons] at hunlink
  obtain ⟨cs1, cs2, hcs, hcs1⟩ := exists_of_group_eq hunlink.symm
  rw [commands_eq] at hcs
  obtain ⟨start, c, rest, rfl, hpos, hc, rfl⟩ := exists_of_commandsFrom_eq hcs
  rw [pos_unlink, Nat.zero_add] at hpos
  rw [cmd_unlink] at hc
  refine ⟨⟨c, by simp [hpos], hc⟩, ?_⟩
  have hgroup : ∀ j ∈ before.map unlink, j ∈ group (commands (start ++ c :: rest)) := by
    intro j hj
    rw [← hunlink]
    exact List.mem_append_left _ hj
  rw [hpos, List.take_left, ← map_snd_commandsFrom start 0, ← flatMap_expand_unlink,
    flatMap_expand_of_group hgroup]
  exact hcs1

/-- The instructions behind an opening bracket are the body of its loop and its partner. -/
theorem partner_of_ofChars (h : ofChars text = .ok p) {i j pos : Nat}
    (hi : p[i]? = some ⟨.enter, j, pos⟩) :
    i < j ∧ (∃ pos', p[j]? = some ⟨.leave, i, pos'⟩) ∧
    Code.Balanced (((p.toList.take j).drop (i + 1)).map Instr.cmd) := by
  obtain ⟨b, -, hp⟩ := exists_block_of_ofChars h
  rw [← Array.getElem?_toList] at hi
  obtain ⟨hlt, hget⟩ := List.getElem?_eq_some_iff.mp hi
  have hsplit : p.toList = p.toList.take i ++ ⟨.enter, j, pos⟩ :: p.toList.drop (i + 1) := by
    rw [← hget, List.getElem_cons_drop, List.take_append_drop]
  have hlinked := hp
  rw [hsplit, List.map_append, List.map_cons] at hlinked
  obtain ⟨body, rest, hj, hafter⟩ := Block.exists_body_of_enter hlinked.symm
  have hlength : 0 + ((p.toList.take i).map Instr.essence).length = i := by
    rw [Nat.zero_add, List.length_map, List.length_take, Nat.min_eq_left (by omega)]
  rw [hlength] at hj hafter
  have hj : j = i + 1 + body.size := hj
  refine ⟨by omega, ?_, ?_⟩
  · have hpartner : (p.toList[j]?).map Instr.essence = some (.leave, i) := by
      rw [hj, ← List.getElem?_drop, ← List.getElem?_map, hafter,
        List.getElem?_append_right (by simp), Block.length_linked, Nat.sub_self,
        List.getElem?_cons_zero]
    obtain ⟨⟨cmd, arg, pos'⟩, hat, hleave⟩ := Option.map_eq_some_iff.mp hpartner
    obtain ⟨rfl, rfl⟩ : cmd = .leave ∧ arg = i := by simpa [Instr.essence] using hleave
    exact ⟨pos', by rw [← Array.getElem?_toList, hat]⟩
  · have hinside : ((p.toList.take j).drop (i + 1)).map Instr.cmd =
        (body.linked (i + 1)).map Prod.fst := by
      rw [List.drop_take, show j - (i + 1) = body.size by omega]
      calc ((p.toList.drop (i + 1)).take body.size).map Instr.cmd
          = (((p.toList.drop (i + 1)).map Instr.essence).take body.size).map Prod.fst := by
            rw [← List.map_take, List.map_map]
            rfl
        _ = (body.linked (i + 1)).map Prod.fst := by
            rw [hafter, List.take_left' (Block.length_linked body (i + 1))]
    rw [hinside]
    exact body.balanced_linked (i + 1)

theorem represents_of_ofChars (h : ofChars text = .ok p) : p.Represents text := by
  have hunlink := map_unlink_of_ofChars h
  constructor
  · calc p.toList.flatMap Instr.expand
        = (group (commands text)).flatMap Instr.expand := by rw [← flatMap_expand_unlink, hunlink]
      _ = (commands text).map Prod.snd := by
          rw [flatMap_expand_of_group fun (i : Instr) (hi : i ∈ group (commands text)) => hi,
            flatMap_group]
      _ = text.filterMap Cmd.ofChar? := map_snd_commands text
  · intro i hi henter hleave
    have hmem : i ∈ group (commands text) := by
      rw [← hunlink, ← unlink_of_plain henter hleave]
      exact List.mem_map_of_mem hi
    exact one_le_arg_of_mem_group hmem
  · have hchain := isChain_group (commands text)
    rw [← hunlink, List.isChain_map] at hchain
    simpa using hchain
  · have hsub := map_pos_group_sublist (commands text)
    rw [← hunlink, map_pos_unlink] at hsub
    exact (pairwise_commandsFrom 0 text).sublist hsub
  · intro before i after hp
    exact start_of_ofChars h hp
  · intro i j pos hi
    exact partner_of_ofChars h hi

/-! ## Texts that are refused -/

theorem link_of_stray (hi : i.cmd = .leave) (h : Code.depth 0 (before.map Instr.cmd) = some 0) :
    link (before ++ i :: after) = .error (.strayClose i.pos) := by
  obtain ⟨l, hrun, hlength⟩ := foldlM_add_of_depth {} h
  have hpending : l.pending = [] := List.eq_nil_of_length_eq_zero hlength
  have hadd : l.add i = .error (.strayClose i.pos) := by
    unfold Linking.add
    rw [hi, hpending]
  unfold link
  rw [List.foldlM_append, hrun]
  show (do let linked ← (i :: after).foldlM Linking.add l; linked.finish) = _
  rw [List.foldlM_cons, hadd]
  rfl

theorem link_of_unclosed (hi : i.cmd = .enter) {d : Nat}
    (hbefore : Code.depth 0 (before.map Instr.cmd) = some d)
    (hafter : Code.Balanced (after.map Instr.cmd))
    (hone : ∀ i ∈ after, i.cmd.repeats = false → i.arg = 1) :
    link (before ++ i :: after) = .error (.unclosed i.pos) := by
  obtain ⟨l, hrun, -⟩ := foldlM_add_of_depth {} hbefore
  -- balanced instructions make a block, which leaves the bracket open
  obtain ⟨p, hp⟩ : ∃ p, link after = .ok p := by
    obtain ⟨l', hrun', hlength⟩ := foldlM_add_of_depth {} hafter
    refine ⟨l'.done, ?_⟩
    unfold link
    rw [hrun']
    show l'.finish = _
    rw [Linking.finish, List.eq_nil_of_length_eq_zero hlength]
  obtain ⟨b, hb, -⟩ := exists_block_of_link hone hp
  let opened : Linking := ⟨l.done.push { i with arg := 0 }, l.done.size :: l.pending⟩
  obtain ⟨l', hrun', hpending, -⟩ := foldlM_add_block b opened hb
  have hall : (before ++ i :: after).foldlM Linking.add {} = .ok l' := by
    rw [List.foldlM_append, hrun]
    show (i :: after).foldlM Linking.add l = _
    rw [List.foldlM_cons, add_enter hi]
    exact hrun'
  have hpos : (l'.done.toList.map Instr.pos)[l.done.size]? = some i.pos := by
    rw [map_pos_of_foldlM hrun']
    simp [opened]
  unfold link
  rw [hall]
  show l'.finish = _
  unfold Linking.finish
  rw [hpending]
  simp only [opened]
  rw [List.getElem?_map] at hpos
  rw [← Array.getElem?_toList, hpos]
  rfl

theorem depth_group_commandsFrom (d k : Nat) (text : List Char) :
    Code.depth d ((group (commandsFrom k text)).map Instr.cmd) = Brackets.depth d text := by
  rw [depth_group, commandsFrom, map_snd_commandsFrom]
  rfl

theorem ofChars_of_stray {before : List Char} (h : Brackets.Balanced before) (after : List Char) :
    ofChars (before ++ ']' :: after) = .error (.strayClose before.length) := by
  have hcommands := commandsFrom_append_cons (c := ']') rfl 0 before after
  unfold ofChars
  rw [commands_eq, hcommands, group_append_cons rfl,
    link_of_stray rfl ((depth_group_commandsFrom 0 0 before).trans h), Nat.zero_add]

theorem ofChars_of_unclosed {before after : List Char} {d : Nat}
    (hbefore : Brackets.depth 0 before = some d) (hafter : Brackets.Balanced after) :
    ofChars (before ++ '[' :: after) = .error (.unclosed before.length) := by
  have hcommands := commandsFrom_append_cons (c := '[') rfl 0 before after
  unfold ofChars
  rw [commands_eq, hcommands, group_append_cons rfl,
    link_of_unclosed rfl ((depth_group_commandsFrom 0 0 before).trans hbefore)
      ((depth_group_commandsFrom 0 _ after).trans hafter) fun _ hi => arg_of_mem_group hi,
    Nat.zero_add]

/-- How a text is read, by its brackets. -/
theorem ofChars_cases (text : List Char) :
    (∃ q, ofChars text = .error (.strayClose q) ∧ ¬ Brackets.Balanced text ∧
      IsLeast {q | Brackets.Stray text q} q) ∨
    (∃ q, ofChars text = .error (.unclosed q) ∧ ¬ Brackets.Balanced text ∧
      (∀ q, ¬ Brackets.Stray text q) ∧ IsGreatest {q | Brackets.Unclosed text q} q) ∨
    (∃ p, ofChars text = .ok p ∧ Brackets.Balanced text ∧
      (∀ q, ¬ Brackets.Stray text q) ∧ ∀ q, ¬ Brackets.Unclosed text q) := by
  cases hdepth : Brackets.depth 0 text with
  | none =>
    have hnot : ¬ Brackets.Balanced text := fun h => by cases hdepth.symm.trans h
    obtain ⟨before, after, rfl, hbefore⟩ := Brackets.exists_stray hdepth
    exact .inl ⟨_, ofChars_of_stray hbefore after, hnot, Brackets.isLeast_stray hbefore after⟩
  | some d =>
    have hclosed := Brackets.not_stray_of_defined hdepth
    cases d with
    | zero =>
      obtain ⟨p, hp⟩ := exists_ofChars_of_balanced hdepth
      exact .inr (.inr ⟨p, hp, hdepth, hclosed, fun q =>
        Brackets.not_unclosed_of_balanced hdepth (List.length_nil.trans_le (Nat.zero_le q))⟩)
    | succ d =>
      have hnot : ¬ Brackets.Balanced text := fun h => by cases hdepth.symm.trans h
      obtain ⟨before, after, rfl, hbefore, hafter⟩ := Brackets.exists_open hdepth
      exact .inr (.inl ⟨_, ofChars_of_unclosed hbefore hafter, hnot, hclosed,
        Brackets.isGreatest_unclosed hafter before⟩)

theorem ofChars_eq_strayClose_iff {q : Nat} :
    ofChars text = .error (.strayClose q) ↔ IsLeast {q | Brackets.Stray text q} q := by
  rcases ofChars_cases text with ⟨q', h, -, hleast⟩ | ⟨q', h, -, hnone, -⟩ | ⟨p, h, -, hnone, -⟩
  · rw [h]
    constructor
    · intro heq
      cases heq
      exact hleast
    · intro hq
      rw [hleast.unique hq]
  · rw [h]
    exact iff_of_false (by simp) fun hq => hnone q hq.1
  · rw [h]
    exact iff_of_false (by simp) fun hq => hnone q hq.1

theorem ofChars_eq_unclosed_iff {q : Nat} :
    ofChars text = .error (.unclosed q) ↔
      (∀ q, ¬ Brackets.Stray text q) ∧ IsGreatest {q | Brackets.Unclosed text q} q := by
  rcases ofChars_cases text with ⟨q', h, -, hleast⟩ | ⟨q', h, -, hnone, hgreatest⟩ |
    ⟨p, h, -, -, hnone⟩
  · rw [h]
    exact iff_of_false (by simp) fun hq => hq.1 q' hleast.1
  · rw [h]
    constructor
    · intro heq
      cases heq
      exact ⟨hnone, hgreatest⟩
    · rintro ⟨-, hq⟩
      rw [hgreatest.unique hq]
  · rw [h]
    exact iff_of_false (by simp) fun hq => hnone q hq.2.1

theorem exists_ofChars_iff : (∃ p, ofChars text = .ok p) ↔ Brackets.Balanced text := by
  rcases ofChars_cases text with ⟨q, h, hnot, -⟩ | ⟨q, h, hnot, -⟩ | ⟨p, h, hbalanced, -⟩
  · simp [h, hnot]
  · simp [h, hnot]
  · simp [h, hbalanced]

end Program

/-! ## Machines -/

/-- The arguments a machine is to be built from are at fault, and not the memory there is. -/
def SetupFault.blamesArguments : SetupFault → Bool
  | .sizeNotPositive | .unsupportedWidth | .brackets _ => true
  | .tapeTooLong | .tapeUncountable => false

namespace Machine

variable {text : String} {size : Option Int} {bits : Int} {input limit : String} {capacity : Nat}
  {w : Width}

theorem build_of_brackets (hsize : ∀ n ∈ size, 0 < n) (hbits : Width.ofBits? bits = some w)
    {fault : BracketFault} (h : Program.ofText text = .error fault) :
    build text size bits input limit capacity = .error (.brackets fault) := by
  have hpos : size.any (· ≤ 0) = false := by
    cases size with
    | none => rfl
    | some n => simpa using hsize n rfl
  unfold build
  rw [hpos, hbits, h]
  rfl

/-- With valid sizes and a program, only the memory can be at fault. -/
theorem blamesArguments_of_build (hsize : ∀ n ∈ size, 0 < n) (hbits : Width.ofBits? bits = some w)
    {p : Program} (h : Program.ofText text = .ok p) {fault : SetupFault}
    (hbuild : build text size bits input limit capacity = .error fault) : fault.blamesArguments = false := by
  have hpos : size.any (· ≤ 0) = false := by
    cases size with
    | none => rfl
    | some n => simpa using hsize n rfl
  unfold build at hbuild
  simp only [hpos, hbits, h, Bool.false_eq_true, if_false, Except.mapError, bind, Except.bind] at hbuild
  split at hbuild
  · cases hbuild
    rfl
  · split at hbuild
    · cases hbuild
      rfl
    · cases hbuild

theorem build_eq_brackets_iff (hsize : ∀ n ∈ size, 0 < n) (hbits : Width.ofBits? bits = some w)
    {fault : BracketFault} : build text size bits input limit capacity = .error (.brackets fault) ↔
      Program.ofText text = .error fault := by
  cases h : Program.ofText text with
  | error fault' =>
    rw [build_of_brackets hsize hbits h]
    simp
  | ok p =>
    refine iff_of_false (fun hbuild => ?_) (by simp)
    cases blamesArguments_of_build hsize hbits h hbuild

/-- **A machine runs the canonical form of its text.** Let a machine be built from a text, with valid
sizes. The arguments are refused exactly if the brackets of the text are not balanced. The place that is
reported is that of the first closing bracket without a partner; or, if all of these have one, that of
the last opening bracket without a partner. Otherwise, if there is room for the tape, the machine is
built, and its program represents the text. -/
theorem build_reads_run_lengths (text : String) {size : Option Int} {bits : Int}
    (hsize : ∀ n ∈ size, 0 < n) (hbits : bits = 8 ∨ bits = 16 ∨ bits = 32 ∨ bits = 64)
    (input limit : String) (capacity : Nat) :
    ((∃ fault, build text size bits input limit capacity = .error fault ∧ fault.blamesArguments = true) ↔
      ¬ Brackets.Balanced text.toList) ∧
    (∀ q, build text size bits input limit capacity = .error (.brackets (.strayClose q)) ↔
      IsLeast {q | Brackets.Stray text.toList q} q) ∧
    (∀ q, build text size bits input limit capacity = .error (.brackets (.unclosed q)) ↔
      (∀ q, ¬ Brackets.Stray text.toList q) ∧ IsGreatest {q | Brackets.Unclosed text.toList q} q) ∧
    (Brackets.Balanced text.toList → Setup.Provides capacity size →
      ∃ m, build text size bits input limit capacity = .ok m) ∧
    ∀ m, build text size bits input limit capacity = .ok m → m.setup.program.Represents text.toList := by
  obtain ⟨w, hw⟩ : ∃ w, Width.ofBits? bits = some w := by
    rcases hbits with rfl | rfl | rfl | rfl <;> exact ⟨_, rfl⟩
  refine ⟨?_, fun q => ?_, fun q => ?_, fun hbalanced hfits => ?_, fun m hm => ?_⟩
  · rw [← Program.exists_ofChars_iff]
    constructor
    · rintro ⟨fault, hbuild, hblames⟩ ⟨p, hp⟩
      rw [blamesArguments_of_build hsize hw hp hbuild] at hblames
      cases hblames
    · intro hnone
      cases h : Program.ofText text with
      | error fault => exact ⟨_, build_of_brackets hsize hw h, rfl⟩
      | ok p => exact absurd ⟨p, h⟩ hnone
  · exact (build_eq_brackets_iff hsize hw).trans Program.ofChars_eq_strayClose_iff
  · exact (build_eq_brackets_iff hsize hw).trans Program.ofChars_eq_unclosed_iff
  · obtain ⟨p, hp⟩ := Program.exists_ofChars_iff.mpr hbalanced
    exact ⟨_, build_eq_ok_iff.mpr ⟨w, p, hsize, hw, hp, hfits, rfl⟩⟩
  · obtain ⟨w', p, -, -, hp, -, rfl⟩ := build_eq_ok_iff.mp hm
    exact Program.represents_of_ofChars hp

/-- Runs with a comment inside, before a bracket and at the end of the text. -/
theorem build_reads_run_lengths_comments :
    (∀ n ∈ (none : Option Int), 0 < n) ∧
    ∃ m, build "+ +x[>-<]--" none 8 "" "1" = .ok m ∧ m.setup.program.Represents "+ +x[>-<]--".toList ∧
      m.setup.program.map (fun i => (i.cmd, i.arg, i.pos)) = #[(.inc, 2, 0), (.enter, 5, 4),
        (.right, 1, 5), (.dec, 1, 6), (.left, 1, 7), (.leave, 1, 8), (.dec, 2, 9)] := by
  have hsize : ∀ n ∈ (none : Option Int), 0 < n := by simp
  obtain ⟨-, -, -, hbuilt, hform⟩ :=
    build_reads_run_lengths "+ +x[>-<]--" hsize (.inl (rfl : (8 : Int) = 8)) "" "1" Setup.usualCapacity
  have hbalanced : Brackets.Balanced "+ +x[>-<]--".toList := by
    show Code.depth 0 _ = some 0
    cbv
  obtain ⟨m, hm⟩ := hbuilt hbalanced (by decide)
  refine ⟨hsize, m, hm, hform m hm, ?_⟩
  obtain ⟨w, p, -, -, hp, -, rfl⟩ := build_eq_ok_iff.mp hm
  have hread : (Program.ofText "+ +x[>-<]--").toOption.map
      (fun p => p.map fun i => (i.cmd, i.arg, i.pos)) = some #[(.inc, 2, 0), (.enter, 5, 4),
        (.right, 1, 5), (.dec, 1, 6), (.left, 1, 7), (.leave, 1, 8), (.dec, 2, 9)] := by
    cbv
  rw [hp] at hread
  exact Option.some.inj hread

end Machine

end TapeScript
