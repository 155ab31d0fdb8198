import TapeScript.Proofs.MachineRun

set_option autoImplicit false

/-! # The plain interpreter

The usual way to run tape code: one character at a time, straight from the text. Characters that
are no commands are skipped, the head moves one cell at a time and is checked after every move, and
a bracket searches the text for its partner whenever it has to jump (`Plain.seek`).

A plain interpreter is a host of the text's block in single steps (`Plain.runs_of_text`), so it
ends as the block does.
-/

namespace TapeScript

/-- Where a plain interpreter stands in the text, and its tape. -/
structure Cursor where
  place : Nat
  tape : Tape

namespace Plain

/-- How many characters stand before the bracket `down` that ends the current nesting, where
further brackets `up` have to be closed by as many `down`. -/
def seek (up down : Char) : Nat → List Char → Option Nat
  | _, [] => none
  | d, c :: cs =>
    if c = up then (seek up down (d + 1) cs).map (· + 1)
    else if c = down then
      match d with
      | 0 => some 0
      | d + 1 => (seek up down d cs).map (· + 1)
    else (seek up down d cs).map (· + 1)

/-- The place behind the partner of an opening bracket; the end of the text if there is none. -/
def exit (text : List Char) (place : Nat) : Nat :=
  match seek '[' ']' 0 (text.drop (place + 1)) with
  | some n => place + n + 2
  | none => text.length

/-- The place behind the partner of a closing bracket, found by reading backwards. -/
def again (text : List Char) (place : Nat) : Nat :=
  match seek ']' '[' 0 (text.take place).reverse with
  | some n => place - n
  | none => text.length

/-- Executes the character at the cursor, unless that leaves the tape. -/
def step (s : Setting) (text : List Char) (x : Cursor) : Except Surface Cursor :=
  let t := x.tape
  let goTo (i : Int) : Except Surface Cursor :=
    if s.holds i then .ok ⟨x.place + 1, t.goto i⟩ else .error t.toSurface
  let put (v : Nat) : Except Surface Cursor :=
    .ok ⟨x.place + 1, t.write t.head (v % s.width.modulus)⟩
  match text[x.place]? with
  | some '>' => goTo (t.head + 1)
  | some '<' => goTo (t.head - 1)
  | some '+' => put (t.current + 1)
  | some '-' => put (t.current + (s.width.modulus - 1))
  | some '.' =>
    .ok ⟨x.place + 1, { t with output := t.output.push (Char.ofNat (t.current % 256)) }⟩
  | some ',' =>
    let (v, rest) := s.read t.inputPos
    .ok ⟨x.place + 1, { t.write t.head v with inputPos := rest }⟩
  | some '[' => .ok ⟨if t.current = 0 then exit text x.place else x.place + 1, t⟩
  | some ']' => .ok ⟨if t.current = 0 then x.place + 1 else again text x.place, t⟩
  | _ => .ok ⟨x.place + 1, t⟩

/-- Executes at most the given number of characters. -/
def run (s : Setting) (text : List Char) : Nat → Cursor → Ending
  | 0, x => if text.length ≤ x.place then .halted x.tape else .spent
  | n + 1, x =>
    if text.length ≤ x.place then .halted x.tape
    else
      match step s text x with
      | .ok y => run s text n y
      | .error sf => .offTape sf

/-! ## The search for a bracket -/

section Seek

variable {up down : Char}

theorem seek_up (d : Nat) (cs : List Char) :
    seek up down d (up :: cs) = (seek up down (d + 1) cs).map (· + 1) := by
  cases d <;> simp [seek]

theorem seek_down_zero (h : up ≠ down) (cs : List Char) :
    seek up down 0 (down :: cs) = some 0 := by
  simp [seek, h.symm]

theorem seek_down_succ (h : up ≠ down) (d : Nat) (cs : List Char) :
    seek up down (d + 1) (down :: cs) = (seek up down d cs).map (· + 1) := by
  simp [seek, h.symm]

/-- Characters that are no brackets are passed. -/
theorem seek_of_ne {c : Char} (hup : c ≠ up) (hdown : c ≠ down) (d : Nat) (cs : List Char) :
    seek up down d (c :: cs) = (seek up down d cs).map (· + 1) := by
  cases d <;> simp [seek, hup, hdown]

end Seek

/-- A command is written in one way. -/
theorem eq_toChar_of_ofChar? {c : Char} {cmd : Cmd} (h : Cmd.ofChar? c = some cmd) :
    c = cmd.toChar := by
  unfold Cmd.ofChar? at h
  split at h <;> cases h <;> rfl

/-- How the depth changes over one character. -/
theorem depth_filterMap_cons (d : Nat) (c : Char) (cs : List Char) :
    Code.depth d ((c :: cs).filterMap Cmd.ofChar?) =
      if c = '[' then Code.depth (d + 1) (cs.filterMap Cmd.ofChar?)
      else if c = ']' then
        match d with
        | 0 => none
        | d + 1 => Code.depth d (cs.filterMap Cmd.ofChar?)
      else Code.depth d (cs.filterMap Cmd.ofChar?) := by
  by_cases hopen : c = '['
  · subst hopen
    cases d <;> rfl
  · rw [if_neg hopen]
    by_cases hclose : c = ']'
    · subst hclose
      cases d <;> rfl
    · rw [if_neg hclose, List.filterMap_cons]
      cases hc : Cmd.ofChar? c with
      | none => rfl
      | some cmd =>
        refine Code.depth_plain ?_ ?_ d _
        · rintro rfl; exact hopen (eq_toChar_of_ofChar? hc)
        · rintro rfl; exact hclose (eq_toChar_of_ofChar? hc)

/-- Reading forwards over text passes it and counts its nesting. -/
theorem seek_append {text : List Char} {d d' : Nat}
    (h : Code.depth d (text.filterMap Cmd.ofChar?) = some d') (rest : List Char) :
    seek '[' ']' d (text ++ rest) = (seek '[' ']' d' rest).map (· + text.length) := by
  induction text generalizing d with
  | nil => cases h; simp
  | cons c cs ih =>
    have hmap : ∀ o : Option Nat, (o.map (· + cs.length)).map (· + 1) = o.map (· + (c :: cs).length) := by
      intro o
      rw [Option.map_map]
      rfl
    rw [depth_filterMap_cons] at h
    rw [List.cons_append]
    split at h
    · next hc => rw [hc, seek_up, ih h, hmap, hc]
    · next hc =>
        split at h
        · next hc' =>
            cases d with
            | zero => cases h
            | succ d => rw [hc', seek_down_succ (by decide), ih h, hmap, hc']
        · next hc' => rw [seek_of_ne hc hc', ih h, hmap]

/-- Reading backwards over text passes it too, with the two brackets in each other's place. -/
theorem seek_reverse_append {text : List Char} {d d' : Nat}
    (h : Code.depth d (text.filterMap Cmd.ofChar?) = some d') (rest : List Char) :
    seek ']' '[' d' (text.reverse ++ rest) = (seek ']' '[' d rest).map (· + text.length) := by
  induction text generalizing d rest with
  | nil => cases h; simp
  | cons c cs ih =>
    have hmap : ∀ o : Option Nat, (o.map (· + 1)).map (· + cs.length) = o.map (· + (c :: cs).length) := by
      intro o
      rw [Option.map_map]
      congr 1
      funext n
      simp only [Function.comp, List.length_cons]
      omega
    rw [depth_filterMap_cons] at h
    rw [List.reverse_cons, List.append_assoc, List.singleton_append]
    split at h
    · next hc =>
        rw [ih h, hc, seek_down_succ (by decide), hmap, hc]
    · next hc =>
        split at h
        · next hc' =>
            cases d with
            | zero => cases h
            | succ d => rw [ih h, hc', seek_up, hmap, hc']
        · next hc' => rw [ih h, seek_of_ne hc' hc, hmap]

/-! ## Single characters -/

variable {s : Setting} {text : List Char} {k : Nat} {t : Tape}
variable {post part pre : List Char} {b : Block}

theorem step_comment {c : Char} (hget : text[k]? = some c) (hc : Cmd.ofChar? c = none) :
    step s text ⟨k, t⟩ = .ok ⟨k + 1, t⟩ := by
  unfold step
  simp only [hget]
  split <;> simp_all [Cmd.ofChar?]

/-- An operation that is not repeated is executed as one character. -/
theorem step_op {op : Op} (hunit : op.IsUnit) (hget : text[k]? = some op.cmd.toChar) :
    step s text ⟨k, t⟩ =
      match op.act s t with
      | some t' => .ok ⟨k + 1, t'⟩
      | none => .error t.toSurface := by
  unfold step
  simp only [hget]
  have hone : 1 % s.width.modulus = 1 := by cases s.width <;> rfl
  cases op with
  | right n | left n =>
    obtain rfl : n = 1 := hunit
    simp only [Op.cmd, Cmd.toChar, Op.act, Nat.cast_one]
    split <;> rfl
  | inc n => obtain rfl : n = 1 := hunit; rfl
  | dec n =>
    obtain rfl : n = 1 := hunit
    simp only [Op.cmd, Cmd.toChar, Op.act, hone]
  | put => rfl
  | get => rfl

theorem step_enter (hget : text[k]? = some '[') :
    step s text ⟨k, t⟩ = .ok ⟨if t.current = 0 then exit text k else k + 1, t⟩ := by
  unfold step
  simp only [hget]

theorem step_leave (hget : text[k]? = some ']') :
    step s text ⟨k, t⟩ = .ok ⟨if t.current = 0 then k + 1 else again text k, t⟩ := by
  unfold step
  simp only [hget]

/-! ## Running blocks -/

/-- The plain interpreter as a host: places are positions in the text. -/
def host (s : Setting) (text : List Char) : Host Cursor where
  step x y := x.place < text.length ∧ step s text x = .ok y
  off x sf := x.place < text.length ∧ step s text x = .error sf
  stands k t x := x = ⟨k, t⟩
  sameTape := True

/-- Text without commands is skipped. -/
theorem steps_comments (pre : List Char) {comments : List Char}
    (hc : ∀ c ∈ comments, Cmd.ofChar? c = none) (htext : text = pre ++ comments ++ post) (t : Tape) :
    (host s text).Steps comments.length ⟨pre.length, t⟩ ⟨pre.length + comments.length, t⟩ := by
  induction comments generalizing pre with
  | nil => exact .refl _
  | cons c cs ih =>
    have hget : text[pre.length]? = some c := by rw [htext]; simp
    have hlt : pre.length < text.length := by rw [htext]; simp
    have hrest := ih (pre ++ [c]) (fun d hd => hc d (by simp [hd])) (by rw [htext]; simp)
    rw [List.length_append, List.length_singleton] at hrest
    have hend : pre.length + (c :: cs).length = pre.length + 1 + cs.length := by
      rw [List.length_cons]; omega
    rw [hend]
    exact .step ⟨hlt, step_comment hget (hc c (by simp))⟩ hrest

/-- The next command of a text, behind the comments in front of it. -/
theorem exists_split {cmd : Cmd} {code : Code} (h : part.filterMap Cmd.ofChar? = cmd :: code) :
    ∃ comments rest, part = comments ++ cmd.toChar :: rest ∧
      (∀ c ∈ comments, Cmd.ofChar? c = none) ∧ rest.filterMap Cmd.ofChar? = code := by
  obtain ⟨comments, c, rest, rfl, hcomments, hc, hrest⟩ := List.filterMap_eq_cons_iff.mp h
  rw [eq_toChar_of_ofChar? hc]
  exact ⟨comments, rest, rfl, hcomments, hrest⟩

/-- The text of a loop: comments, an opening bracket, the text of the body, a closing bracket, and
what follows. -/
theorem exists_loop_split {body rest : Block}
    (h : part.filterMap Cmd.ofChar? = (Block.loop body rest).code) :
    ∃ comments inner tail, part = comments ++ '[' :: inner ++ ']' :: tail ∧
      (∀ c ∈ comments, Cmd.ofChar? c = none) ∧ inner.filterMap Cmd.ofChar? = body.code ∧
      tail.filterMap Cmd.ofChar? = rest.code := by
  obtain ⟨comments, after, rfl, hcomments, hafter⟩ := exists_split h
  obtain ⟨front, back, rfl, hfront, hback⟩ := List.filterMap_eq_append_iff.mp hafter
  obtain ⟨comments', tail, rfl, hcomments', htail⟩ := exists_split hback
  refine ⟨comments, front ++ comments', tail, by simp [Cmd.toChar], hcomments, ?_, htail⟩
  rw [List.filterMap_append, hfront, List.filterMap_eq_nil_iff.mpr hcomments', List.append_nil]

/-- An opening bracket finds the closing one behind the text of a block. -/
theorem exit_eq (hpart : part.filterMap Cmd.ofChar? = b.code)
    (htext : text = pre ++ '[' :: part ++ ']' :: post) :
    exit text pre.length = pre.length + part.length + 2 := by
  have hdrop : text.drop (pre.length + 1) = part ++ ']' :: post := by
    rw [htext, List.append_assoc, List.drop_append]
    simp
  have hdepth : Code.depth 0 (part.filterMap Cmd.ofChar?) = some 0 := by
    rw [hpart]
    exact b.balanced_code
  unfold exit
  rw [hdrop, seek_append hdepth, seek_down_zero (by decide)]
  simp

/-- A closing bracket finds the opening one before the text of a block. -/
theorem again_eq (hpart : part.filterMap Cmd.ofChar? = b.code)
    (htext : text = pre ++ '[' :: part ++ ']' :: post) :
    again text (pre.length + 1 + part.length) = pre.length + 1 := by
  have htake : (text.take (pre.length + 1 + part.length)).reverse
      = part.reverse ++ '[' :: pre.reverse := by
    have hlen : pre.length + 1 + part.length = (pre ++ '[' :: part).length := by
      simp
      omega
    rw [htext, hlen, List.take_left]
    simp
  have hdepth : Code.depth 0 (part.filterMap Cmd.ofChar?) = some 0 := by
    rw [hpart]
    exact b.balanced_code
  unfold again
  rw [htake, seek_reverse_append hdepth, seek_down_zero (by decide)]
  simp

/-- Both brackets of a loop test the value under the head; the opening one may stand behind
comments. -/
theorem tests_of_split {comments inner : List Char} {body : Block}
    (hcomments : ∀ c ∈ comments, Cmd.ofChar? c = none)
    (hinner : inner.filterMap Cmd.ofChar? = body.code)
    (htext : text = (pre ++ comments) ++ '[' :: inner ++ ']' :: post) :
    (host s text).Tests pre.length ((pre ++ comments).length + 1)
        ((pre ++ comments).length + inner.length + 2) ∧
      (host s text).Tests ((pre ++ comments).length + 1 + inner.length)
        ((pre ++ comments).length + 1) ((pre ++ comments).length + inner.length + 2) := by
  constructor
  · intro x t hx
    obtain rfl : x = ⟨pre.length, t⟩ := hx
    have htext' : text = pre ++ comments ++ ('[' :: inner ++ ']' :: post) := by rw [htext]; simp
    have hskip := steps_comments (s := s) pre hcomments htext' t
    have hget : text[pre.length + comments.length]? = some '[' := by rw [htext]; simp
    have hlt : pre.length + comments.length < text.length := by rw [htext]; simp
    refine ⟨_, _, Nat.succ_pos _, hskip.trans (.one ⟨hlt, step_enter hget⟩), ?_⟩
    have hexit := exit_eq hinner htext
    rw [List.length_append] at hexit ⊢
    show Cursor.mk _ _ = Cursor.mk _ _
    rw [hexit]
  · intro x t hx
    obtain rfl : x = ⟨(pre ++ comments).length + 1 + inner.length, t⟩ := hx
    have hplace : (pre ++ comments).length + 1 + inner.length
        = ((pre ++ comments) ++ '[' :: inner).length := by
      simp only [List.length_append, List.length_cons]
      omega
    have hget : text[(pre ++ comments).length + 1 + inner.length]? = some ']' := by
      rw [hplace, htext]
      simp
    have hlt : (pre ++ comments).length + 1 + inner.length < text.length := by
      rw [hplace, htext]
      simp
    refine ⟨1, _, Nat.one_pos, .one ⟨hlt, step_leave hget⟩, ?_⟩
    show Cursor.mk _ _ = Cursor.mk _ _
    rw [again_eq hinner htext]
    congr 1
    split <;> omega

/-- A plain interpreter runs the block of a text, split into single steps. -/
theorem runs_of_text (hunit : b.IsUnit) (hpart : part.filterMap Cmd.ofChar? = b.code)
    (htext : text = pre ++ part ++ post) :
    (host s text).Runs s pre.length b (pre.length + part.length) := by
  induction b generalizing pre part post with
  | done =>
    have hc : ∀ c ∈ part, Cmd.ofChar? c = none := List.filterMap_eq_nil_iff.mp hpart
    refine .done fun x t hx => ?_
    obtain rfl : x = ⟨pre.length, t⟩ := hx
    exact ⟨_, _, steps_comments pre hc htext t, rfl⟩
  | act op rest ih =>
    rw [Block.code, Op.code_of_isUnit hunit.1] at hpart
    obtain ⟨comments, tail, rfl, hcomments, htail⟩ := exists_split hpart
    have hfront : text = pre ++ comments ++ (op.cmd.toChar :: tail ++ post) := by
      rw [htext]; simp
    have hback : text = (pre ++ comments ++ [op.cmd.toChar]) ++ tail ++ post := by
      rw [htext]; simp
    have hskip := steps_comments (s := s) pre hcomments hfront
    have hget : text[pre.length + comments.length]? = some op.cmd.toChar := by
      rw [htext]; simp
    have hlt : pre.length + comments.length < text.length := by rw [htext]; simp
    have hruns := ih hunit.2 htail hback
    have hmid : (pre ++ comments ++ [op.cmd.toChar]).length
        = pre.length + comments.length + 1 := by
      rw [List.length_append, List.length_append, List.length_singleton]
    have hend : pre.length + comments.length + 1 + tail.length
        = pre.length + (comments ++ op.cmd.toChar :: tail).length := by
      simp only [List.length_append, List.length_cons]
      omega
    rw [hmid, hend] at hruns
    refine .act (fun x t t' hx hact => ?_) (fun x t hx hact _ => ?_) hruns
    · obtain rfl : x = ⟨pre.length, t⟩ := hx
      refine ⟨_, _, (hskip t).trans (.one ⟨hlt, ?_⟩), rfl⟩
      rw [step_op hunit.1 hget, hact]
    · obtain rfl : x = ⟨pre.length, t⟩ := hx
      refine ⟨_, _, hskip t, hlt, ?_⟩
      rw [step_op hunit.1 hget, hact]
  | loop body rest ihb ihr =>
    obtain ⟨comments, inner, tail, rfl, hcomments, hinner, htail⟩ := exists_loop_split hpart
    have hsplit : text = (pre ++ comments) ++ '[' :: inner ++ ']' :: (tail ++ post) := by
      rw [htext]; simp
    have hbody : text = (pre ++ comments ++ ['[']) ++ inner ++ (']' :: (tail ++ post)) := by
      rw [htext]; simp
    have hrest : text = (pre ++ comments ++ '[' :: inner ++ [']']) ++ tail ++ post := by
      rw [htext]; simp
    obtain ⟨hopen, hclose⟩ := tests_of_split (s := s) hcomments hinner hsplit
    have hrunsb := ihb hunit.1 hinner hbody
    have hrunsr := ihr hunit.2 htail hrest
    have hlenb : (pre ++ comments ++ ['[']).length = (pre ++ comments).length + 1 :=
      List.length_append
    have hlenr : (pre ++ comments ++ '[' :: inner ++ [']']).length
        = (pre ++ comments).length + inner.length + 2 := by
      simp only [List.length_append, List.length_cons, List.length_nil]
      omega
    have hend : (pre ++ comments).length + inner.length + 2 + tail.length
        = pre.length + (comments ++ '[' :: inner ++ ']' :: tail).length := by
      simp only [List.length_append, List.length_cons]
      omega
    rw [hlenb] at hrunsb
    rw [hlenr, hend] at hrunsr
    exact .loop hopen hrunsb hclose hrunsr

/-- Running the text evaluates the host. -/
theorem observed_run : (host s text).Observed text.length (run s text) where
  step := by
    rintro n x y ⟨hlt, hstep⟩
    rw [run, if_neg (by omega), hstep]
  off := by
    rintro n x sf ⟨hlt, hstep⟩
    rw [run, if_neg (by omega), hstep]
  halted := by
    rintro n x t rfl
    cases n <;> rw [run, if_pos (Nat.le_refl _)]
  short := by
    rintro x y ⟨hlt, -⟩
    rw [run, if_neg (by omega)]
  stable := by
    intro n
    induction n with
    | zero =>
      intro x hn
      rw [run] at hn ⊢
      split at hn
      · next hend => rw [if_pos hend, run, if_pos hend]
      · exact absurd rfl hn
    | succ n ih =>
      intro x hn
      rw [run] at hn ⊢
      split at hn
      · next hend => rw [if_pos hend, run, if_pos hend]
      · next hend =>
          rw [if_neg hend]
          conv_rhs => rw [run, if_neg hend]
          cases hstep : step s text x with
          | ok y => rw [hstep] at hn; exact ih y hn
          | error sf => rfl

/-- **The plain interpreter ends as the block of the text does.** -/
theorem run_iff (hb : text.filterMap Cmd.ofChar? = b.code) (ht : s.Admits t) {e : Ending}
    (he : e ≠ .spent) : (∃ n, run s text n ⟨0, t⟩ = e) ↔ ∃ fuel, b.exec s fuel t = e := by
  have hcode : text.filterMap Cmd.ofChar? = b.units.code := by rw [hb, b.code_units]
  have hsplit : text = [] ++ text ++ [] := by rw [List.nil_append, List.append_nil]
  have hruns := runs_of_text (s := s) b.isUnit_units hcode hsplit
  rw [List.length_nil, Nat.zero_add] at hruns
  rw [observed_run.eval_iff hruns rfl (fun _ _ _ => trivial) he]
  simp only [Block.exec_units b ht]

end Plain

end TapeScript
