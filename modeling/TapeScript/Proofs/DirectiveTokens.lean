import TapeScript.Proofs.DefineLines
import TapeScript.Proofs.Writing

set_option autoImplicit false

/-! # Directives token by token

The parser finds the directives of a text by their tokens. In a text in which every directive has a
line of its own, the keyword occurs nowhere but in front of a directive: it is not skipped with blanks
and comments, and no other token has it inside (`Token.next_pending`). Behind the keyword the tokens are
the name of the directive and the start of its value (`Token.next_name`, `Token.next_value_number`,
`Token.next_value_character`).
-/

namespace TapeScript

open Directive

/-! ## What is skipped -/

namespace Token

/-- What is skipped at once. -/
inductive Skippable : List Char → Prop where
  | blank {c : Char} (hc : c = ' ' ∨ c = '\t' ∨ c = '\n') : Skippable [c]
  | lineEnd : Skippable ['\r', '\n']
  | lineComment {body : List Char} (hbody : '\n' ∉ body) : Skippable ('/' :: '/' :: body)
  | blockComment {body : List Char} (hbody : ¬ ['*', '/'] <:+: body) :
      Skippable ('/' :: '*' :: (body ++ ['*', '/']))

/-- A block comment goes up to its first end. -/
theorem exists_of_afterBlock? {gs after : List Glyph} (h : afterBlock? gs = some after) :
    ∃ body, chars gs = body ++ '*' :: '/' :: chars after ∧ ¬ ['*', '/'] <:+: body := by
  induction gs with
  | nil => cases h
  | cons g gs ih =>
    cases gs with
    | nil => cases h
    | cons g' gs =>
      rw [afterBlock?] at h
      by_cases hend : g.char = '*' ∧ g'.char = '/'
      · rw [if_pos hend] at h
        cases h
        refine ⟨[], ?_, by decide⟩
        simp [hend]
      · rw [if_neg hend] at h
        obtain ⟨body, hbody, hopen⟩ := ih h
        refine ⟨g.char :: body, congrArg (g.char :: ·) hbody, ?_⟩
        intro hinfix
        rcases List.infix_cons_iff.mp hinfix with hprefix | hinfix
        · obtain ⟨hstar, more, rfl⟩ := List.cons_prefix_cons.mp hprefix
          exact hend ⟨hstar.symm, (List.cons.inj hbody).1⟩
        · exact hopen hinfix

/-- One step of skipping. -/
theorem skipIgnored_step (fuel : Nat) (gs : List Glyph) : skipIgnored (fuel + 1) gs = gs ∨
    ∃ a gs', Skippable a ∧ chars gs = a ++ chars gs' ∧
      skipIgnored (fuel + 1) gs = skipIgnored fuel gs' := by
  rcases gs with _ | ⟨g, gs⟩
  · exact .inl rfl
  by_cases hblank : g.char = ' ' ∨ g.char = '\t' ∨ g.char = '\n'
  · exact .inr ⟨[g.char], gs, .blank hblank, rfl, skipIgnored_blank fuel hblank⟩
  rcases gs with _ | ⟨g', gs⟩
  · exact .inl (by simp only [skipIgnored, if_neg hblank])
  by_cases hend : g.char = '\r' ∧ g'.char = '\n'
  · refine .inr ⟨['\r', '\n'], gs, .lineEnd, ?_, skipIgnored_lineEnd fuel hend.1 hend.2⟩
    simp [hend]
  by_cases hline : g.char = '/' ∧ g'.char = '/'
  · refine .inr ⟨'/' :: '/' :: (chars gs).takeWhile (· ≠ '\n'), gs.dropWhile (·.char ≠ '\n'),
      .lineComment ?_, ?_, skipIgnored_lineComment fuel hline.1 hline.2⟩
    · intro hmem
      exact absurd (List.mem_takeWhile_imp hmem) (by decide)
    · have hdrop : chars (gs.dropWhile (·.char ≠ '\n')) = (chars gs).dropWhile (· ≠ '\n') := by
        rw [List.dropWhile_map]
        rfl
      rw [hdrop, List.cons_append, List.cons_append, List.takeWhile_append_dropWhile]
      simp [hline]
  by_cases hblock : g.char = '/' ∧ g'.char = '*'
  · cases hafter : afterBlock? gs with
    | none => exact .inl (by simp only [skipIgnored, if_neg hblank, if_neg hend, if_neg hline,
        if_pos hblock, hafter])
    | some after =>
      obtain ⟨body, hbody, hopen⟩ := exists_of_afterBlock? hafter
      refine .inr ⟨_, after, .blockComment hopen, ?_,
        skipIgnored_blockComment fuel hblock.1 hblock.2 hafter⟩
      rw [chars, List.map_cons, List.map_cons, hblock.1, hblock.2, ← chars, hbody]
      simp
  · exact .inl (by simp only [skipIgnored, if_neg hblank, if_neg hend, if_neg hline,
      if_neg hblock])

end Token

/-- The keyword does not start in what is skipped. -/
theorem Directive.Orderly.tails_skippable {text a b done : List Char} (h : Orderly text)
    (ha : Token.Skippable a) (htext : text = done ++ (a ++ b)) : tails (a ++ b) = tails b := by
  cases ha with
  | blank hc =>
    apply tails_append_of_not_mem
    rcases hc with rfl | rfl | rfl <;> decide
  | lineEnd => exact tails_append_of_not_mem (by decide) b
  | @lineComment body hbody =>
    apply tails_append
    rintro x y hxy hy ⟨tail, htail⟩
    -- the slashes stand in front of the keyword in its line
    cases x with
    | nil =>
      rw [List.nil_append] at hxy
      subst hxy
      cases htail
    | cons c x =>
      have htext' : text = done ++ (c :: x ++ (keyword ++ tail)) := by
        rw [htext, hxy, List.append_assoc, htail]
      obtain ⟨rfl, hx⟩ := List.cons.inj hxy
      have hline : '\n' ∉ '/' :: x := by
        intro hmem
        have hall : '\n' ∉ '/' :: '/' :: body := by simp [hbody]
        exact hall (hxy ▸ List.mem_append_left y hmem)
      have hslash := h.spaces_before hline htext' '/' (by simp)
      exact absurd hslash (by decide)
  | @blockComment body hbody =>
    apply tails_append
    rintro x y hxy hy ⟨tail, htail⟩
    have hhash : y.head? = some '#' := by
      obtain ⟨c, y, rfl⟩ := List.exists_cons_of_ne_nil hy
      exact congrArg some (List.cons.inj htail).1.symm
    rcases x with _ | ⟨c, _ | ⟨c', x⟩⟩
    · subst hxy
      cases hhash
    · obtain ⟨-, rfl⟩ := List.cons.inj hxy
      cases hhash
    · have htext' : text = done ++ (c :: c' :: (x ++ (keyword ++ tail))) := by
        rw [htext, hxy, List.append_assoc, ← htail]
        rfl
      simp only [List.cons_append, List.cons.injEq] at hxy
      obtain ⟨rfl, rfl, hxy⟩ := hxy
      have hclosed := h.closed_before htext'
      -- the keyword stands inside the comment, which would be closed in front of it
      rcases List.append_eq_append_iff.mp hxy with ⟨z, rfl, hz⟩ | ⟨z, rfl, -⟩
      · have hmem : '#' ∈ ['*', '/'] := by
          rw [hz]
          exact List.mem_append_right z (List.mem_of_mem_head? hhash)
        exact absurd hmem (by decide)
      · exact hbody (hclosed.trans (List.prefix_append x z).isInfix)

namespace Token

variable {text : List Char} {gs : List Glyph}
variable {n : Nat}

theorem tails_skipIgnored (h : Orderly text) (fuel : Nat) (hgs : chars gs <:+ text) :
    chars (skipIgnored fuel gs) <:+ text ∧ tails (chars gs) = tails (chars (skipIgnored fuel gs)) := by
  induction fuel generalizing gs with
  | zero => exact ⟨hgs, rfl⟩
  | succ fuel ih =>
    rcases skipIgnored_step fuel gs with hstays | ⟨a, gs', ha, hsplit, hskip⟩
    · rw [hstays]
      exact ⟨hgs, rfl⟩
    · obtain ⟨done, htext⟩ := hgs
      rw [hsplit] at htext
      have hgs' : chars gs' <:+ text := ⟨done ++ a, by rw [← htext, List.append_assoc]⟩
      obtain ⟨hsuffix, htails⟩ := ih hgs'
      rw [hskip, hsplit, h.tails_skippable ha htext.symm]
      exact ⟨hsuffix, htails⟩

/-! ## What a token has inside -/

/-- The text starts with a terminal of fixed text, which has the given length. -/
def StartsAs (gs : List Glyph) (t : Terminal) (n : Nat) : Prop :=
  ∃ s, t.literal? = some s ∧ s.toList <+: chars gs ∧ n = s.toList.length

theorem literalMatch_eq_some {expected : List Terminal} {t : Terminal}
    (h : literalMatch expected gs = some (t, n)) : t ∈ expected ∧ StartsAs gs t n := by
  -- the best of the terminals that have been tried is one of them
  refine List.foldlRecOn (motive := fun best => ∀ t n, best = some (t, n) →
    t ∈ expected ∧ StartsAs gs t n) expected _ (by rintro _ _ ⟨⟩) ?_ t n h
  intro best hbest t' ht' t n hnew
  cases hs : t'.literal? with
  | none =>
    rw [hs] at hnew
    exact hbest t n hnew
  | some s =>
    simp only [hs, literalLength?_eq] at hnew
    by_cases hprefix : s.toList <+: chars gs
    · have hnext : some (t', s.toList.length) = some (t, n) → t ∈ expected ∧ StartsAs gs t n := by
        rintro ⟨⟩
        exact ⟨ht', s, hs, hprefix, rfl⟩
      rw [if_pos hprefix] at hnew
      cases hbest' : best with
      | none =>
        rw [hbest'] at hnew
        exact hnext hnew
      | some b =>
        simp only [hbest'] at hnew
        split at hnew
        · exact hnext hnew
        · exact hbest t n (hbest'.trans hnew)
    · rw [if_neg hprefix] at hnew
      exact hbest t n hnew

theorem charLiteralLength?_eq_some (h : charLiteralLength? gs = some n) :
    (∃ q c rest, chars gs = q :: c :: '\'' :: rest ∧ c ≠ '\'' ∧ c ≠ '\\' ∧ n = 3) ∨
      ∃ q, ∃ c ∈ ['n', 't', '\\', '\''], ∃ rest, chars gs = q :: '\\' :: c :: '\'' :: rest ∧ n = 4 := by
  unfold charLiteralLength? at h
  split at h
  · next q a b more =>
    split_ifs at h with hslash hquote
    · cases more with
      | nil => cases h
      | cons c more =>
        simp only [Option.ite_none_right_eq_some, Option.some.injEq] at h
        obtain ⟨⟨hb, hc⟩, rfl⟩ := h
        exact .inr ⟨q.char, b.char, by simpa using hb, chars more, by simp [hslash, hc], rfl⟩
    · cases h
      exact .inl ⟨q.char, a.char, chars more, by simp [hquote.2], hquote.1, hslash, rfl⟩
  · cases h

/-- Of the terminals of fixed text only the keyword itself has the keyword inside. -/
theorem tails_literal {t : Terminal} {s : String} (hs : t.literal? = some s) (ht : t ≠ .defineWord)
    (b : List Char) : tails (s.toList ++ b) = tails b := by
  by_cases hinclude : t = .includeWord
  · subst hinclude
    cases hs
    have hfirst : ¬ keyword <+: "#include".toList ++ b := by
      rintro ⟨tail, htail⟩
      cases htail
    show (if keyword <+: "#include".toList ++ b then _ else tails ("include".toList ++ b)) = _
    rw [if_neg hfirst]
    exact tails_append_of_not_mem (by decide) b
  · apply tails_append_of_not_mem
    have hall : (t.literal?.all fun s => decide ('#' ∉ s.toList)) = true := by
      cases t with
      | includeWord => exact absurd rfl hinclude
      | defineWord => exact absurd rfl ht
      | _ => decide
    rw [hs] at hall
    simpa using hall

theorem tails_drop {s : List Char} (h : '#' ∉ s.take n) : tails s = tails (s.drop n) := by
  conv_lhs => rw [← List.take_append_drop n s]
  exact tails_append_of_not_mem h _

theorem tails_drop_takeWhile {p : Char → Bool} (hp : p '#' = false) (s : List Char) :
    tails s = tails (s.drop (s.takeWhile p).length) := by
  apply tails_drop
  rw [← List.prefix_iff_eq_take.mp (List.takeWhile_prefix p)]
  intro hmem
  have hhash := List.mem_takeWhile_imp hmem
  rw [hp] at hhash
  cases hhash

variable {expected : List Terminal} {t : Terminal} {n : Nat}

theorem wordTerminal_mem {name : Terminal} {word : String} (hname : name ∈ expected) :
    wordTerminal expected name word ∈ expected := by
  unfold wordTerminal
  cases hfind : expected.find? fun t => t.literal? = some word with
  | none => exact hname
  | some t => exact List.mem_of_find?_eq_some hfind

theorem wordTerminal_ne_defineWord {name : Terminal} {word : String} (hname : name ≠ .defineWord)
    (hword : '#' ∉ word.toList) : wordTerminal expected name word ≠ .defineWord := by
  unfold wordTerminal
  cases hfind : expected.find? fun t => t.literal? = some word with
  | none => exact hname
  | some t =>
    rintro rfl
    have hliteral : Terminal.defineWord.literal? = some word := by
      simpa using List.find?_some hfind
    cases hliteral
    exact hword (by decide)

theorem matchExpected_mem (h : matchExpected expected gs = some (t, n)) : t ∈ expected := by
  unfold matchExpected at h
  split at h
  · cases h
  · split_ifs at h with hstart hdecimal hnumber hquote hchar hdouble hstring
    · split at h
      · next name hname =>
        cases h
        exact wordTerminal_mem (List.mem_of_find?_eq_some hname)
      · exact (literalMatch_eq_some h).1
    · cases h
      exact hnumber
    · obtain ⟨_, -, heq⟩ := Option.map_eq_some_iff.mp h
      cases heq
      exact hchar
    · obtain ⟨_, -, heq⟩ := Option.map_eq_some_iff.mp h
      cases heq
      exact hstring
    · exact (literalMatch_eq_some h).1

theorem StartsAs.tails_eq (h : StartsAs gs t n) :
    (t = .defineWord ∧ n = keyword.length ∧ keyword <+: chars gs) ∨
      (t ≠ .defineWord ∧ tails (chars gs) = tails ((chars gs).drop n)) := by
  obtain ⟨s, hs, ⟨rest, hrest⟩, rfl⟩ := h
  by_cases ht : t = .defineWord
  · subst ht
    cases hs
    rw [keyword_eq] at hrest ⊢
    exact .inl ⟨rfl, rfl, rest, hrest⟩
  · refine .inr ⟨ht, ?_⟩
    rw [← hrest, List.drop_left]
    exact tails_literal hs ht rest

/-- A token is the keyword, or it has none inside. -/
theorem matchExpected_tails (h : matchExpected expected gs = some (t, n)) (ht : t ≠ .string) :
    (t = .defineWord ∧ n = keyword.length ∧ keyword <+: chars gs) ∨
      (t ≠ .defineWord ∧ tails (chars gs) = tails ((chars gs).drop n)) := by
  unfold matchExpected at h
  split at h
  · cases h
  · next g gs =>
    split_ifs at h with hstart hdecimal hnumber hquote hchar hdouble hstring
    · split at h
      · next name hname =>
        cases h
        have hword := chars_takeWhile isNameChar (g :: gs)
        simp only [chars] at hword
        refine .inr ⟨wordTerminal_ne_defineWord ?_ ?_, ?_⟩
        · rintro rfl
          exact absurd (List.find?_some hname) (by decide)
        · rw [hword, String.toList_ofList]
          intro hmem
          exact absurd (List.mem_takeWhile_imp hmem) (by decide)
        · rw [hword]
          exact tails_drop_takeWhile (by decide) _
      · exact (literalMatch_eq_some h).2.tails_eq
    · cases h
      refine .inr ⟨by decide, ?_⟩
      have hdigits := congrArg List.length (chars_takeWhile Text.isDecimal (g :: gs))
      rw [chars, List.length_map] at hdigits
      rw [hdigits]
      exact tails_drop_takeWhile (by decide) _
    · obtain ⟨_, hlength, heq⟩ := Option.map_eq_some_iff.mp h
      cases heq
      refine .inr ⟨by decide, ?_⟩
      have hq : chars (g :: gs) = '\'' :: chars gs := by rw [← hquote]; rfl
      rcases charLiteralLength?_eq_some hlength with ⟨q, c, rest, hgs, -, -, rfl⟩ |
        ⟨q, c, hc, rest, hgs, rfl⟩
      · obtain ⟨rfl, -⟩ := List.cons.inj (hq.symm.trans hgs)
        rw [hgs]
        simp [tails, keyword, List.cons_prefix_cons]
      · obtain ⟨rfl, -⟩ := List.cons.inj (hq.symm.trans hgs)
        rw [hgs]
        apply tails_drop
        have hhash : '#' ≠ c := by
          rintro rfl
          exact absurd hc (by decide)
        simp [hhash]
    · obtain ⟨_, -, heq⟩ := Option.map_eq_some_iff.mp h
      cases heq
      exact absurd rfl ht
    · exact (literalMatch_eq_some h).2.tails_eq

/-! ## The next token -/

theorem next_cases {fuel : Nat} {mode : Mode} {o : Option Token} {rest : List Glyph}
    (h : next fuel mode gs = .ok (o, rest)) :
    (skipIgnored fuel gs = [] ∧ o = none ∧ rest = []) ∨
      ∃ t n, matchExpected mode.terminals (skipIgnored fuel gs) = some (t, n) ∧
        o = some (cut t n (skipIgnored fuel gs)).1 ∧ rest = (skipIgnored fuel gs).drop n := by
  unfold next at h
  split at h
  · next hskip =>
    cases h
    exact .inl ⟨hskip, rfl, rfl⟩
  · next g gs' hskip =>
    rw [hskip]
    split at h
    · next t n hmatch =>
      cases h
      exact .inr ⟨t, n, hmatch, rfl, rfl⟩
    · split at h <;> cases h

end Token

/-- The directives from a place on, told by what stands behind their keywords; `ahead` is the token
that has been found there, and `rest` the text behind it. -/
def Directive.pending (ahead : Option Token) (rest : List Glyph) : List (List Char) :=
  match ahead with
  | none => []
  | some t =>
    if t.terminal = .defineWord then Token.chars rest :: tails (Token.chars rest)
    else tails (Token.chars rest)

/-- The place lies in the text. -/
structure Directive.Standing (text : List Char) (ahead : Option Token) (rest : List Glyph) : Prop where
  suffix : Token.chars rest <:+ text
  behind_keyword : ∀ t ∈ ahead, t.terminal = .defineWord → keyword ++ Token.chars rest <:+ text

namespace Token

/-- **No directive is lost** between two tokens, or in one that is no text in double quotes. -/
theorem next_pending {text : List Char} (h : Orderly text) {fuel : Nat} {mode : Mode}
    {gs rest : List Glyph} {o : Option Token} (hmode : .string ∉ mode.terminals) (hgs : chars gs <:+ text)
    (hnext : next fuel mode gs = .ok (o, rest)) :
    Standing text o rest ∧ tails (chars gs) = pending o rest := by
  obtain ⟨hsuffix, htails⟩ := tails_skipIgnored h fuel hgs
  rcases next_cases hnext with ⟨hskip, rfl, rfl⟩ | ⟨t, n, hmatch, rfl, rfl⟩
  · rw [htails, hskip]
    exact ⟨⟨List.nil_suffix, by rintro _ ⟨⟩⟩, rfl⟩
  · have hstring : t ≠ .string := by
      rintro rfl
      exact hmode (matchExpected_mem hmatch)
    have hdrop : chars ((skipIgnored fuel gs).drop n) = (chars (skipIgnored fuel gs)).drop n :=
      List.map_drop
    have hrest := (List.drop_suffix n _).trans hsuffix
    rw [htails]
    rcases matchExpected_tails hmatch hstring with ⟨rfl, rfl, hkeyword⟩ | ⟨hother, htails⟩
    · obtain ⟨tail, htail⟩ := hkeyword
      have hbehind : chars ((skipIgnored fuel gs).drop keyword.length) = tail := by
        rw [hdrop, ← htail, List.drop_left]
      rw [← hdrop] at hrest
      refine ⟨⟨hrest, ?_⟩, ?_⟩
      · rintro _ ⟨⟩ -
        rw [hbehind, htail]
        exact hsuffix
      · rw [← htail, tails_keyword, ← hbehind]
        rfl
    · rw [← hdrop] at hrest htails
      refine ⟨⟨hrest, ?_⟩, ?_⟩
      · rintro _ ⟨⟩ heq
        exact absurd heq hother
      · rw [htails]
        exact (if_neg hother).symm

/-! ## The tokens of a directive -/

theorem filler_of_isSpace {b : List Char} (hb : ∀ c ∈ b, isSpace c = true) : Filler b := by
  induction b with
  | nil => exact .nil
  | cons c b ih =>
    obtain ⟨hc, hrest⟩ := List.forall_mem_cons.mp hb
    simp only [isSpace, Bool.or_eq_true, decide_eq_true_eq] at hc
    rcases hc with hc | hc
    · exact .blank (.inl hc) (ih hrest)
    · exact .blank (.inr (.inl hc)) (ih hrest)

variable {fuel : Nat} {mode : Mode} {gs rest : List Glyph} {o : Option Token}

/-- The next token behind some blanks. -/
theorem next_dropWhile {c : Char} {cs : List Char} (hgs : (chars gs).dropWhile isSpace = c :: cs)
    (hstays : Stays (c :: cs)) (hfuel : gs.length ≤ fuel) (hnext : next fuel mode gs = .ok (o, rest)) :
    ∃ t n g gs', chars (g :: gs') = c :: cs ∧
      matchExpected mode.terminals (g :: gs') = some (t.terminal, n) ∧ o = some t ∧
      t.text = String.ofList ((c :: cs).take n) ∧ chars rest = (c :: cs).drop n := by
  have hskip : chars (skipIgnored fuel gs) = c :: cs := by
    refine skipIgnored_filler (filler_of_isSpace fun _ => List.mem_takeWhile_imp) hstays
      ((List.takeWhile_append_dropWhile (p := isSpace)).symm.trans (by rw [hgs])) ?_
    have hlength := (List.takeWhile_prefix isSpace (l := chars gs)).length_le
    rw [chars, List.length_map] at hlength
    exact hlength.trans hfuel
  rcases next_cases hnext with ⟨hnil, -⟩ | ⟨t, n, hmatch, rfl, rfl⟩
  · rw [hnil] at hskip
    cases hskip
  · obtain ⟨g, gs', hgs', -⟩ := List.map_eq_cons_iff.mp hskip
    rw [hgs'] at hskip hmatch ⊢
    refine ⟨_, n, g, gs', hskip, hmatch, rfl, ?_, ?_⟩
    · rw [← hskip, chars, ← List.map_take]
      rfl
    · rw [← hskip, chars, ← List.map_drop]

/-- Behind the keyword the token is the name. -/
theorem next_name (hshaped : Shaped (chars gs)) (hfuel : gs.length ≤ fuel)
    (hnext : next fuel .declaredName gs = .ok (o, rest)) :
    ∃ t, o = some t ∧ t.text = String.ofList (nameIn (chars gs)) ∧ chars rest = behindName (chars gs) := by
  obtain ⟨c, hc, hstart⟩ := (Option.any_eq_true _ _).mp hshaped.named
  obtain ⟨name, hname⟩ := List.head?_eq_some_iff.mp hc
  have hgs : (chars gs).dropWhile isSpace = c :: (name ++ behindName (chars gs)) := by
    rw [← List.cons_append, ← hname, nameIn, behindName, List.takeWhile_append_dropWhile]
  have hstays : Stays (c :: (name ++ behindName (chars gs))) := by
    constructor
    · by_contra hbreak
      have hnot := isNameChar_of_break c (by simpa using hbreak)
      rw [isNameChar_of_start hstart] at hnot
      cases hnot
    · rintro rfl
      exact absurd hstart (by decide)
  obtain ⟨t, n, g, gs', hchars, hmatch, rfl, htext, hrest⟩ := next_dropWhile hgs hstays hfuel hnext
  have hn : n = (nameIn (chars gs)).length := by
    have hword := chars_takeWhile isNameChar (g :: gs')
    rw [hchars, ← hgs] at hword
    have hg : isNameStart g.char = true := by
      rw [(List.cons.inj hchars).1]
      exact hstart
    rw [matchExpected, if_pos hg] at hmatch
    have hlength := (Prod.mk.inj (Option.some.inj hmatch)).2
    exact hlength.symm.trans (congrArg List.length hword)
  rw [hn, ← List.cons_append, ← hname] at htext hrest
  rw [List.take_left] at htext
  rw [List.drop_left] at hrest
  exact ⟨t, rfl, htext, hrest⟩

/-- A value that starts with a digit starts with a number. -/
theorem next_value_number {tail cs : List Char} {c : Char} (hvalue : valueIn tail = c :: cs)
    (hc : Text.isDecimal c = true) (hgs : chars gs = behindName tail) (hfuel : gs.length ≤ fuel)
    (hnext : next fuel .operand gs = .ok (o, rest)) :
    ∃ t, o = some t ∧ t.terminal = .number ∧
      t.text = String.ofList ((valueIn tail).takeWhile Text.isDecimal) := by
  have hstays : Stays (c :: cs) := by
    constructor
    · by_contra hbreak
      have hnot := isDecimal_of_break c (by simpa using hbreak)
      rw [hc] at hnot
      cases hnot
    · rintro rfl
      exact absurd hc (by decide)
  obtain ⟨t, n, g, gs', hchars, hmatch, rfl, htext, -⟩ :=
    next_dropWhile (by rw [hgs]; exact hvalue) hstays hfuel hnext
  have hg : g.char = c := (List.cons.inj hchars).1
  have hdigits := congrArg List.length (chars_takeWhile Text.isDecimal (g :: gs'))
  rw [chars, List.length_map, hchars, ← hvalue] at hdigits
  have hstart : ¬ isNameStart g.char = true := by
    rw [hg, not_isNameStart_of_isDecimal hc]
    decide
  rw [matchExpected, if_neg hstart, if_pos (by rw [hg]; exact hc), if_pos (by decide), hdigits] at hmatch
  obtain ⟨hterminal, rfl⟩ := Prod.mk.inj (Option.some.inj hmatch)
  rw [← hvalue, ← List.prefix_iff_eq_take.mp (List.takeWhile_prefix Text.isDecimal)] at htext
  exact ⟨t, rfl, hterminal.symm, htext⟩

/-- A value that starts with a quote starts with a character. -/
theorem next_value_character {tail cs : List Char} (hvalue : valueIn tail = '\'' :: cs)
    (hgs : chars gs = behindName tail) (hfuel : gs.length ≤ fuel)
    (hnext : next fuel .operand gs = .ok (o, rest)) :
    ∃ t, o = some t ∧ t.IsCharacter ∧ t.text.toList <+: valueIn tail := by
  have hstays : Stays ('\'' :: cs) := ⟨by decide, fun heq => absurd heq (by decide)⟩
  obtain ⟨t, n, g, gs', hchars, hmatch, rfl, htext, -⟩ :=
    next_dropWhile (by rw [hgs]; exact hvalue) hstays hfuel hnext
  have hg : g.char = '\'' := (List.cons.inj hchars).1
  rw [matchExpected, hg, if_neg (by decide), if_neg (by decide), if_pos rfl, if_pos (by decide)] at hmatch
  obtain ⟨m, hlength, heq⟩ := Option.map_eq_some_iff.mp hmatch
  obtain ⟨hterminal, rfl⟩ := Prod.mk.inj heq
  rw [← String.toList_inj, String.toList_ofList] at htext
  refine ⟨t, rfl, ⟨hterminal.symm, ?_⟩, ?_⟩
  · rcases charLiteralLength?_eq_some hlength with ⟨q, c, rest, hcs, hquote, hslash, rfl⟩ |
      ⟨q, c, hc, rest, hcs, rfl⟩
    · obtain ⟨rfl, rfl⟩ := List.cons.inj (hchars.symm.trans hcs)
      exact .inl ⟨c, hquote, hslash, htext⟩
    · obtain ⟨rfl, rfl⟩ := List.cons.inj (hchars.symm.trans hcs)
      exact .inr ⟨c, hc, htext⟩
  · rw [htext, hvalue]
    exact List.take_prefix m _

end Token

end TapeScript
