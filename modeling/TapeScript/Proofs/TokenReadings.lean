import TapeScript.Proofs.DirectiveTokens
import TapeScript.Proofs.ExprParsing

set_option autoImplicit false

/-! # How tokens are read

The terminals that a token is read as depend on what the parser has taken before. Where only a name can
come, a keyword is read as a name; and where a type must come but no name can, a name that starts like a
type is read as the type and the rest as the name (`Recut`). All else is read as it is written. So if the
names that have been read are those that were written, every token was read as it is
(`Recut.readAs_of_names`).
-/

namespace TapeScript

/-! ## Tokens as they are written -/

/-- The text is a spelling of the terminal; a name is not spelled like a keyword. -/
inductive Lexeme.Formed : Lexeme → Prop where
  | name {x : Lexeme} (hx : x.terminal = .declaredName ∨ x.terminal = .newName)
      (hword : IsIdentifier x.text) (hkeyword : ∀ k : Terminal, k.literal? ≠ some x.text) : Formed x
  | number {t : Token} (ht : t.IsNumber) : Formed t.lexeme
  | character {t : Token} (ht : t.IsCharacter) : Formed t.lexeme
  | string {x : Lexeme} (hx : x.terminal = .string) {body : List Char} (hbody : '"' ∉ body)
      (htext : x.text.toList = '"' :: (body ++ ['"'])) : Formed x
  | fixed {t : Terminal} (ht : t.literal?.isSome = true) : Formed t.lexeme

def Terminal.isName (t : Terminal) : Bool := t = .declaredName ∨ t = .newName

/-- The terminals with the same spellings: those of names, and the two for each sign. -/
def Terminal.readings : Terminal → List Terminal
  | .declaredName | .newName => [.declaredName, .newName]
  | .plus | .positive => [.plus, .positive]
  | .minus | .negative => [.minus, .negative]
  | t => [t]

/-- The first token, read as the second. -/
structure Lexeme.ReadAs (x y : Lexeme) : Prop where
  text_eq : y.text = x.text
  terminal_mem : y.terminal ∈ x.terminal.readings

theorem Terminal.mem_readings (t : Terminal) : t ∈ t.readings := by
  cases t <;> decide

theorem Terminal.isName_of_mem_readings {t u : Terminal} (h : u ∈ t.readings) :
    u.isName = t.isName := by
  have hall : ∀ t : Terminal, ∀ u ∈ t.readings, u.isName = t.isName := by
    intro t
    cases t <;> decide
  exact hall t u h

/-- The names among the tokens. -/
def Lexeme.names (xs : List Lexeme) : List String :=
  (xs.filter fun x => x.terminal.isName).map Lexeme.text

/-- The second sequence is what the first one can be read as. -/
inductive Recut : List Lexeme → List Lexeme → Prop where
  | nil : Recut [] []
  | same {x y : Lexeme} {xs ys : List Lexeme} (h : x.ReadAs y) (hrest : Recut xs ys) :
      Recut (x :: xs) (y :: ys)
  /-- A keyword where only a name can come. -/
  | keyword {x y : Lexeme} {xs ys : List Lexeme} (hx : x.terminal.isName = false)
      (hy : y.terminal.isName = true) (htext : y.text = x.text) (hrest : Recut xs ys) :
      Recut (x :: xs) (y :: ys)
  /-- A name that starts like a type. -/
  | split {x y z : Lexeme} {xs ys : List Lexeme} (hx : x.terminal.isName = true)
      (hy : y = Terminal.sizeT.lexeme ∨ y = Terminal.stack.lexeme) (hz : z.terminal.isName = true)
      (htext : x.text.toList = y.text.toList ++ z.text.toList) (hrest : Recut xs ys) :
      Recut (x :: xs) (y :: z :: ys)

namespace Lexeme

theorem names_cons_of_isName {x : Lexeme} (hx : x.terminal.isName = true) (xs : List Lexeme) :
    names (x :: xs) = x.text :: names xs := by
  simp [names, hx]

theorem names_cons_of_not {x : Lexeme} (hx : x.terminal.isName = false) (xs : List Lexeme) :
    names (x :: xs) = names xs := by
  simp [names, hx]

@[simp] theorem names_append (xs ys : List Lexeme) : names (xs ++ ys) = names xs ++ names ys := by
  simp [names]

end Lexeme

/-- A text is never read as fewer names than are written. -/
theorem Recut.names_length_le {xs ys : List Lexeme} (h : Recut xs ys) :
    (Lexeme.names xs).length ≤ (Lexeme.names ys).length := by
  induction h with
  | nil => exact Nat.le_refl _
  | @same x y xs ys h _ ih =>
    have hname := Terminal.isName_of_mem_readings h.terminal_mem
    cases hx : x.terminal.isName with
    | true =>
      rw [Lexeme.names_cons_of_isName hx, Lexeme.names_cons_of_isName (hname.trans hx)]
      simpa using ih
    | false =>
      rw [Lexeme.names_cons_of_not hx, Lexeme.names_cons_of_not (hname.trans hx)]
      exact ih
  | keyword hx hy _ _ ih =>
    rw [Lexeme.names_cons_of_not hx, Lexeme.names_cons_of_isName hy, List.length_cons]
    omega
  | @split x y z xs ys hx hy hz _ _ ih =>
    have hy' : y.terminal.isName = false := by rcases hy with rfl | rfl <;> rfl
    rw [Lexeme.names_cons_of_isName hx, Lexeme.names_cons_of_not hy', Lexeme.names_cons_of_isName hz]
    simpa using ih

/-- **If the names that are read are those that were written, every token is read as it is.** -/
theorem Recut.readAs_of_names {xs ys : List Lexeme} (h : Recut xs ys)
    (hnames : Lexeme.names ys = Lexeme.names xs) : List.Forall₂ Lexeme.ReadAs xs ys := by
  induction h with
  | nil => exact .nil
  | @same x y xs ys h _ ih =>
    have hname := Terminal.isName_of_mem_readings h.terminal_mem
    refine .cons h (ih ?_)
    cases hx : x.terminal.isName with
    | true =>
      rw [Lexeme.names_cons_of_isName hx, Lexeme.names_cons_of_isName (hname.trans hx)] at hnames
      exact (List.cons.inj hnames).2
    | false =>
      rw [Lexeme.names_cons_of_not hx, Lexeme.names_cons_of_not (hname.trans hx)] at hnames
      exact hnames
  | @keyword x y xs ys hx hy _ hrest _ =>
    -- one name too many
    rw [Lexeme.names_cons_of_not hx, Lexeme.names_cons_of_isName hy] at hnames
    have hlength := hrest.names_length_le
    rw [← hnames, List.length_cons] at hlength
    omega
  | @split x y z xs ys hx hy hz htext _ _ =>
    -- the name that is read is shorter than the one that is written
    have hy' : y.terminal.isName = false := by rcases hy with rfl | rfl <;> rfl
    rw [Lexeme.names_cons_of_isName hx, Lexeme.names_cons_of_not hy',
      Lexeme.names_cons_of_isName hz] at hnames
    have hshort := congrArg List.length htext
    rw [(List.cons.inj hnames).1, List.length_append] at hshort
    have hpos : 0 < y.text.toList.length := by rcases hy with rfl | rfl <;> decide
    omega

/-! ## Finding a token -/

namespace Token

variable {gs : List Glyph}

theorem startsAs_iff {t : Terminal} {word : String} (hword : t.literal? = some word) {n : Nat} :
    StartsAs gs t n ↔ literalLength? word.toList gs = some n := by
  rw [literalLength?_eq]
  constructor
  · rintro ⟨s, hs, hbegins, rfl⟩
    cases hword.symm.trans hs
    rw [if_pos hbegins]
  · intro h
    split at h
    · next hbegins => exact ⟨word, hword, hbegins, (Option.some.inj h).symm⟩
    · cases h

/-- One more terminal is tried. -/
theorem literalMatch_concat (gs : List Glyph) (expected : List Terminal) (k : Terminal) :
    (∀ m, ¬ StartsAs gs k m) ∧ literalMatch (expected ++ [k]) gs = literalMatch expected gs ∨
    ∃ m, StartsAs gs k m ∧ literalMatch (expected ++ [k]) gs =
      match literalMatch expected gs with
      | none => some (k, m)
      | some (t, n) => if n < m then some (k, m) else some (t, n) := by
  rw [literalMatch, List.foldl_append, List.foldl_cons, List.foldl_nil]
  cases hword : k.literal? with
  | none =>
    refine .inl ⟨?_, rfl⟩
    rintro m ⟨word, hword', -⟩
    rw [hword] at hword'
    cases hword'
  | some word =>
    cases hlength : literalLength? word.toList gs with
    | none =>
      refine .inl ⟨fun m hm => ?_, ?_⟩
      · rw [(startsAs_iff hword).mp hm] at hlength
        cases hlength
      · simp only [hlength]
        rfl
    | some m =>
      refine .inr ⟨m, (startsAs_iff hword).mpr hlength, ?_⟩
      simp only [hlength]
      rw [← literalMatch]
      rcases literalMatch expected gs with _ | ⟨t, n⟩ <;> rfl

/-- **The longest terminal is found, and of those the one that is listed first.** -/
theorem literalMatch_first {expected : List Terminal} {k : Terminal} {m : Nat} (hk : k ∈ expected)
    (hm : StartsAs gs k m) : ∃ t n, literalMatch expected gs = some (t, n) ∧
      (m < n ∨ m = n ∧ expected.idxOf t ≤ expected.idxOf k) := by
  induction expected using List.reverseRecOn with
  | nil => cases hk
  | append_singleton expected k' ih =>
    by_cases hmem : k ∈ expected
    · -- what was found before is kept unless the new terminal is longer
      obtain ⟨t, n, hbest, hlonger⟩ := ih hmem
      have hold : m < n ∨ m = n ∧ (expected ++ [k']).idxOf t ≤ (expected ++ [k']).idxOf k := by
        rwa [List.idxOf_append_of_mem hmem, List.idxOf_append_of_mem (literalMatch_eq_some hbest).1]
      rcases literalMatch_concat gs expected k' with ⟨-, hsame⟩ | ⟨m', -, hnew⟩
      · exact ⟨t, n, hsame.trans hbest, hold⟩
      · simp only [hbest] at hnew
        split at hnew
        · exact ⟨k', m', hnew, .inl (by omega)⟩
        · exact ⟨t, n, hnew, hold⟩
    · -- `k` itself is the new terminal, listed behind all others
      obtain rfl : k = k' := by simpa [hmem] using hk
      rcases literalMatch_concat gs expected k with ⟨hnot, -⟩ | ⟨m', hm', hnew⟩
      · exact absurd hm (hnot m)
      · obtain rfl : m = m' := by
          obtain ⟨word, hword, -, rfl⟩ := hm
          obtain ⟨word', hword', -, rfl⟩ := hm'
          cases hword.symm.trans hword'
          rfl
        cases hbest : literalMatch expected gs with
        | none =>
          rw [hbest] at hnew
          exact ⟨k, m, hnew, .inr ⟨rfl, Nat.le_refl _⟩⟩
        | some r =>
          obtain ⟨t, n⟩ := r
          simp only [hbest] at hnew
          split at hnew
          · exact ⟨k, m, hnew, .inr ⟨rfl, Nat.le_refl _⟩⟩
          · next hshort =>
            refine ⟨t, n, hnew, ?_⟩
            have hfirst : (expected ++ [k]).idxOf t ≤ (expected ++ [k]).idxOf k := by
              rw [List.idxOf_append_of_mem (literalMatch_eq_some hbest).1,
                List.idxOf_append_of_notMem hmem]
              exact Nat.le_trans List.idxOf_le_length (Nat.le_add_right _ _)
            omega

/-- Whatever is expected, a token that is complete is not read over the blank behind it. -/
theorem matchExpected_append_eq {expected : List Terminal} {g : Glyph} {rest : List Glyph}
    (hchar : g.char = '\'' → (charLiteralLength? (g :: gs)).isSome = true)
    (hstring : g.char = '"' → (stringLength? (g :: gs)).isSome = true) (hrest : Breaks (chars rest)) :
    matchExpected expected (g :: gs ++ rest) = matchExpected expected (g :: gs) := by
  have hliteral := literalMatch_append expected (g :: gs) hrest
  have hword := takeWhile_append_of_breaks isNameChar_of_break (g :: gs) hrest
  have hdigits := takeWhile_append_of_breaks isDecimal_of_break (g :: gs) hrest
  rw [List.cons_append] at hword hdigits hliteral ⊢
  unfold matchExpected
  simp only [hword, hdigits, hliteral]
  split_ifs with hstart hdecimal hnumber hquote hliteral' hdouble hstring'
  · rfl
  · rfl
  · rfl
  · obtain ⟨n, hn⟩ := Option.isSome_iff_exists.mp (hchar hquote)
    rw [← List.cons_append, charLiteralLength?_append hn, hn]
  · rfl
  · obtain ⟨n, hn⟩ := Option.isSome_iff_exists.mp (hstring hdouble)
    rw [← List.cons_append, stringLength?_append hn, hn]
  · rfl
  · rfl

theorem stringLength?_of_text {g : Glyph} {body : List Char} (hbody : '"' ∉ body)
    (hgs : chars gs = body ++ ['"']) : stringLength? (g :: gs) = some (body.length + 2) := by
  have hall : ∀ c ∈ body, decide (c ≠ '"') = true := fun c hc =>
    decide_eq_true fun heq => hbody (heq ▸ hc)
  have hinside : (gs.takeWhile fun g => decide (g.char ≠ '"')).length = body.length := by
    have htake := congrArg List.length (chars_takeWhile (fun c => decide (c ≠ '"')) gs)
    rw [hgs, List.takeWhile_append_of_pos hall, chars, List.length_map] at htake
    rw [htake]
    simp
  have hlength := congrArg List.length hgs
  rw [chars, List.length_map, List.length_append, List.length_singleton] at hlength
  rw [stringLength?, hinside, if_pos (by omega)]

end Token

theorem Token.IsCharacter.head?_text {t : Token} (ht : t.IsCharacter) :
    t.lexeme.text.toList.head? = some '\'' := by
  rcases ht.text_eq with ⟨c, -, -, htext⟩ | ⟨c, -, htext⟩
  · rw [Token.lexeme, htext]
    rfl
  · rw [Token.lexeme, htext]
    rfl

theorem Terminal.mem_all (t : Terminal) : t ∈ Terminal.all := by
  cases t <;> decide

namespace Lexeme.Formed

variable {x : Lexeme}

theorem solid (hx : x.Formed) : x.Solid := by
  cases hx with
  | name _ hword _ =>
    have htoken : (⟨x.terminal, x.text, 0, 0⟩ : Token).lexeme.Solid := Token.solid_of_identifier hword
    exact htoken
  | number ht =>
    have hmode : Terminal.number ∈ Mode.operand.terminals := by decide
    exact (ht.reads hmode).solid
  | character ht =>
    have hmode : Terminal.charLiteral ∈ Mode.operand.terminals := by decide
    exact (ht.reads hmode).solid
  | string _ _ htext =>
    have htoken : (⟨x.terminal, x.text, 0, 0⟩ : Token).lexeme.Solid :=
      Token.solid_of_cons htext (by decide) (by decide)
    exact htoken
  | @fixed t ht =>
    have hall : ∀ t ∈ Terminal.all, t.literal?.isSome = true → t.lexeme.Solid := by decide
    exact hall t t.mem_all ht

/-- A quote at the start is closed at the end. -/
theorem closed (hx : x.Formed) {g : Glyph} {gs : List Glyph}
    (hown : Token.chars (g :: gs) = x.text.toList) :
    (g.char = '\'' → (Token.charLiteralLength? (g :: gs)).isSome = true) ∧
      (g.char = '"' → (Token.stringLength? (g :: gs)).isSome = true) := by
  have hhead : x.text.toList.head? = some g.char := by rw [← hown]; rfl
  have hother : g.char ≠ '\'' → g.char ≠ '"' → (g.char = '\'' →
      (Token.charLiteralLength? (g :: gs)).isSome = true) ∧
        (g.char = '"' → (Token.stringLength? (g :: gs)).isSome = true) := fun hquote hdouble =>
    ⟨fun h => absurd h hquote, fun h => absurd h hdouble⟩
  cases hx with
  | name _ hword _ =>
    obtain ⟨c, cs, htext, hstart, -⟩ := hword
    rw [htext] at hhead
    cases hhead
    refine hother ?_ ?_ <;> (intro h; rw [h] at hstart; revert hstart; decide)
  | number ht =>
    have hdigit := ht.digits g.char (List.mem_of_mem_head? hhead)
    refine hother ?_ ?_ <;> (intro h; rw [h] at hdigit; revert hdigit; decide)
  | @character t ht =>
    have hopen : g.char = '\'' := Option.some.inj (hhead.symm.trans ht.head?_text)
    refine ⟨fun _ => ?_, fun h => absurd (hopen.symm.trans h) (by decide)⟩
    have hmap : Token.charLiteralLength? (g :: gs) =
        Token.charLiteralLength? (t.text.toList.map fun c => ⟨c, 1, 1⟩) := by
      refine Token.charLiteralLength?_congr (hown.trans ?_)
      rw [Token.chars, List.map_map]
      exact (List.map_id _).symm
    rw [hmap]
    rcases ht.text_eq with ⟨c, hc, hc', htext⟩ | ⟨c, hc, htext⟩
    · simp [htext, Token.charLiteralLength?, hc, hc']
    · have hescape : c = 'n' ∨ c = 't' ∨ c = '\\' ∨ c = '\'' := by simpa using hc
      simp [htext, Token.charLiteralLength?, hescape]
  | @string _ _ body hbody htext =>
    rw [htext] at hown
    obtain ⟨hopen, hrest⟩ := List.cons.inj hown
    refine ⟨fun h => absurd (hopen.symm.trans h) (by decide), fun _ => ?_⟩
    rw [Token.stringLength?_of_text hbody hrest]
    rfl
  | @fixed t ht =>
    have hall : ∀ t ∈ Terminal.all, t.literal?.isSome = true →
        (t.lexeme.text.toList.head?.all fun c => c ≠ '\'' ∧ c ≠ '"') = true := by decide
    have hquotes := hall t t.mem_all ht
    rw [hhead, Option.all_some, decide_eq_true_eq] at hquotes
    exact hother hquotes.1 hquotes.2

end Lexeme.Formed

namespace Token

/-- What a token may be taken for where it starts: itself, a name if it is a keyword, or a keyword that
it starts with. -/
inductive FoundFor (x : Lexeme) : Terminal → Nat → Prop where
  | whole {t : Terminal} (ht : t ∈ x.terminal.readings) : FoundFor x t x.text.toList.length
  | keyword {t : Terminal} (hx : x.terminal.isName = false) (ht : t.isName = true) :
      FoundFor x t x.text.toList.length
  | front {t : Terminal} {n : Nat} (hx : x.terminal.isName = true) (hword : IsIdentifier x.text)
      (ht : t ∈ [.sizeT, .stack, .push, .pop, .peek]) (hn : n < x.text.toList.length)
      (htext : t.literal? = some (String.ofList (x.text.toList.take n))) : FoundFor x t n
  | equals (hx : x = Terminal.eq.lexeme) : FoundFor x .assign 1

section Found

variable {x : Lexeme} {mode : Mode} {t : Terminal} {n : Nat}
variable {u : Terminal}

/-- A keyword or a mark is found as a name or as one that it starts with. -/
theorem match_fixed (hu : u.literal?.isSome = true)
    (h : matchExpected mode.terminals (Glyph.ofChars u.lexeme.text.toList) = some (t, n)) :
    (t.isName = true ∧ n = u.lexeme.text.toList.length) ∨
      (literalMatch mode.terminals (Glyph.ofChars u.lexeme.text.toList) = some (t, n)) ∨
        t.literal? = some u.lexeme.text ∧ n = u.lexeme.text.toList.length := by
  have hall : ((Terminal.all.filter fun u => u.literal?.isSome).all fun u =>
      u.lexeme.text.toList.head?.any fun c =>
        (isNameStart c = true → u.lexeme.text.toList.all isNameChar = true) ∧
          Text.isDecimal c = false ∧ c ≠ '\'' ∧ c ≠ '"') = true := by decide +kernel
  obtain ⟨c, hc, hfacts⟩ := (Option.any_eq_true _ _).mp
    (List.all_eq_true.mp hall u (List.mem_filter.mpr ⟨u.mem_all, hu⟩))
  obtain ⟨hword, hdecimal, hquote, hdouble⟩ := of_decide_eq_true hfacts
  obtain ⟨cs, htext⟩ := List.head?_eq_some_iff.mp hc
  obtain ⟨g, gs, hgs, hg⟩ := ofChars_cons c cs
  rw [← htext] at hgs
  cases hname : isNameStart c with
  | true =>
    have hident : IsIdentifier u.lexeme.text :=
      ⟨c, cs, htext, hname, fun d hd =>
        List.all_eq_true.mp (hword hname) d (by rw [htext]; exact List.mem_cons_of_mem c hd)⟩
    cases hfind : mode.terminals.find? fun t => t = .declaredName ∨ t = .newName with
    | some name =>
      rw [matchExpected_identifier hfind hident] at h
      cases h
      cases hfound : mode.terminals.find? fun t => t.literal? = some u.lexeme.text with
      | none =>
        rw [wordTerminal, hfound]
        exact .inl ⟨List.find?_some hfind, rfl⟩
      | some k =>
        rw [wordTerminal, hfound]
        exact .inr (.inr ⟨by simpa using List.find?_some hfound, rfl⟩)
    | none =>
      rw [hgs] at h ⊢
      simp only [matchExpected, hg, hname, if_true, hfind] at h
      exact .inr (.inl h)
  | false =>
    rw [hgs] at h ⊢
    simp only [matchExpected, hg, hname, hdecimal, hquote, hdouble, if_false, Bool.false_eq_true] at h
    exact .inr (.inl h)

/-- The fixed texts that others start with. -/
theorem prefix_fixed (hu : u.literal?.isSome = true) {word : String}
    (hword : t.literal? = some word) (hbegins : word.toList <+: u.lexeme.text.toList) :
    (t ∈ u.readings ∧ word.toList.length = u.lexeme.text.toList.length) ∨
      (u = .eq ∧ t = .assign) ∨ (u, t) ∈ [(Terminal.ge, Terminal.gt), (.le, .lt)] := by
  have hall : ∀ u ∈ Terminal.all, u.literal?.isSome = true → ∀ t ∈ Terminal.all, ∀ word ∈ t.literal?,
      word.toList <+: u.lexeme.text.toList →
        (t ∈ u.readings ∧ word.toList.length = u.lexeme.text.toList.length) ∨
          (u = .eq ∧ t = .assign) ∨ (u, t) ∈ [(Terminal.ge, Terminal.gt), (.le, .lt)] := by
    decide
  exact hall u u.mem_all hu t t.mem_all word hword hbegins

example : matchExpected Mode.afterOperand.terminals (Glyph.ofChars ">=".toList) = some (.ge, 2) := by
  decide +kernel

/-- Where the shorter comparison can come, the longer one can, and is found. -/
theorem literalMatch_ne_shorter (hpair : (u, t) ∈ [(Terminal.ge, Terminal.gt), (.le, .lt)]) :
    literalMatch mode.terminals (Glyph.ofChars u.lexeme.text.toList) ≠ some (t, n) := by
  have hpairs : ∀ pair ∈ [(Terminal.ge, Terminal.gt), (.le, .lt)],
      pair.1.literal? = some pair.1.lexeme.text ∧ (pair.2 ∈ mode.terminals → pair.1 ∈ mode.terminals) ∧
        ∀ word ∈ pair.2.literal?, word.toList.length < pair.1.lexeme.text.toList.length := by
    cases mode <;> decide
  obtain ⟨hliteral, hexpected, hshort⟩ := hpairs _ hpair
  intro hmatch
  obtain ⟨hmem, word, hword, -, rfl⟩ := literalMatch_eq_some hmatch
  have hlong : StartsAs (Glyph.ofChars u.lexeme.text.toList) u u.lexeme.text.toList.length :=
    ⟨_, hliteral, by rw [Glyph.chars_ofChars], rfl⟩
  obtain ⟨t', n', hbest, hlength⟩ := literalMatch_first (hexpected hmem) hlong
  cases hmatch.symm.trans hbest
  have hlt : word.toList.length < u.lexeme.text.toList.length := hshort word hword
  omega

theorem foundFor_fixed (hu : u.literal?.isSome = true)
    (h : matchExpected mode.terminals (Glyph.ofChars u.lexeme.text.toList) = some (t, n)) :
    FoundFor u.lexeme t n := by
  have hplain : u.isName = false := by
    cases u <;> first | rfl | cases hu
  rcases match_fixed hu h with ⟨hname, rfl⟩ | hmatch | ⟨hword, rfl⟩
  · exact .keyword hplain hname
  · obtain ⟨-, word, hword, hbegins, rfl⟩ := literalMatch_eq_some hmatch
    rw [Glyph.chars_ofChars] at hbegins
    rcases prefix_fixed hu hword hbegins with ⟨hread, hlength⟩ | ⟨rfl, rfl⟩ | hpair
    · rw [hlength]
      exact .whole hread
    · cases hword
      exact .equals rfl
    · exact absurd hmatch (literalMatch_ne_shorter hpair)
  · rcases prefix_fixed hu hword List.prefix_rfl with ⟨hread, -⟩ | ⟨rfl, rfl⟩ | hpair
    · exact .whole hread
    · exact absurd hword (by decide)
    · have hother : ∀ pair ∈ [(Terminal.ge, Terminal.gt), (.le, .lt)],
          pair.2.literal? ≠ some pair.1.lexeme.text := by decide
      exact absurd hword (hother _ hpair)

/-- Where no name can come, these are the words that can. -/
theorem mem_of_starts_word
    (hfind : (mode.terminals.find? fun t => t = .declaredName ∨ t = .newName) = none)
    (hmem : t ∈ mode.terminals) {word : String} (hliteral : t.literal? = some word) {c : Char}
    {cs : List Char} (hbegins : word.toList <+: c :: cs) (hstart : isNameStart c = true) :
    t ∈ [Terminal.sizeT, .stack, .push, .pop, .peek] := by
  have hall : (mode.terminals.find? fun t => t = .declaredName ∨ t = .newName) = none →
      ∀ t ∈ mode.terminals, (t.literal?.any fun word => word.toList.head?.any isNameStart) = true →
        t ∈ [Terminal.sizeT, .stack, .push, .pop, .peek] := by
    cases mode <;> decide
  have hnonempty : ∀ t ∈ Terminal.all, t.literal? ≠ some "" := by decide
  refine hall hfind t hmem ?_
  rw [hliteral]
  cases hword : word.toList with
  | nil =>
    have hempty : word = "" := String.toList_inj.mp (hword.trans rfl)
    exact absurd (hliteral.trans (congrArg some hempty)) (hnonempty t t.mem_all)
  | cons d ds =>
    rw [hword] at hbegins
    have hd : d = c := (List.cons_prefix_cons.mp hbegins).1
    simp [hword, hd, hstart]

theorem foundFor_name (hx : x.terminal = .declaredName ∨ x.terminal = .newName)
    (hword : IsIdentifier x.text) (hkeyword : ∀ k : Terminal, k.literal? ≠ some x.text)
    (h : matchExpected mode.terminals (Glyph.ofChars x.text.toList) = some (t, n)) :
    FoundFor x t n := by
  have hname : x.terminal.isName = true := by rcases hx with hx | hx <;> rw [hx] <;> rfl
  cases hfind : mode.terminals.find? fun t => t = .declaredName ∨ t = .newName with
  | some name =>
    -- where a name can come, it is the whole word
    rw [matchExpected_identifier hfind hword] at h
    cases h
    have hnone : (mode.terminals.find? fun k => k.literal? = some x.text) = none :=
      List.find?_eq_none.mpr fun k _ => by simpa using hkeyword k
    rw [wordTerminal, hnone, Option.getD_none]
    refine .whole ?_
    have hfound := List.find?_some hfind
    simp only [decide_eq_true_eq] at hfound
    rcases hx with hx | hx <;> rcases hfound with rfl | rfl <;> rw [hx] <;> decide
  | none =>
    -- elsewhere it can only start with one of the keywords that stand where no name can
    obtain ⟨c, cs, htext, hstart, hrest⟩ := hword
    obtain ⟨g, gs, hgs, hg⟩ := ofChars_cons c cs
    rw [← htext] at hgs
    rw [hgs] at h
    simp only [matchExpected, hg, hstart, if_true, hfind] at h
    obtain ⟨hmem, word, hliteral, hbegins, rfl⟩ := literalMatch_eq_some h
    rw [← hgs, Glyph.chars_ofChars] at hbegins
    have htake := List.prefix_iff_eq_take.mp hbegins
    have hspelled : t.literal? =
        some (String.ofList (x.text.toList.take word.toList.length)) := by
      rw [← htake, String.ofList_toList, hliteral]
    refine .front hname ⟨c, cs, htext, hstart, hrest⟩ ?_ ?_ hspelled
    · rw [htext] at hbegins
      exact mem_of_starts_word hfind hmem hliteral hbegins hstart
    · refine Nat.lt_of_le_of_ne hbegins.length_le fun hlength => ?_
      have hsame : word = x.text := String.toList_inj.mp (hbegins.eq_of_length hlength)
      exact hkeyword t (hsame ▸ hliteral)

/-- **A token is found as it is**, or else it is one of the few that are taken for something else. -/
theorem foundFor_of_match (hx : x.Formed)
    (h : matchExpected mode.terminals (Glyph.ofChars x.text.toList) = some (t, n)) :
    FoundFor x t n := by
  obtain ⟨g, gs, hgs⟩ : ∃ g gs, Glyph.ofChars x.text.toList = g :: gs := by
    obtain ⟨c, cs, htext⟩ := List.exists_cons_of_length_pos hx.solid.length_pos
    obtain ⟨g, gs, hgs, -⟩ := ofChars_cons c cs
    exact ⟨g, gs, htext ▸ hgs⟩
  have hown : chars (g :: gs) = x.text.toList := by rw [← hgs, Glyph.chars_ofChars]
  have hhead : x.text.toList.head? = some g.char := by rw [← hown]; rfl
  have hmem := matchExpected_mem h
  cases hx with
  | name hx hword hkeyword => exact foundFor_name hx hword hkeyword h
  | fixed hu => exact foundFor_fixed hu h
  | @number u hu =>
    have hdigit : Text.isDecimal g.char = true := hu.digits g.char (List.mem_of_mem_head? hhead)
    have hnumber : Terminal.number ∈ mode.terminals := by
      by_contra hnot
      rw [hgs] at h
      simp [matchExpected, not_isNameStart_of_isDecimal hdigit, hdigit, hnot] at h
    have hreads := (hu.reads hnumber).matches_text
    rw [h] at hreads
    cases hreads
    exact .whole (Terminal.mem_readings _)
  | @character u hu =>
    have hquote : g.char = '\'' := Option.some.inj (hhead.symm.trans hu.head?_text)
    have hplain : isNameStart '\'' = false ∧ Text.isDecimal '\'' = false := by decide
    have hliteral : Terminal.charLiteral ∈ mode.terminals := by
      by_contra hnot
      rw [hgs] at h
      simp [matchExpected, hquote, hplain, hnot] at h
    have hreads := (hu.reads hliteral).matches_text
    rw [h] at hreads
    cases hreads
    exact .whole (Terminal.mem_readings _)
  | @string _ hx body hbody htext =>
    rw [htext] at hown
    obtain ⟨hdouble, hrest⟩ := List.cons.inj hown
    have hplain : isNameStart '"' = false ∧ Text.isDecimal '"' = false ∧ '"' ≠ '\'' := by decide
    rw [hgs] at h
    simp only [matchExpected, hdouble, hplain, stringLength?_of_text hbody hrest, Option.map_some,
      if_false, if_true, Bool.false_eq_true] at h
    split at h
    · cases h
      have hlength : body.length + 2 = x.text.toList.length := by simp [htext]
      rw [hlength]
      exact .whole (by rw [hx]; decide)
    · cases h

theorem FoundFor.length_le (h : FoundFor x t n) : n ≤ x.text.toList.length := by
  cases h with
  | whole _ => exact Nat.le_refl _
  | keyword _ _ => exact Nat.le_refl _
  | front _ _ _ hn _ => exact Nat.le_of_lt hn
  | equals hx =>
    rw [hx]
    decide

/-- The next token, in whatever mode it is found. -/
theorem next_of_formed (hx : x.Formed) {gs gs' : List Glyph} {lead rest : List Char}
    (hlead : Filler lead) (hrest : Breaks rest) (hgs : chars gs = lead ++ (x.text.toList ++ rest))
    {fuel : Nat} (hfuel : gs.length ≤ fuel) {o : Option Token} (h : next fuel mode gs = .ok (o, gs')) :
    ∃ token n, o = some token ∧ FoundFor x token.terminal n ∧
      token.text = String.ofList (x.text.toList.take n) ∧ chars gs' = x.text.toList.drop n ++ rest ∧
      gs'.length ≤ fuel := by
  have hcount := congrArg List.length hgs
  simp only [chars, List.length_map, List.length_append] at hcount
  have hfuel' : lead.length ≤ fuel := by omega
  have hskip := skipIgnored_filler hlead (hx.solid.stays hrest) hgs hfuel'
  have hpos := hx.solid.length_pos
  rcases next_cases h with ⟨hnil, -, -⟩ | ⟨t, n, hmatch, rfl, rfl⟩
  · rw [hnil] at hskip
    have hlength := congrArg List.length hskip
    simp only [chars, List.map_nil, List.length_nil, List.length_append] at hlength
    omega
  · generalize skipIgnored fuel gs = skipped at hskip hmatch ⊢
    obtain ⟨own, behind, rfl, hown, hbehind⟩ := List.map_eq_append_iff.mp hskip
    have halone : matchExpected mode.terminals own =
        matchExpected mode.terminals (Glyph.ofChars x.text.toList) :=
      matchExpected_congr _ (by rw [Glyph.chars_ofChars]; exact hown)
    have hfound : FoundFor x t n := by
      cases own with
      | nil =>
        rw [← hown] at hpos
        exact absurd hpos (Nat.lt_irrefl 0)
      | cons g own =>
        obtain ⟨hchar, hstring⟩ := hx.closed hown
        rw [matchExpected_append_eq hchar hstring (by rw [chars, hbehind]; exact hrest), halone]
          at hmatch
        exact foundFor_of_match hx hmatch
    have hle := hfound.length_le
    have hskip' : (own ++ behind).map Glyph.char = x.text.toList ++ rest := hskip
    refine ⟨_, n, rfl, hfound, ?_, ?_, ?_⟩
    · show String.ofList (((own ++ behind).take n).map Glyph.char) = _
      rw [List.map_take, hskip', List.take_append_of_le_length hle]
    · rw [chars, List.map_drop, hskip', List.drop_append_of_le_length hle]
    · have hlength := congrArg List.length hskip
      simp only [chars, List.length_map, List.length_append] at hlength
      simp only [List.length_drop, List.length_append]
      omega

end Found

/-! ## Inside a word -/

section Inside

variable {mode : Mode} {g : Glyph} {gs rest : List Glyph} {fuel : Nat} {o : Option Token}

/-- A token that starts right here. -/
theorem exists_match_of_next (hstays : Stays (chars (g :: gs)))
    (h : next fuel mode (g :: gs) = .ok (o, rest)) :
    ∃ t n, matchExpected mode.terminals (g :: gs) = some (t, n) ∧
      o = some (cut t n (g :: gs)).1 ∧ rest = (g :: gs).drop n := by
  have hcases := next_cases h
  rw [skipIgnored_of_stays fuel hstays] at hcases
  rcases hcases with ⟨hnil, -⟩ | hfound
  · cases hnil
  · exact hfound

/-- Where only punctuation can come, that is what the text starts with. -/
theorem literal_head_of_match {expected : List Terminal} {t : Terminal} {n : Nat}
    (hexpected : ∀ t ∈ expected, t.literal?.isSome = true)
    (h : matchExpected expected (g :: gs) = some (t, n)) :
    ∃ word, t ∈ expected ∧ t.literal? = some word ∧ ∀ c ∈ word.toList.head?, c = g.char := by
  have hliteral : ∀ {t n}, literalMatch expected (g :: gs) = some (t, n) →
      ∃ word, t ∈ expected ∧ t.literal? = some word ∧ ∀ c ∈ word.toList.head?, c = g.char := by
    intro t n h
    obtain ⟨hmem, word, hword, ⟨more, hmore⟩, -⟩ := literalMatch_eq_some h
    refine ⟨word, hmem, hword, fun c hc => ?_⟩
    have hhead := congrArg List.head? hmore
    rw [List.head?_append, hc] at hhead
    exact Option.some.inj hhead
  have hno : ∀ t : Terminal, t.literal? = none → t ∉ expected := by
    intro t ht hmem
    have hsome := hexpected t hmem
    rw [ht] at hsome
    cases hsome
  unfold matchExpected at h
  have hfind : (expected.find? fun t => t = .declaredName ∨ t = .newName) = none := by
    refine List.find?_eq_none.mpr fun t hmem => ?_
    simp only [decide_eq_true_eq]
    rintro (rfl | rfl)
    · exact hno _ rfl hmem
    · exact hno _ rfl hmem
  simp only [hfind, hno .number rfl, hno .charLiteral rfl, hno .string rfl, if_false] at h
  split_ifs at h
  · exact hliteral h
  · exact hliteral h

theorem stays_of_nameChar {c : Char} (cs : List Char) (hc : isNameChar c = true) : Stays (c :: cs) := by
  constructor
  · by_contra hbreak
    rw [isNameChar_of_break c (Bool.not_eq_false _ ▸ hbreak)] at hc
    cases hc
  · rintro rfl
    exact absurd hc (by decide)

theorem head_mem_tail {tail behind : List Char} (hgs : chars (g :: gs) = tail ++ behind)
    (hne : tail ≠ []) : g.char ∈ tail := by
  obtain ⟨c, cs, rfl⟩ := List.exists_cons_of_ne_nil hne
  obtain ⟨rfl, -⟩ := List.cons.inj hgs
  exact List.mem_cons_self

/-- No operand starts with an equals sign. -/
theorem match_equals (hg : g.char = '=') : matchExpected Mode.operand.terminals (g :: gs) = none := by
  have hplain : isNameStart '=' = false ∧ Text.isDecimal '=' = false ∧ '=' ≠ '\'' ∧ '=' ≠ '"' := by
    decide
  have hliteral : literalMatch Mode.operand.terminals (g :: gs) = none := by
    cases h : literalMatch Mode.operand.terminals (g :: gs) with
    | none => rfl
    | some r =>
      obtain ⟨hmem, word, hword, ⟨more, hmore⟩, -⟩ := literalMatch_eq_some h
      have hall : ∀ t ∈ Mode.operand.terminals, ∀ word ∈ t.literal?,
          word.toList.head?.any (· != '=') = true := by decide
      obtain ⟨c, hc, hne⟩ := (Option.any_eq_true _ _).mp (hall r.1 hmem word hword)
      have hhead := congrArg List.head? hmore
      rw [List.head?_append, hc] at hhead
      exact absurd ((Option.some.inj hhead).trans hg) (bne_iff_ne.mp hne)
  simp [matchExpected, hg, hplain, hliteral]

/-- Where only a name can come, the word is the name. -/
theorem match_word {name t : Terminal} {n : Nat} (hname : name.isName = true)
    (h : matchExpected [name] (g :: gs) = some (t, n)) :
    t = name ∧ n = ((g :: gs).takeWhile (isNameChar ·.char)).length := by
  simp only [Terminal.isName, decide_eq_true_eq] at hname
  have hliteral : name.literal? = none := by rcases hname with rfl | rfl <;> rfl
  have hmatch : literalMatch [name] (g :: gs) = none := by simp [literalMatch, hliteral]
  have hno : Terminal.number ∉ [name] ∧ Terminal.charLiteral ∉ [name] ∧ Terminal.string ∉ [name] := by
    rcases hname with rfl | rfl <;> decide
  have hfind : ([name].find? fun t => t = .declaredName ∨ t = .newName) = some name := by
    simp [hname]
  unfold matchExpected at h
  simp only [hfind, hmatch, hno, if_false] at h
  split_ifs at h
  cases h
  refine ⟨?_, by simp⟩
  simp [wordTerminal, hliteral]

/-- The rest of a word is found as a name where only a name can come. -/
theorem next_word (hmode : mode = .newName ∨ mode = .declaredName) {tail behind : List Char}
    (htail : ∀ c ∈ tail, isNameChar c = true) (hbehind : Breaks behind)
    (hgs : chars (g :: gs) = tail ++ behind) (hne : tail ≠ [])
    (h : next fuel mode (g :: gs) = .ok (o, rest)) :
    ∃ token, o = some token ∧ token.terminal.isName = true ∧ token.text = String.ofList tail ∧
      chars rest = behind := by
  have hstays := stays_of_nameChar (c := g.char) (chars gs)
    (htail g.char (head_mem_tail hgs hne))
  obtain ⟨t, n, hmatch, rfl, rfl⟩ := exists_match_of_next hstays h
  obtain ⟨name, hname, hterminals⟩ : ∃ name : Terminal, name.isName = true ∧ mode.terminals = [name] := by
    rcases hmode with rfl | rfl
    · exact ⟨_, rfl, rfl⟩
    · exact ⟨_, rfl, rfl⟩
  rw [hterminals] at hmatch
  obtain ⟨rfl, rfl⟩ := match_word hname hmatch
  have hlength : ((g :: gs).takeWhile (isNameChar ·.char)).length = tail.length := by
    have hstop : behind.takeWhile isNameChar = [] := by
      cases behind with
      | nil => rfl
      | cons c behind => simp [isNameChar_of_break c (hbehind c rfl)]
    have hword := congrArg List.length (chars_takeWhile isNameChar (g :: gs))
    rw [hgs, List.takeWhile_append_of_pos htail, hstop, List.append_nil, chars, List.length_map] at hword
    exact hword
  rw [hlength]
  refine ⟨_, rfl, hname, ?_, ?_⟩
  · show String.ofList (((g :: gs).take tail.length).map Glyph.char) = _
    rw [List.map_take, show (g :: gs).map Glyph.char = _ from hgs, List.take_left]
  · rw [chars, List.map_drop, show (g :: gs).map Glyph.char = _ from hgs, List.drop_left]

end Inside

end Token

/-! ## Taking tokens -/

/-- The modes in which the token behind a terminal may be found: a string behind `#include` only, and
the one or two that matter behind those terminals that can be found at the start of a longer word. -/
def Terminal.Leads (mode : Mode) : Terminal → Prop
  | .assign => mode = .operand
  | .push | .pop | .peek => mode = .parenOpen
  | .sizeT | .stack => mode = .newName ∨ mode = .declaredName
  | .includeWord => True
  | _ => mode ≠ .string

instance (mode : Mode) (t : Terminal) : Decidable (t.Leads mode) := by
  unfold Terminal.Leads
  split <;> infer_instance

namespace Parser

variable {st st' : ParserState} {xs : List Lexeme} {t : Token}

/-- The tokens are taken one after the other. -/
inductive Consumes : ParserState → List Lexeme → ParserState → Prop where
  | nil (st : ParserState) : Consumes st [] st
  | cons {st st1 st' : ParserState} {t : Token} {mode : Mode} {xs : List Lexeme}
      (hshift : Takes (shift mode) st t st1) (hmode : t.terminal.Leads mode)
      (h : Consumes st1 xs st') : Consumes st (t.lexeme :: xs) st'

theorem Consumes.append {st1 : ParserState} {ys : List Lexeme} (h : Consumes st xs st1)
    (h' : Consumes st1 ys st') : Consumes st (xs ++ ys) st' := by
  induction h with
  | nil _ => exact h'
  | cons hshift hmode _ ih => exact .cons hshift hmode (ih h')

/-- The tokens ahead as they were written; the first of them has been found, or the start of it. -/
inductive Stands (st : ParserState) : List Lexeme → Prop where
  | done (h : st.ahead = none) : Stands st []
  | found {x : Lexeme} {xs : List Lexeme} {token : Token} {n : Nat} {rest : List Char}
      (hahead : st.ahead = some token) (hfound : Token.FoundFor x token.terminal n)
      (htext : token.text = String.ofList (x.text.toList.take n))
      (hrest : Token.chars st.rest = x.text.toList.drop n ++ rest) (hlaid : Laid xs rest)
      (hlength : st.rest.length ≤ st.length) : Stands st (x :: xs)

/-- Taking a token that ends where it was written to end. -/
theorem stands_of_shift {mode : Mode} (hshift : Takes (shift mode) st t st')
    (hlaid : Laid xs (Token.chars st.rest)) (hlength : st.rest.length ≤ st.length)
    (hxs : ∀ x ∈ xs, x.Formed) : Stands st' xs := by
  obtain ⟨-, next, rest, hnext, rfl⟩ := exists_of_shift hshift
  generalize hchars : Token.chars st.rest = cs at hlaid
  cases hlaid with
  | done =>
    rw [Token.next_of_filler mode (by rw [hchars]; exact .nil) hlength] at hnext
    cases hnext
    exact .done rfl
  | trailing hgap =>
    rw [Token.next_of_filler mode (by rw [hchars]; exact hgap.filler) hlength] at hnext
    cases hnext
    exact .done rfl
  | next hgap hrest =>
    obtain ⟨token, n, rfl, hfound, htext, hrest', hlength'⟩ := Token.next_of_formed
      (hxs _ List.mem_cons_self) hgap.filler hrest.breaks hchars hlength hnext
    exact .found rfl hfound htext hrest' hrest hlength'

/-- At the start of a text. -/
theorem stands_of_laidOut {text : List Char} {length : Nat} {ahead : Option Token}
    {rest : List Glyph} (h : LaidOut xs text) (hxs : ∀ x ∈ xs, x.Formed)
    (hlength : length = text.length)
    (hnext : Token.next length .fileStart (Glyph.ofChars text) = .ok (ahead, rest)) :
    Stands ⟨length, rest, ahead, none⟩ xs := by
  have hchars := Glyph.chars_ofChars text
  have hle : (Glyph.ofChars text).length ≤ length := by
    have hcount := congrArg List.length hchars
    rw [List.length_map] at hcount
    omega
  cases xs with
  | nil =>
    rw [Token.next_of_filler .fileStart (by rw [hchars]; exact h) hle] at hnext
    cases hnext
    exact .done rfl
  | cons x xs =>
    obtain ⟨lead, behind, hlead, hlaid, rfl⟩ := h
    obtain ⟨token, n, rfl, hfound, htext, hrest, hlength'⟩ := Token.next_of_formed
      (hxs x List.mem_cons_self) hlead hlaid.breaks hchars hle hnext
    exact .found rfl hfound htext hrest hlaid hlength'

/-- The rest of a name is ahead, and what was written behind it follows. -/
structure Inside (z : Lexeme) (xs : List Lexeme) (st : ParserState) : Prop where
  ahead : ∃ token, st.ahead = some token ∧ token.lexeme = z
  laid : Laid xs (Token.chars st.rest)
  length_le : st.rest.length ≤ st.length

/-- Taking the keyword that a name starts with. -/
theorem inside_of_shift {x : Lexeme} {mode : Mode} {n : Nat} {rest : List Char}
    (hshift : Takes (shift mode) st t st') (hmode : t.terminal.Leads mode)
    (hword : IsIdentifier x.text) (ht : t.terminal ∈ [.sizeT, .stack, .push, .pop, .peek])
    (hn : n < x.text.toList.length) (hrest : Token.chars st.rest = x.text.toList.drop n ++ rest)
    (hlaid : Laid xs rest) (hlength : st.rest.length ≤ st.length) :
    (t.terminal = .sizeT ∨ t.terminal = .stack) ∧ ∃ z : Lexeme, z.terminal.isName = true ∧
      z.text = String.ofList (x.text.toList.drop n) ∧ Inside z xs st' := by
  obtain ⟨-, next, rest', hnext, rfl⟩ := exists_of_shift hshift
  have hne : x.text.toList.drop n ≠ [] := by simp [hn]
  have htail : ∀ c ∈ x.text.toList.drop n, Token.isNameChar c = true := by
    obtain ⟨c, cs, htext, hstart, hall⟩ := hword
    intro d hd
    have hmem := List.mem_of_mem_drop hd
    rw [htext] at hmem
    rcases List.mem_cons.mp hmem with rfl | hmem
    · exact Token.isNameChar_of_start hstart
    · exact hall d hmem
  cases hgs : st.rest with
  | nil =>
    rw [hgs] at hrest
    exact absurd (List.append_eq_nil_iff.mp hrest.symm).1 hne
  | cons g gs =>
    rw [hgs] at hrest hnext
    have hhead := htail g.char (Token.head_mem_tail hrest hne)
    -- a method name is called at once, and the rest of a word is no parenthesis
    have hcall : mode ≠ .parenOpen := by
      rintro rfl
      obtain ⟨u, m, hmatch, -, -⟩ :=
        Token.exists_match_of_next (Token.stays_of_nameChar (Token.chars gs) hhead) hnext
      obtain ⟨word, hmem, hliteral, hchar⟩ := Token.literal_head_of_match (by decide) hmatch
      obtain rfl := List.mem_singleton.mp hmem
      cases hliteral
      rw [← hchar '(' rfl] at hhead
      revert hhead
      decide
    have htype : (t.terminal = .sizeT ∨ t.terminal = .stack) ∧
        (mode = .newName ∨ mode = .declaredName) := by
      generalize t.terminal = u at hmode ht
      simp only [List.mem_cons, List.not_mem_nil, or_false] at ht
      rcases ht with rfl | rfl | rfl | rfl | rfl
      · exact ⟨.inl rfl, hmode⟩
      · exact ⟨.inr rfl, hmode⟩
      all_goals exact absurd hmode hcall
    refine ⟨htype.1, ?_⟩
    obtain ⟨token, rfl, hname, htext, hbehind⟩ :=
      Token.next_word htype.2 htail hlaid.breaks hrest hne hnext
    refine ⟨token.lexeme, hname, htext, ⟨token, rfl, rfl⟩, by rw [hbehind]; exact hlaid, ?_⟩
    have hcount := congrArg List.length hrest
    have hcount' := congrArg List.length hbehind
    rw [hgs] at hlength
    simp only [Token.chars, List.length_map, List.length_append] at hcount hcount'
    show rest'.length ≤ st.length
    omega

/-- An assignment is not taken from a double sign: the second one would have to start an operand. -/
theorem not_takes_of_equals {behind : List Char} (hrest : Token.chars st.rest = '=' :: behind) :
    ¬ Takes (shift .operand) st t st' := by
  intro hshift
  obtain ⟨-, next, rest, hnext, -⟩ := exists_of_shift hshift
  obtain ⟨g, gs, hgs, hg, -⟩ := List.map_eq_cons_iff.mp hrest
  rw [hgs] at hnext
  obtain ⟨k, m, hmatch, -⟩ := Token.exists_match_of_next
    (by rw [Token.chars, List.map_cons, hg]; exact ⟨by decide, by rintro ⟨⟩⟩) hnext
  rw [Token.match_equals hg] at hmatch
  cases hmatch

/-- **What is taken is what was written**, but for keywords read as names and names read as a type and
a name. -/
theorem recut_of_consumes {ys : List Lexeme} (h : Consumes st ys st') (hend : st'.ahead = none) :
    (∀ xs : List Lexeme, (∀ x ∈ xs, x.Formed) → Stands st xs → Recut xs ys) ∧
      ∀ (z : Lexeme) (xs : List Lexeme), (∀ x ∈ xs, x.Formed) → Inside z xs st →
        ∃ ys', ys = z :: ys' ∧ Recut xs ys' := by
  induction h with
  | nil st =>
    refine ⟨fun xs _ hst => ?_, fun z xs _ hst => ?_⟩
    · cases hst with
      | done _ => exact .nil
      | found hahead _ _ _ _ _ =>
        rw [hend] at hahead
        cases hahead
    · obtain ⟨token, hahead, -⟩ := hst.ahead
      rw [hend] at hahead
      cases hahead
  | @cons st st1 st' t mode ys hshift hmode _ ih =>
    obtain ⟨ihstands, ihinside⟩ := ih hend
    have hahead' := (exists_of_shift hshift).1
    refine ⟨fun xs hxs hst => ?_, fun z xs hxs hst => ?_⟩
    · cases hst with
      | done hahead =>
        rw [hahead'] at hahead
        cases hahead
      | @found x xs token n rest hahead hfound htext hrest hlaid hlength =>
        obtain rfl : t = token := Option.some.inj (hahead'.symm.trans hahead)
        have hxs' : ∀ x ∈ xs, x.Formed := fun x hx => hxs x (List.mem_cons_of_mem _ hx)
        -- a token that is taken to its end leaves the others as they stand
        have hwhole : n = x.text.toList.length → t.text = x.text ∧ Recut xs ys := by
          rintro rfl
          rw [List.take_length, String.ofList_toList] at htext
          rw [List.drop_length, List.nil_append] at hrest
          rw [← hrest] at hlaid
          exact ⟨htext, ihstands xs hxs' (stands_of_shift hshift hlaid hlength hxs')⟩
        generalize hterminal : t.terminal = u at hfound
        cases hfound with
        | whole hread =>
          subst hterminal
          obtain ⟨htext, hrecut⟩ := hwhole rfl
          exact .same ⟨htext, hread⟩ hrecut
        | keyword hx hu =>
          subst hterminal
          obtain ⟨htext, hrecut⟩ := hwhole rfl
          exact .keyword hx hu htext hrecut
        | front hx hword hu hn hliteral =>
          subst hterminal
          obtain ⟨htype, z, hz, hztext, hinside⟩ :=
            inside_of_shift hshift hmode hword hu hn hrest hlaid hlength
          obtain ⟨ys', rfl, hrecut⟩ := ihinside z xs hxs' hinside
          have hspelled : t.lexeme = t.terminal.lexeme := by
            rw [← htext] at hliteral
            simp [Token.lexeme, Terminal.lexeme, hliteral]
          refine .split hx ?_ hz ?_ hrecut
          · rw [hspelled]
            exact htype.imp (congrArg Terminal.lexeme) (congrArg Terminal.lexeme)
          · rw [hztext, show t.lexeme.text = t.text from rfl, htext, String.toList_ofList,
              String.toList_ofList, List.take_append_drop]
        | equals hx =>
          rw [hterminal] at hmode
          obtain rfl : mode = .operand := hmode
          rw [hx] at hrest
          exact absurd hshift (not_takes_of_equals hrest)
    · obtain ⟨token, hahead, rfl⟩ := hst.ahead
      obtain rfl : t = token := Option.some.inj (hahead'.symm.trans hahead)
      exact ⟨ys, rfl, ihstands xs hxs (stands_of_shift hshift hst.laid hst.length_le hxs)⟩

end Parser

end TapeScript
