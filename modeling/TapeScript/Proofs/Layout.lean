import Mathlib.Data.List.TakeWhile
import TapeScript.Grammar.Token

set_option autoImplicit false

/-! # Tokens in a text

How tokens are laid out in a text: with blanks, line ends and comments between them (`Laid`). A token
that is found when it stands alone is found in such a text too (`Token.next_of_reads`), because no
terminal goes on over a blank.
-/

namespace TapeScript

/-- A token without its place: a terminal and how it is spelled. -/
structure Lexeme where
  terminal : Terminal
  text : String
  deriving DecidableEq

def Token.lexeme (t : Token) : Lexeme := ⟨t.terminal, t.text⟩

@[simp] theorem Token.lexeme_terminal (t : Token) : t.lexeme.terminal = t.terminal := rfl

/-- A terminal of fixed text. -/
def Terminal.lexeme (t : Terminal) : Lexeme := ⟨t, t.literal?.getD ""⟩

@[simp] theorem Terminal.lexeme_terminal (t : Terminal) : t.lexeme.terminal = t := rfl

/-! ## Layouts -/

/-- Blanks, line ends and complete comments, one after the other. -/
inductive Filler : List Char → Prop where
  | nil : Filler []
  | blank {c : Char} {rest : List Char} (hc : c = ' ' ∨ c = '\t' ∨ c = '\n') (h : Filler rest) :
      Filler (c :: rest)
  | lineEnd {rest : List Char} (h : Filler rest) : Filler ('\r' :: '\n' :: rest)
  | lineComment {body rest : List Char} (hbody : '\n' ∉ body) (h : Filler rest) :
      Filler ('/' :: '/' :: (body ++ '\n' :: rest))
  | blockComment {body rest : List Char} (hbody : ¬ ['*', '/'] <:+: body) (h : Filler rest) :
      Filler ('/' :: '*' :: (body ++ '*' :: '/' :: rest))

/-- A blank, or the start of a line end. -/
def isBreak (c : Char) : Bool := c = ' ' ∨ c = '\t' ∨ c = '\n' ∨ c = '\r'

/-- What stands between two tokens: it starts with a blank or a line end. -/
structure Gap (cs : List Char) : Prop where
  filler : Filler cs
  breaks : ∃ c, cs.head? = some c ∧ isBreak c = true

/-- The text behind a token, up to the end. -/
inductive Laid : List Lexeme → List Char → Prop where
  | done : Laid [] []
  | trailing {gap : List Char} (hgap : Gap gap) : Laid [] gap
  | next {x : Lexeme} {xs : List Lexeme} {gap rest : List Char} (hgap : Gap gap)
      (h : Laid xs rest) : Laid (x :: xs) (gap ++ (x.text.toList ++ rest))

/-- A whole text. Before the first token a comment may stand right at the start. -/
def LaidOut : List Lexeme → List Char → Prop
  | [], text => Filler text
  | x :: xs, text =>
    ∃ lead rest, Filler lead ∧ Laid xs rest ∧ text = lead ++ (x.text.toList ++ rest)

/-- Lexemes with one blank in front of each. -/
def spaced (xs : List Lexeme) : List Char := xs.flatMap fun x => ' ' :: x.text.toList

theorem gap_blank : Gap [' '] := ⟨.blank (.inl rfl) .nil, ' ', rfl, rfl⟩

theorem laid_spaced (xs : List Lexeme) : Laid xs (spaced xs) := by
  induction xs with
  | nil => exact .done
  | cons x xs ih => exact .next gap_blank ih

theorem exists_laidOut : ∀ xs : List Lexeme, ∃ text, LaidOut xs text
  | [] => ⟨[], .nil⟩
  | _ :: xs => ⟨_, [], spaced xs, .nil, laid_spaced xs, rfl⟩

/-- Each lexeme has at least a blank in front of it. -/
theorem Laid.length_le {xs : List Lexeme} {cs : List Char} (h : Laid xs cs) :
    xs.length ≤ cs.length := by
  induction h with
  | done => exact Nat.le_refl _
  | trailing _ => exact Nat.zero_le _
  | @next x xs gap rest hgap _ ih =>
    obtain ⟨c, hc, -⟩ := hgap.breaks
    have hpos := List.length_pos_of_mem (List.mem_of_mem_head? hc)
    simp only [List.length_cons, List.length_append]
    omega

/-- No token goes on here. -/
def Breaks (cs : List Char) : Prop := ∀ c ∈ cs.head?, isBreak c = true

theorem Laid.breaks {xs : List Lexeme} {cs : List Char} (h : Laid xs cs) : Breaks cs := by
  intro c hc
  cases h with
  | done => cases hc
  | trailing hgap =>
    obtain ⟨d, hd, hbreak⟩ := hgap.breaks
    rw [hd] at hc
    cases hc
    exact hbreak
  | next hgap _ =>
    obtain ⟨d, hd, hbreak⟩ := hgap.breaks
    rw [List.head?_append, hd] at hc
    cases hc
    exact hbreak

namespace Token

/-! ## Skipping -/

/-- The characters of a text. -/
abbrev chars (gs : List Glyph) : List Char := gs.map Glyph.char

theorem afterBlock?_eq {gs : List Glyph} {body rest : List Char} (hbody : ¬ ['*', '/'] <:+: body)
    (hgs : chars gs = body ++ '*' :: '/' :: rest) :
    ∃ after, afterBlock? gs = some after ∧ chars after = rest := by
  induction body generalizing gs with
  | nil =>
    obtain ⟨g, gs, rfl, hg, hgs⟩ := List.map_eq_cons_iff.mp hgs
    obtain ⟨h, after, rfl, hh, hafter⟩ := List.map_eq_cons_iff.mp hgs
    exact ⟨after, by rw [afterBlock?, if_pos ⟨hg, hh⟩], hafter⟩
  | cons b body ih =>
    obtain ⟨g, gs, rfl, hg, hgs⟩ := List.map_eq_cons_iff.mp hgs
    obtain ⟨after, hafter, hrest⟩ := ih (fun h => hbody (h.trans (List.suffix_cons b body).isInfix)) hgs
    refine ⟨after, ?_, hrest⟩
    cases gs with
    | nil => cases body <;> cases hgs
    | cons h gs =>
      -- the body does not end the comment
      have hopen : ¬ (g.char = '*' ∧ h.char = '/') := by
        rintro ⟨hstar, hslash⟩
        cases body with
        | nil =>
          have heq : h.char = '*' := (List.cons.inj hgs).1
          rw [hslash] at heq
          cases heq
        | cons c body =>
          have heq : h.char = c := (List.cons.inj hgs).1
          refine hbody ⟨[], body, ?_⟩
          simp [← hg, hstar, ← heq, hslash]
      rw [afterBlock?, if_neg hopen]
      exact hafter

/-- A text that starts with a token is not skipped. -/
def Stays (cs : List Char) : Prop :=
  match cs with
  | [] => True
  | c :: rest => isBreak c = false ∧ (c = '/' → ∀ d ∈ rest.head?, d ≠ '/' ∧ d ≠ '*')

theorem skipIgnored_of_stays (fuel : Nat) {gs : List Glyph} (h : Stays (chars gs)) :
    skipIgnored fuel gs = gs := by
  cases fuel with
  | zero => rfl
  | succ fuel =>
    cases gs with
    | nil => rfl
    | cons g gs =>
      obtain ⟨hbreak, hslash⟩ := h
      simp only [isBreak, decide_eq_false_iff_not, not_or] at hbreak
      obtain ⟨hspace, htab, hline, hreturn⟩ := hbreak
      cases gs with
      | nil => simp [skipIgnored, hspace, htab, hline]
      | cons h gs =>
        have hcomment : g.char = '/' → h.char ≠ '/' ∧ h.char ≠ '*' := fun hg =>
          hslash hg h.char rfl
        simp only [skipIgnored, hspace, htab, hline, hreturn, or_self, if_false, false_and]
        by_cases hg : g.char = '/'
        · obtain ⟨hnot, hnot'⟩ := hcomment hg
          simp [hnot, hnot']
        · simp [hg]

section Skip

variable {g h : Glyph} {gs : List Glyph} (fuel : Nat)

theorem skipIgnored_blank (hg : g.char = ' ' ∨ g.char = '\t' ∨ g.char = '\n') :
    skipIgnored (fuel + 1) (g :: gs) = skipIgnored fuel gs := by
  simp [skipIgnored, hg]

theorem skipIgnored_lineEnd (hg : g.char = '\r') (hh : h.char = '\n') :
    skipIgnored (fuel + 1) (g :: h :: gs) = skipIgnored fuel gs := by
  simp [skipIgnored, hg, hh]

theorem skipIgnored_lineComment (hg : g.char = '/') (hh : h.char = '/') :
    skipIgnored (fuel + 1) (g :: h :: gs) =
      skipIgnored fuel (gs.dropWhile (·.char ≠ '\n')) := by
  simp [skipIgnored, hg, hh]

theorem skipIgnored_blockComment {after : List Glyph} (hg : g.char = '/') (hh : h.char = '*')
    (hafter : afterBlock? gs = some after) :
    skipIgnored (fuel + 1) (g :: h :: gs) = skipIgnored fuel after := by
  simp [skipIgnored, hg, hh, hafter]

end Skip

variable {gs gs' rest : List Glyph}

/-- The rest of a line is dropped. -/
theorem chars_dropWhile {body rest : List Char} (hbody : '\n' ∉ body)
    (hgs : chars gs = body ++ '\n' :: rest) :
    chars (gs.dropWhile (·.char ≠ '\n')) = '\n' :: rest := by
  have hdrop : chars (gs.dropWhile (·.char ≠ '\n')) = (chars gs).dropWhile (· ≠ '\n') := by
    rw [List.dropWhile_map]
    rfl
  have hall : ∀ c ∈ body, decide (c ≠ '\n') = true := fun c hc =>
    decide_eq_true fun heq => hbody (heq ▸ hc)
  rw [hdrop, hgs, List.dropWhile_append_of_pos hall]
  rfl

/-- What stands between tokens is skipped. -/
theorem skipIgnored_filler {cs : List Char} (h : Filler cs) {rest : List Char} (hrest : Stays rest) :
    ∀ {gs : List Glyph} {fuel : Nat}, chars gs = cs ++ rest → cs.length ≤ fuel →
      chars (skipIgnored fuel gs) = rest := by
  induction h with
  | nil =>
    intro gs fuel hgs _
    rw [List.nil_append] at hgs
    rw [skipIgnored_of_stays fuel (by rw [hgs]; exact hrest), hgs]
  | @blank c cs hc _ ih =>
    intro gs fuel hgs hfuel
    obtain ⟨g, gs, rfl, rfl, hrest⟩ := List.map_eq_cons_iff.mp hgs
    rw [List.length_cons] at hfuel
    obtain ⟨fuel, rfl⟩ : ∃ f, fuel = f + 1 := ⟨fuel - 1, by omega⟩
    rw [skipIgnored_blank fuel hc]
    exact ih hrest (by omega)
  | @lineEnd cs _ ih =>
    intro gs fuel hgs hfuel
    obtain ⟨g, gs, rfl, hg, hgs⟩ := List.map_eq_cons_iff.mp hgs
    obtain ⟨h, gs, rfl, hh, hgs⟩ := List.map_eq_cons_iff.mp hgs
    rw [List.length_cons, List.length_cons] at hfuel
    obtain ⟨fuel, rfl⟩ : ∃ f, fuel = f + 1 := ⟨fuel - 1, by omega⟩
    rw [skipIgnored_lineEnd fuel hg hh]
    exact ih hgs (by omega)
  | @lineComment body cs hbody _ ih =>
    intro gs fuel hgs hfuel
    simp only [List.cons_append, List.append_assoc] at hgs
    obtain ⟨g, gs, rfl, hg, hgs⟩ := List.map_eq_cons_iff.mp hgs
    obtain ⟨h, gs, rfl, hh, hgs⟩ := List.map_eq_cons_iff.mp hgs
    -- the line end behind the comment is skipped as a blank
    have hline := chars_dropWhile hbody hgs
    obtain ⟨g', gs', hgs', hg', hrest'⟩ := List.map_eq_cons_iff.mp hline
    simp only [List.length_cons, List.length_append] at hfuel
    obtain ⟨fuel, rfl⟩ : ∃ f, fuel = f + 2 := ⟨fuel - 2, by omega⟩
    rw [skipIgnored_lineComment (fuel + 1) hg hh, hgs', skipIgnored_blank fuel (.inr (.inr hg'))]
    exact ih hrest' (by omega)
  | @blockComment body cs hbody _ ih =>
    intro gs fuel hgs hfuel
    simp only [List.cons_append, List.append_assoc] at hgs
    obtain ⟨g, gs, rfl, hg, hgs⟩ := List.map_eq_cons_iff.mp hgs
    obtain ⟨h, gs, rfl, hh, hgs⟩ := List.map_eq_cons_iff.mp hgs
    obtain ⟨after, hafter, hchars⟩ := afterBlock?_eq hbody hgs
    simp only [List.length_cons, List.length_append] at hfuel
    obtain ⟨fuel, rfl⟩ : ∃ f, fuel = f + 1 := ⟨fuel - 1, by omega⟩
    rw [skipIgnored_blockComment fuel hg hh hafter]
    exact ih hchars (by omega)

/-! ## Matching -/

theorem literalLength?_eq (cs : List Char) (gs : List Glyph) :
    literalLength? cs gs = if cs <+: chars gs then some cs.length else none := by
  induction cs generalizing gs with
  | nil => simp [literalLength?]
  | cons c cs ih =>
    cases gs with
    | nil => simp [literalLength?]
    | cons g gs =>
      rw [literalLength?, ih]
      by_cases hc : c = g.char
      · by_cases hcs : cs <+: chars gs
        · simp [hc, hcs, List.cons_prefix_cons]
        · simp [hc, hcs, List.cons_prefix_cons]
      · simp [hc, List.cons_prefix_cons]

/-- A fixed text without blanks does not go on over a blank. -/
theorem prefix_append_iff {cs bs : List Char} (hcs : ∀ c ∈ cs, isBreak c = false)
    (hbs : Breaks bs) (as : List Char) : cs <+: as ++ bs ↔ cs <+: as := by
  refine ⟨?_, fun h => h.trans (List.prefix_append as bs)⟩
  rintro ⟨more, hmore⟩
  rcases List.append_eq_append_iff.mp hmore with ⟨rest, rfl, -⟩ | ⟨extra, rfl, hextra⟩
  · exact List.prefix_append cs rest
  · cases extra with
    | nil => exact (List.append_nil as).symm ▸ List.prefix_refl as
    | cons d extra =>
      -- the fixed text would have to contain the blank
      have hbreak : isBreak d = true := hbs d (by rw [hextra]; rfl)
      have hnot : isBreak d = false := hcs d (by simp)
      rw [hbreak] at hnot
      cases hnot

theorem isBreak_of_literal {t : Terminal} {text : String} (h : t.literal? = some text) :
    ∀ c ∈ text.toList, isBreak c = false := by
  have hall : (t.literal?.all fun text => text.toList.all fun c => !isBreak c) = true := by
    cases t <;> decide
  rw [h] at hall
  simpa using hall

theorem literalMatch_congr {expected : List Terminal}
    (h : ∀ (t : Terminal) (text : String), t.literal? = some text →
      literalLength? text.toList gs = literalLength? text.toList gs') :
    literalMatch expected gs = literalMatch expected gs' := by
  unfold literalMatch
  congr 1
  funext best t
  cases htext : t.literal? with
  | none => rfl
  | some text => simp only [h t text htext]

theorem takeWhile_append_of_breaks {p : Char → Bool} (hp : ∀ c, isBreak c = true → p c = false)
    (gs : List Glyph) (hrest : Breaks (chars rest)) :
    (gs ++ rest).takeWhile (fun g => p g.char) = gs.takeWhile fun g => p g.char := by
  have hstop : rest.takeWhile (fun g => p g.char) = [] := by
    cases rest with
    | nil => rfl
    | cons g rest => rw [List.takeWhile_cons, if_neg (by simp [hp g.char (hrest g.char rfl)])]
  rw [List.takeWhile_append, hstop, List.append_nil]
  split
  · next hlength => exact ((List.takeWhile_prefix _).eq_of_length hlength).symm
  · rfl

theorem isNameChar_of_break (c : Char) (h : isBreak c = true) : isNameChar c = false := by
  simp only [isBreak, decide_eq_true_eq] at h
  rcases h with rfl | rfl | rfl | rfl <;> decide

theorem isDecimal_of_break (c : Char) (h : isBreak c = true) : Text.isDecimal c = false := by
  simp only [isBreak, decide_eq_true_eq] at h
  rcases h with rfl | rfl | rfl | rfl <;> decide

theorem charLiteralLength?_append {n : Nat} (h : charLiteralLength? gs = some n) :
    charLiteralLength? (gs ++ rest) = some n := by
  unfold charLiteralLength? at h
  split at h
  · next q a b more =>
    simp only [List.cons_append, charLiteralLength?]
    split_ifs at h ⊢
    · cases more with
      | nil => cases h
      | cons c more => exact h
    · exact h
  · cases h

theorem stringLength?_append {n : Nat} (h : stringLength? gs = some n) :
    stringLength? (gs ++ rest) = some n := by
  cases gs with
  | nil => cases h
  | cons g gs =>
    simp only [List.cons_append, stringLength?] at h ⊢
    split_ifs at h with hinside
    have hsame : (gs ++ rest).takeWhile (fun g => decide (g.char ≠ '"')) =
        gs.takeWhile fun g => decide (g.char ≠ '"') := by
      rw [List.takeWhile_append, if_neg (by omega)]
    rw [hsame, if_pos (by rw [List.length_append]; omega)]
    exact h

/-- No terminal goes on over a blank. -/
theorem literalMatch_append (expected : List Terminal) (gs : List Glyph) (hrest : Breaks (chars rest)) :
    literalMatch expected (gs ++ rest) = literalMatch expected gs := by
  refine literalMatch_congr fun t text htext => ?_
  have hbegins := prefix_append_iff (isBreak_of_literal htext) hrest (chars gs)
  rw [literalLength?_eq, literalLength?_eq, chars, List.map_append, if_congr hbegins rfl rfl]

/-- A terminal that stands alone is also found in front of a blank. -/
theorem matchExpected_append {expected : List Terminal} {r : Terminal × Nat}
    (h : matchExpected expected gs = some r) (hrest : Breaks (chars rest)) :
    matchExpected expected (gs ++ rest) = some r := by
  have hliteral := literalMatch_append expected gs hrest
  cases gs with
  | nil => cases h
  | cons g gs =>
    have hword := takeWhile_append_of_breaks isNameChar_of_break (g :: gs) hrest
    have hdigits := takeWhile_append_of_breaks isDecimal_of_break (g :: gs) hrest
    rw [List.cons_append] at hword hdigits hliteral ⊢
    unfold matchExpected at h ⊢
    simp only [hword, hdigits, hliteral] at h ⊢
    split_ifs at h ⊢
    · exact h
    · exact h
    · obtain ⟨n, hn, rfl⟩ := Option.map_eq_some_iff.mp h
      rw [← List.cons_append, charLiteralLength?_append hn, Option.map_some]
    · obtain ⟨n, hn, rfl⟩ := Option.map_eq_some_iff.mp h
      rw [← List.cons_append, stringLength?_append hn, Option.map_some]
    · exact h

/-! ## Places do not matter -/

theorem charLiteralLength?_congr (h : chars gs = chars gs') :
    charLiteralLength? gs = charLiteralLength? gs' := by
  rcases gs with _ | ⟨a, _ | ⟨b, _ | ⟨c, _ | ⟨d, gs⟩⟩⟩⟩ <;>
    rcases gs' with _ | ⟨a', _ | ⟨b', _ | ⟨c', _ | ⟨d', gs'⟩⟩⟩⟩ <;>
    simp_all [charLiteralLength?]

theorem chars_takeWhile (p : Char → Bool) (gs : List Glyph) :
    chars (gs.takeWhile fun g => p g.char) = (chars gs).takeWhile p := by
  rw [List.takeWhile_map]
  rfl

theorem chars_takeWhile_congr (p : Char → Bool) (h : chars gs = chars gs') :
    chars (gs.takeWhile fun g => p g.char) = chars (gs'.takeWhile fun g => p g.char) := by
  rw [chars_takeWhile, chars_takeWhile, h]

theorem stringLength?_congr (h : chars gs = chars gs') : stringLength? gs = stringLength? gs' := by
  cases gs with
  | nil =>
    cases gs' with
    | nil => rfl
    | cons g' gs' => cases h
  | cons g gs =>
    cases gs' with
    | nil => cases h
    | cons g' gs' =>
      obtain ⟨-, hrest⟩ := List.cons.inj h
      have hinside := congrArg List.length
        (chars_takeWhile_congr (fun c => decide (c ≠ '"')) hrest)
      have hlength := congrArg List.length hrest
      simp only [chars, List.length_map] at hinside hlength
      simp only [stringLength?, hinside, hlength]

theorem matchExpected_congr (expected : List Terminal) (h : chars gs = chars gs') :
    matchExpected expected gs = matchExpected expected gs' := by
  cases gs with
  | nil =>
    cases gs' with
    | nil => rfl
    | cons g' gs' => cases h
  | cons g gs =>
    cases gs' with
    | nil => cases h
    | cons g' gs' =>
      have hchar : g.char = g'.char := (List.cons.inj h).1
      have hword := chars_takeWhile_congr isNameChar h
      have hdigits := congrArg List.length (chars_takeWhile_congr Text.isDecimal h)
      have hliteral : literalMatch expected (g :: gs) = literalMatch expected (g' :: gs') :=
        literalMatch_congr fun t text _ => by rw [literalLength?_eq, literalLength?_eq, h]
      simp only [chars, List.length_map] at hword hdigits
      simp only [matchExpected, hchar, hword, hdigits, hliteral, charLiteralLength?_congr h,
        stringLength?_congr h]

end Token

/-! ## Reading a token -/

/-- A text that is not skipped, whatever comes behind the blank that follows it. -/
def Lexeme.Solid (x : Lexeme) : Prop :=
  match x.text.toList with
  | [] => False
  | c :: rest => isBreak c = false ∧ (c = '/' → rest = [])

theorem Lexeme.Solid.length_pos {x : Lexeme} (h : x.Solid) : 0 < x.text.toList.length := by
  unfold Lexeme.Solid at h
  split at h
  · exact h.elim
  · next heq => rw [heq]; exact Nat.succ_pos _

instance (x : Lexeme) : Decidable x.Solid := by
  unfold Lexeme.Solid
  split <;> infer_instance

theorem Lexeme.Solid.stays {x : Lexeme} (h : x.Solid) {rest : List Char} (hrest : Breaks rest) :
    Token.Stays (x.text.toList ++ rest) := by
  unfold Solid at h
  cases htext : x.text.toList with
  | nil => rw [htext] at h; exact h.elim
  | cons c cs =>
    rw [htext] at h
    refine ⟨h.1, fun hc d hd => ?_⟩
    rw [h.2 hc] at hd
    have hbreak := hrest d hd
    constructor <;> (rintro rfl; revert hbreak; decide)

/-- The lexeme is found where it stands alone. -/
structure Mode.Reads (mode : Mode) (x : Lexeme) : Prop where
  solid : x.Solid
  matches_text : Token.matchExpected mode.terminals (Glyph.ofChars x.text.toList) =
    some (x.terminal, x.text.toList.length)

instance (mode : Mode) (x : Lexeme) : Decidable (mode.Reads x) :=
  decidable_of_iff (x.Solid ∧ Token.matchExpected mode.terminals (Glyph.ofChars x.text.toList) =
    some (x.terminal, x.text.toList.length)) ⟨fun ⟨h, h'⟩ => ⟨h, h'⟩, fun ⟨h, h'⟩ => ⟨h, h'⟩⟩

theorem Glyph.chars_place (line column : Nat) (cs : List Char) :
    Token.chars (place line column cs) = cs := by
  induction cs generalizing line column with
  | nil => rfl
  | cons c cs ih =>
    rw [place, Token.chars, List.map_cons]
    split
    · exact congrArg (c :: ·) (ih _ _)
    · exact congrArg (c :: ·) (ih _ _)

theorem Glyph.chars_ofChars (cs : List Char) : Token.chars (ofChars cs) = cs :=
  chars_place 1 1 cs

namespace Token

theorem cut_append (terminal : Terminal) (own behind : List Glyph) :
    (cut terminal own.length (own ++ behind)).1.lexeme = ⟨terminal, String.ofList (chars own)⟩ ∧
      (cut terminal own.length (own ++ behind)).2 = behind := by
  unfold cut
  rw [List.take_left, List.drop_left]
  exact ⟨rfl, rfl⟩

/-- **The next token is found** behind whatever stands in front of it, up to the next blank. -/
theorem next_of_reads {mode : Mode} {x : Lexeme} (hx : mode.Reads x) {gs : List Glyph}
    {lead rest : List Char} (hlead : Filler lead) (hrest : Breaks rest)
    (hgs : chars gs = lead ++ (x.text.toList ++ rest)) {fuel : Nat} (hfuel : gs.length ≤ fuel) :
    ∃ token gs', next fuel mode gs = .ok (some token, gs') ∧ token.lexeme = x ∧
      chars gs' = rest ∧ gs'.length ≤ fuel := by
  have hlength : lead.length ≤ fuel := by
    have := congrArg List.length hgs
    simp only [chars, List.length_map, List.length_append] at this
    omega
  have hskip := skipIgnored_filler hlead (hx.solid.stays hrest) hgs hlength
  obtain ⟨own, behind, hsplit, hown, hbehind⟩ := List.map_eq_append_iff.mp hskip
  have halone : matchExpected mode.terminals own =
      matchExpected mode.terminals (Glyph.ofChars x.text.toList) :=
    matchExpected_congr _ (by rw [Glyph.chars_ofChars]; exact hown)
  have hmatch : matchExpected mode.terminals (own ++ behind) =
      some (x.terminal, x.text.toList.length) :=
    matchExpected_append (halone.trans hx.matches_text) (by rw [chars, hbehind]; exact hrest)
  have hownlen : x.text.toList.length = own.length := by rw [← hown, List.length_map]
  have hlen : (own ++ behind).length ≤ fuel := by
    have hskipped := congrArg List.length hskip
    have hall := congrArg List.length hgs
    simp only [chars, List.length_map, List.length_append] at hskipped hall
    rw [← hsplit]
    omega
  obtain ⟨hlexeme, hbehind'⟩ := cut_append x.terminal own behind
  rw [chars, hown, String.ofList_toList] at hlexeme
  rw [hownlen] at hmatch
  refine ⟨_, behind, ?_, hlexeme, hbehind, by rw [List.length_append] at hlen; omega⟩
  cases own with
  | nil =>
    rw [hx.matches_text] at halone
    cases halone
  | cons g own =>
    unfold next
    rw [hsplit]
    simp only [List.cons_append] at hmatch hbehind' ⊢
    rw [hmatch]
    exact congrArg (fun behind => Except.ok (some _, behind)) hbehind'

/-- Behind the last token there is none. -/
theorem next_of_filler (mode : Mode) {gs : List Glyph} (h : Filler (chars gs)) {fuel : Nat}
    (hfuel : gs.length ≤ fuel) : next fuel mode gs = .ok (none, []) := by
  have hstays : Stays [] := trivial
  have hskip : chars (skipIgnored fuel gs) = [] :=
    skipIgnored_filler h hstays (List.append_nil _).symm (by rw [chars, List.length_map]; exact hfuel)
  unfold next
  rw [List.map_eq_nil_iff.mp hskip]

end Token

end TapeScript
