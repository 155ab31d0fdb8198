import TapeScript.Proofs.Boundaries
import TapeScript.Proofs.DerivedTrees

set_option autoImplicit false

/-! # What the parser accepts

A sequence of tokens is accepted, and read with the names it is written with, just if the grammar
derives it from the start and the directives in the derivation end where the parser ends them
(`DerivedApart`). Without define directives this is all that the grammar derives.
-/

namespace TapeScript

open Pattern

/-! ## Reading tokens as other terminals -/

namespace Lexeme.ReadAs

variable {x y : Lexeme}

theorem literal_eq (h : x.ReadAs y) : y.terminal.literal? = x.terminal.literal? := by
  have hall : ∀ t ∈ Terminal.all, ∀ u ∈ t.readings, u.literal? = t.literal? := by decide
  exact hall _ (Terminal.mem_all _) _ h.terminal_mem

theorem symm (h : x.ReadAs y) : y.ReadAs x := by
  have hall : ∀ t ∈ Terminal.all, ∀ u ∈ t.readings, t ∈ u.readings := by decide
  exact ⟨h.text_eq.symm, hall _ (Terminal.mem_all _) _ h.terminal_mem⟩

theorem eq_of_terminal (h : x.ReadAs y) (ht : y.terminal = x.terminal) : y = x := by
  obtain ⟨t, text⟩ := y
  obtain ⟨u, word⟩ := x
  obtain rfl : t = u := ht
  obtain rfl : text = word := h.text_eq
  rfl

/-- Only names and signs have another reading. -/
theorem eq_of_not_mem (h : x.ReadAs y)
    (hx : x.terminal ∉ [Terminal.declaredName, .newName, .plus, .minus, .positive, .negative]) :
    y = x := by
  have hall : ∀ t ∈ Terminal.all,
      t ∉ [Terminal.declaredName, .newName, .plus, .minus, .positive, .negative] →
        ∀ u ∈ t.readings, u = t := by decide
  exact h.eq_of_terminal (hall _ (Terminal.mem_all _) hx _ h.terminal_mem)

theorem ne_define (h : x.ReadAs y) (hx : x.terminal ≠ .defineWord) : y.terminal ≠ .defineWord := by
  intro hy
  rw [h.symm.eq_of_not_mem (by rw [hy]; decide)] at hx
  exact hx hy

theorem formed (h : x.ReadAs y) (hx : x.Formed) : y.Formed := by
  cases hx with
  | name hx hword hkeyword =>
    rw [← h.text_eq] at hword hkeyword
    refine .name ?_ hword hkeyword
    have hmem := h.terminal_mem
    rcases hx with hx | hx <;> rw [hx] at hmem <;> simpa [Terminal.readings] using hmem
  | number ht =>
    rw [h.eq_of_not_mem (by rw [Token.lexeme_terminal, ht.terminal_eq]; decide)]
    exact .number ht
  | character ht =>
    rw [h.eq_of_not_mem (by rw [Token.lexeme_terminal, ht.terminal_eq]; decide)]
    exact .character ht
  | string hx hbody htext =>
    rw [h.eq_of_not_mem (by rw [hx]; decide)]
    exact .string hx hbody htext
  | @fixed t ht =>
    have hliteral : y.terminal.literal? = t.literal? := h.literal_eq
    have hy : y = y.terminal.lexeme := by
      have htext : y.text = t.literal?.getD "" := h.text_eq
      rw [← hliteral] at htext
      obtain ⟨u, word⟩ := y
      exact congrArg (Lexeme.mk u) htext
    rw [hy]
    exact .fixed (by rw [hliteral]; exact ht)

end Lexeme.ReadAs

section Readings

variable {xs ys : List Lexeme} {text : List Char}

/-- What other readings keep holds of all of them. -/
theorem forall_readings {P : Lexeme → Prop} (hP : ∀ {x y : Lexeme}, x.ReadAs y → P x → P y)
    (h : List.Forall₂ Lexeme.ReadAs xs ys) (hxs : ∀ x ∈ xs, P x) : ∀ y ∈ ys, P y := by
  induction h with
  | nil => exact hxs
  | cons h _ ih =>
    obtain ⟨hx, hxs⟩ := List.forall_mem_cons.mp hxs
    exact List.forall_mem_cons.mpr ⟨hP h hx, ih hxs⟩

theorem names_readings (h : List.Forall₂ Lexeme.ReadAs xs ys) : Lexeme.names ys = Lexeme.names xs := by
  induction h with
  | nil => rfl
  | @cons x y xs ys h _ ih =>
    have hname := Terminal.isName_of_mem_readings h.terminal_mem
    cases hx : x.terminal.isName with
    | true =>
      rw [Lexeme.names_cons_of_isName hx, Lexeme.names_cons_of_isName (hname.trans hx), h.text_eq, ih]
    | false => rw [Lexeme.names_cons_of_not hx, Lexeme.names_cons_of_not (hname.trans hx), ih]

theorem laid_readings (h : List.Forall₂ Lexeme.ReadAs xs ys) (htext : Laid xs text) : Laid ys text := by
  induction htext generalizing ys with
  | done =>
    cases h
    exact .done
  | trailing hgap =>
    cases h
    exact .trailing hgap
  | next hgap _ ih =>
    cases h with
    | cons hx hxs =>
      rw [← hx.text_eq]
      exact .next hgap (ih hxs)

theorem laidOut_readings (h : List.Forall₂ Lexeme.ReadAs xs ys) (htext : LaidOut xs text) :
    LaidOut ys text := by
  cases h with
  | nil => exact htext
  | cons hx hxs =>
    obtain ⟨lead, rest, hlead, hrest, rfl⟩ := htext
    exact ⟨lead, rest, hlead, laid_readings hxs hrest, by rw [hx.text_eq]⟩

end Readings

variable {xs ys : List Lexeme}

/-! ## Functions that return a value -/

/-- Somewhere a type, a name and a parenthesis follow each other. -/
def hasTypedHead : List Lexeme → Bool
  | x :: y :: z :: rest =>
    (x ∈ [Terminal.sizeT.lexeme, Terminal.stack.lexeme] && y.terminal.isName &&
      z = Terminal.parenOpen.lexeme) || hasTypedHead (y :: z :: rest)
  | _ => false

theorem hasTypedHead_append (front : List Lexeme) (h : hasTypedHead xs = true) :
    hasTypedHead (front ++ xs) = true := by
  induction front with
  | nil => exact h
  | cons x front ih =>
    rw [List.cons_append]
    match hrest : front ++ xs with
    | [] | [_] =>
      rw [hrest] at ih
      cases ih
    | y :: z :: rest =>
      rw [hrest] at ih
      simp [hasTypedHead, ih]

theorem hasTypedHead_of_startsTyped (h : StartsTyped xs) (back : List Lexeme) :
    hasTypedHead (xs ++ back) = true := by
  obtain ⟨k, hk, name, hname, rest, rfl⟩ := h
  have hname' : name.terminal.isName = true := by rw [hname]; rfl
  have htype : k.lexeme ∈ [Terminal.sizeT.lexeme, Terminal.stack.lexeme] := by
    simp only [List.mem_cons, List.not_mem_nil, or_false] at hk ⊢
    exact hk.imp (congrArg Terminal.lexeme) (congrArg Terminal.lexeme)
  simp [hasTypedHead, hname', htype]

theorem hasTypedHead_readings (h : List.Forall₂ Lexeme.ReadAs xs ys) (hys : hasTypedHead ys = true) :
    hasTypedHead xs = true := by
  induction h with
  | nil => exact hys
  | @cons x x' xs ys hx hxs ih =>
    cases hxs with
    | nil => cases hys
    | @cons y y' xs ys hy hxs =>
      cases hxs with
      | nil => cases hys
      | @cons z z' xs ys hz hxs =>
        simp only [hasTypedHead, Bool.or_eq_true, Bool.and_eq_true, decide_eq_true_eq] at hys ⊢
        rcases hys with ⟨⟨htype, hname⟩, rfl⟩ | hbehind
        · have hfixed : ∀ u ∈ [Terminal.sizeT.lexeme, Terminal.stack.lexeme], u.terminal ∉
              [Terminal.declaredName, .newName, .plus, .minus, .positive, .negative] := by decide
          rw [hx.symm.eq_of_not_mem (hfixed x' htype), hz.symm.eq_of_not_mem (by decide)]
          rw [Terminal.isName_of_mem_readings hy.terminal_mem] at hname
          exact .inl ⟨⟨htype, hname⟩, rfl⟩
        · exact .inr (ih hbehind)

/-! ## Derivations -/

/-- The grammar derives the sequence from the start, by items that stand apart. -/
def DerivedApart (ys : List Lexeme) : Prop :=
  ∃ parts : List (List Lexeme), ys = parts.flatten ∧
    (∀ part ∈ parts, Matches (.rule .topLevelItem) part) ∧ parts.IsChain Apart

theorem exists_parts_of_many {p q : Pattern} (h : Matches q ys) (hq : q = many p) :
    ∃ parts : List (List Lexeme), ys = parts.flatten ∧ ∀ part ∈ parts, Matches p part := by
  induction h with
  | stop => exact ⟨[], rfl, by simp⟩
  | @more p' xs ys h _ _ ih =>
    cases hq
    obtain ⟨parts, rfl, hparts⟩ := ih rfl
    exact ⟨xs :: parts, rfl, List.forall_mem_cons.mpr ⟨h, hparts⟩⟩
  | _ => cases hq

theorem matches_many {p : Pattern} {parts : List (List Lexeme)} (h : ∀ part ∈ parts, Matches p part) :
    Matches (many p) parts.flatten := by
  induction parts with
  | nil => exact .stop
  | cons part parts ih =>
    obtain ⟨hpart, hparts⟩ := List.forall_mem_cons.mp h
    exact .more hpart (ih hparts)

theorem apart_of_no_define {d e : List Lexeme} (hd : ∀ x ∈ d, x.terminal ≠ .defineWord) : Apart d e := by
  intro hdefine
  obtain ⟨x, hx, hterminal⟩ := Option.map_eq_some_iff.mp hdefine
  exact absurd hterminal (hd x (List.mem_of_mem_head? hx))

/-- Without define directives nothing has to stand apart. -/
theorem derivedApart_iff (hys : ∀ y ∈ ys, y.terminal ≠ .defineWord) :
    DerivedApart ys ↔ Matches (.rule .start) ys := by
  constructor
  · rintro ⟨parts, rfl, hall, -⟩
    exact .rule (matches_many hall)
  · intro h
    cases h with
    | rule h =>
      obtain ⟨parts, rfl, hall⟩ := exists_parts_of_many h rfl
      have hpairs : parts.Pairwise Apart := List.pairwise_of_forall_mem_list fun d hd e _ =>
        apart_of_no_define fun x hx => hys x (List.mem_flatten_of_mem hd hx)
      exact ⟨parts, rfl, hall, hpairs.isChain⟩

/-- The text is accepted, and the names in its tree are those of the tokens. -/
def Source.Accepts (text : List Char) (xs : List Lexeme) : Prop :=
  ∃ source, Source.parse text = .ok source ∧ source.tree.names = Lexeme.names xs

section Acceptance

variable {xs ys : List Lexeme} {text : List Char}

/-- What is accepted is derived. -/
theorem Source.Accepts.derived (h : Source.Accepts text xs) (hxs : ∀ x ∈ xs, x.Formed)
    (htext : LaidOut xs text) : ∃ ys, List.Forall₂ Lexeme.ReadAs xs ys ∧ DerivedApart ys := by
  obtain ⟨source, hparse, hnames⟩ := h
  obtain ⟨parts, hrecut, hall, hchain, hnames'⟩ := Source.exists_parts hxs htext hparse
  exact ⟨parts.flatten, hrecut.readAs_of_names (hnames'.trans hnames), parts, rfl, hall, hchain⟩

/-- What is derived is accepted. -/
theorem Source.accepts_of_derived (hread : List.Forall₂ Lexeme.ReadAs xs ys) (hys : DerivedApart ys)
    (hxs : ∀ x ∈ xs, x.Formed) (hhead : hasTypedHead xs = false) (htext : LaidOut xs text) :
    Source.Accepts text xs := by
  obtain ⟨parts, rfl, hall, hchain⟩ := hys
  have hformed := forall_readings Lexeme.ReadAs.formed hread hxs
  have hitems : ∀ part ∈ parts, WritesItem part := by
    intro part hpart
    obtain ⟨front, back, rfl⟩ := List.append_of_mem hpart
    rw [List.flatten_append, List.flatten_cons] at hread hformed
    rcases (hall part hpart).writesItem fun x hx => hformed x (by simp [hx]) with hitem | htyped
    · exact hitem
    · -- the head of a function that returns a value would be among the tokens
      have htyped' := hasTypedHead_append front.flatten (hasTypedHead_of_startsTyped htyped back.flatten)
      rw [hasTypedHead_readings hread htyped'] at hhead
      cases hhead
  obtain ⟨source, hparse, hnames⟩ := Source.parse_items hitems hchain (laidOut_readings hread htext)
  exact ⟨source, hparse, hnames.trans (names_readings hread)⟩

end Acceptance

/-- The names of a text that is accepted can be computed. -/
theorem Source.exists_of_names {text : List Char} {names : List String}
    (h : (Source.parse text).toOption.map (·.tree.names) = some names) :
    ∃ source, Source.parse text = .ok source ∧ source.tree.names = names := by
  cases hparse : Source.parse text with
  | error fault =>
    rw [hparse] at h
    cases h
  | ok source =>
    rw [hparse] at h
    exact ⟨source, rfl, Option.some.inj h⟩

/-- A keyword or a mark, or a name or a number of one character. -/
def Lexeme.isShort (x : Lexeme) : Bool :=
  (x.terminal.literal?.isSome && x = x.terminal.lexeme) ||
    match x.text.toList with
    | [c] => (x.terminal = .declaredName && Token.isNameStart c) ||
      (x.terminal = .number && Text.isDecimal c)
    | _ => false

theorem Lexeme.formed_of_short {x : Lexeme} (h : x.isShort = true) : x.Formed := by
  simp only [isShort, Bool.or_eq_true, Bool.and_eq_true, decide_eq_true_eq] at h
  rcases h with ⟨hliteral, hx⟩ | h
  · rw [hx]
    exact .fixed hliteral
  · split at h
    · next c htext =>
      simp only [Bool.or_eq_true, Bool.and_eq_true, decide_eq_true_eq] at h
      rcases h with ⟨hname, hc⟩ | ⟨hnumber, hc⟩
      · refine .name (.inl hname) ⟨c, [], htext, hc, by simp⟩ fun k hk => ?_
        -- no keyword has just one letter
        have hall : ∀ k ∈ Terminal.all, ∀ word ∈ k.literal?, (word.toList.head?.all fun c =>
            word.toList = [c] → Token.isNameStart c = false) = true := by decide
        have hlong := hall k k.mem_all x.text hk
        rw [htext, List.head?_cons, Option.all_some, decide_eq_true_eq] at hlong
        rw [hlong rfl] at hc
        cases hc
      · have ht : Token.IsNumber ⟨x.terminal, x.text, 0, 0⟩ :=
          ⟨hnumber, by simp [htext], by simpa [htext] using hc⟩
        exact .number ht
    · cases h

/-- **What the parser accepts.** A text in which no function has a type in front of its name is read with
its own names just if its tokens are derived by items that stand apart, and without define directives just
if they are derived at all. Whatever is accepted, in this text or any other, is derived once keywords are
read as names, and names that start like a type as a type and a name. -/
theorem Source.accepts_exactly_derived {xs : List Lexeme} {text : List Char}
    (hxs : ∀ x ∈ xs, x.Formed) (htext : LaidOut xs text) :
    (hasTypedHead xs = false →
      (Source.Accepts text xs ↔ ∃ ys, List.Forall₂ Lexeme.ReadAs xs ys ∧ DerivedApart ys) ∧
      ((∀ x ∈ xs, x.terminal ≠ .defineWord) → (Source.Accepts text xs ↔
        ∃ ys, List.Forall₂ Lexeme.ReadAs xs ys ∧ Matches (.rule .start) ys))) ∧
    ∀ source, Source.parse text = .ok source →
      ∃ ys, Recut xs ys ∧ DerivedApart ys ∧ Lexeme.names ys = source.tree.names := by
  refine ⟨fun hhead => ?_, fun source hparse => ?_⟩
  · have hiff : Source.Accepts text xs ↔ ∃ ys, List.Forall₂ Lexeme.ReadAs xs ys ∧ DerivedApart ys :=
      ⟨fun h => h.derived hxs htext, fun ⟨_, hread, hys⟩ =>
        Source.accepts_of_derived hread hys hxs hhead htext⟩
    refine ⟨hiff, fun hdefine => hiff.trans ?_⟩
    refine exists_congr fun ys => and_congr_right fun hread => derivedApart_iff ?_
    exact forall_readings Lexeme.ReadAs.ne_define hread hdefine
  · obtain ⟨parts, hrecut, hall, hchain, hnames⟩ := Source.exists_parts hxs htext hparse
    exact ⟨parts.flatten, hrecut, ⟨parts, rfl, hall, hchain⟩, hnames⟩

open Terminal in
/-- A directive with a negative value, and a function with a branch. -/
def negativeDirective : List Lexeme :=
  let A : Lexeme := ⟨.declaredName, "A"⟩
  let f : Lexeme := ⟨.declaredName, "f"⟩
  let x : Lexeme := ⟨.declaredName, "x"⟩
  [defineWord.lexeme, A, minus.lexeme, ⟨.number, "5"⟩, void.lexeme, f, parenOpen.lexeme, sizeT.lexeme, x,
    parenClose.lexeme, braceOpen.lexeme, ifWord.lexeme, parenOpen.lexeme, x, parenClose.lexeme, x,
    assign.lexeme, A, semicolon.lexeme, elseWord.lexeme, f, parenOpen.lexeme, x, plus.lexeme,
    ⟨.number, "5"⟩, parenClose.lexeme, semicolon.lexeme, braceClose.lexeme]

def negativeDirectiveText : List Char :=
  "#define A - 5 void f ( size_t x ) \x7b if ( x ) x = A ; else f ( x + 5 ) ; \x7d".toList

/-- The directive stands apart from the function behind it, so that both are derived and accepted. -/
theorem Source.accepts_exactly_derived_negativeDirective :
    (∀ x ∈ negativeDirective, x.Formed) ∧ hasTypedHead negativeDirective = false ∧
      LaidOut negativeDirective negativeDirectiveText ∧
      Source.Accepts negativeDirectiveText negativeDirective ∧
      ∃ ys, List.Forall₂ Lexeme.ReadAs negativeDirective ys ∧ DerivedApart ys := by
  have hshort : negativeDirective.all Lexeme.isShort = true := by decide +kernel
  have hformed : ∀ x ∈ negativeDirective, x.Formed :=
    fun x hx => Lexeme.formed_of_short (List.all_eq_true.mp hshort x hx)
  have hhead : hasTypedHead negativeDirective = false := by decide +kernel
  have htext : LaidOut negativeDirective negativeDirectiveText :=
    ⟨[], _, .nil, laid_spaced _, by decide +kernel⟩
  have haccepts : Source.Accepts negativeDirectiveText negativeDirective :=
    Source.exists_of_names (by decide +kernel)
  exact ⟨hformed, hhead, htext, haccepts,
    ((Source.accepts_exactly_derived hformed htext).1 hhead).1.mp haccepts⟩

/-! ## Where the grammar and the parser differ -/

example : Token.matchExpected Mode.operand.terminals (Glyph.ofChars "while".toList) =
    some (.declaredName, 5) := by decide +kernel

def keywordOperand : List Lexeme :=
  [⟨.declaredName, "x"⟩, Terminal.assign.lexeme, Terminal.whileWord.lexeme, Terminal.semicolon.lexeme]

theorem keywordOperand_read : (∀ x ∈ keywordOperand, x.Formed) ∧
    LaidOut keywordOperand "x = while ;".toList ∧
    (Source.parse "x = while ;".toList).toOption.map (·.tree.names) = some ["x", "while"] := by
  have hshort : keywordOperand.all Lexeme.isShort = true := by decide +kernel
  exact ⟨fun x hx => Lexeme.formed_of_short (List.all_eq_true.mp hshort x hx),
    ⟨[], _, .nil, laid_spaced _, by decide +kernel⟩, by decide +kernel⟩

/-- A keyword is no operand. If the sequence were derived, it would be read without the name. -/
theorem keywordOperand_not_derived (hread : List.Forall₂ Lexeme.ReadAs keywordOperand ys) :
    ¬ Matches (.rule .start) ys := by
  intro hderived
  obtain ⟨hformed, hlaidOut, hread'⟩ := keywordOperand_read
  have hdefine := forall_readings Lexeme.ReadAs.ne_define hread (by decide)
  obtain ⟨source, hparse, hnames⟩ := Source.accepts_of_derived hread
    ((derivedApart_iff hdefine).mpr hderived) hformed (by decide) hlaidOut
  rw [hparse] at hread'
  have hnames' : Lexeme.names keywordOperand = ["x", "while"] :=
    hnames.symm.trans (Option.some.inj hread')
  revert hnames'
  decide

def signBehindDirective : List Lexeme :=
  [Terminal.defineWord.lexeme, ⟨.declaredName, "A"⟩, ⟨.number, "5"⟩, Terminal.minus.lexeme,
    ⟨.number, "3"⟩, Terminal.semicolon.lexeme]

theorem matches_expression (h : Matches (.rule .factor) xs) : Matches (.rule .expression) xs := by
  have hlevel : ∀ level : Level, Matches (.rule level.operand) xs → Matches (.rule level.rule) xs := by
    intro level h
    have hbody : Matches level.rule.body (xs ++ []) := by
      rw [Level.body_rule]
      exact .seq h .stop
    rw [List.append_nil] at hbody
    exact .rule hbody
  exact .rule (hlevel .comparison (hlevel .arithmetic (hlevel .term h)))

theorem matches_number (text : String) : Matches (.rule .factor) [⟨.number, text⟩] := by
  have hatom : Matches (.rule .atom) [⟨.number, text⟩] :=
    .rule (Matches.choose (q := token .number) (.token ⟨.number, text⟩) (by decide))
  exact .rule (hatom.choose (by decide))

/-- The directive ends before the sign, which starts a statement. -/
theorem signBehindDirective_derived :
    ∃ ys, List.Forall₂ Lexeme.ReadAs signBehindDirective ys ∧ Matches (.rule .start) ys := by
  have hdefine : Matches (.rule .topLevelItem)
      [Terminal.defineWord.lexeme, ⟨.declaredName, "A"⟩, ⟨.number, "5"⟩] := by
    have hdirective : Matches (.rule .defineDirective)
        [Terminal.defineWord.lexeme, ⟨.declaredName, "A"⟩, ⟨.number, "5"⟩] :=
      .rule (.seq (.seq (.token Terminal.defineWord.lexeme) (.token ⟨.declaredName, "A"⟩))
        (matches_expression (matches_number "5")))
    exact .rule (hdirective.choose (by decide))
  have hsigned : Matches (.rule .topLevelItem)
      [Terminal.negative.lexeme, ⟨.number, "3"⟩, Terminal.semicolon.lexeme] := by
    have hsign : Matches (token .positive ||| token .negative) [Terminal.negative.lexeme] :=
      .right (.token Terminal.negative.lexeme)
    have hfactor : Matches (.rule .factor) [Terminal.negative.lexeme, ⟨.number, "3"⟩] :=
      .rule (.left (.seq hsign (matches_number "3")))
    have hstatement : Matches (.rule .statement)
        [Terminal.negative.lexeme, ⟨.number, "3"⟩, Terminal.semicolon.lexeme] :=
      .rule (Matches.choose (q := .rule .expression ++ token .semicolon)
        (.seq (matches_expression hfactor) (.token Terminal.semicolon.lexeme)) (by decide))
    exact .rule (hstatement.choose (by decide))
  refine ⟨_, ?_, .rule (.more hdefine (.more hsigned .stop))⟩
  repeat' constructor

open Terminal in
/-- A function with a type in front of its name. -/
def typedFunction : List Lexeme :=
  [sizeT.lexeme, ⟨.declaredName, "f"⟩, parenOpen.lexeme, parenClose.lexeme, braceOpen.lexeme,
    braceClose.lexeme]

theorem typedFunction_derived :
    ∃ ys, List.Forall₂ Lexeme.ReadAs typedFunction ys ∧ Matches (.rule .start) ys := by
  have htype : Matches (.rule .typeSpecifier) [Terminal.sizeT.lexeme] :=
    .rule (Matches.choose (.token Terminal.sizeT.lexeme) (by decide))
  have hblock : Matches (.rule .block) [Terminal.braceOpen.lexeme, Terminal.braceClose.lexeme] :=
    .rule (.seq (.seq (.token Terminal.braceOpen.lexeme) .stop) (.token Terminal.braceClose.lexeme))
  have hfunction : Matches (.rule .functionDefinition)
      [Terminal.sizeT.lexeme, ⟨.newName, "f"⟩, Terminal.parenOpen.lexeme, Terminal.parenClose.lexeme,
        Terminal.braceOpen.lexeme, Terminal.braceClose.lexeme] :=
    .rule (.seq (.seq (.seq (.seq (.seq htype (.token ⟨.newName, "f"⟩))
      (.token Terminal.parenOpen.lexeme)) .absent) (.token Terminal.parenClose.lexeme)) hblock)
  have hitem : Matches (.rule .topLevelItem) _ := .rule (hfunction.choose (by decide))
  refine ⟨_, ?_, .rule (.more hitem .stop)⟩
  repeat' constructor

/-- Three sequences of tokens on which grammar and parser differ: a keyword in the place of an operand is
accepted though it is not derived, and a sign behind a directive and a function with a type are derived
but not accepted. -/
theorem Source.accepts_not_exactly_derived :
    ((∀ x ∈ keywordOperand, x.Formed) ∧ LaidOut keywordOperand "x = while ;".toList ∧
      (∃ source, Source.parse "x = while ;".toList = .ok source) ∧
      ¬ ∃ ys, List.Forall₂ Lexeme.ReadAs keywordOperand ys ∧ Matches (.rule .start) ys) ∧
    ((∀ x ∈ signBehindDirective, x.Formed) ∧
      LaidOut signBehindDirective "#define A 5 - 3 ;".toList ∧
      (∃ ys, List.Forall₂ Lexeme.ReadAs signBehindDirective ys ∧ Matches (.rule .start) ys) ∧
      ∃ fault, Source.parse "#define A 5 - 3 ;".toList = .error fault) ∧
    (∀ x ∈ typedFunction, x.Formed) ∧
      LaidOut typedFunction "size_t f ( ) \x7b \x7d".toList ∧
      (∃ ys, List.Forall₂ Lexeme.ReadAs typedFunction ys ∧ Matches (.rule .start) ys) ∧
      ∃ fault, Source.parse "size_t f ( ) \x7b \x7d".toList = .error fault := by
  obtain ⟨hformed, hlaidOut, hnames⟩ := keywordOperand_read
  obtain ⟨source, hparse, -⟩ := Source.exists_of_names hnames
  have hshort : ∀ {xs : List Lexeme}, xs.all Lexeme.isShort = true → ∀ x ∈ xs, x.Formed :=
    fun hall x hx => Lexeme.formed_of_short (List.all_eq_true.mp hall x hx)
  refine ⟨⟨hformed, hlaidOut, ⟨source, hparse⟩, ?_⟩,
    ⟨hshort (by decide +kernel), ⟨[], _, .nil, laid_spaced _, by decide +kernel⟩,
      signBehindDirective_derived, Source.exists_fault (by decide +kernel)⟩,
    hshort (by decide +kernel), ⟨[], _, .nil, laid_spaced _, by decide +kernel⟩, typedFunction_derived,
    Source.exists_fault (by decide +kernel)⟩
  rintro ⟨ys, hread, hderived⟩
  exact keywordOperand_not_derived hread hderived

end TapeScript
