import Mathlib.Data.List.Forall2
import TapeScript.Proofs.Derivations

set_option autoImplicit false

/-! # Directives in the syntax tree

What is derived by rules without directives takes none and loses none (`Parser.Derived.passes`). Hence,
in a text in which every directive has a line of its own, the directives of the syntax tree are those of
the lines, in the same order (`Source.parse_directives`).
-/

namespace TapeScript

open Directive

/-! ## Parsers that succeed -/

/-- The parser stands in the text. -/
structure ParserState.Inside (text : List Char) (st : ParserState) : Prop where
  length_eq : st.length = text.length
  standing : Standing text st.ahead st.rest

/-- The directives that are still to come. -/
def ParserState.pending (st : ParserState) : List (List Char) := Directive.pending st.ahead st.rest

/-- The pattern derives no directive. -/
def Pattern.plain : Pattern → Bool
  | .token t => t ∉ [Terminal.includeWord, .defineWord]
  | .rule r => r ∉ [Rule.start, .topLevelItem, .includeDirective, .defineDirective]
  | .seq p q | .alt p q => p.plain && q.plain
  | .optional p | .many p => p.plain

theorem Pattern.Matches.plain {p : Pattern} {xs : List Lexeme} (h : p.Matches xs)
    (hp : p.plain = true) : ∀ x ∈ xs, x.terminal ∉ [Terminal.includeWord, .defineWord] := by
  induction h with
  | token x => simpa [Pattern.plain] using hp
  | @rule r xs _ ih =>
    have hall : ∀ r : Rule, (Pattern.rule r).plain = true → r.body.plain = true := by
      intro r
      cases r <;> decide
    exact ih (hall r hp)
  | seq _ _ ih ih' =>
    obtain ⟨hp, hq⟩ := Bool.and_eq_true_iff.mp hp
    exact List.forall_mem_append.mpr ⟨ih hp, ih' hq⟩
  | left _ ih => exact ih (Bool.and_eq_true_iff.mp hp).1
  | right _ ih => exact ih (Bool.and_eq_true_iff.mp hp).2
  | present _ ih => exact ih hp
  | more _ _ ih ih' => exact List.forall_mem_append.mpr ⟨ih hp, ih' hp⟩
  | absent | stop => rintro x ⟨⟩

theorem Terminal.Leads.string_notMem {mode : Mode} {t : Terminal} (h : t.Leads mode)
    (ht : t ≠ .includeWord) : .string ∉ mode.terminals := by
  have hmode : mode ≠ .string := by
    rintro rfl
    cases t <;> simp [Terminal.Leads] at h ht
  cases mode <;> first | exact absurd rfl hmode | decide

namespace Parser

/-! ## Parsers pass directives by -/

theorem passes_of_consumes {text : List Char} (h : Orderly text) {st st' : ParserState} {xs : List Lexeme}
    (hxs : Consumes st xs st') (hplain : ∀ x ∈ xs, x.terminal ∉ [Terminal.includeWord, .defineWord])
    (hst : st.Inside text) : st'.Inside text ∧ st'.pending = st.pending := by
  induction hxs with
  | nil st => exact ⟨hst, rfl⟩
  | @cons st st1 st' t mode xs hshift hmode _ ih =>
    obtain ⟨hhere, hrest⟩ := List.forall_mem_cons.mp hplain
    obtain ⟨hinclude, hdefine⟩ : t.terminal ≠ .includeWord ∧ t.terminal ≠ .defineWord := by
      simpa using hhere
    obtain ⟨ht, next, rest, hnext, rfl⟩ := exists_of_shift hshift
    obtain ⟨hstanding, htails⟩ :=
      Token.next_pending h (hmode.string_notMem hinclude) hst.standing.suffix hnext
    obtain ⟨hst', hpending⟩ := ih hrest ⟨hst.length_eq, hstanding⟩
    refine ⟨hst', hpending.trans ?_⟩
    show Directive.pending next rest = Directive.pending st.ahead st.rest
    rw [← htails, ht]
    exact (if_neg hdefine).symm

/-- What is derived without directives passes those of the text by. -/
theorem Derived.passes {text : List Char} {st st' : ParserState} {p : Pattern} {ns : List String}
    (hd : Derived st p ns st') (h : Orderly text) (hp : p.plain = true) (hst : st.Inside text) :
    st'.Inside text ∧ st'.pending = st.pending := by
  obtain ⟨xs, hxs, hmatches, -⟩ := hd
  exact passes_of_consumes h hxs (hmatches.plain hp) hst

end Parser

/-! ## The value of a directive -/

/-- The operand that an expression starts with. -/
def Expr.head : Expr → Expr
  | .chain _ first _ => first.head
  | e => e

namespace Parser

variable {st st' : ParserState} {first e : Expr} {t : Token}
variable {fuel : Nat}

theorem head_chain {level : Level} {operand : Parser Expr} :
    Ensures (chain level first operand fuel) st fun e _ => e.head = first.head := by
  refine .skip fun rest _ => ?_
  split
  · exact .pure rfl
  · exact .pure (by rw [Expr.head])

theorem head_expressionFrom :
    Ensures (expressionFrom first fuel) st fun e _ => e.head = first.head := by
  cases fuel with
  | zero => rw [expressionFrom]; exact .refuse
  | succ fuel =>
    rw [expressionFrom]
    refine .bind head_chain fun e1 _ h1 => .bind head_chain fun e2 _ h2 => ?_
    rw [← h1, ← h2]
    exact head_chain

/-- A literal that is ahead is the factor. -/
theorem factor_of_literal (hahead : st.ahead = some t) :
    (t.terminal = .number → Ensures (factor fuel) st fun e _ => e = .number t) ∧
      (t.terminal = .charLiteral → Ensures (factor fuel) st fun e _ => e = .character t) := by
  have hshift : ∀ mode, Ensures (shift mode) st fun t' _ => t' = t := fun mode t' st' h =>
    Option.some.inj ((exists_of_shift h).1.symm.trans hahead)
  cases fuel with
  | zero =>
    rw [factor]
    exact ⟨fun _ => .refuse, fun _ => .refuse⟩
  | succ fuel =>
    rw [factor]
    constructor <;>
    · intro ht
      refine .look fun o ho => ?_
      rw [hahead, Option.map_some, ht] at ho
      subst ho
      exact .bind (hshift _) fun _ _ heq => .pure (congrArg _ heq)

theorem head_of_literal (hahead : st.ahead = some t) :
    (t.terminal = .number → Ensures (expression fuel) st fun e _ => e.head = .number t) ∧
      (t.terminal = .charLiteral → Ensures (expression fuel) st fun e _ => e.head = .character t) := by
  cases fuel with
  | zero =>
    rw [expression]
    exact ⟨fun _ => .refuse, fun _ => .refuse⟩
  | succ fuel =>
    obtain ⟨hnumber, hcharacter⟩ := @factor_of_literal _ _ fuel hahead
    rw [expression]
    constructor
    · refine fun ht => .bind (hnumber ht) ?_
      rintro _ st1 rfl
      exact head_expressionFrom
    · refine fun ht => .bind (hcharacter ht) ?_
      rintro _ st1 rfl
      exact head_expressionFrom

end Parser

/-! ## Items -/

def Item.directive? : Item → Option (Token × Expr)
  | .define name value => some (name, value)
  | .includes _ | .function _ _ _ | .stmt _ => none

/-- The define directives of a source, each with its name and its value. -/
def Source.directives (source : Source) : List (Token × Expr) := source.items.filterMap Item.directive?

/-- The directive has the name that stands behind the keyword, and its value starts with the literal
that stands there. -/
structure Directive.Reads (tail : List Char) (d : Token × Expr) : Prop where
  name_eq : d.1.text = String.ofList (nameIn tail)
  number : ∀ c cs, valueIn tail = c :: cs → Text.isDecimal c = true →
    ∃ t, d.2.head = .number t ∧ t.text = String.ofList ((valueIn tail).takeWhile Text.isDecimal)
  character : ∀ cs, valueIn tail = '\'' :: cs →
    ∃ t, d.2.head = .character t ∧ t.IsCharacter ∧ t.text.toList <+: valueIn tail

namespace Parser

variable {text : List Char} {st st' : ParserState}
variable {fuel : Nat} {i : Item}

theorem length_rest_le {rest : List Glyph} {ahead : Option Token} (h : Standing text ahead rest)
    {n : Nat} (hn : n = text.length) : rest.length ≤ n := by
  have hlength := h.suffix.length_le
  rw [Token.chars, List.length_map] at hlength
  rw [hn]
  exact hlength

/-- A directive is read as its line says. -/
theorem reads_define (h : Orderly text) (hst : st.Inside text)
    (hahead : st.ahead.map Token.terminal = some .defineWord)
    (htakes : Takes (do
      let _ ← shift .declaredName
      let name ← expect .declaredName .operand
      let value ← expression fuel
      return Item.define name value) st i st') :
    st'.Inside text ∧ ∃ tail d, st.pending = tail :: st'.pending ∧ i.directive? = some d ∧
      Directive.Reads tail d := by
  obtain ⟨t, st1, hshift, htakes⟩ := takes_bind.mp htakes
  obtain ⟨name, st2, hexpect, htakes⟩ := takes_bind.mp htakes
  obtain ⟨e, st3, hexpression, htakes⟩ := takes_bind.mp htakes
  obtain ⟨rfl, rfl⟩ := takes_pure_iff.mp htakes
  obtain ⟨ht, next1, rest1, hnext1, rfl⟩ := exists_of_shift hshift
  have hterminal : t.terminal = .defineWord := by
    rw [ht] at hahead
    exact Option.some.inj hahead
  obtain ⟨before, hbefore⟩ := hst.standing.behind_keyword t ht hterminal
  have hshaped := (h.at_keyword hbefore.symm).2
  -- the name
  obtain ⟨hstanding1, htails⟩ :=
    Token.next_pending h (by decide) hst.standing.suffix hnext1
  obtain ⟨_, rfl, hname, hrest1⟩ :=
    Token.next_name hshaped (length_rest_le hst.standing hst.length_eq) hnext1
  obtain ⟨-, hshift2⟩ := exists_of_expect hexpect
  obtain ⟨heq, next2, rest2, hnext2, rfl⟩ := exists_of_shift hshift2
  cases heq
  -- the value
  have hfuel := length_rest_le hstanding1 hst.length_eq
  obtain ⟨hst2, hpending2⟩ :=
    (derives_token (by decide) _ hexpect).passes h (by decide) ⟨hst.length_eq, hstanding1⟩
  obtain ⟨hst', hpending'⟩ := ((exprsDerive fuel).expression _ hexpression).passes h (by decide) hst2
  refine ⟨hst', Token.chars st.rest, (name, e), ?_, rfl, hname, ?_, ?_⟩
  · have hpending : st.pending = Token.chars st.rest :: tails (Token.chars st.rest) := by
      simp only [ParserState.pending, Directive.pending, ht, hterminal, if_true]
    rw [hpending, htails, hpending', hpending2]
    rfl
  · intro c cs hvalue hc
    obtain ⟨v, rfl, hv, htext⟩ := Token.next_value_number hvalue hc hrest1 hfuel hnext2
    exact ⟨v, (head_of_literal rfl).1 hv hexpression, htext⟩
  · intro cs hvalue
    obtain ⟨v, rfl, hv, hprefix⟩ := Token.next_value_character hvalue hrest1 hfuel hnext2
    exact ⟨v, (head_of_literal rfl).2 hv.terminal_eq hexpression, hv, hprefix⟩

/-- An item: the directives that come with it are those that are no longer pending behind it. -/
theorem reads_item (h : Orderly text) (hst : st.Inside text) (htakes : Takes (item fuel) st i st')
    (hplain : ∀ file, i ≠ .includes file) :
    st'.Inside text ∧ ∃ here, st.pending = here ++ st'.pending ∧
      List.Forall₂ Directive.Reads here i.directive?.toList := by
  obtain ⟨o, st1, ho, htakes⟩ := takes_bind.mp htakes
  obtain ⟨rfl, rfl⟩ := takes_ahead_iff.mp ho
  split at htakes
  · -- an include
    obtain ⟨_, _, -, htakes⟩ := takes_bind.mp htakes
    obtain ⟨file, _, -, htakes⟩ := takes_bind.mp htakes
    exact absurd (takes_pure_iff.mp htakes).1 (hplain file)
  · next hahead =>
    obtain ⟨hst', tail, d, hpending, hd, hreads⟩ := reads_define h hst hahead htakes
    refine ⟨hst', [tail], hpending, ?_⟩
    rw [hd]
    exact .cons hreads .nil
  · next hahead =>
    obtain ⟨hderived, _, _, _, rfl⟩ := ensures_function fuel hahead htakes
    obtain ⟨hst', hpending⟩ := hderived.passes h (by decide) hst
    exact ⟨hst', [], hpending.symm, .nil⟩
  · obtain ⟨s, st2, hs, htakes⟩ := takes_bind.mp htakes
    obtain ⟨rfl, rfl⟩ := takes_pure_iff.mp htakes
    obtain ⟨hst', hpending⟩ := ((statements_derive fuel).1 _ hs).passes h (by decide) hst
    exact ⟨hst', [], hpending.symm, .nil⟩

theorem reads_items (h : Orderly text) {inner : Nat} {is : List Item} (hst : st.Inside text)
    (htakes : Takes (items inner fuel) st is st') (hplain : ∀ file, .includes file ∉ is) :
    List.Forall₂ Directive.Reads st.pending (is.filterMap Item.directive?) := by
  induction fuel generalizing st is with
  | zero => exact absurd htakes not_takes_refuse
  | succ fuel ih =>
    obtain ⟨o, st1, ho, htakes⟩ := takes_bind.mp htakes
    obtain ⟨rfl, rfl⟩ := takes_ahead_iff.mp ho
    split at htakes
    · next hahead =>
      obtain ⟨rfl, -⟩ := takes_pure_iff.mp htakes
      have hnil : st1.pending = [] := by
        rw [ParserState.pending, Option.map_eq_none_iff.mp hahead, Directive.pending]
      rw [hnil]
      exact .nil
    · obtain ⟨i, st2, hi, htakes⟩ := takes_bind.mp htakes
      obtain ⟨rest, st3, hrest, htakes⟩ := takes_bind.mp htakes
      obtain ⟨rfl, rfl⟩ := takes_pure_iff.mp htakes
      obtain ⟨hst2, here, hpending, hreads⟩ := reads_item h hst hi fun file heq =>
        hplain file (by rw [heq]; exact List.mem_cons_self)
      have hbehind := ih hst2 hrest fun file hmem => hplain file (List.mem_cons_of_mem i hmem)
      have hcons : (i :: rest).filterMap Item.directive? =
          i.directive?.toList ++ rest.filterMap Item.directive? := by
        rw [List.filterMap_cons]
        cases i.directive? <;> rfl
      rw [hpending, hcons]
      exact List.rel_append hreads hbehind

end Parser

/-- **The directives of the syntax tree are those of the text**, in the order of the text. -/
theorem Source.parse_directives {text : List Char} (h : Orderly text) {source : Source}
    (hparse : Source.parse text = .ok source) (hplain : ∀ file, .includes file ∉ source.items) :
    List.Forall₂ Directive.Reads (tails text) source.directives := by
  obtain ⟨length, fuel, ahead, rest, st', hlength, hnext, hitems⟩ := Source.exists_of_parse hparse
  have hchars := Glyph.chars_ofChars text
  obtain ⟨hstanding, hpending⟩ := Token.next_pending h (by decide) (by rw [hchars]) hnext
  rw [← hchars, hpending]
  exact Parser.reads_items h ⟨hlength, hstanding⟩ hitems hplain

end TapeScript
