import TapeScript.Proofs.Derivations
import TapeScript.Proofs.ItemParsing

set_option autoImplicit false

/-! # Where an item ends

A define directive has no mark at its end: it ends where its value cannot go on. So what comes behind it
starts neither with a sign, which would be read as an operator, nor with a parenthesis if the value ends in a
name, which would be called (`Apart`). All that is read falls into items of which this is true
(`Source.exists_parts`).
-/

namespace TapeScript

/-! ## Signs behind an operand -/

namespace Token

variable {mode : Mode} {gs rest : List Glyph} {t : Terminal} {n fuel : Nat}

/-- A word is no sign. -/
theorem wordTerminal_ne_sign {name : Terminal} {word : String}
    (hname : name = .declaredName ∨ name = .newName)
    (hword : ∀ c ∈ word.toList, isNameChar c = true) (ht : t ∈ [Terminal.positive, .negative]) :
    wordTerminal mode.terminals name word ≠ t := by
  unfold wordTerminal
  cases hfind : mode.terminals.find? fun t => t.literal? = some word with
  | none =>
    rintro rfl
    rcases hname with rfl | rfl <;> revert ht <;> decide
  | some k =>
    rintro rfl
    have hliteral : k.literal? = some word := by simpa using List.find?_some hfind
    have hmark : ∀ k ∈ [Terminal.positive, .negative], ∀ word ∈ k.literal?,
        word.toList.all isNameChar = false := by decide
    have hother := hmark k ht word hliteral
    rw [List.all_eq_true.mpr hword] at hother
    cases hother

theorem literalMatch_of_sign (h : matchExpected mode.terminals gs = some (t, n))
    (ht : t ∈ [Terminal.positive, .negative]) : literalMatch mode.terminals gs = some (t, n) := by
  have hother : t ≠ .number ∧ t ≠ .charLiteral ∧ t ≠ .string := by
    refine ⟨?_, ?_, ?_⟩ <;> (rintro rfl; revert ht; decide)
  unfold matchExpected at h
  split at h
  · cases h
  · split_ifs at h with hstart hdecimal hnumber hquote hchar hdouble hstring
    · split at h
      · next name hname =>
        obtain ⟨hword, -⟩ := Prod.mk.inj (Option.some.inj h)
        refine absurd hword (wordTerminal_ne_sign (by simpa using List.find?_some hname) ?_ ht)
        intro c hc
        rw [String.toList_ofList] at hc
        obtain ⟨g, hg, rfl⟩ := List.mem_map.mp hc
        have hchar := List.mem_takeWhile_imp hg
        exact hchar
      · exact h
    · exact absurd (Prod.mk.inj (Option.some.inj h)).1.symm hother.1
    · obtain ⟨_, -, heq⟩ := Option.map_eq_some_iff.mp h
      exact absurd (Prod.mk.inj heq).1.symm hother.2.1
    · obtain ⟨_, -, heq⟩ := Option.map_eq_some_iff.mp h
      exact absurd (Prod.mk.inj heq).1.symm hother.2.2
    · exact h

/-- Where an operator can come, plus and minus are operators. -/
theorem next_not_sign (hmode : mode ∈ [Mode.afterOperand, .afterName]) {token : Token}
    (h : next fuel mode gs = .ok (some token, rest)) :
    token.terminal ∉ [Terminal.positive, .negative] := by
  rcases next_cases h with ⟨-, hnone, -⟩ | ⟨t, n, hmatch, htoken, -⟩
  · cases hnone
  · cases htoken
    intro (hsign : t ∈ _)
    have hbest := literalMatch_of_sign hmatch hsign
    -- the operator has the same text and is listed before the sign
    have hlisted : ∀ mode ∈ [Mode.afterOperand, .afterName], ∀ t ∈ [Terminal.positive, .negative],
        ∃ op ∈ mode.terminals, op.literal? = t.literal? ∧
          mode.terminals.idxOf op < mode.terminals.idxOf t := by decide
    obtain ⟨op, hop, htext, hbefore⟩ := hlisted mode hmode t hsign
    obtain ⟨-, hstarts⟩ := literalMatch_eq_some hbest
    have hstarts' : StartsAs (skipIgnored fuel gs) op n := by rwa [StartsAs, htext]
    obtain ⟨t', n', hbest', hfirst⟩ := literalMatch_first hop hstarts'
    cases hbest.symm.trans hbest'
    omega

end Token

namespace Parser

/-! ## Behind an expression -/

/-- The token ahead is no sign, and behind a name no parenthesis. -/
structure Rests (st : ParserState) : Prop where
  not_sign : ∀ t ∈ st.ahead, t.terminal ∉ [Terminal.positive, .negative]
  not_call : ∀ t ∈ st.ahead, t.terminal = .parenOpen → ∀ u ∈ st.last, u.terminal ≠ .declaredName

section Rests

variable {st : ParserState} {k : Terminal} {fuel : Nat}

theorem not_sign_shift {mode : Mode} (hmode : mode ∈ [Mode.afterOperand, .afterName]) :
    Ensures (shift mode) st fun _ st' =>
      ∀ u ∈ st'.ahead, u.terminal ∉ [Terminal.positive, .negative] := by
  intro t st' h
  obtain ⟨-, next, rest, hnext, rfl⟩ := exists_of_shift h
  rintro u rfl
  exact Token.next_not_sign hmode hnext

theorem rests_shift (hahead : st.ahead.map Token.terminal = some k) (hk : k ≠ .declaredName) :
    Ensures (shift .afterOperand) st fun _ => Rests := by
  intro t st' h
  refine ⟨not_sign_shift (by decide) h, fun _ _ _ u hu => ?_⟩
  obtain ⟨ht, next, rest, -, rfl⟩ := exists_of_shift h
  rw [ht] at hahead
  cases hu
  cases hahead
  exact hk

theorem rests_expect (hk : k ≠ .declaredName) : Ensures (expect k .afterOperand) st fun _ => Rests := by
  refine .look fun o hahead => ?_
  split
  · next ho => exact rests_shift (hahead.trans ho) hk
  · exact .refuse

theorem rests_emptyCall : Ensures emptyCall st fun _ => Rests :=
  .skip fun _ _ => .skip fun _ _ => .bind (rests_expect (by decide)) fun _ _ h => .pure h

theorem rests_stackOperation {name : Token} : Ensures (stackOperation name) st fun _ => Rests := by
  refine .look fun o _ => ?_
  split
  case h_1 | h_2 => exact .bind rests_emptyCall fun _ _ h => .pure h
  case h_3 => exact .refuse

/-- Behind a name alone no parenthesis is ahead, or it would be called. -/
theorem rests_named {name : Token}
    (hsign : ∀ t ∈ st.ahead, t.terminal ∉ [Terminal.positive, .negative]) :
    Ensures (named name fuel) st fun _ => Rests := by
  cases fuel with
  | zero => rw [named]; exact .refuse
  | succ fuel =>
    rw [named]
    refine .look fun o hahead => ?_
    split
    · -- a call, which ends in a parenthesis with or without arguments
      refine .skip fun _ _ => .look fun o hahead => ?_
      split
      · next ho => exact .bind (rests_shift (hahead.trans ho) (by decide)) fun _ _ h => .pure h
      · exact .skip fun _ _ => .skip fun _ _ => .bind (rests_expect (by decide)) fun _ _ h => .pure h
    · exact .skip fun _ _ => rests_stackOperation
    · next hopen _ =>
      refine .pure ⟨hsign, fun t ht hterminal => absurd ?_ hopen⟩
      rw [← hahead, Option.mem_def.mp ht, Option.map_some, hterminal]

theorem rests_factor : Ensures (factor fuel) st fun _ => Rests := by
  induction fuel generalizing st with
  | zero => rw [factor]; exact .refuse
  | succ fuel ih =>
    rw [factor]
    refine .look fun o hahead => ?_
    split
    case h_1 | h_2 => exact .skip fun _ _ => .bind ih fun _ _ h => .pure h -- a sign
    case h_3 | h_4 => exact .bind (rests_shift hahead (by decide)) fun _ _ h => .pure h -- a literal
    case h_5 => exact .bind (not_sign_shift (by decide)) fun _ _ => rests_named
    case h_6 => exact .bind rests_emptyCall fun _ _ h => .pure h
    case h_7 => exact .skip fun _ _ => .skip fun _ _ => .bind (rests_expect (by decide)) fun _ _ h => .pure h
    case h_8 => exact .refuse

section Chains

variable {operand : Parser Expr} (hoperand : ∀ st, Ensures operand st fun _ => Rests)

include hoperand

theorem rests_operands {operators : List Terminal} (hst : Rests st) :
    Ensures (operands operators operand fuel) st fun _ => Rests := by
  induction fuel generalizing st with
  | zero => exact .refuse
  | succ fuel ih =>
    refine .look fun o _ => ?_
    split
    · split
      · exact .skip fun _ _ => .bind (hoperand _) fun _ _ he => .bind (ih he) fun _ _ h => .pure h
      · exact .pure hst
    · exact .pure hst

theorem rests_chain {level : Level} {first : Expr} (hst : Rests st) :
    Ensures (chain level first operand fuel) st fun _ => Rests := by
  refine .bind (rests_operands hoperand hst) fun rest _ hrest => ?_
  split
  · exact .pure hrest
  · exact .pure hrest

end Chains

theorem rests_term : Ensures (term fuel) st fun _ => Rests := by
  cases fuel with
  | zero => rw [term]; exact .refuse
  | succ fuel => rw [term]; exact .bind rests_factor fun _ _ => rests_chain fun _ => rests_factor

theorem rests_arithmetic : Ensures (arithmetic fuel) st fun _ => Rests := by
  cases fuel with
  | zero => rw [arithmetic]; exact .refuse
  | succ fuel => rw [arithmetic]; exact .bind rests_term fun _ _ => rests_chain fun _ => rests_term

theorem rests_expression : Ensures (expression fuel) st fun _ => Rests := by
  cases fuel with
  | zero => rw [expression]; exact .refuse
  | succ fuel =>
    rw [expression]
    refine .bind rests_factor fun first _ hfirst => ?_
    cases fuel with
    | zero => rw [expressionFrom]; exact .refuse
    | succ fuel =>
      rw [expressionFrom]
      refine .bind (rests_chain (fun _ => rests_factor) hfirst) fun _ _ hterm => ?_
      exact .bind (rests_chain (fun _ => rests_term) hterm) fun _ _ => rests_chain fun _ => rests_arithmetic

end Rests

end Parser

/-! ## Items -/

namespace Parser

variable {st st' : ParserState}

theorem Consumes.head {xs : List Lexeme} (h : Consumes st xs st') :
    ∀ x ∈ xs.head?, ∃ t ∈ st.ahead, t.lexeme = x := by
  cases h with
  | nil => rintro x ⟨⟩
  | cons hshift _ _ =>
    rintro x ⟨⟩
    exact ⟨_, (exists_of_shift hshift).1, rfl⟩

theorem Consumes.getLast {xs : List Lexeme} (h : Consumes st xs st') :
    ∀ x ∈ xs.getLast?, ∃ t ∈ st'.last, t.lexeme = x := by
  induction h with
  | nil => rintro x ⟨⟩
  | @cons st st1 st' t mode xs hshift _ hrest ih =>
    cases hrest with
    | nil =>
      rintro x ⟨⟩
      obtain ⟨-, next, rest, -, rfl⟩ := exists_of_shift hshift
      exact ⟨t, rfl, rfl⟩
    | cons _ _ _ =>
      intro x hx
      rw [List.getLast?_cons_cons] at hx
      exact ih x hx

/-- What is taken behind an expression stands apart from it. -/
theorem apart_of_rests {st1 : ParserState} {d e more : List Lexeme} (hd : Consumes st d st1)
    (he : Consumes st1 (e ++ more) st')
    (hst1 : st.ahead.map Token.terminal = some .defineWord → Rests st1) : Apart d e := by
  intro hdefine x hx
  obtain ⟨y, hy, hyterminal⟩ := Option.map_eq_some_iff.mp hdefine
  obtain ⟨u, hu, rfl⟩ := hd.head y hy
  obtain ⟨t, ht, rfl⟩ := he.head x (by rw [List.head?_append, Option.mem_def.mp hx, Option.some_or]; rfl)
  have hrests := hst1 (by rw [Option.mem_def.mp hu, Option.map_some]; exact congrArg some hyterminal)
  refine ⟨hrests.not_sign t ht, ?_⟩
  rintro hopen ⟨z, hz, hname⟩
  obtain ⟨v, hv, rfl⟩ := hd.getLast z hz
  exact hrests.not_call t ht hopen v hv hname

theorem ensures_item (fuel : Nat) : Ensures (item fuel) st fun i st' =>
    Derived st (.rule .topLevelItem) i.tree.names st' ∧
      (st.ahead.map Token.terminal = some .defineWord → Rests st') := by
  refine .look fun o hahead => ?_
  rw [hahead]
  split
  · -- an include directive
    refine .bind (ensures_mark hahead (by decide)) fun _ _ hword => ?_
    refine hword.andThen (derives_token (by decide) _) fun file st1 hwhole => .pure ⟨?_, by rintro ⟨⟩⟩
    have hinclude : Derived st (.rule .includeDirective) _ st1 := hwhole.rule
    exact Derived.rule ((hinclude.choose (by decide)).congr (by simp [Item.tree]))
  · -- a define directive, the only item without a mark at its end
    refine .bind (ensures_mark hahead (by decide)) fun _ _ hword => ?_
    refine hword.andThen (derives_token (by decide) _) fun name _ hname => ?_
    refine .bind (((exprsDerive fuel).expression _).and rests_expression) ?_
    rintro value st1 ⟨hvalue, hrests⟩
    have hdefine : Derived st (.rule .defineDirective) _ st1 := (hname.seq hvalue).rule
    exact .pure ⟨Derived.rule ((hdefine.choose (by decide)).congr (by simp [Item.tree])), fun _ => hrests⟩
  · -- a function
    intro i st' h
    exact ⟨Derived.rule ((ensures_function fuel hahead h).1.choose (by decide)), by rintro ⟨⟩⟩
  · next hdefine _ => -- a statement
    refine .bind ((statements_derive fuel).1 _) fun s _ hs => .pure ?_
    exact ⟨Derived.rule (hs.choose (by decide)), fun hother => absurd hother hdefine⟩

/-- The items up to the end of the text. -/
theorem exists_parts {inner fuel : Nat} {is : List Item} (h : Takes (items inner fuel) st is st') :
    ∃ parts : List (List Lexeme), Consumes st parts.flatten st' ∧ st'.ahead = none ∧
      (∀ part ∈ parts, Pattern.Matches (.rule .topLevelItem) part) ∧ parts.IsChain Apart ∧
      Lexeme.names parts.flatten = namesOfAll (is.map Item.tree) := by
  induction fuel generalizing st is with
  | zero => exact absurd h not_takes_refuse
  | succ fuel ih =>
    obtain ⟨o, st1, ho, h⟩ := takes_bind.mp h
    obtain ⟨rfl, rfl⟩ := takes_ahead_iff.mp ho
    split at h
    · next hahead =>
      obtain ⟨rfl, rfl⟩ := takes_pure_iff.mp h
      refine ⟨[], .nil _, Option.map_eq_none_iff.mp hahead, ?_, .nil, ?_⟩
      · rintro _ ⟨⟩
      · simp [Lexeme.names]
    · obtain ⟨i, st2, hi, h⟩ := takes_bind.mp h
      obtain ⟨rest, st3, hrest, h⟩ := takes_bind.mp h
      obtain ⟨rfl, rfl⟩ := takes_pure_iff.mp h
      obtain ⟨⟨xs, hxs, hmatches, hnames⟩, hrests⟩ := ensures_item inner hi
      obtain ⟨parts, hparts, hend, hall, hchain, hnames'⟩ := ih hrest
      refine ⟨xs :: parts, hxs.append hparts, hend, List.forall_mem_cons.mpr ⟨hmatches, hall⟩, ?_, ?_⟩
      · cases parts with
        | nil => exact .singleton xs
        | cons e more => exact .cons_cons (apart_of_rests hxs hparts hrests) hchain
      · rw [List.flatten_cons, Lexeme.names_append, hnames, hnames', List.map_cons, namesOfAll_cons]

end Parser

/-- **What is read is derived, item by item**: the tokens of a text that is accepted, read in some way,
fall into items that stand apart, and their names are those of the tree. -/
theorem Source.exists_parts {xs : List Lexeme} {text : List Char} {source : Source}
    (hxs : ∀ x ∈ xs, x.Formed) (htext : LaidOut xs text) (h : Source.parse text = .ok source) :
    ∃ parts : List (List Lexeme), Recut xs parts.flatten ∧
      (∀ part ∈ parts, Pattern.Matches (.rule .topLevelItem) part) ∧ parts.IsChain Apart ∧
      Lexeme.names parts.flatten = source.tree.names := by
  obtain ⟨length, fuel, ahead, rest, st', hlength, hnext, hitems⟩ := Source.exists_of_parse h
  obtain ⟨parts, hparts, hend, hall, hchain, hnames⟩ := Parser.exists_parts hitems
  have hstands := Parser.stands_of_laidOut htext hxs hlength hnext
  refine ⟨parts, (Parser.recut_of_consumes hparts hend).1 xs hxs hstands, hall, hchain, ?_⟩
  rw [hnames, Source.tree, Tree.names_node]

end TapeScript
