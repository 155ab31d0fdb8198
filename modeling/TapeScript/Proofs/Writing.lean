import TapeScript.Grammar.Tree
import TapeScript.Proofs.Layout

set_option autoImplicit false

/-! # Writing programs

How a tree is written as a sequence of lexemes. Parentheses stand at least where the levels of the
operators and the chaining from left to right need them, and any operand may be put in more of them
(`Phrase.Written`, `Clause.Written`). The trees that are written are those the grammar has
(`Stmt.Proper`): their tokens are spelled as their terminals are, and an `else` does not come behind a
branch that would take it for its own.
-/

namespace TapeScript

/-! ## Trees without places -/

def Token.bare (t : Token) : Token := { t with line := 0, column := 0 }

theorem Token.bare_eq {t t' : Token} (h : t'.lexeme = t.lexeme) : t'.bare = t.bare := by
  obtain ⟨hterminal, htext⟩ := Lexeme.mk.inj h
  rw [bare, bare, hterminal, htext]

mutual

/-- An expression without the places of its tokens. -/
def Expr.bare : Expr → Expr
  | .number t => .number t.bare
  | .character t => .character t.bare
  | .name t => .name t.bare
  | .call f as => .call f.bare (bareAll as)
  | .peek t => .peek t.bare
  | .pop t => .pop t.bare
  | .input => .input
  | .unary sign e => .unary sign.bare e.bare
  | .chain level first rest => .chain level first.bare (bareRest rest)

def bareAll : List Expr → List Expr
  | [] => []
  | e :: es => e.bare :: bareAll es

def bareRest : List (Token × Expr) → List (Token × Expr)
  | [] => []
  | (op, e) :: rest => (op.bare, e.bare) :: bareRest rest

end

mutual

/-- A statement without the places of its tokens. -/
def Stmt.bare : Stmt → Stmt
  | .variable name none => .variable name.bare none
  | .variable name (some e) => .variable name.bare (some e.bare)
  | .stack name size => .stack name.bare size.bare
  | .assign name e => .assign name.bare e.bare
  | .expr e => .expr e.bare
  | .push name e => .push name.bare e.bare
  | .output e => .output e.bare
  | .ifElse c body none => .ifElse c.bare body.bare none
  | .ifElse c body (some other) => .ifElse c.bare body.bare (some other.bare)
  | .loop c body => .loop c.bare body.bare
  | .returning none => .returning none
  | .returning (some e) => .returning (some e.bare)
  | .block body => .block (bareStmts body)

def bareStmts : List Stmt → List Stmt
  | [] => []
  | s :: ss => s.bare :: bareStmts ss

end

/-! ## The trees of the grammar -/

/-- A letter or an underscore, and then letters, digits and underscores. -/
def IsIdentifier (word : String) : Prop :=
  ∃ c cs, word.toList = c :: cs ∧ Token.isNameStart c = true ∧ ∀ d ∈ cs, Token.isNameChar d = true

namespace Token

structure IsNumber (t : Token) : Prop where
  terminal_eq : t.terminal = .number
  ne_nil : t.text.toList ≠ []
  digits : ∀ c ∈ t.text.toList, Text.isDecimal c = true

/-- A character in single quotes, or an escape. -/
structure IsCharacter (t : Token) : Prop where
  terminal_eq : t.terminal = .charLiteral
  text_eq : (∃ c, c ≠ '\'' ∧ c ≠ '\\' ∧ t.text.toList = ['\'', c, '\'']) ∨
    ∃ c ∈ ['n', 't', '\\', '\''], t.text.toList = ['\'', '\\', c, '\'']

/-- A name that is used; it is not spelled like a keyword. -/
structure IsName (t : Token) : Prop where
  terminal_eq : t.terminal = .declaredName
  identifier : IsIdentifier t.text
  not_keyword : ∀ k : Terminal, k.literal? ≠ some t.text

/-- A name that is declared. -/
structure IsNewName (t : Token) : Prop where
  terminal_eq : t.terminal = .newName
  identifier : IsIdentifier t.text

def IsSign (t : Token) : Prop :=
  t.lexeme = Terminal.positive.lexeme ∨ t.lexeme = Terminal.negative.lexeme

def IsOperator (level : Level) (t : Token) : Prop :=
  ∃ op ∈ level.operators, t.lexeme = op.lexeme

end Token

mutual

def Expr.Proper : Expr → Prop
  | .number t => t.IsNumber
  | .character t => t.IsCharacter
  | .name t => t.IsName
  | .call f as => f.IsName ∧ ProperAll as
  | .peek t => t.IsName
  | .pop t => t.IsName
  | .input => True
  | .unary sign e => sign.IsSign ∧ e.Proper
  | .chain level first rest => first.Proper ∧ rest ≠ [] ∧ ProperRest level rest

def ProperAll : List Expr → Prop
  | [] => True
  | e :: es => e.Proper ∧ ProperAll es

def ProperRest (level : Level) : List (Token × Expr) → Prop
  | [] => True
  | (op, e) :: rest => op.IsOperator level ∧ e.Proper ∧ ProperRest level rest

end

/-- A statement that ends in an `if` without `else`. -/
def Stmt.endsOpen : Stmt → Bool
  | .ifElse _ _ none => true
  | .ifElse _ _ (some other) => other.endsOpen
  | .loop _ body => body.endsOpen
  | _ => false

mutual

/-- In front of an `else` no statement ends in an `if` without one. -/
def Stmt.Proper : Stmt → Prop
  | .variable name none => name.IsNewName
  | .variable name (some e) => name.IsNewName ∧ e.Proper
  | .stack name size => name.IsNewName ∧ size.Proper
  | .assign name e => name.IsName ∧ e.Proper
  | .expr e => e.Proper
  | .push name e => name.IsName ∧ e.Proper
  | .output e => e.Proper
  | .ifElse c body none => c.Proper ∧ body.Proper
  | .ifElse c body (some other) =>
    c.Proper ∧ body.Proper ∧ other.Proper ∧ body.endsOpen = false
  | .loop c body => c.Proper ∧ body.Proper
  | .returning none => True
  | .returning (some e) => e.Proper
  | .block body => ProperStmts body

def ProperStmts : List Stmt → Prop
  | [] => True
  | s :: ss => s.Proper ∧ ProperStmts ss

end

/-! ## Writing expressions -/

/-- The level of the operands of a level; the operands of a term have no operators. -/
def Level.tighter : Level → Option Level
  | .comparison => some .arithmetic
  | .arithmetic => some .term
  | .term => none

/-- What an expression is made of: an expression whose operators outside parentheses are of a given
level or tighter ones (`none` if there are no operators), the operators and operands behind the
first operand of a chain, and the arguments of a call behind the first. -/
inductive Phrase where
  | expr (level : Option Level) (e : Expr)
  | rest (level : Level) (rest : List (Token × Expr))
  | arguments (es : List Expr)

open Terminal in
/-- The lexemes that an expression can be written as. -/
inductive Phrase.Written : Phrase → List Lexeme → Prop where
  | number (t : Token) : Written (.expr none (.number t)) [t.lexeme]
  | character (t : Token) : Written (.expr none (.character t)) [t.lexeme]
  | name (t : Token) : Written (.expr none (.name t)) [t.lexeme]
  | emptyCall (f : Token) :
      Written (.expr none (.call f [])) [f.lexeme, parenOpen.lexeme, parenClose.lexeme]
  | call (f : Token) {a : Expr} {as : List Expr} {xs ys : List Lexeme}
      (ha : Written (.expr (some .comparison) a) xs) (has : Written (.arguments as) ys) :
      Written (.expr none (.call f (a :: as)))
        (f.lexeme :: parenOpen.lexeme :: (xs ++ (ys ++ [parenClose.lexeme])))
  | peek (t : Token) : Written (.expr none (.peek t))
      [t.lexeme, dot.lexeme, Terminal.peek.lexeme, parenOpen.lexeme, parenClose.lexeme]
  | pop (t : Token) : Written (.expr none (.pop t))
      [t.lexeme, dot.lexeme, Terminal.pop.lexeme, parenOpen.lexeme, parenClose.lexeme]
  | input : Written (.expr none .input)
      [Terminal.input.lexeme, parenOpen.lexeme, parenClose.lexeme]
  | unary (sign : Token) {e : Expr} {xs : List Lexeme} (he : Written (.expr none e) xs) :
      Written (.expr none (.unary sign e)) (sign.lexeme :: xs)
  | parens {e : Expr} {xs : List Lexeme} (he : Written (.expr (some .comparison) e) xs) :
      Written (.expr none e) (parenOpen.lexeme :: (xs ++ [parenClose.lexeme]))
  | alone {level : Level} {e : Expr} {xs : List Lexeme}
      (he : Written (.expr level.tighter e) xs) : Written (.expr (some level) e) xs
  | chain {level : Level} {first : Expr} {rest : List (Token × Expr)} {xs ys : List Lexeme}
      (hfirst : Written (.expr level.tighter first) xs) (hrest : Written (.rest level rest) ys) :
      Written (.expr (some level) (.chain level first rest)) (xs ++ ys)
  | restNil (level : Level) : Written (.rest level []) []
  | restCons (op : Token) {level : Level} {e : Expr} {rest : List (Token × Expr)}
      {xs ys : List Lexeme} (he : Written (.expr level.tighter e) xs)
      (hrest : Written (.rest level rest) ys) :
      Written (.rest level ((op, e) :: rest)) (op.lexeme :: (xs ++ ys))
  | argumentsNil : Written (.arguments []) []
  | argumentsCons {e : Expr} {es : List Expr} {xs ys : List Lexeme}
      (he : Written (.expr (some .comparison) e) xs) (hes : Written (.arguments es) ys) :
      Written (.arguments (e :: es)) (comma.lexeme :: (xs ++ ys))

/-- An expression as it is written where any operators may stand. -/
abbrev Expr.Written (e : Expr) (xs : List Lexeme) : Prop :=
  Phrase.Written (.expr (some .comparison) e) xs

/-! ## Writing statements -/

/-- A statement, or several. -/
inductive Clause where
  | stmt (s : Stmt)
  | stmts (ss : List Stmt)

open Terminal in
/-- The lexemes that statements can be written as. -/
inductive Clause.Written : Clause → List Lexeme → Prop where
  | uninitialised (name : Token) :
      Written (.stmt (.variable name none)) [sizeT.lexeme, name.lexeme, semicolon.lexeme]
  | initialised (name : Token) {e : Expr} {xs : List Lexeme} (he : e.Written xs) :
      Written (.stmt (.variable name (some e)))
        (sizeT.lexeme :: name.lexeme :: Terminal.assign.lexeme :: (xs ++ [semicolon.lexeme]))
  | stack (name : Token) {size : Expr} {xs : List Lexeme} (hsize : size.Written xs) :
      Written (.stmt (.stack name size)) (Terminal.stack.lexeme :: name.lexeme ::
        bracketOpen.lexeme :: (xs ++ [bracketClose.lexeme, semicolon.lexeme]))
  | assign (name : Token) {e : Expr} {xs : List Lexeme} (he : e.Written xs) :
      Written (.stmt (.assign name e))
        (name.lexeme :: Terminal.assign.lexeme :: (xs ++ [semicolon.lexeme]))
  | expr {e : Expr} {xs : List Lexeme} (he : e.Written xs) :
      Written (.stmt (.expr e)) (xs ++ [semicolon.lexeme])
  | push (name : Token) {e : Expr} {xs : List Lexeme} (he : e.Written xs) :
      Written (.stmt (.push name e)) (name.lexeme :: dot.lexeme :: Terminal.push.lexeme ::
        parenOpen.lexeme :: (xs ++ [parenClose.lexeme, semicolon.lexeme]))
  | output {e : Expr} {xs : List Lexeme} (he : e.Written xs) :
      Written (.stmt (.output e)) (Terminal.output.lexeme :: parenOpen.lexeme ::
        (xs ++ [parenClose.lexeme, semicolon.lexeme]))
  | ifOnly {c : Expr} {body : Stmt} {xs ys : List Lexeme} (hc : c.Written xs)
      (hbody : Written (.stmt body) ys) : Written (.stmt (.ifElse c body none))
        (ifWord.lexeme :: parenOpen.lexeme :: (xs ++ parenClose.lexeme :: ys))
  | ifElse {c : Expr} {body other : Stmt} {xs ys zs : List Lexeme} (hc : c.Written xs)
      (hbody : Written (.stmt body) ys) (hother : Written (.stmt other) zs) :
      Written (.stmt (.ifElse c body (some other))) (ifWord.lexeme :: parenOpen.lexeme ::
        (xs ++ parenClose.lexeme :: (ys ++ elseWord.lexeme :: zs)))
  | loop {c : Expr} {body : Stmt} {xs ys : List Lexeme} (hc : c.Written xs)
      (hbody : Written (.stmt body) ys) : Written (.stmt (.loop c body))
        (whileWord.lexeme :: parenOpen.lexeme :: (xs ++ parenClose.lexeme :: ys))
  | returnOnly : Written (.stmt (.returning none)) [returnWord.lexeme, semicolon.lexeme]
  | returning {e : Expr} {xs : List Lexeme} (he : e.Written xs) :
      Written (.stmt (.returning (some e))) (returnWord.lexeme :: (xs ++ [semicolon.lexeme]))
  | block {body : List Stmt} {xs : List Lexeme} (hbody : Written (.stmts body) xs) :
      Written (.stmt (.block body)) (braceOpen.lexeme :: (xs ++ [braceClose.lexeme]))
  | nil : Written (.stmts []) []
  | cons {s : Stmt} {ss : List Stmt} {xs ys : List Lexeme} (hs : Written (.stmt s) xs)
      (hss : Written (.stmts ss) ys) : Written (.stmts (s :: ss)) (xs ++ ys)

/-! ## Every tree can be written -/

namespace Phrase.Written

variable {level : Level} {e : Expr} {xs : List Lexeme}

/-- Where looser operators may stand an expression is written as before. -/
theorem widen (h : Written (.expr (some level) e) xs) : e.Written xs := by
  cases level with
  | comparison => exact h
  | arithmetic => exact .alone h
  | term => exact .alone (.alone h)

theorem loosen (h : Written (.expr none e) xs) (level : Level) :
    Written (.expr (some level) e) xs := by
  cases level with
  | comparison => exact .alone (.alone (.alone h))
  | arithmetic => exact .alone (.alone h)
  | term => exact .alone h

theorem operand (h : Written (.expr none e) xs) (level : Level) :
    Written (.expr level.tighter e) xs := by
  cases level with
  | comparison => exact h.loosen .arithmetic
  | arithmetic => exact h.loosen .term
  | term => exact h

end Phrase.Written

mutual

theorem Expr.exists_written : ∀ e : Expr, ∃ xs, Phrase.Written (.expr none e) xs
  | .number t => ⟨_, .number t⟩
  | .character t => ⟨_, .character t⟩
  | .name t => ⟨_, .name t⟩
  | .call f [] => ⟨_, .emptyCall f⟩
  | .call f (a :: as) => by
    obtain ⟨xs, hxs⟩ := Expr.exists_written a
    obtain ⟨ys, hys⟩ := exists_written_arguments as
    exact ⟨_, .call f (hxs.loosen .comparison) hys⟩
  | .peek t => ⟨_, .peek t⟩
  | .pop t => ⟨_, .pop t⟩
  | .input => ⟨_, .input⟩
  | .unary sign e => by
    obtain ⟨xs, hxs⟩ := Expr.exists_written e
    exact ⟨_, .unary sign hxs⟩
  | .chain level first rest => by
    obtain ⟨xs, hxs⟩ := Expr.exists_written first
    obtain ⟨ys, hys⟩ := exists_written_rest level rest
    exact ⟨_, .parens (Phrase.Written.chain (hxs.operand level) hys).widen⟩

theorem exists_written_arguments : ∀ es : List Expr, ∃ xs, Phrase.Written (.arguments es) xs
  | [] => ⟨[], .argumentsNil⟩
  | e :: es => by
    obtain ⟨xs, hxs⟩ := Expr.exists_written e
    obtain ⟨ys, hys⟩ := exists_written_arguments es
    exact ⟨_, .argumentsCons (hxs.loosen .comparison) hys⟩

theorem exists_written_rest (level : Level) :
    ∀ rest : List (Token × Expr), ∃ xs, Phrase.Written (.rest level rest) xs
  | [] => ⟨[], .restNil level⟩
  | (op, e) :: rest => by
    obtain ⟨xs, hxs⟩ := Expr.exists_written e
    obtain ⟨ys, hys⟩ := exists_written_rest level rest
    exact ⟨_, .restCons op (hxs.operand level) hys⟩

end

theorem Expr.exists_written_loose (e : Expr) : ∃ xs, e.Written xs := by
  obtain ⟨xs, hxs⟩ := e.exists_written
  exact ⟨xs, hxs.loosen .comparison⟩

mutual

theorem Stmt.exists_written : ∀ s : Stmt, ∃ xs, Clause.Written (.stmt s) xs
  | .variable name none => ⟨_, .uninitialised name⟩
  | .variable name (some e) => by
    obtain ⟨xs, hxs⟩ := e.exists_written_loose
    exact ⟨_, .initialised name hxs⟩
  | .stack name size => by
    obtain ⟨xs, hxs⟩ := size.exists_written_loose
    exact ⟨_, .stack name hxs⟩
  | .assign name e => by
    obtain ⟨xs, hxs⟩ := e.exists_written_loose
    exact ⟨_, .assign name hxs⟩
  | .expr e => by
    obtain ⟨xs, hxs⟩ := e.exists_written_loose
    exact ⟨_, .expr hxs⟩
  | .push name e => by
    obtain ⟨xs, hxs⟩ := e.exists_written_loose
    exact ⟨_, .push name hxs⟩
  | .output e => by
    obtain ⟨xs, hxs⟩ := e.exists_written_loose
    exact ⟨_, .output hxs⟩
  | .ifElse c body none => by
    obtain ⟨xs, hxs⟩ := c.exists_written_loose
    obtain ⟨ys, hys⟩ := Stmt.exists_written body
    exact ⟨_, .ifOnly hxs hys⟩
  | .ifElse c body (some other) => by
    obtain ⟨xs, hxs⟩ := c.exists_written_loose
    obtain ⟨ys, hys⟩ := Stmt.exists_written body
    obtain ⟨zs, hzs⟩ := Stmt.exists_written other
    exact ⟨_, .ifElse hxs hys hzs⟩
  | .loop c body => by
    obtain ⟨xs, hxs⟩ := c.exists_written_loose
    obtain ⟨ys, hys⟩ := Stmt.exists_written body
    exact ⟨_, .loop hxs hys⟩
  | .returning none => ⟨_, .returnOnly⟩
  | .returning (some e) => by
    obtain ⟨xs, hxs⟩ := e.exists_written_loose
    exact ⟨_, .returning hxs⟩
  | .block body => by
    obtain ⟨xs, hxs⟩ := exists_written_stmts body
    exact ⟨_, .block hxs⟩

theorem exists_written_stmts : ∀ ss : List Stmt, ∃ xs, Clause.Written (.stmts ss) xs
  | [] => ⟨[], .nil⟩
  | s :: ss => by
    obtain ⟨xs, hxs⟩ := Stmt.exists_written s
    obtain ⟨ys, hys⟩ := exists_written_stmts ss
    exact ⟨_, .cons hxs hys⟩

end

/-! ## Finding the tokens of a tree -/

namespace Token

variable {c : Char} {t : Token} {mode : Mode}

theorem chars_takeWhile_eq {p : Char → Bool} {cs : List Char} (h : ∀ c ∈ cs, p c = true) :
    chars ((Glyph.ofChars cs).takeWhile fun g => p g.char) = cs := by
  rw [chars_takeWhile, Glyph.chars_ofChars, List.takeWhile_eq_self_iff]
  exact h

theorem isNameChar_of_start (h : isNameStart c = true) : isNameChar c = true := by
  simp only [isNameStart, isNameChar, Char.isAlphanum, Bool.or_eq_true] at h ⊢
  rcases h with h | h
  · exact .inl (.inl h)
  · exact .inr h

/-- The glyphs of a text that is not empty. -/
theorem ofChars_cons (c : Char) (cs : List Char) :
    ∃ g gs, Glyph.ofChars (c :: cs) = g :: gs ∧ g.char = c := by
  have hchars := Glyph.chars_ofChars (c :: cs)
  obtain ⟨g, gs, hgs, hg, -⟩ := List.map_eq_cons_iff.mp hchars
  exact ⟨g, gs, hgs, hg⟩

/-- A token whose first character is neither a blank nor a slash is not skipped. -/
theorem solid_of_cons {cs : List Char} (h : t.text.toList = c :: cs) (hbreak : isBreak c = false)
    (hslash : c ≠ '/') : t.lexeme.Solid := by
  have htext : t.lexeme.text.toList = c :: cs := h
  rw [Lexeme.Solid, htext]
  exact ⟨hbreak, fun heq => absurd heq hslash⟩

theorem solid_of_identifier (h : IsIdentifier t.text) : t.lexeme.Solid := by
  obtain ⟨c, cs, htext, hstart, -⟩ := h
  refine solid_of_cons htext ?_ ?_
  · by_contra hbreak
    have hname := isNameChar_of_break c (Bool.not_eq_false _ ▸ hbreak)
    rw [isNameChar_of_start hstart] at hname
    cases hname
  · rintro rfl
    revert hstart
    decide

/-- An identifier is found where a name is expected; it is a keyword only if it is spelled like an
expected one. -/
theorem matchExpected_identifier {expected : List Terminal} {name : Terminal}
    (hname : (expected.find? fun t => t = .declaredName ∨ t = .newName) = some name) {word : String}
    (hword : IsIdentifier word) :
    matchExpected expected (Glyph.ofChars word.toList) =
      some (wordTerminal expected name word, word.toList.length) := by
  obtain ⟨c, cs, htext, hstart, hrest⟩ := hword
  have hall : ∀ d ∈ word.toList, isNameChar d = true := by
    rw [htext]
    exact List.forall_mem_cons.mpr ⟨isNameChar_of_start hstart, hrest⟩
  have hown := chars_takeWhile_eq hall
  obtain ⟨g, gs, hgs, hg⟩ := ofChars_cons c cs
  rw [← htext] at hgs
  rw [hgs] at hown ⊢
  simp only [matchExpected, hg, hstart, if_true, hname]
  rw [show ((g :: gs).takeWhile fun g => isNameChar g.char).map Glyph.char = word.toList from hown,
    String.ofList_toList]

theorem IsName.reads (h : t.IsName)
    (hmode : (mode.terminals.find? fun t => t = .declaredName ∨ t = .newName) = some .declaredName) :
    mode.Reads t.lexeme := by
  refine ⟨solid_of_identifier h.identifier, ?_⟩
  have hword : wordTerminal mode.terminals .declaredName t.text = t.terminal := by
    have hnone : (mode.terminals.find? fun k => k.literal? = some t.text) = none :=
      List.find?_eq_none.mpr fun k _ => by simpa using h.not_keyword k
    rw [wordTerminal, hnone, h.terminal_eq]
    rfl
  show matchExpected mode.terminals (Glyph.ofChars t.text.toList) = _
  rw [matchExpected_identifier hmode h.identifier, hword]
  rfl

theorem IsNewName.reads (h : t.IsNewName) : Mode.newName.Reads t.lexeme := by
  refine ⟨solid_of_identifier h.identifier, ?_⟩
  have hword : wordTerminal Mode.newName.terminals .newName t.text = t.terminal := by
    rw [h.terminal_eq]
    rfl
  show matchExpected Mode.newName.terminals (Glyph.ofChars t.text.toList) = _
  rw [matchExpected_identifier rfl h.identifier, hword]
  rfl

/-- Where digits lie among the characters. -/
theorem code_of_isDecimal (h : Text.isDecimal c = true) :
    (48 ≤ c.toNat ∧ c.toNat < 58) ∨ 1632 ≤ c.toNat := by
  obtain ⟨value, hvalue⟩ := Option.isSome_iff_exists.mp h
  obtain ⟨start, hfind, -⟩ := Option.map_eq_some_iff.mp hvalue
  have hrange := List.find?_some hfind
  have hstart : ∀ start ∈ Text.decimalZeros, start = 48 ∨ 1632 ≤ start := by decide
  simp only [Bool.and_eq_true, decide_eq_true_eq] at hrange
  rcases hstart start (List.mem_of_find?_eq_some hfind) with rfl | hlarge
  · exact .inl ⟨hrange.1, hrange.2⟩
  · exact .inr (by omega)

theorem not_isNameStart_of_isDecimal (h : Text.isDecimal c = true) : isNameStart c = false := by
  have hcode := code_of_isDecimal h
  by_contra hstart
  rw [Bool.not_eq_false] at hstart
  unfold isNameStart Char.isAlpha Char.isUpper Char.isLower at hstart
  simp only [Bool.or_eq_true,
    Bool.and_eq_true, decide_eq_true_eq, ge_iff_le, UInt32.le_iff_toNat_le] at hstart
  have hval : c.val.toNat = c.toNat := rfl
  rcases hstart with (hupper | hlower) | rfl
  · have hcodes : 'A'.val.toNat = 65 ∧ 'Z'.val.toNat = 90 := by decide
    omega
  · have hcodes : 'a'.val.toNat = 97 ∧ 'z'.val.toNat = 122 := by decide
    omega
  · revert hcode
    decide

theorem IsNumber.reads (h : t.IsNumber) (hmode : .number ∈ mode.terminals) :
    mode.Reads t.lexeme := by
  obtain ⟨c, cs, htext⟩ := List.exists_cons_of_ne_nil h.ne_nil
  have hdigit : Text.isDecimal c = true := h.digits c (by rw [htext]; simp)
  have hcode := code_of_isDecimal hdigit
  have hown := congrArg List.length (chars_takeWhile_eq h.digits)
  obtain ⟨g, gs, hgs, hg⟩ := ofChars_cons c cs
  rw [← htext] at hgs
  refine ⟨solid_of_cons htext ?_ ?_, ?_⟩
  · by_contra hbreak
    rw [isDecimal_of_break c (Bool.not_eq_false _ ▸ hbreak)] at hdigit
    cases hdigit
  · rintro rfl
    revert hcode
    decide
  · show matchExpected mode.terminals (Glyph.ofChars t.text.toList) = _
    rw [hgs, chars, List.length_map] at hown
    rw [hgs]
    simp only [matchExpected, hg, not_isNameStart_of_isDecimal hdigit, hdigit, hmode, if_true]
    rw [hown, lexeme, h.terminal_eq]
    rfl

theorem matchExpected_ofChars (expected : List Terminal) (cs : List Char) :
    matchExpected expected (Glyph.ofChars cs) =
      matchExpected expected (cs.map fun c => ⟨c, 1, 1⟩) := by
  refine matchExpected_congr expected ?_
  rw [Glyph.chars_ofChars, chars, List.map_map]
  exact (List.map_id cs).symm

theorem IsCharacter.reads (h : t.IsCharacter) (hmode : .charLiteral ∈ mode.terminals) :
    mode.Reads t.lexeme := by
  have hquote : isNameStart '\'' = false ∧ Text.isDecimal '\'' = false := by decide
  have hmatch : matchExpected mode.terminals (t.text.toList.map fun c => ⟨c, 1, 1⟩) =
      some (.charLiteral, t.text.toList.length) := by
    rcases h.text_eq with ⟨c, hc, hc', htext⟩ | ⟨c, hc, htext⟩
    · simp [htext, matchExpected, charLiteralLength?, hquote, hmode, hc, hc']
    · have hescape : c = 'n' ∨ c = 't' ∨ c = '\\' ∨ c = '\'' := by simpa using hc
      simp [htext, matchExpected, charLiteralLength?, hquote, hmode, hescape]
  refine ⟨?_, ?_⟩
  · rcases h.text_eq with ⟨c, -, -, htext⟩ | ⟨c, -, htext⟩
    · exact solid_of_cons htext (by decide) (by decide)
    · exact solid_of_cons htext (by decide) (by decide)
  · rw [matchExpected_ofChars, lexeme, h.terminal_eq]
    exact hmatch

end Token

/-! ## The first lexeme -/

/-- What an expression can start with. -/
inductive Lexeme.StartsOperand : Lexeme → Prop where
  | name {t : Token} (h : t.IsName) : StartsOperand t.lexeme
  | number {t : Token} (h : t.IsNumber) : StartsOperand t.lexeme
  | character {t : Token} (h : t.IsCharacter) : StartsOperand t.lexeme
  | fixed {t : Terminal} (h : t ∈ [.parenOpen, .positive, .negative, .input]) :
      StartsOperand t.lexeme

theorem Lexeme.StartsOperand.terminal_mem {x : Lexeme} (h : x.StartsOperand) :
    x.terminal ∈ Terminal.operandStart := by
  cases h with
  | name h | number h | character h =>
    rw [Token.lexeme_terminal, h.terminal_eq]
    decide
  | fixed h => exact List.mem_append_right [.declaredName, .number, .charLiteral] h

/-- What a statement can start with. -/
inductive Lexeme.StartsStatement : Lexeme → Prop where
  | operand {x : Lexeme} (h : x.StartsOperand) : StartsStatement x
  | fixed {t : Terminal}
      (h : t ∈ [.braceOpen, .ifWord, .output, .returnWord, .sizeT, .stack, .whileWord]) :
      StartsStatement t.lexeme

theorem Lexeme.StartsStatement.terminal_mem {x : Lexeme} (h : x.StartsStatement) :
    x.terminal ∈ Terminal.statementStart := by
  cases h with
  | operand h => exact List.mem_append_left _ h.terminal_mem
  | fixed h => exact List.mem_append_right _ h

namespace Mode

variable {mode : Mode}

/-- The terminals with one spelling that a mode finds. Where a binary operator can come a sign is not
found. -/
def fixed (mode : Mode) : List Terminal :=
  mode.terminals.filter fun t =>
    t.literal?.isSome && !(t ∈ [.positive, .negative] && .plus ∈ mode.terminals)

theorem reads_fixed {t : Terminal} (h : t ∈ mode.fixed) : mode.Reads t.lexeme := by
  have hall : ∀ t ∈ mode.fixed, mode.Reads t.lexeme := by
    cases mode <;> decide
  exact hall t h

example : Token.matchExpected Mode.operand.terminals (Glyph.ofChars "-".toList) = some (.negative, 1) := by
  decide +kernel

/-- The modes in which a statement can come next. -/
def forStatements : List Mode := [.body, .blockStart, .fileStart, .afterStatement]

/-- The modes in which an expression can come next. -/
def forOperands : List Mode := [.operand, .operandOrSemicolon, .operandOrClose] ++ forStatements

theorem reads_operand (hmode : mode ∈ forOperands) {x : Lexeme} (h : x.StartsOperand) :
    mode.Reads x := by
  have hname : ∀ mode ∈ forOperands,
      (mode.terminals.find? fun t => t = .declaredName ∨ t = .newName) = some .declaredName := by
    decide
  have hnumber : ∀ mode ∈ forOperands, .number ∈ mode.terminals ∧ .charLiteral ∈ mode.terminals := by
    decide
  have hfixed : ∀ mode ∈ forOperands,
      ∀ t ∈ [Terminal.parenOpen, .positive, .negative, .input], t ∈ mode.fixed := by
    decide
  cases h with
  | name h => exact h.reads (hname mode hmode)
  | number h => exact h.reads (hnumber mode hmode).1
  | character h => exact h.reads (hnumber mode hmode).2
  | fixed h => exact reads_fixed (hfixed mode hmode _ h)

theorem reads_statement (hmode : mode ∈ forStatements) {x : Lexeme} (h : x.StartsStatement) :
    mode.Reads x := by
  have hfixed : ∀ mode ∈ forStatements,
      ∀ t ∈ [Terminal.braceOpen, .ifWord, .output, .returnWord, .sizeT, .stack, .whileWord],
        t ∈ mode.fixed := by
    decide
  cases h with
  | operand h => exact reads_operand (List.mem_append_right _ hmode) h
  | fixed h => exact reads_fixed (hfixed mode hmode _ h)

end Mode

/-- An expression starts with an operand, a sign or a parenthesis. -/
theorem Phrase.Written.exists_start {p : Phrase} {xs : List Lexeme} (h : p.Written xs) :
    ∀ {level : Option Level} {e : Expr}, p = .expr level e → e.Proper →
      ∃ x xs', xs = x :: xs' ∧ x.StartsOperand := by
  induction h with
  | number t =>
    rintro _ _ ⟨⟩ he
    rw [Expr.Proper] at he
    exact ⟨_, _, rfl, .number he⟩
  | character t =>
    rintro _ _ ⟨⟩ he
    rw [Expr.Proper] at he
    exact ⟨_, _, rfl, .character he⟩
  | name t | peek t | pop t =>
    rintro _ _ ⟨⟩ he
    rw [Expr.Proper] at he
    exact ⟨_, _, rfl, .name he⟩
  | emptyCall f | call f _ _ =>
    rintro _ _ ⟨⟩ he
    rw [Expr.Proper] at he
    exact ⟨_, _, rfl, .name he.1⟩
  | input | parens _ _ =>
    rintro _ _ ⟨⟩ _
    exact ⟨_, _, rfl, .fixed (by decide)⟩
  | unary sign _ _ =>
    rintro _ _ ⟨⟩ he
    rw [Expr.Proper] at he
    rcases he.1 with hsign | hsign
    · exact ⟨_, _, rfl, by rw [hsign]; exact .fixed (by decide)⟩
    · exact ⟨_, _, rfl, by rw [hsign]; exact .fixed (by decide)⟩
  | alone _ ih =>
    rintro _ _ ⟨⟩ he
    exact ih rfl he
  | chain _ _ ih _ =>
    rintro _ _ ⟨⟩ he
    rw [Expr.Proper] at he
    obtain ⟨x, xs', rfl, hx⟩ := ih rfl he.1
    exact ⟨x, _, List.cons_append, hx⟩
  | restNil _ | restCons _ _ _ _ _ | argumentsNil | argumentsCons _ _ _ _ => rintro _ _ ⟨⟩

theorem Clause.Written.exists_start {s : Stmt} {xs : List Lexeme} (h : Clause.Written (.stmt s) xs)
    (hs : s.Proper) : ∃ x xs', xs = x :: xs' ∧ x.StartsStatement := by
  cases h with
  | assign name _ | push name _ =>
    rw [Stmt.Proper] at hs
    exact ⟨_, _, rfl, .operand (.name hs.1)⟩
  | expr he =>
    rw [Stmt.Proper] at hs
    obtain ⟨x, xs', rfl, hx⟩ := he.exists_start rfl hs
    exact ⟨x, _, List.cons_append, .operand hx⟩
  | uninitialised _ | initialised _ _ | stack _ _ | output _ | ifOnly _ _ | ifElse _ _ _ | loop _ _
  | returnOnly | returning _ | block _ => exact ⟨_, _, rfl, .fixed (by decide)⟩

end TapeScript
