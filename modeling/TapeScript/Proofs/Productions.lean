import TapeScript.Grammar.Tree
import TapeScript.Proofs.Layout

set_option autoImplicit false

/-! # The grammar of scripts

The context-free grammar by which scripts are written, rule by rule (`Rule.body`), and what it derives
(`Pattern.Matches`). The grammar knows nothing of a parser: it is ambiguous, since an `else` may belong
to any open `if`, and since nothing ends a define directive but the item behind it.

A property of rules that follows for each rule from its body holds of everything derived
(`Pattern.Matches.over`).
-/

namespace TapeScript

inductive Rule where
  | start
  | topLevelItem
  | includeDirective
  | defineDirective
  | functionDefinition
  | typeSpecifier
  | parameterList
  | parameter
  | block
  | statement
  | variableDeclaration
  | stackDeclaration
  | ifStatement
  | elseClause
  | whileStatement
  | returnStatement
  | assignment
  | pushStatement
  | outputStatement
  | lvalue
  | expression
  | comparison
  | arithmetic
  | term
  | factor
  | atom
  | stackPeek
  | stackPop
  | functionCall
  | argumentList
  | inputCall
  deriving DecidableEq

/-- The right-hand side of a rule. -/
inductive Pattern where
  | token (t : Terminal)
  | rule (r : Rule)
  | seq (p q : Pattern)
  | alt (p q : Pattern)
  | optional (p : Pattern)
  | many (p : Pattern)
  deriving DecidableEq

namespace Pattern

instance : Append Pattern := ⟨seq⟩

instance : OrOp Pattern := ⟨alt⟩

/-- Items with something between any two of them. -/
def separated (p between : Pattern) : Pattern := p ++ many (between ++ p)

/-- The patterns of which one has to fit. -/
def alternatives : Pattern → List Pattern
  | .alt p q => p.alternatives ++ q.alternatives
  | p => [p]

end Pattern

open Pattern in
/-- The rules of the grammar. -/
def Rule.body : Rule → Pattern
  | .start => many (rule .topLevelItem)
  | .topLevelItem =>
    rule .includeDirective ||| rule .defineDirective ||| rule .functionDefinition ||| rule .statement
  | .includeDirective => token .includeWord ++ token .string
  | .defineDirective => token .defineWord ++ token .declaredName ++ rule .expression
  | .functionDefinition =>
    rule .typeSpecifier ++ token .newName ++ token .parenOpen ++ optional (rule .parameterList) ++
      token .parenClose ++ rule .block
  | .typeSpecifier => token .sizeT ||| token .void ||| token .stack
  | .parameterList => separated (rule .parameter) (token .comma)
  | .parameter => (token .sizeT ||| token .stack) ++ token .declaredName
  | .block => token .braceOpen ++ many (rule .statement) ++ token .braceClose
  | .statement =>
    rule .variableDeclaration ||| rule .stackDeclaration ||| rule .assignment |||
      rule .expression ++ token .semicolon ||| rule .pushStatement ||| rule .outputStatement |||
      rule .ifStatement ||| rule .whileStatement ||| rule .returnStatement ||| rule .block
  | .variableDeclaration =>
    token .sizeT ++ token .newName ++ optional (token .assign ++ rule .expression) ++ token .semicolon
  | .stackDeclaration =>
    token .stack ++ token .newName ++ token .bracketOpen ++ rule .expression ++ token .bracketClose ++
      token .semicolon
  | .ifStatement =>
    token .ifWord ++ token .parenOpen ++ rule .expression ++ token .parenClose ++ rule .statement ++
      optional (rule .elseClause)
  | .elseClause => token .elseWord ++ rule .statement
  | .whileStatement =>
    token .whileWord ++ token .parenOpen ++ rule .expression ++ token .parenClose ++ rule .statement
  | .returnStatement => token .returnWord ++ optional (rule .expression) ++ token .semicolon
  | .assignment => rule .lvalue ++ token .assign ++ rule .expression ++ token .semicolon
  | .pushStatement =>
    token .declaredName ++ token .dot ++ token .push ++ token .parenOpen ++ rule .expression ++
      token .parenClose ++ token .semicolon
  | .outputStatement =>
    token .output ++ token .parenOpen ++ rule .expression ++ token .parenClose ++ token .semicolon
  | .lvalue => token .declaredName
  | .expression => rule .comparison
  | .comparison =>
    separated (rule .arithmetic)
      (token .eq ||| token .ne ||| token .ge ||| token .le ||| token .gt ||| token .lt)
  | .arithmetic => separated (rule .term) (token .plus ||| token .minus)
  | .term => separated (rule .factor) (token .times ||| token .divide)
  | .factor => (token .positive ||| token .negative) ++ rule .factor ||| rule .atom
  | .atom =>
    token .number ||| token .charLiteral ||| token .declaredName ||| rule .functionCall |||
      rule .stackPeek ||| rule .stackPop ||| rule .inputCall |||
      token .parenOpen ++ rule .expression ++ token .parenClose
  | .stackPeek =>
    token .declaredName ++ token .dot ++ token .peek ++ token .parenOpen ++ token .parenClose
  | .stackPop =>
    token .declaredName ++ token .dot ++ token .pop ++ token .parenOpen ++ token .parenClose
  | .functionCall =>
    token .declaredName ++ token .parenOpen ++ optional (rule .argumentList) ++ token .parenClose
  | .argumentList => separated (rule .expression) (token .comma)
  | .inputCall => token .input ++ token .parenOpen ++ token .parenClose

namespace Pattern

/-- The pattern derives the sequence of tokens. -/
inductive Matches : Pattern → List Lexeme → Prop where
  | token (x : Lexeme) : Matches (.token x.terminal) [x]
  | rule {r : Rule} {xs : List Lexeme} (h : Matches r.body xs) : Matches (.rule r) xs
  | seq {p q : Pattern} {xs ys : List Lexeme} (hp : Matches p xs) (hq : Matches q ys) :
      Matches (.seq p q) (xs ++ ys)
  | left {p q : Pattern} {xs : List Lexeme} (h : Matches p xs) : Matches (.alt p q) xs
  | right {p q : Pattern} {xs : List Lexeme} (h : Matches q xs) : Matches (.alt p q) xs
  | absent {p : Pattern} : Matches (.optional p) []
  | present {p : Pattern} {xs : List Lexeme} (h : Matches p xs) : Matches (.optional p) xs
  | stop {p : Pattern} : Matches (.many p) []
  | more {p : Pattern} {xs ys : List Lexeme} (h : Matches p xs) (hmore : Matches (.many p) ys) :
      Matches (.many p) (xs ++ ys)

theorem Matches.choose {p q : Pattern} {xs : List Lexeme} (h : Matches q xs) (hq : q ∈ p.alternatives) :
    Matches p xs := by
  induction p with
  | alt p p' ih ih' =>
    rcases List.mem_append.mp hq with hq | hq
    · exact .left (ih hq)
    · exact .right (ih' hq)
  | _ =>
    rw [← List.mem_singleton.mp hq]
    exact h

/-- The pattern fits the sequence if the tokens and the rules stand for what the relations say. -/
def Over (T : Terminal → List Lexeme → Prop) (I : Rule → List Lexeme → Prop) :
    Pattern → List Lexeme → Prop
  | .token t, xs => T t xs
  | .rule r, xs => I r xs
  | .seq p q, xs => ∃ ys zs, xs = ys ++ zs ∧ p.Over T I ys ∧ q.Over T I zs
  | .alt p q, xs => p.Over T I xs ∨ q.Over T I xs
  | .optional p, xs => xs = [] ∨ p.Over T I xs
  | .many p, xs => ∃ parts : List (List Lexeme), xs = parts.flatten ∧ ∀ part ∈ parts, p.Over T I part

/-- **What is derived has every property that the bodies of the rules pass on.** -/
theorem Matches.over {T : Terminal → List Lexeme → Prop} {I : Rule → List Lexeme → Prop}
    (hI : ∀ r xs, r.body.Over T I xs → I r xs) {p : Pattern} {xs : List Lexeme} (h : Matches p xs)
    (hxs : ∀ x ∈ xs, T x.terminal [x]) : p.Over T I xs := by
  induction h with
  | token x => exact hxs x List.mem_cons_self
  | rule _ ih => exact hI _ _ (ih hxs)
  | seq _ _ ihp ihq =>
    obtain ⟨hp, hq⟩ := List.forall_mem_append.mp hxs
    exact ⟨_, _, rfl, ihp hp, ihq hq⟩
  | left _ ih => exact .inl (ih hxs)
  | right _ ih => exact .inr (ih hxs)
  | absent => exact .inl rfl
  | present _ ih => exact .inr (ih hxs)
  | stop => exact ⟨[], rfl, by simp⟩
  | @more p xs ys _ _ ih ihmore =>
    obtain ⟨hp, hmore⟩ := List.forall_mem_append.mp hxs
    obtain ⟨parts, rfl, hparts⟩ := ihmore hmore
    exact ⟨xs :: parts, rfl, List.forall_mem_cons.mpr ⟨ih hp, hparts⟩⟩

end Pattern

/-! ## Levels of operators -/

namespace Level

open Pattern

def rule : Level → Rule
  | .comparison => .comparison
  | .arithmetic => .arithmetic
  | .term => .term

/-- What stands between the operators. -/
def operand : Level → Rule
  | .comparison => .arithmetic
  | .arithmetic => .term
  | .term => .factor

def operator : Level → Pattern
  | .comparison => token .eq ||| token .ne ||| token .ge ||| token .le ||| token .gt ||| token .lt
  | .arithmetic => token .plus ||| token .minus
  | .term => token .times ||| token .divide

theorem body_rule (level : Level) :
    level.rule.body = separated (.rule level.operand) level.operator := by
  cases level <;> rfl

theorem alternatives_operator (level : Level) :
    level.operator.alternatives = level.operators.map token := by
  cases level <;> rfl

end Level

end TapeScript
