import TapeScript.Grammar.Tree

set_option autoImplicit false

/-! # Reading a program

A parser with one token of lookahead. Each token is found in the mode that the token before it
leaves behind (`Parser.shift`), whatever the context further out, so that an error about the next
token shows up as soon as the token before it is taken.

The functions below carry fuel against endless recursion; `Source.parse` gives them more than a
text of the given length can use.
-/

namespace TapeScript

/-- The text behind the token ahead, the token ahead (`none` at the end), and the token before it.
`length` bounds the length of the text. -/
structure ParserState where
  length : Nat
  rest : List Glyph
  ahead : Option Token
  last : Option Token

abbrev Parser := StateT ParserState (Except ParseFault)

namespace Parser

variable {α : Type}

/-- Refuses the token ahead. -/
def refuse : Parser α := do
  let s ← get
  match s.ahead, s.last with
  | some t, _ => throw (.unexpectedToken (some t.text) t.line t.column)
  | none, some t => throw (.unexpectedToken none t.line t.column)
  | none, none => throw (.unexpectedToken none 1 1)

/-- The terminal ahead. -/
def ahead : Parser (Option Terminal) := do
  return (← get).ahead.map Token.terminal

/-- Takes the token ahead and finds the next one in the given mode. -/
def shift (mode : Mode) : Parser Token := do
  let s ← get
  match s.ahead with
  | none => refuse
  | some token =>
    let (next, rest) ← Token.next s.length mode s.rest
    set { s with rest, ahead := next, last := some token }
    return token

/-- Takes the token ahead if it is the given terminal. -/
def expect (terminal : Terminal) (mode : Mode) : Parser Token := do
  if (← ahead) = some terminal then shift mode else refuse

/-! ## Expressions -/

/-- Operators from the given list, each with the operand behind it. -/
def operands (operators : List Terminal) (operand : Parser Expr) : Nat → Parser (List (Token × Expr))
  | 0 => refuse
  | fuel + 1 => do
    match ← ahead with
    | some t =>
      if t ∈ operators then
        let op ← shift .operand
        let e ← operand
        let rest ← operands operators operand fuel
        return (op, e) :: rest
      else return []
    | none => return []

/-- An operand alone, or the chain it starts. -/
def chain (level : Level) (first : Expr) (operand : Parser Expr) (fuel : Nat) : Parser Expr := do
  match ← operands level.operators operand fuel with
  | [] => return first
  | rest => return .chain level first rest

/-- The argument-free call behind `peek`, `pop` and `input`. -/
def emptyCall : Parser Unit := do
  let _ ← shift .parenOpen
  let _ ← expect .parenOpen .parenClose
  let _ ← expect .parenClose .afterOperand

/-- The stack operation behind a dot. -/
def stackOperation (name : Token) : Parser Expr := do
  match ← ahead with
  | some .pop =>
    emptyCall
    return .pop name
  | some .peek =>
    emptyCall
    return .peek name
  | _ => refuse

mutual

def factor : Nat → Parser Expr
  | 0 => refuse
  | fuel + 1 => do
    match ← ahead with
    | some .positive | some .negative =>
      let sign ← shift .operand
      let operand ← factor fuel
      return .unary sign operand
    | some .number => return .number (← shift .afterOperand)
    | some .charLiteral => return .character (← shift .afterOperand)
    | some .declaredName =>
      let name ← shift .afterName
      named name fuel
    | some .input =>
      emptyCall
      return .input
    | some .parenOpen =>
      let _ ← shift .operand
      let e ← expression fuel
      let _ ← expect .parenClose .afterOperand
      return e
    | _ => refuse

/-- What starts with a name: a call, a stack operation, or the name alone. -/
def named (name : Token) : Nat → Parser Expr
  | 0 => refuse
  | fuel + 1 => do
    match ← ahead with
    | some .parenOpen =>
      let _ ← shift .operandOrClose
      if (← ahead) = some .parenClose then
        let _ ← shift .afterOperand
        return .call name []
      else
        let first ← expression fuel
        let rest ← arguments fuel
        let _ ← expect .parenClose .afterOperand
        return .call name (first :: rest)
    | some .dot =>
      let _ ← shift .afterDot
      stackOperation name
    | _ => return .name name

/-- Further arguments of a call, each behind a comma. -/
def arguments : Nat → Parser (List Expr)
  | 0 => refuse
  | fuel + 1 => do
    if (← ahead) = some .comma then
      let _ ← shift .operand
      let e ← expression fuel
      let rest ← arguments fuel
      return e :: rest
    else return []

/-- The expression that starts with the given operand. -/
def expressionFrom (first : Expr) : Nat → Parser Expr
  | 0 => refuse
  | fuel + 1 => do
    let t ← chain .term first (factor fuel) fuel
    let a ← chain .arithmetic t (term fuel) fuel
    chain .comparison a (arithmetic fuel) fuel

def term : Nat → Parser Expr
  | 0 => refuse
  | fuel + 1 => do
    let first ← factor fuel
    chain .term first (factor fuel) fuel

def arithmetic : Nat → Parser Expr
  | 0 => refuse
  | fuel + 1 => do
    let first ← term fuel
    chain .arithmetic first (term fuel) fuel

def expression : Nat → Parser Expr
  | 0 => refuse
  | fuel + 1 => do
    let first ← factor fuel
    expressionFrom first fuel

end

/-! ## Statements -/

/-- An expression in parentheses; `mode` is the mode behind them. -/
def parenthesised (mode : Mode) (fuel : Nat) : Parser Expr := do
  let _ ← expect .parenOpen .operand
  let e ← expression fuel
  let _ ← expect .parenClose mode
  return e

def endStatement (s : Stmt) : Parser Stmt := do
  let _ ← expect .semicolon .afterStatement
  return s

/-- An expression statement whose first operand has been read. -/
def expressionStatement (first : Expr) (fuel : Nat) : Parser Stmt := do
  let e ← expressionFrom first fuel
  endStatement (.expr e)

/-- A statement that starts with a name. -/
def namedStatement (fuel : Nat) : Parser Stmt := do
  let name ← shift .afterLeadName
  match ← ahead with
  | some .assign =>
    let _ ← shift .operand
    let e ← expression fuel
    endStatement (.assign name e)
  | some .dot =>
    let _ ← shift .afterLeadDot
    if (← ahead) = some .push then
      let _ ← shift .parenOpen
      let e ← parenthesised .semicolon fuel
      endStatement (.push name e)
    else
      let first ← stackOperation name
      expressionStatement first fuel
  | _ =>
    let first ← named name fuel
    expressionStatement first fuel

mutual

def statement : Nat → Parser Stmt
  | 0 => refuse
  | fuel + 1 => do
    match ← ahead with
    | some .sizeT =>
      let _ ← shift .newName
      let name ← expect .newName .afterVariable
      if (← ahead) = some .assign then
        let _ ← shift .operand
        let e ← expression fuel
        endStatement (.variable name (some e))
      else endStatement (.variable name none)
    | some .stack =>
      let _ ← shift .newName
      let name ← expect .newName .afterStack
      let _ ← expect .bracketOpen .operand
      let size ← expression fuel
      let _ ← expect .bracketClose .semicolon
      endStatement (.stack name size)
    | some .output =>
      let _ ← shift .parenOpen
      let e ← parenthesised .semicolon fuel
      endStatement (.output e)
    | some .ifWord =>
      let _ ← shift .parenOpen
      let c ← parenthesised .body fuel
      let body ← statement fuel
      if (← ahead) = some .elseWord then
        let _ ← shift .body
        let other ← statement fuel
        return .ifElse c body (some other)
      else return .ifElse c body none
    | some .whileWord =>
      let _ ← shift .parenOpen
      let c ← parenthesised .body fuel
      let body ← statement fuel
      return .loop c body
    | some .returnWord =>
      let _ ← shift .operandOrSemicolon
      if (← ahead) = some .semicolon then endStatement (.returning none)
      else
        let e ← expression fuel
        endStatement (.returning (some e))
    | some .braceOpen =>
      let _ ← shift .blockStart
      let body ← statements fuel
      let _ ← expect .braceClose .afterStatement
      return .block body
    | some .declaredName => namedStatement fuel
    | some _ =>
      let first ← factor fuel
      expressionStatement first fuel
    | none => refuse

/-- Statements up to a closing brace. -/
def statements : Nat → Parser (List Stmt)
  | 0 => refuse
  | fuel + 1 => do
    if (← ahead) = some .braceClose then return []
    else
      let s ← statement fuel
      let rest ← statements fuel
      return s :: rest

end

/-! ## Top level -/

/-- The type of a parameter and its name; the type is not kept. -/
def parameter : Parser Token := do
  match ← ahead with
  | some .sizeT | some .stack =>
    let _ ← shift .declaredName
    expect .declaredName .afterParameter
  | _ => refuse

/-- Further parameters, each behind a comma. -/
def parameters : Nat → Parser (List Token)
  | 0 => refuse
  | fuel + 1 => do
    if (← ahead) = some .comma then
      let _ ← shift .parameter
      let p ← parameter
      let rest ← parameters fuel
      return p :: rest
    else return []

/-- A function definition; its result type has to be `void`, because every other type starts a
declaration. -/
def function (fuel : Nat) : Parser Item := do
  let _ ← shift .newName
  let name ← expect .newName .afterFunction
  let _ ← expect .parenOpen .parameterOrClose
  let params ←
    if (← ahead) = some .parenClose then pure []
    else do
      let first ← parameter
      let rest ← parameters fuel
      pure (first :: rest)
  let _ ← expect .parenClose .functionBody
  let _ ← expect .braceOpen .blockStart
  let body ← statements fuel
  let _ ← expect .braceClose .afterStatement
  return .function name params body

def item (fuel : Nat) : Parser Item := do
  match ← ahead with
  | some .includeWord =>
    let _ ← shift .string
    let file ← expect .string .fileStart
    return .includes file
  | some .defineWord =>
    let _ ← shift .declaredName
    let name ← expect .declaredName .operand
    let value ← expression fuel
    return .define name value
  | some .void => function fuel
  | _ => return .stmt (← statement fuel)

/-- Items up to the end of the text. -/
def items (inner : Nat) : Nat → Parser (List Item)
  | 0 => refuse
  | fuel + 1 => do
    match ← ahead with
    | none => return []
    | some _ =>
      let i ← item inner
      let rest ← items inner fuel
      return i :: rest

end Parser

/-- Reads a source text. -/
def Source.parse (text : List Char) : Except ParseFault Source := do
  let glyphs := Glyph.ofChars text
  let length := glyphs.length
  let (ahead, rest) ← Token.next length .fileStart glyphs
  let fuel := 8 * length + 8
  let (items, _) ← (Parser.items fuel fuel).run { length, rest, ahead, last := none }
  return { items }

end TapeScript
