import TapeScript.Text.Digit

set_option autoImplicit false

/-! # Tokens

The terminals of the script language and how the next one is found in a text. Which terminals can
come next depends on the token before (`Mode`), and only those are tried. A name that is spelled
like a keyword is the keyword only where that keyword can stand; where no name can stand, a keyword
is recognised even when more letters follow it. Only when no expected terminal fits are all of them
tried, so that the error can show the token that is there.
-/

namespace TapeScript

inductive Terminal where
  | declaredName
  | newName
  | number
  | charLiteral
  | string
  | eq
  | ne
  | ge
  | le
  | gt
  | lt
  | plus
  | minus
  | times
  | divide
  | positive
  | negative
  | includeWord
  | defineWord
  | sizeT
  | stack
  | void
  | ifWord
  | elseWord
  | whileWord
  | returnWord
  | output
  | input
  | push
  | pop
  | peek
  | parenOpen
  | parenClose
  | braceOpen
  | braceClose
  | bracketOpen
  | bracketClose
  | semicolon
  | comma
  | dot
  | assign
  deriving DecidableEq

namespace Terminal

/-- The text of a terminal that is always written the same. -/
def literal? : Terminal → Option String
  | .declaredName | .newName | .number | .charLiteral | .string => none
  | .eq => some "=="
  | .ne => some "!="
  | .ge => some ">="
  | .le => some "<="
  | .gt => some ">"
  | .lt => some "<"
  | .plus => some "+"
  | .minus => some "-"
  | .times => some "*"
  | .divide => some "/"
  | .positive => some "+"
  | .negative => some "-"
  | .includeWord => some "#include"
  | .defineWord => some "#define"
  | .sizeT => some "size_t"
  | .stack => some "stack"
  | .void => some "void"
  | .ifWord => some "if"
  | .elseWord => some "else"
  | .whileWord => some "while"
  | .returnWord => some "return"
  | .output => some "output"
  | .input => some "input"
  | .push => some "push"
  | .pop => some "pop"
  | .peek => some "peek"
  | .parenOpen => some "("
  | .parenClose => some ")"
  | .braceOpen => some "\x7b"
  | .braceClose => some "\x7d"
  | .bracketOpen => some "["
  | .bracketClose => some "]"
  | .semicolon => some ";"
  | .comma => some ","
  | .dot => some "."
  | .assign => some "="

/-- The name under which a terminal appears in a tree; only terminals that carry information
appear there. -/
def label : Terminal → String
  | .declaredName => "DECLARED_NAME"
  | .newName => "NEW_NAME"
  | .number => "NUMBER"
  | .charLiteral => "CHAR_LITERAL"
  | .string => "STRING"
  | .eq => "EQ"
  | .ne => "NE"
  | .ge => "GE"
  | .le => "LE"
  | .gt => "GT"
  | .lt => "LT"
  | .plus => "PLUS"
  | .minus => "MINUS"
  | .times => "TIMES"
  | .divide => "DIVIDE"
  | .positive => "POSITIVE"
  | .negative => "NEGATIVE"
  | _ => ""

def binary : List Terminal := [.eq, .ne, .ge, .le, .gt, .lt, .plus, .minus, .times, .divide]

/-- What an expression can start with. -/
def operandStart : List Terminal :=
  [.declaredName, .number, .charLiteral, .parenOpen, .positive, .negative, .input]

/-- What a statement can start with. -/
def statementStart : List Terminal :=
  operandStart ++ [.braceOpen, .ifWord, .output, .returnWord, .sizeT, .stack, .whileWord]

/-- What an item at the top level can start with. -/
def itemStart : List Terminal := statementStart ++ [.void, .includeWord, .defineWord]

def all : List Terminal :=
  binary ++ itemStart ++ [.newName, .string, .elseWord, .push, .pop, .peek, .parenClose, .braceClose,
    .bracketOpen, .bracketClose, .semicolon, .comma, .dot, .assign]

end Terminal

/-- The place of a token among those before it, as far as it decides which tokens can follow. -/
inductive Mode where
  | fileStart
  | blockStart
  /-- Behind `else` and behind the head of an `if` or `while`. -/
  | body
  | afterStatement
  | operand
  | operandOrSemicolon
  | operandOrClose
  /-- Behind a name that starts a statement. -/
  | afterLeadName
  | afterName
  | afterOperand
  | newName
  | afterVariable
  | afterStack
  | afterFunction
  | declaredName
  | parameterOrClose
  | parameter
  | afterParameter
  | afterLeadDot
  | afterDot
  | parenOpen
  | parenClose
  | string
  | semicolon
  | functionBody
  deriving DecidableEq

/-- The terminals that can follow. Of terminals with one text the first listed is taken. -/
def Mode.terminals : Mode → List Terminal
  | .fileStart => Terminal.itemStart
  | .blockStart => .braceClose :: Terminal.statementStart
  | .body => Terminal.statementStart
  | .afterStatement => [.elseWord, .braceClose] ++ Terminal.itemStart
  | .operand => Terminal.operandStart
  | .operandOrSemicolon => .semicolon :: Terminal.operandStart
  | .operandOrClose => .parenClose :: Terminal.operandStart
  | .afterLeadName => Terminal.binary ++ [.assign, .semicolon, .parenOpen, .dot]
  | .afterName =>
    Terminal.binary ++ [.comma, .parenClose, .bracketClose, .semicolon, .dot] ++ Terminal.itemStart
  | .afterOperand =>
    Terminal.binary ++ [.comma, .parenClose, .bracketClose, .semicolon] ++ Terminal.itemStart
  | .newName => [.newName]
  | .afterVariable => [.assign, .semicolon]
  | .afterStack => [.bracketOpen]
  | .afterFunction => [.parenOpen]
  | .declaredName => [.declaredName]
  | .parameterOrClose => [.sizeT, .stack, .parenClose]
  | .parameter => [.sizeT, .stack]
  | .afterParameter => [.comma, .parenClose]
  | .afterLeadDot => [.push, .pop, .peek]
  | .afterDot => [.pop, .peek]
  | .parenOpen => [.parenOpen]
  | .parenClose => [.parenClose]
  | .string => [.string]
  | .semicolon => [.semicolon]
  | .functionBody => [.braceOpen]

/-- A character with its place in the text; lines and columns count from one. -/
structure Glyph where
  char : Char
  line : Nat
  column : Nat
  deriving DecidableEq

namespace Glyph

def place (line column : Nat) : List Char → List Glyph
  | [] => []
  | c :: rest =>
    ⟨c, line, column⟩ :: if c = '\n' then place (line + 1) 1 rest else place line (column + 1) rest

def ofChars (s : List Char) : List Glyph := place 1 1 s

end Glyph

/-- A terminal found in a text, and where it starts. -/
structure Token where
  terminal : Terminal
  text : String
  line : Nat
  column : Nat
  deriving DecidableEq

namespace Token

def isNameStart (c : Char) : Bool := c.isAlpha || c = '_'

def isNameChar (c : Char) : Bool := c.isAlphanum || c = '_'

/-! ## Blanks and comments -/

/-- What follows the end of a block comment, if there is an end. -/
def afterBlock? : List Glyph → Option (List Glyph)
  | [] => none
  | g :: rest =>
    match rest with
    | [] => none
    | h :: rest' => if g.char = '*' ∧ h.char = '/' then some rest' else afterBlock? rest

/-- Skips blanks, line ends and comments. A block comment without an end is none. Fuel of the length
of the text is enough. -/
def skipIgnored : Nat → List Glyph → List Glyph
  | 0, s => s
  | fuel + 1, s =>
    match s with
    | [] => []
    | g :: rest =>
      if g.char = ' ' ∨ g.char = '\t' ∨ g.char = '\n' then skipIgnored fuel rest
      else
        match rest with
        | [] => s
        | h :: rest' =>
          if g.char = '\r' ∧ h.char = '\n' then skipIgnored fuel rest'
          else if g.char = '/' ∧ h.char = '/' then
            skipIgnored fuel (rest'.dropWhile (·.char ≠ '\n'))
          else if g.char = '/' ∧ h.char = '*' then
            match afterBlock? rest' with
            | some after => skipIgnored fuel after
            | none => s
          else s

/-! ## Terminals -/

/-- How many characters of the text a fixed text takes, if the text starts with it. -/
def literalLength? : List Char → List Glyph → Option Nat
  | [], _ => some 0
  | _ :: _, [] => none
  | c :: cs, g :: rest => if c = g.char then (literalLength? cs rest).map (· + 1) else none

/-- The longest expected terminal of fixed text that the text starts with. -/
def literalMatch (expected : List Terminal) (s : List Glyph) : Option (Terminal × Nat) :=
  expected.foldl
    (fun best t =>
      match t.literal? with
      | none => best
      | some text =>
        match literalLength? text.toList s with
        | none => best
        | some n =>
          match best with
          | some (_, m) => if m < n then some (t, n) else best
          | none => some (t, n))
    none

/-- A character in single quotes, or one of four escapes. -/
def charLiteralLength? : List Glyph → Option Nat
  | _ :: a :: b :: rest =>
    if a.char = '\\' then
      match rest with
      | c :: _ =>
        if (b.char = 'n' ∨ b.char = 't' ∨ b.char = '\\' ∨ b.char = '\'') ∧ c.char = '\'' then some 4
        else none
      | [] => none
    else if a.char ≠ '\'' ∧ b.char = '\'' then some 3
    else none
  | _ => none

/-- A text in double quotes. -/
def stringLength? : List Glyph → Option Nat
  | [] => none
  | _ :: rest =>
    let inside := (rest.takeWhile (·.char ≠ '"')).length
    if inside < rest.length then some (inside + 2) else none

/-- A name, or the keyword it spells where that is expected. -/
def wordTerminal (expected : List Terminal) (name : Terminal) (word : String) : Terminal :=
  (expected.find? fun t => t.literal? = some word).getD name

/-- The terminal at the start of the text among the expected ones, and its length. -/
def matchExpected (expected : List Terminal) (s : List Glyph) : Option (Terminal × Nat) :=
  match s with
  | [] => none
  | g :: _ =>
    if isNameStart g.char then
      match expected.find? fun t => t = .declaredName ∨ t = .newName with
      | some name =>
        let word := (s.takeWhile (isNameChar ·.char)).map Glyph.char
        some (wordTerminal expected name (String.ofList word), word.length)
      | none => literalMatch expected s
    else if Text.isDecimal g.char then
      if .number ∈ expected then some (.number, (s.takeWhile (Text.isDecimal ·.char)).length)
      else none
    else if g.char = '\'' then
      if .charLiteral ∈ expected then (charLiteralLength? s).map (Terminal.charLiteral, ·) else none
    else if g.char = '"' then
      if .string ∈ expected then (stringLength? s).map (Terminal.string, ·) else none
    else literalMatch expected s

/-- The token of the given length at the start of the text, and the rest. -/
def cut (terminal : Terminal) (length : Nat) (s : List Glyph) : Token × List Glyph :=
  let text := String.ofList ((s.take length).map Glyph.char)
  let (line, column) := match s with
    | g :: _ => (g.line, g.column)
    | [] => (0, 0)
  (⟨terminal, text, line, column⟩, s.drop length)

end Token

/-- Why a text is not a program: a token that cannot stand where it stands (`none` is the end of the
text, reported at the last token), or a character that starts no token. -/
inductive ParseFault where
  | unexpectedToken (text : Option String) (line column : Nat)
  | unexpectedCharacter (char : Char) (line column : Nat)
  deriving DecidableEq

/-- The next token after blanks and comments, if there is one, and the rest. The fuel is a bound on
the length of the text. -/
def Token.next (fuel : Nat) (mode : Mode) (s : List Glyph) :
    Except ParseFault (Option Token × List Glyph) :=
  match Token.skipIgnored fuel s with
  | [] => .ok (none, [])
  | g :: rest =>
    match Token.matchExpected mode.terminals (g :: rest) with
    | some (terminal, length) =>
      let (token, rest) := Token.cut terminal length (g :: rest)
      .ok (some token, rest)
    | none =>
      match Token.matchExpected Terminal.all (g :: rest) with
      | some (terminal, length) =>
        let (token, _) := Token.cut terminal length (g :: rest)
        .error (.unexpectedToken (some token.text) token.line token.column)
      | none => .error (.unexpectedCharacter g.char g.line g.column)

end TapeScript
