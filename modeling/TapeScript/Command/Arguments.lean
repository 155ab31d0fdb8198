import TapeScript.Text.Digit

set_option autoImplicit false

/-! # Reading command lines

A command has options, each with a short and a long name, and positional arguments. Options may
stand anywhere, a long name may be cut as long as it stays unambiguous, and a value may be attached
to its option. After `--` nothing is an option.

Positional arguments are taken in runs: as soon as one of them stands between options, as many as
possible are filled from there on, optional ones with nothing if need be.
-/

namespace TapeScript.Command

/-- An option. `accepts` says which texts it takes as its value; a request for help takes none. -/
structure OptionSpec where
  short : Char
  long : String
  accepts : Option (String → Bool)

def OptionSpec.shortName (o : OptionSpec) : String := String.ofList ['-', o.short]

def OptionSpec.longName (o : OptionSpec) : String := "--" ++ o.long

def OptionSpec.names (o : OptionSpec) : List String := [o.shortName, o.longName]

structure Positional where
  name : String
  required : Bool

/-- What a command line may hold. Required positionals come first. -/
structure Interface where
  options : List OptionSpec
  positionals : List Positional

/-- The values a command line gives: options by long name, positionals by name, in order. -/
structure Values where
  options : List (String × String) := []
  positionals : List (String × String) := []

/-- The last value an option was given. -/
def Values.option? (v : Values) (long : String) : Option String :=
  v.options.reverse.lookup long

def Values.positional? (v : Values) (name : String) : Option String := v.positionals.lookup name

/-- What a command line turns out to be. -/
inductive Reading where
  | values (v : Values)
  | help
  | misuse

/-- An argument by its look. An option that is not known has no description. -/
inductive Word where
  | plain (text : String)
  | separator
  | option (spec : Option OptionSpec) (attached : Option String)

/-- Cuts a text at its first equals sign. -/
def splitEquals (s : List Char) : Option (List Char × List Char) :=
  match s.dropWhile (· ≠ '=') with
  | [] => none
  | _ :: rest => some (s.takeWhile (· ≠ '='), rest)

/-- A sign and digits, with or without a point; one line end may follow. -/
def looksNegative (s : List Char) : Bool :=
  match s with
  | '-' :: rest =>
    let rest := if rest.getLast? = some '\n' then rest.dropLast else rest
    let whole := rest.takeWhile Text.isDecimal
    match rest.dropWhile Text.isDecimal with
    | [] => !whole.isEmpty
    | '.' :: part => !part.isEmpty && part.all Text.isDecimal
    | _ => false
  | _ => false

namespace Interface

def named? (i : Interface) (name : String) : Option OptionSpec :=
  i.options.find? fun o => name ∈ o.names

/-- The options an argument can stand for, with what is attached to it: a long name may be cut, and
a short name may be followed by its value. -/
def candidates (i : Interface) (s : List Char) : List (OptionSpec × Option String) :=
  match s with
  | '-' :: '-' :: _ =>
    let (name, attached) := match splitEquals s with
      | some (name, value) => (name, some (String.ofList value))
      | none => (s, none)
    (i.options.filter fun o => name.isPrefixOf o.longName.toList).map (·, attached)
  | '-' :: c :: rest =>
    (i.options.filter (·.short = c)).map (·, some (String.ofList rest))
  | _ => []

/-- Looks an argument up; `none` if it is ambiguous. -/
def word? (i : Interface) (arg : String) : Option Word :=
  let s := arg.toList
  if s.head? ≠ some '-' then some (.plain arg)
  else
    match i.named? arg with
    | some o => some (.option (some o) none)
    | none =>
      if s.length = 1 then some (.plain arg)
      else
        let assigned := (splitEquals s).bind fun (name, value) =>
          (i.named? (String.ofList name)).map fun o => (o, some (String.ofList value))
        match assigned with
        | some (o, value) => some (.option (some o) value)
        | none =>
          match i.candidates s with
          | [(o, attached)] => some (.option (some o) attached)
          | _ :: _ :: _ => none
          | [] =>
            if looksNegative s || s.contains ' ' then some (.plain arg)
            else some (.option none none)

/-- The words of a command line. -/
def words? (i : Interface) : List String → Option (List Word)
  | [] => some []
  | arg :: rest =>
    if arg = "--" then some (.separator :: rest.map Word.plain)
    else do
      let w ← i.word? arg
      let ws ← i.words? rest
      return w :: ws

/-- Whether letters joined to the help option are options too, the last of them with its value. -/
def helpTail (i : Interface) (next : Option Word) : List Char → Bool
  | [] => true
  | c :: rest =>
    match i.options.find? (·.short = c) with
    | none => false
    | some o =>
      if o.accepts.isNone then i.helpTail next rest
      else
        !rest.isEmpty || match next with
          | some (.plain _) => true
          | _ => false

end Interface

/-- Fills one positional from the words ahead: what it was given, and the words behind. -/
def Positional.fill? (p : Positional) (ws : List Word) : Option (Option String × List Word) :=
  let skip : List Word → List Word
    | .separator :: rest => rest
    | rest => rest
  match skip ws with
  | .plain text :: rest => some (some text, skip rest)
  | rest => if p.required then none else some (none, skip rest)

/-- Fills as many positionals as possible. A text that is itself `--` counts as nothing. -/
def fillPositionals (ps : List Positional) (ws : List Word) (v : Values) :
    List Positional × List Word × Values :=
  match ps with
  | [] => ([], ws, v)
  | p :: rest =>
    match p.fill? ws with
    | none => (p :: rest, ws, v)
    | some (given, ws) =>
      let taken := match given with
        | some text => if text = "--" then [] else [(p.name, text)]
        | none => []
      fillPositionals rest ws { v with positionals := v.positionals ++ taken }

def Word.isOption : Word → Bool
  | .option _ _ => true
  | .plain _ | .separator => false

/-- Reads words. `extra` says that something was met that has no place. Every round uses up a word,
so that fuel of one more than their number is enough. -/
def readWords (i : Interface) : Nat → List Positional → List Word → Values → Bool → Reading
  | 0, _, _, _, _ => .misuse
  | fuel + 1, ps, ws, v, extra =>
    let finish (ps : List Positional) (v : Values) (extra : Bool) : Reading :=
      if extra || ps.any (·.required) then .misuse else .values v
    match ws with
    | .option none _ :: rest => readWords i fuel ps rest v true
    | .option (some o) attached :: rest =>
      match o.accepts, attached with
      | none, none => .help
      | none, some tail =>
        if tail ≠ "" && i.helpTail rest.head? tail.toList then .help else .misuse
      | some ok, some value =>
        if ok value then
          readWords i fuel ps rest { v with options := v.options ++ [(o.long, value)] } extra
        else .misuse
      | some ok, none =>
        match rest with
        | .plain value :: rest =>
          if ok value then
            readWords i fuel ps rest { v with options := v.options ++ [(o.long, value)] } extra
          else .misuse
        | _ => .misuse
    | _ =>
      let (left, behind, filled) := fillPositionals ps ws v
      if ws.any Word.isOption then
        if behind.length < ws.length then readWords i fuel left behind filled extra
        else readWords i fuel left (ws.dropWhile (!Word.isOption ·)) filled true
      else finish left filled (extra || !behind.isEmpty)

/-- Reads a command line. -/
def Interface.read (i : Interface) (args : List String) : Reading :=
  match i.words? args with
  | none => .misuse
  | some ws => readWords i (ws.length + 1) i.positionals ws {} false

end TapeScript.Command
