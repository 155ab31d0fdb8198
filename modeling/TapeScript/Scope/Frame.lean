import TapeScript.Cells.Table

set_option autoImplicit false

/-! # Symbols and frames

A `Frame` is one scope: the names it binds, in the order of their definition, and the cells it owns.
What a name is bound to is a parameter, so that a frame can hold symbols or references to them.
Frames take their cells from a `CellTable`; the actions below also write the log.
-/

namespace TapeScript

/-- What a name stands for. -/
inductive SymbolKind where
  | variable
  | stack
  | function
  deriving DecidableEq

namespace SymbolKind

def name : SymbolKind → String
  | .variable => "size_t"
  | .stack => "stack"
  | .function => "func"

def ofName? (s : String) : Option SymbolKind :=
  if s = "size_t" then some .variable
  else if s = "stack" then some .stack
  else if s = "func" then some .function
  else none

end SymbolKind

/-- A named thing; `location` is its first cell, once it has one, and `size` the number of cells a
stack asks for. -/
structure Symbol where
  name : String
  kind : SymbolKind
  size : Option Int := none
  initialised : Bool := false
  location : Option Int := none
  deriving DecidableEq

namespace Symbol

def make (name kind : String) (size : Option Int) (initialised : Bool) : Except Fault Symbol :=
  match SymbolKind.ofName? kind with
  | some kind => .ok { name, kind, size, initialised }
  | none => .error (.unknownKind kind)

/-- A number that may be missing, as symbols are written. -/
def optionText : Option Int → String
  | some n => toString n
  | none => "None"

def text (s : Symbol) : String :=
  let init := if s.initialised then "True" else "False"
  s!"Symbol(name={s.name}, type={s.kind.name}, loc={optionText s.location}, size={optionText s.size}, init={init})"

/-- How many cells defining the symbol takes; `none` if it takes none. -/
def demand (s : Symbol) : Except Fault (Option Int) :=
  match s.kind with
  | .variable => .ok (some 1)
  | .stack =>
    match s.size with
    | none => .error .stackWithoutSize
    | some n => .ok (some n)
  | .function => .ok none

end Symbol

/-- Names bound to values of `α`, and the cells owned. -/
structure Frame (α : Type) where
  names : List (String × α) := []
  cells : List Int := []

namespace Frame

variable {α : Type}

def lookup? (f : Frame α) (name : String) : Option α := f.names.lookup name

def binds (f : Frame α) (name : String) : Bool := (f.lookup? name).isSome

/-- A new name goes behind the others. -/
def bind (f : Frame α) (name : String) (value : α) : Frame α :=
  { f with names := f.names ++ [(name, value)] }

end Frame

/-- A frame at work: the cells it draws on, unless it has none to draw on, and the log. -/
structure FrameState (α : Type) where
  frame : Frame α
  cells : CellTable
  managed : Bool := true
  log : Array String := #[]

/-- An action on a frame; what it changed survives a failure. -/
abbrev FrameM (α : Type) := ExceptT Fault (StateM (FrameState α))

namespace FrameM

variable {α : Type}

def note (line : String) : FrameM α Unit := modify fun s => { s with log := s.log.push line }

/-- Gives the frame a block of cells. -/
def allocate (size : Int) : FrameM α Int := do
  let s ← get
  unless s.managed do throw .noCells
  let (start, cells) ← s.cells.allocate size
  modify fun s =>
    { s with cells, frame := { s.frame with cells := s.frame.cells ++ CellTable.block start size } }
  note s!"Scope: Allocated {size} cells starting at {start}"
  return start

/-- The cells of a frame as they are logged. -/
def cellsText (cells : List Int) : String :=
  "[" ++ String.intercalate ", " (cells.map toString) ++ "]"

/-- Takes all cells of the frame out of use. -/
def release : FrameM α Unit := do
  let s ← get
  if s.managed then
    note s!"Scope: Releasing cells {cellsText s.frame.cells}"
    modify fun s =>
      { s with cells := s.cells.release s.frame.cells, frame := { s.frame with cells := [] } }

/-- The symbol with the cells it asks for. -/
def locate (symbol : Symbol) : FrameM α Symbol := do
  match ← symbol.demand with
  | none => return symbol
  | some size =>
    let location ← allocate size
    return { symbol with location := some location }

/-- Binds the symbol's name, then finds its cells. The name stays bound when that fails. What the
name is bound to is made from the symbol, with its location if it got one. -/
def define (symbol : Symbol) (reference : Symbol → α) : FrameM α Symbol := do
  if (← get).frame.binds symbol.name then throw (.alreadyDefined symbol.name)
  let bindTo (s : Symbol) : FrameM α Unit :=
    modify fun state => { state with frame := state.frame.bind symbol.name (reference s) }
  let located ←
    try locate symbol
    catch fault => do
      bindTo symbol
      throw fault
  bindTo located
  note s!"Scope: Defined {located.text}"
  return located

/-- Runs an action on a frame. -/
def runOn {β : Type} (action : FrameM α β) (s : FrameState α) : Except Fault β × FrameState α :=
  (ExceptT.run action).run s

end FrameM

end TapeScript
