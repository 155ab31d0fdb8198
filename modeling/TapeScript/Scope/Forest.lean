import TapeScript.Scope.Frame

set_option autoImplicit false

/-! # Scopes that share one cell table

A `Forest` holds any number of scopes, each with an optional parent made before it, and the symbols
made so far. Scopes refer to symbols by number, so that a symbol defined in two scopes is one and the
same, and its latest location shows in both.
-/

namespace TapeScript

structure ScopeNode where
  frame : Frame Nat := {}
  parent : Option Nat
  managed : Bool

structure Forest where
  cells : CellTable
  scopes : Array ScopeNode := #[]
  symbols : Array Symbol := #[]
  log : Array String := #[]

namespace Forest

def ofPool (pool : List Int) : Forest := { cells := CellTable.ofPool pool }

/-- Opens a scope and gives its number. -/
def open_ (f : Forest) (parent : Option Nat) (managed : Bool) : Nat × Forest :=
  (f.scopes.size, { f with scopes := f.scopes.push { parent, managed } })

/-- Makes a symbol; an invalid one is not kept. -/
def newSymbol (f : Forest) (name kind : String) (size : Option Int) (initialised : Bool) :
    Except Fault Symbol × Forest :=
  match Symbol.make name kind size initialised with
  | .ok symbol => (.ok symbol, { f with symbols := f.symbols.push symbol })
  | .error fault => (.error fault, f)

/-- Runs an action on one scope. -/
def within {β : Type} (f : Forest) (scope : Nat) (action : FrameM Nat β) :
    Except Fault β × Forest :=
  match f.scopes[scope]? with
  | none => (.error .missingItem, f)
  | some node =>
    let (result, s) :=
      action.runOn { frame := node.frame, cells := f.cells, managed := node.managed, log := f.log }
    (result,
      { f with
        cells := s.cells
        log := s.log
        scopes := f.scopes.setIfInBounds scope { node with frame := s.frame } })

/-- Defines a symbol, given by its number, in a scope. -/
def define (f : Forest) (scope symbol : Nat) : Except Fault Symbol × Forest :=
  match f.symbols[symbol]? with
  | none => (.error .missingItem, f)
  | some s =>
    match f.within scope (FrameM.define s fun _ => symbol) with
    | (.ok located, f) =>
      (.ok located, { f with symbols := f.symbols.setIfInBounds symbol located })
    | (.error fault, f) => (.error fault, f)

def allocate (f : Forest) (scope : Nat) (size : Int) : Except Fault Int × Forest :=
  f.within scope (FrameM.allocate size)

def release (f : Forest) (scope : Nat) : Except Fault Unit × Forest :=
  f.within scope FrameM.release

/-- Looks a name up in a scope and then in its ancestors; parents have smaller numbers, so that a
chain is no longer than the number of its first scope allows. -/
def lookupFrom (f : Forest) (name : String) : Nat → Option Nat → Option Symbol
  | _, none => none
  | 0, _ => none
  | fuel + 1, some scope =>
    match f.scopes[scope]? with
    | none => none
    | some node =>
      match node.frame.lookup? name with
      | some symbol => f.symbols[symbol]?
      | none => lookupFrom f name fuel node.parent

def lookup (f : Forest) (scope : Nat) (name : String) : Option Symbol :=
  f.lookupFrom name (scope + 1) (some scope)

def bindsLocally (f : Forest) (scope : Nat) (name : String) : Bool :=
  (f.scopes[scope]?).any fun node => node.frame.binds name

/-- The names of a scope in the order of their definition. -/
def names (f : Forest) (scope : Nat) : List String :=
  match f.scopes[scope]? with
  | some node => node.frame.names.map Prod.fst
  | none => []

def clearLog (f : Forest) : Forest := { f with log := #[] }

end Forest

end TapeScript
