import TapeScript.Lower.Node
import TapeScript.Source.Define

set_option autoImplicit false

/-! # Sessions

A session is what lowering works on: the workbench, the open scopes (the innermost first, the global
one last) and the define table. It lives on from one program to the next, and through failures.
-/

namespace TapeScript

structure Session where
  bench : Workbench
  /-- The scopes inside the global one. -/
  inner : List (Frame Symbol) := []
  global : Frame Symbol := {}
  defines : DefineTable := []

abbrev Lower := ExceptT Fault (StateM Session)

namespace Session

/-- A session whose scratch pool has the given size. -/
def ofPool (size : Int) : Session := { bench := { cells := CellTable.ofSize size } }

/-- How many scopes are open. -/
def depth (s : Session) : Nat := s.inner.length

/-- The cells in use outside the scratch pool, in ascending order. -/
def allocated (s : Session) : List Int :=
  let cells := s.bench.cells
  cells.sortedTaken.filter fun c => !cells.scratch.contains c

def clearLog (s : Session) : Session := { s with bench := { s.bench with log := #[] } }

def note (s : Session) (line : String) : Session :=
  { s with bench := { s.bench with log := s.bench.log.push line } }

/-- Looks a name up, from the innermost scope outward. -/
def lookup (s : Session) (name : String) : Option Symbol :=
  (s.inner ++ [s.global]).findSome? fun frame => frame.lookup? name

def current (s : Session) : Frame Symbol :=
  match s.inner with
  | frame :: _ => frame
  | [] => s.global

def setCurrent (s : Session) (frame : Frame Symbol) : Session :=
  match s.inner with
  | _ :: outer => { s with inner := frame :: outer }
  | [] => { s with global := frame }

end Session

namespace Lower

def run {α : Type} (action : Lower α) (s : Session) : Except Fault α × Session :=
  (ExceptT.run action).run s

def note (line : String) : Lower Unit := modify fun s => s.note line

/-- Does something at the workbench. -/
def atBench {α : Type} (action : Emit α) : Lower α := do
  let s ← get
  let (result, bench) := action.runAt s.bench
  set { s with bench }
  result

/-- Does something with the current scope. -/
def inScope {α : Type} (action : FrameM Symbol α) : Lower α := do
  let s ← get
  let (result, after) :=
    action.runOn { frame := s.current, cells := s.bench.cells, log := s.bench.log }
  set ({ s.setCurrent after.frame with
    bench := { s.bench with cells := after.cells, log := after.log } } : Session)
  result

/-! ## Scopes -/

def enterScope : Lower Unit := do
  modify fun s => { s with inner := {} :: s.inner }
  note "Transformer: Entered new scope (parent: True)"

/-- Leaves the current scope, which gives its cells back. -/
def leaveScope : Lower Unit := do
  if (← get).inner.isEmpty then throw .leavesGlobalScope
  inScope FrameM.release
  note "Transformer: Exiting scope. Returning to parent."
  modify fun s => { s with inner := s.inner.drop 1 }

def define (symbol : Symbol) : Lower Symbol := inScope (FrameM.define symbol id)

end Lower

end TapeScript
