set_option autoImplicit false

/-! # What a command leaves behind

The texts a command writes and its exit code.
-/

namespace TapeScript.Command

structure Report where
  exit : Nat
  out : String
  err : String

/-- The exit code for a command line that cannot be read. -/
def misuseCode : Nat := 2

/-- The exit code for a command that failed. -/
def failureCode : Nat := 1

/-- A text on a line of its own. -/
def line (s : String) : String := s ++ "\n"

def Report.misuse (usage : String) : Report := { exit := misuseCode, out := "", err := usage }

def Report.help (text : String) : Report := { exit := 0, out := text, err := "" }

end TapeScript.Command
