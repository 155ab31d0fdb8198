import TapeScript.Text.Blank

set_option autoImplicit false

/-! # Define lines

A line `#define NAME VALUE` gives a name a value; the value is the rest of the line. Lines are read
one by one, whatever else the text around them means.
-/

namespace TapeScript

/-- Names with their values, in the order in which the names first appear. -/
abbrev DefineTable := List (String × String)

namespace DefineTable

/-- Sets a value; a name that has one keeps its place. -/
def put (table : DefineTable) (name value : String) : DefineTable :=
  if (table.lookup name).isSome then
    table.map fun entry => if entry.1 = name then (name, value) else entry
  else table ++ [(name, value)]

/-- The name and value of a define line. -/
def ofLine? (line : List Char) : Option (String × String) :=
  let stripped := Text.trim line
  if "#define".toList.isPrefixOf stripped then
    match Text.wordsAtMost 2 stripped with
    | [_, name, value] => some (String.ofList name, String.ofList value)
    | _ => none
  else none

/-- The table of a text; a later line for a name replaces its value. -/
def ofText (text : List Char) : DefineTable :=
  ((Text.splitLines text).filterMap ofLine?).foldl (fun table (name, value) => table.put name value) []

end DefineTable

end TapeScript
