import TapeScript.Text.Utf8

set_option autoImplicit false

/-! # Quoted texts

A text between quotes, with escapes for the quote, the backslash and control characters. Single
quotes are used unless the text holds single quotes and no double ones.
-/

namespace TapeScript.Text

/-- A character inside the given quotes. -/
def quoteChar (mark c : Char) : List Char :=
  if c = mark || c = '\\' then ['\\', c]
  else if c = '\n' then ['\\', 'n']
  else if c = '\r' then ['\\', 'r']
  else if c = '\t' then ['\\', 't']
  else if c.toNat < 32 || (127 ≤ c.toNat && c.toNat < 161) then
    '\\' :: 'x' :: (hexByte c.toNat.toUInt8).toList
  else [c]

def quote (s : String) : String :=
  let cs := s.toList
  let mark := if cs.contains '\'' && !cs.contains '"' then '"' else '\''
  String.ofList (mark :: cs.flatMap (quoteChar mark) ++ [mark])

end TapeScript.Text
