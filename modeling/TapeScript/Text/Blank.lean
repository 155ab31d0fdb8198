set_option autoImplicit false

/-! # Blanks and lines

Which characters count as blanks, and cutting texts at blanks and at line ends.
-/

namespace TapeScript.Text

/-- Unicode white space, together with the information separators. -/
def isBlank (c : Char) : Bool :=
  let n := c.toNat
  (9 ≤ n && n ≤ 13) || (0x1c ≤ n && n ≤ 0x20) || n == 0x85 || n == 0xa0 || n == 0x1680 ||
    (0x2000 ≤ n && n ≤ 0x200a) || n == 0x2028 || n == 0x2029 || n == 0x202f || n == 0x205f ||
    n == 0x3000

def trimLeft (s : List Char) : List Char := s.dropWhile isBlank

def trimRight (s : List Char) : List Char := (s.reverse.dropWhile isBlank).reverse

def trim (s : List Char) : List Char := trimRight (trimLeft s)

/-- The words of a text, at most `limit` of them cut off; the rest, if any, follows as the last
piece. Pieces have no blanks around them, but the last may hold some inside and behind. -/
def wordsAtMost : Nat → List Char → List (List Char)
  | 0, s =>
    match trimLeft s with
    | [] => []
    | rest => [rest]
  | limit + 1, s =>
    match trimLeft s with
    | [] => []
    | rest => rest.takeWhile (!isBlank ·) :: wordsAtMost limit (rest.dropWhile (!isBlank ·))

/-- Where a text splits into lines: at a line feed, a carriage return (with the line feed after
it), and at the other line, file, group, record and paragraph ends. -/
def endsLine (c : Char) : Bool :=
  let n := c.toNat
  (10 ≤ n && n ≤ 13) || (0x1c ≤ n && n ≤ 0x1e) || n == 0x85 || n == 0x2028 || n == 0x2029

/-- The lines of a text without their ends; `current` is the line being read, backwards. -/
def splitLinesFrom (current : List Char) : List Char → List (List Char)
  | [] => if current.isEmpty then [] else [current.reverse]
  | '\r' :: '\n' :: rest => current.reverse :: splitLinesFrom [] rest
  | c :: rest =>
    if endsLine c then current.reverse :: splitLinesFrom [] rest
    else splitLinesFrom (c :: current) rest

def splitLines (s : List Char) : List (List Char) := splitLinesFrom [] s

/-- Reads every kind of line end, `\r\n`, `\r` or `\n`, as `\n`. -/
def universalNewlines : List Char → List Char
  | [] => []
  | '\r' :: '\n' :: rest => '\n' :: universalNewlines rest
  | c :: rest => (if c = '\r' then '\n' else c) :: universalNewlines rest

/-- The lines of a text that ends its lines with `\n`; the ends are left out. -/
def linesFrom (current : List Char) : List Char → List (List Char)
  | [] => if current.isEmpty then [] else [current.reverse]
  | c :: rest =>
    if c = '\n' then current.reverse :: linesFrom [] rest else linesFrom (c :: current) rest

def lines (s : List Char) : List (List Char) := linesFrom [] s

end TapeScript.Text
