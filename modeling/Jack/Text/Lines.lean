/-!
# Lines of a text

Two ways to cut a text into lines live here, and they are different on purpose. Positions in a
source are counted by the newline character alone (`newlineFields`). The lines quoted under a
diagnostic are cut at every line boundary Unicode knows (`splitLines`), so a carriage return or a
form feed ends a quoted line without ending a counted one.

Reading a file first folds the three customary line ends into the newline (`foldLineEnds`).
-/

namespace Jack.Text

/-- The characters that end a line: line feed, carriage return, vertical tab, form feed, the
information separators, next line, and the line and paragraph separators. -/
def isLineBreak (c : Char) : Bool :=
  let n := c.toNat
  (0x0A ≤ n && n ≤ 0x0D) || (0x1C ≤ n && n ≤ 0x1E) || n == 0x85 || n == 0x2028 || n == 0x2029

/-- Puts `c` in front of the first line. -/
def consLine (c : Char) : List (List Char) → List (List Char)
  | [] => [[c]]
  | l :: ls => (c :: l) :: ls

/-- The lines of a text without their ends. A carriage return followed by a line feed is one end,
and a text that closes with a line end has no empty line after it. -/
def splitLines : List Char → List (List Char)
  | [] => []
  | '\r' :: '\n' :: cs => [] :: splitLines cs
  | c :: cs => if isLineBreak c then [] :: splitLines cs else consLine c (splitLines cs)

/-- The fields of a text between newline characters; there is always at least one. -/
def newlineFields : List Char → List (List Char)
  | [] => [[]]
  | c :: cs => if c = '\n' then [] :: newlineFields cs else consLine c (newlineFields cs)

/-- Turns a carriage return, alone or before a newline, into a newline. -/
def foldLineEnds : List Char → List Char
  | [] => []
  | '\r' :: '\n' :: cs => '\n' :: foldLineEnds cs
  | c :: cs => (if c = '\r' then '\n' else c) :: foldLineEnds cs

/-- The lines of a string, for quoting under a diagnostic. -/
def linesOf (text : String) : List String :=
  (splitLines text.toList).map String.ofList

end Jack.Text
