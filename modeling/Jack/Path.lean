/-!
# Paths

A path is kept in normal form: parts that say nothing (empty ones and single dots) are dropped,
while a step up is kept, since what it means depends on the files. Names are looked at as text:
the suffix of a name starts at its last dot, unless that dot is its first or its last character.
-/

namespace Jack

/-- Where a path starts. Two leading slashes are kept apart from one; more than two count as one. -/
inductive Anchor where
  | relative
  | root
  | doubleRoot
  deriving Repr, DecidableEq

/-- The text of an anchor. -/
def Anchor.text : Anchor → String
  | relative => ""
  | root => "/"
  | doubleRoot => "//"

/-- A path in normal form. -/
structure Path where
  anchor : Anchor
  parts : List String
  deriving Repr, DecidableEq

namespace Path

/-- The fields of a text between slashes. -/
def fields : List Char → List (List Char)
  | [] => [[]]
  | c :: cs =>
    if c = '/' then [] :: fields cs
    else
      match fields cs with
      | [] => [[c]]
      | f :: fs => (c :: f) :: fs

/-- The anchor that a text starts with. -/
def anchorOf : List Char → Anchor
  | '/' :: '/' :: '/' :: _ => .root
  | '/' :: '/' :: _ => .doubleRoot
  | '/' :: _ => .root
  | _ => .relative

/-- The normal form of a path. -/
def ofString (text : String) : Path where
  anchor := anchorOf text.toList
  parts := (fields text.toList).filterMap fun f =>
    if f = [] ∨ f = ['.'] then none else some (String.ofList f)

/-- The text of a path; one without parts is the working directory. -/
def text (p : Path) : String :=
  let body := p.anchor.text ++ String.intercalate "/" p.parts
  if body = "" then "." else body

/-- The last part; empty if there is none. -/
def name (p : Path) : String :=
  p.parts.getLast?.getD ""

/-- The path without its last part. -/
def parent (p : Path) : Path :=
  { p with parts := p.parts.dropLast }

/-- The path one part further down. -/
def child (p : Path) (name : String) : Path :=
  { p with parts := p.parts ++ [name] }

/-- The path with another last part. -/
def withName (p : Path) (name : String) : Path :=
  p.parent.child name

/-- Splits a name before its last dot; a dot at either end splits nothing. -/
def splitName (name : String) : String × String :=
  let cs := name.toList
  let tail := cs.reverse.takeWhile (· != '.')
  let stem := (cs.reverse.dropWhile (· != '.')).drop 1
  if tail.length = 0 ∨ stem.length = 0 then (name, "")
  else (String.ofList stem.reverse, String.ofList ('.' :: tail.reverse))

/-- The last part without its suffix. -/
def stem (p : Path) : String :=
  (splitName p.name).1

/-- The suffix of the last part, with its dot; empty if there is none. -/
def suffix (p : Path) : String :=
  (splitName p.name).2

/-- The path with another suffix. -/
def withSuffix (p : Path) (suffix : String) : Path :=
  p.withName (p.stem ++ suffix)

end Path

end Jack
