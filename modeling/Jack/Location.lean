/-!
# Places in a source

A location is what a diagnostic points at. Lines and columns count from one in every source that was
cut into tokens here; tokens that arrive ready made may carry any whole numbers.
-/

namespace Jack

/-- A line and a column of a named source. -/
structure Location where
  file : String
  line : Int
  column : Int
  deriving Repr, DecidableEq

/-- A location in the customary form, file, line and column with colons between. -/
def Location.text (l : Location) : String :=
  s!"{l.file}:{l.line}:{l.column}"

end Jack
