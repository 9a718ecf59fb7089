import Jack.Location

/-!
# Diagnostics

A `Problem` is the cause of a complaint, and `Problem.message` is the only place where causes are
put into words. A `Diagnostic` adds what helps to find and mend the problem: a location, the line
of the source, and a hint. `Diagnostic.render` lays the four out:

    Main.jack:5:17: error: undeclared identifier 'cont'
        let count = cont + 1;
                    ^
    hint: ...
-/

namespace Jack

/-- The part of the language that a problem offends against. -/
inductive Category where
  /-- Not told apart further. -/
  | general
  /-- The text is not cut or ordered as the grammar wants it. -/
  | grammar
  /-- A name is used in a way its declarations do not allow. -/
  | meaning
  /-- An instruction with operands that the machine does not have. -/
  | emission
  deriving Repr, DecidableEq

/-- What is wrong. -/
inductive Problem where
  /-- A problem of which only its category and wording are known. -/
  | other (category : Category) (message : String)
  | unterminatedComment
  | unterminatedString
  | unexpectedToken (found expected : String)
  | undeclared (name : String)
  | duplicate (name scope : String)
  | integerOutOfRange (literal : String)
  | fieldInFunction (field function : String)
  | thisInFunction (function : String)
  /-- An unqualified call in a function, where there is no receiver. -/
  | receiverMissing (callee function : String)
  | primitiveReceiver (callee receiver type : String)
  /-- An unqualified call of a subroutine that is not a method. -/
  | notAMethod (className callee kind : String)
  | unknownSegment (given : String)
  | popIntoConstant
  | badCount (what given : String)
  | unknownCommand (given : String)
  | badName (what given : String)
  deriving Repr, DecidableEq

namespace Problem

/-- The category of a problem. -/
def category : Problem → Category
  | other c _ => c
  | unterminatedComment | unterminatedString | unexpectedToken _ _ => .grammar
  | undeclared _ | duplicate _ _ | integerOutOfRange _ | fieldInFunction _ _ | thisInFunction _
  | receiverMissing _ _ | primitiveReceiver _ _ _ | notAMethod _ _ _ => .meaning
  | unknownSegment _ | popIntoConstant | badCount _ _ | unknownCommand _ | badName _ _ => .emission

/-- A problem in words. -/
def message : Problem → String
  | other _ m => m
  | unterminatedComment => "unterminated multi-line comment"
  | unterminatedString => "unterminated string literal"
  | unexpectedToken found expected => String.join ["expected ", expected, ", got ", found]
  | undeclared name => String.join ["undeclared identifier '", name, "'"]
  | duplicate name scope => String.join ["redeclaration of '", name, "' in ", scope, " scope"]
  | integerOutOfRange literal => String.join ["integer constant ", literal, " is out of range"]
  | fieldInFunction field function =>
    String.join ["field '", field, "' cannot be used in function '", function, "'"]
  | thisInFunction function => String.join ["'this' cannot be used in function '", function, "'"]
  | receiverMissing callee function =>
    String.join ["method '", callee, "' called without a receiver in function '", function, "'"]
  | primitiveReceiver callee receiver type =>
    String.join ["cannot call '", callee, "' on '", receiver, "' of primitive type ", type]
  | notAMethod className callee kind =>
    String.join ["'", className, ".", callee, "' is a ", kind, ", not a method"]
  | unknownSegment given => String.join ["unknown VM segment '", given, "'"]
  | popIntoConstant => "cannot pop into the constant segment"
  | badCount what given => String.join [what, " must be a non-negative integer, got ", given]
  | unknownCommand given => String.join ["unknown arithmetic command '", given, "'"]
  | badName what given => String.join ["invalid ", what, " name ", given]

end Problem

/-- A problem with what is known about its place and its cure. -/
structure Diagnostic where
  problem : Problem
  location : Option Location := none
  hint : Option String := none
  sourceLine : Option String := none
  deriving Repr, DecidableEq

namespace Diagnostic

/-- The complaint itself, after its location if it has one. -/
def headline (d : Diagnostic) : String :=
  match d.location with
  | some l => s!"{l.text}: error: {d.problem.message}"
  | none => s!"error: {d.problem.message}"

/-- The source line, indented, and a caret under the column. A line without a location is not shown,
and a column below one gets no caret. -/
def excerpt (d : Diagnostic) : List String :=
  match d.location, d.sourceLine with
  | some l, some line =>
    ("    " ++ line) ::
      (if 0 < l.column then
        [String.ofList (List.replicate (l.column.toNat + 3) ' ' ++ ['^'])]
      else [])
  | _, _ => []

/-- The hint, unless it is missing or empty. -/
def advice (d : Diagnostic) : List String :=
  match d.hint with
  | some h => if h = "" then [] else [s!"hint: {h}"]
  | none => []

/-- The whole diagnostic, one part below the other. -/
def render (d : Diagnostic) : String :=
  String.intercalate "\n" (d.headline :: d.excerpt ++ d.advice)

/-- A string literal that its line does not close. The advice never varies. -/
def unterminatedString (location : Option Location) (sourceLine : Option String) : Diagnostic where
  problem := .unterminatedString
  location := location
  hint := some "add closing '\"' to complete the string"
  sourceLine := sourceLine

end Diagnostic

end Jack
