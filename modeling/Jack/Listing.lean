import Jack.Token

/-!
# Derivation listings

While a class is compiled, the derivation of its text can be recorded: an element is opened and
closed for every production, and every token read is noted in between. A `Mark` is one such
record; `Listing.lines` writes marks one a line, two blanks deeper for every open element. Closing
more elements than were opened is remembered, so that depth must be made good before anything is
indented.
-/

namespace Jack

/-- The productions that have an element in a listing. -/
inductive Element where
  | classDecl
  | classVarDec
  | subroutineDec
  | parameterList
  | subroutineBody
  | varDec
  | statements
  | letStatement
  | ifStatement
  | whileStatement
  | doStatement
  | returnStatement
  | expression
  | term
  | expressionList
  deriving Repr, DecidableEq

/-- The name of an element. -/
def Element.tag : Element → String
  | classDecl => "class"
  | classVarDec => "classVarDec"
  | subroutineDec => "subroutineDec"
  | parameterList => "parameterList"
  | subroutineBody => "subroutineBody"
  | varDec => "varDec"
  | statements => "statements"
  | letStatement => "letStatement"
  | ifStatement => "ifStatement"
  | whileStatement => "whileStatement"
  | doStatement => "doStatement"
  | returnStatement => "returnStatement"
  | expression => "expression"
  | term => "term"
  | expressionList => "expressionList"

/-- One record of a derivation. -/
inductive Mark where
  | opened (tag : String)
  | closed (tag : String)
  | token (t : Token)
  deriving Repr, DecidableEq

namespace Mark

/-- How much deeper the marks after this one stand. -/
def shift : Mark → Int
  | opened _ => 1
  | closed _ => -1
  | token _ => 0

/-- The depth of a mark itself: a closing one stands with what comes after it. -/
def depth (before : Int) : Mark → Int
  | closed _ => before - 1
  | _ => before

/-- A mark without its indentation. -/
def text : Mark → String
  | opened tag => s!"<{tag}>"
  | closed tag => s!"</{tag}>"
  | token t => t.markup

end Mark

namespace Listing

/-- Two blanks for every open element. -/
def indent (depth : Int) : String :=
  String.ofList (List.replicate (2 * depth.toNat) ' ')

/-- The lines of a list of marks that starts at a depth. -/
def lines (depth : Int) : List Mark → List String
  | [] => []
  | m :: ms => (indent (m.depth depth) ++ m.text) :: lines (depth + m.shift) ms

/-- The whole listing. -/
def render (marks : List Mark) : String :=
  String.intercalate "\n" (lines 0 marks)

end Listing

end Jack
