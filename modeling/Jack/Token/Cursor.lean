import Jack.Diagnostic
import Jack.Token

/-!
# A cursor over tokens

The tokens of one source, read from left to right with one token in view. The cursor never moves
back. It also knows where the source ends and what its lines are, which is what diagnostics about
the token in view need.
-/

namespace Jack.Token

/-- What is fixed about a source while its tokens are read: the place just behind the last token,
and the lines to quote. -/
structure Setting where
  endLocation : Location
  lines : List String
  deriving Repr, DecidableEq

namespace Setting

/-- The place just behind a list of tokens; without any token, the first place of the file. -/
def endOf (file : String) (tokens : List Token) : Location :=
  match tokens.getLast? with
  | none => ⟨file, 1, 1⟩
  | some t => { t.location with column := t.location.column + t.text.length }

/-- The setting of a list of tokens. -/
def ofTokens (file : String) (lines : List String) (tokens : List Token) : Setting :=
  ⟨endOf file tokens, lines⟩

/-- The line with a given number, counted from one. -/
def sourceLine (c : Setting) (n : Int) : Option String :=
  if 0 < n then c.lines[n.toNat - 1]? else none

/-- The complaint that something else was expected in place of the token in view. At the end there
is no line to show. -/
def unexpected (c : Setting) (expected : String) : Option Token → Diagnostic
  | none =>
    { problem := .unexpectedToken "end of input" expected
      location := some c.endLocation }
  | some t =>
    { problem := .unexpectedToken s!"'{t.text}'" expected
      location := some t.location
      sourceLine := c.sourceLine t.location.line }

/-- A problem with a token that has been read. -/
def complain (c : Setting) (problem : Problem) (t : Token) (hint : Option String) : Diagnostic where
  problem := problem
  location := some t.location
  hint := hint
  sourceLine := c.sourceLine t.location.line

end Setting

/-- Tokens still to be read, in their setting. -/
structure Cursor where
  setting : Setting
  /-- How many tokens there are in all. -/
  size : Nat
  rest : List Token
  deriving Repr, DecidableEq

namespace Cursor

/-- A cursor in front of the first token. -/
def ofTokens (file : String) (lines : List String) (tokens : List Token) : Cursor :=
  ⟨.ofTokens file lines tokens, tokens.length, tokens⟩

/-- The token in view. -/
def peek (c : Cursor) : Option Token := c.rest.head?

/-- Every token has been read. -/
def atEnd (c : Cursor) : Bool := c.rest.isEmpty

/-- Reads the token in view; behind the last token that is a fault, which says what was wanted. -/
def advance (c : Cursor) (expected : String) : Except Diagnostic (Token × Cursor) :=
  match c.rest with
  | [] => .error (c.setting.unexpected expected none)
  | t :: ts => .ok (t, { c with rest := ts })

end Cursor

end Jack.Token
