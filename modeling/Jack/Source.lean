import Jack.Compile.Outcome
import Jack.Text.Lines
import Jack.Token.Scan

/-!
# Compiling a source text

From the text of one class to its code: cut into tokens, compile, and make the listings asked for.
The classes of the run-time library are always known.
-/

namespace Jack

open Compile (Options Fault)

/-- The classes of the run-time library. -/
def libraryClasses : List String :=
  ["Array", "Keyboard", "Math", "Memory", "Output", "Screen", "String", "Sys"]

/-- All classes that are known when a source is compiled. -/
def Compile.Options.allKnown (o : Options) : List String :=
  libraryClasses ++ o.knownClasses

/-- A compiled class. -/
structure Compiled where
  file : String
  className : String
  code : List Instruction
  tokenCount : Nat
  /-- The listing of the tokens; empty unless asked for. -/
  tokenListing : String
  /-- The listing of the derivation; empty unless asked for. -/
  treeListing : String
  deriving Repr, DecidableEq

/-- The code as text, without an end to the last line. -/
def Compiled.codeText (r : Compiled) : String :=
  Instruction.listing r.code

/-- A compiled class in one line, for the account. -/
def Compiled.summary (r : Compiled) : String :=
  String.join
    ["Compiled ", r.file, ": class ", r.className, ", ", toString r.tokenCount, " tokens, ",
      toString r.code.length, " instructions"]

/-- A result together with the account of how it came about. -/
structure Attempt (ε : Type) where
  notes : List String
  result : Except ε Compiled

/-- Compiles the text of one class. -/
def compileSource (o : Options) (source file : String) : Attempt Fault :=
  let lexed := Token.scan source file
  match lexed.fault with
  | some d => ⟨[], .error (.diagnostic d)⟩
  | none =>
    let outcome :=
      Compile.compileTokens { o with knownClasses := o.allKnown } file (Text.linesOf source)
        lexed.tokens
    let reached := outcome.state
    match outcome.fault with
    | some f => ⟨reached.notes, .error f⟩
    | none =>
      let compiled : Compiled :=
        { file := file
          className := reached.className
          code := reached.code
          tokenCount := lexed.tokens.length
          tokenListing := if o.listTokens then Token.listing lexed.tokens else ""
          treeListing := Listing.render (reached.marks.getD []) }
      ⟨reached.notes ++ [compiled.summary], .ok compiled⟩

end Jack
