import Jack.CommandLine.Report
import Jack.Text.Control

/-!
# The command

`run` is the whole command as a function of its arguments and of the files: it yields what is
printed, the exit status, and the files afterwards.

Sources are compiled one after the other. A source that does not compile is reported and passed
over; any other error ends the command at once. What has been written before stays written.
-/

namespace Jack.CommandLine

open Compile (Options)

/-- What the command has printed and written so far. -/
structure Transcript where
  stdout : String := ""
  stderr : String := ""
  tree : FileTree
  deriving Repr, DecidableEq

namespace Transcript

/-- Prints to standard output. What is printed comes without control sequences. -/
def say (w : Transcript) (text : String) : Transcript :=
  { w with stdout := w.stdout ++ Text.plainText text }

/-- Prints to standard error, without control sequences as well. -/
def warn (w : Transcript) (text : String) : Transcript :=
  { w with stderr := w.stderr ++ Text.plainText text }

/-- Writes notes to standard error for those who asked for them. Notes go out as they are. -/
def notes (w : Transcript) (verbose : Bool) (lines : List String) : Transcript :=
  if verbose then
    { w with stderr := w.stderr ++ String.join (lines.map fun l => s!"DEBUG: {l}\n") }
  else w

end Transcript

/-- How a run ends. -/
structure Ending where
  transcript : Transcript
  status : ExitStatus
  /-- Whether a trace of the program was asked for. -/
  traced : Bool := false
  deriving Repr, DecidableEq

/-- Ends the command on an error. -/
def Transcript.giveUp (w : Transcript) (verbose : Bool) (t : Trouble) : Ending where
  transcript := w.warn t.farewell
  status := t.status
  traced := t.showsTrace verbose

/-- A file that holds a text. -/
def codeFile (text : String) : String :=
  if text = "" then "" else text ++ "\n"

/-- The files that a compiled source makes, in the order in which they are written: its code and the
listings asked for, named after the source. -/
def outputs (a : Arguments) (source target : Path) (r : Compiled) : List (Path × String) :=
  [(target, codeFile r.codeText)] ++
    (if a.tokens then
      [(target.withName s!"{source.stem}T.xml", r.tokenListing ++ "\n")] else []) ++
    (if a.tree then
      [(target.withName s!"{source.stem}.xml", r.treeListing ++ "\n")] else [])

/-- Writes files until one fails; the tree holds what has been written. -/
def writeAll (t : FileTree) : List (Path × String) → FileTree × Option FileFault
  | [] => (t, none)
  | (p, text) :: more =>
    match t.writeText p text with
    | .error f => (t, some f)
    | .ok t' => writeAll t' more

/-- Makes the directory of the target and writes the outputs. -/
def deliver (t : FileTree) (a : Arguments) (source target : Path) (r : Compiled) :
    FileTree × Option FileFault :=
  match t.makePath target.parent with
  | (t', some (e, p)) => (t', some (.tree e p))
  | (t', none) => writeAll t' (outputs a source target r)

/-- What has become of one source: it was delivered, it did not compile, or the command ends. -/
inductive Progress where
  | delivered (w : Transcript)
  | failed (w : Transcript)
  | ended (e : Ending)
  deriving Repr, DecidableEq

/-- Compiles one source. -/
def compileOne (a : Arguments) (o : Options) (asDirectory : Bool) (w : Transcript)
    (source : Path) : Progress :=
  let w := w.notes a.verbose [s!"Compiling {source.text}"]
  let attempt := w.tree.compileFile o source.text
  let w := w.notes a.verbose attempt.notes
  match attempt.result with
  | .error (.source (.diagnostic d)) => .failed (w.warn (Trouble.compiler d).report)
  | .error f => .ended (w.giveUp a.verbose (.ofFault f))
  | .ok r =>
    match w.tree.outputPath source (a.output.map Path.ofString) asDirectory with
    | .error f => .ended (w.giveUp a.verbose (.ofFault f))
    | .ok target =>
      match deliver w.tree a source target r with
      | (t, some f) => .ended ({ w with tree := t }.giveUp a.verbose (.ofFault f))
      | (t, none) =>
        .delivered ({ w with tree := t }.say s!"Compiled {source.text} -> {target.text}\n")

/-- Compiles sources in turn, `failures` having failed so far of `total`. -/
def compileEach (a : Arguments) (o : Options) (asDirectory : Bool) (total : Nat)
    (w : Transcript) (failures : Nat) : List Path → Ending
  | [] =>
    if failures = 0 then ⟨w, .success, false⟩
    else ⟨w.warn s!"{failures} of {total} file(s) failed to compile\n", .buildError, false⟩
  | p :: ps =>
    match compileOne a o asDirectory w p with
    | .delivered w => compileEach a o asDirectory total w failures ps
    | .failed w => compileEach a o asDirectory total w (failures + 1) ps
    | .ended e => e

/-- Compiles what the source argument stands for. The classes of a directory know each other. -/
def compileAll (a : Arguments) (given : String) (w : Transcript) : Ending :=
  let source := Path.ofString given
  match w.tree.findSources given with
  | .error f => w.giveUp a.verbose (.ofFault f)
  | .ok [] =>
    ⟨w.warn s!"Error: no .jack files in {source.text}\n", .invalidArguments, false⟩
  | .ok sources =>
    let asDirectory := w.tree.isDirectory source
    let o : Options :=
      { knownClasses := if asDirectory then sources.map Path.stem else []
        strict := a.strict
        listTokens := a.tokens
        listTree := a.tree }
    compileEach a o asDirectory sources.length w 0 sources

/-- Refuses the arguments. -/
def refuse (w : Transcript) (e : UsageError) : Ending :=
  ⟨w.warn e.report, .invalidArguments, false⟩

/-- Runs the command. The form of the options is checked first, then requests for information are
answered, then the source is checked, then that nothing is left over. -/
def run (tree : FileTree) (arguments : List String) : Ending :=
  let w : Transcript := { tree := tree }
  match Arguments.read {} arguments with
  | .error e => refuse w e
  | .ok a =>
    match a.inquiry with
    | some .version => ⟨w.say versionText, .success, false⟩
    | some _ => ⟨w.say helpText, .success, false⟩
    | none =>
      match a.operands with
      | [] => refuse w .sourceMissing
      | source :: extra =>
        match tree.holdsTyped source, extra with
        | false, _ => refuse w (.sourceNotFound source)
        | true, _ :: _ => refuse w (.unexpectedExtra extra)
        | true, [] => compileAll a source w

end Jack.CommandLine
