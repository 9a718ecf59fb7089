import Jack.FileTree
import Jack.Source
import Jack.Text.Lines
import Jack.Text.Utf8

/-!
# Compiling source files

Finding the sources that a path stands for, reading them as text, and compiling them. Whatever can
go wrong with a file is a `FileFault`, worded in `FileFault.message`.
-/

namespace Jack

open Compile (Options)

/-- Why a file is not compiled or a result is not written. -/
inductive FileFault where
  /-- The class in the file is at fault. -/
  | source (f : Compile.Fault)
  /-- The file to compile is not there; it is named as it was given. -/
  | sourceMissing (given : String)
  /-- There is nothing at the path where sources were looked for. -/
  | pathMissing (p : Path)
  | tree (e : TreeError) (p : Path)
  | encoding (f : Text.Utf8.Fault)
  /-- A path without a name cannot be given a suffix. -/
  | unnamed (p : Path)
  deriving Repr, DecidableEq

/-- Why bytes are no text. -/
def Text.Utf8.Reason.message : Reason → String
  | badStart => "invalid start byte"
  | badContinuation => "invalid continuation byte"
  | truncated => "unexpected end of data"

/-- The bytes that are at fault: the byte itself and its position, or the positions of several. -/
def Text.Utf8.Fault.extent (f : Fault) : String :=
  match f.span with
  | 1 =>
    String.join
      ["byte 0x", String.ofList (hexDigits 2 f.byte.toNat), " in position ", toString f.offset]
  | n => String.join ["bytes in position ", toString f.offset, "-", toString (f.offset + n - 1)]

/-- Where and why the bytes of a file are no text. -/
def Text.Utf8.Fault.message (f : Fault) : String :=
  String.join ["'utf-8' codec can't decode ", f.extent, ": ", f.reason.message]

/-- A fault in full. -/
def FileFault.message : FileFault → String
  | source f => f.message
  | sourceMissing given => String.join ["Source file not found: ", given]
  | pathMissing p => String.join ["No such file or directory: ", p.text]
  | tree e p => e.message p
  | encoding f => f.message
  | unnamed p => String.join ["PosixPath(", Text.quoted p.text, ") has an empty name"]

/-- The suffix of a source. -/
def sourceSuffix : String := ".jack"

/-- The suffix of compiled code. -/
def codeSuffix : String := ".vm"

namespace FileTree

/-- The sources that a path stands for: itself, or the sources in a directory in the order of their
names. -/
def findSources (t : FileTree) (given : String) : Except FileFault (List Path) :=
  let p := Path.ofString given
  match t.status p with
  | .error _ => .error (.pathMissing p)
  | .ok (.file _) => .ok [p]
  | .ok .directory =>
    let names := (t.names p).mergeSort fun a b => !(b < a)
    .ok ((names.map p.child).filter fun q => q.suffix == sourceSuffix && t.isFile q)

/-- The text of a file, with every line end made a newline. -/
def readText (t : FileTree) (p : Path) : Except FileFault String :=
  match t.read p with
  | .error e => .error (.tree e p)
  | .ok bytes =>
    match Text.Utf8.decode bytes with
    | .error f => .error (.encoding f)
    | .ok cs => .ok (String.ofList (Text.foldLineEnds cs))

/-- Writes a text to a file. -/
def writeText (t : FileTree) (p : Path) (text : String) : Except FileFault FileTree :=
  match t.write p (Text.Utf8.encode text) with
  | .error e => .error (.tree e p)
  | .ok t' => .ok t'

/-- Compiles the class in a file. -/
def compileFile (t : FileTree) (o : Options) (given : String) : Attempt FileFault :=
  let p := Path.ofString given
  match t.status p with
  | .error _ => ⟨[], .error (.sourceMissing given)⟩
  | .ok _ =>
    match t.readText p with
    | .error f => ⟨[], .error f⟩
    | .ok source =>
      let attempt := compileSource o source p.text
      ⟨attempt.notes, attempt.result.mapError .source⟩

/-- Compiles the class in a file with the usual options and writes its code, with an end to the last
line, if an output is named. A failure leaves the tree as it was. -/
def compileFileTo (t : FileTree) (given : String) (output : Option String) :
    Except FileFault (String × FileTree) := do
  let r ← (t.compileFile {} given).result
  match output.filter (· != "") with
  | none => return (r.codeText, t)
  | some out => return (r.codeText, ← t.writeText (.ofString out) (r.codeText ++ "\n"))

/-- Where the code of a source goes: beside it, into the output directory, or to the output itself.
The output is a directory if a directory is being compiled or if there is one of that name. -/
def outputPath (t : FileTree) (source : Path) (output : Option Path) (asDirectory : Bool) :
    Except FileFault Path :=
  if source.name = "" then .error (.unnamed source)
  else
    let beside := source.withSuffix codeSuffix
    match output with
    | none => .ok beside
    | some out =>
      if asDirectory || t.isDirectory out then .ok (out.child beside.name) else .ok out

end FileTree

end Jack
