import Jack.CommandLine.Arguments
import Jack.SourceFile

/-!
# Reports and exit statuses

Everything the command can say apart from its results. A `Trouble` is an error as the command sees
it; its kind decides between the exit statuses, and only an error that nobody foresaw is called
internal.
-/

namespace Jack.CommandLine

/-- How the command ends. -/
inductive ExitStatus where
  | success
  /-- Some source does not compile. -/
  | buildError
  /-- Wrong arguments, or a file that is not there. -/
  | invalidArguments
  | internalError
  deriving Repr, DecidableEq

/-- The number of a status. -/
def ExitStatus.code : ExitStatus → Nat
  | success => 0
  | buildError => 1
  | invalidArguments => 2
  | internalError => 3

/-- An error on its way to the user. -/
inductive Trouble where
  | compiler (d : Diagnostic)
  | missingFile (message : String)
  | notPermitted (message : String)
  | badParameter (message : String)
  | invalidValue (message : String)
  | isDirectory (message : String)
  /-- Any other error of the file system. -/
  | system (message : String)
  deriving Repr, DecidableEq

namespace Trouble

/-- The error in words. -/
def message : Trouble → String
  | compiler d => d.render
  | missingFile m | notPermitted m | badParameter m | invalidValue m | isDirectory m | system m => m

/-- A report of the error as such. Diagnostics bring their own introduction. -/
def report : Trouble → String
  | compiler d => s!"{d.render}\n"
  | t => s!"Error: {t.message}\n"

/-- How the command ends on the error. -/
def status : Trouble → ExitStatus
  | compiler _ => .buildError
  | missingFile _ | notPermitted _ | badParameter _ => .invalidArguments
  | invalidValue _ | isDirectory _ | system _ => .internalError

/-- The last words of the command when it ends on the error. -/
def farewell (t : Trouble) : String :=
  if t.status = .internalError then s!"Internal error: {t.message}\n" else t.report

/-- A trace of the program is shown for internal errors, to those who want to know. -/
def showsTrace (t : Trouble) (verbose : Bool) : Bool :=
  verbose && t.status == .internalError

/-- The trouble that a fault with a file makes. -/
def ofFault (f : FileFault) : Trouble :=
  match f with
  | .source (.diagnostic d) => compiler d
  | .sourceMissing _ | .pathMissing _ | .tree .noEntry _ => missingFile f.message
  | .tree .isDirectory _ => isDirectory f.message
  | .tree _ _ => system f.message
  | .source (.misread _ _) | .encoding _ | .unnamed _ => invalidValue f.message

end Trouble

/-- The first line of the help. -/
def usageLine : String := "Usage: jackc [OPTIONS] SOURCE\n"

/-- A report of wrong arguments. -/
def UsageError.report (e : UsageError) : String :=
  let reminder :=
    match e.showsUsage with
    | true => usageLine ++ "Try 'jackc --help' for help.\n\n"
    | false => ""
  reminder ++ s!"Error: {e.message}\n"

/-- The version of the command. -/
def versionText : String := "jackc, version 1.0.0\n"

/-- The help. -/
def helpText : String :=
  String.join
    [usageLine,
      "\n",
      "  Compile Jack classes to VM code.\n",
      "\n",
      "  SOURCE is a .jack file or a directory of .jack files.\n",
      "\n",
      "  Examples:\n",
      "      jackc Main.jack              # Outputs Main.vm\n",
      "      jackc Pong/                  # Outputs one .vm per class\n",
      "      jackc Pong/ -o build/        # Outputs into build/\n",
      "      jackc --tokens Main.jack     # Also outputs MainT.xml\n",
      "      jackc --xml Main.jack        # Also outputs Main.xml\n",
      "\n",
      "Options:\n",
      "  -o, --output PATH  Output .vm file, or output directory when compiling a\n",
      "                     directory\n",
      "  --tokens           Also write the XML token listing (NameT.xml)\n",
      "  --xml              Also write the XML parse-tree listing (Name.xml)\n",
      "  --strict-classes   Only accept known classes (OS classes and the compiled\n",
      "                     program) as call qualifiers\n",
      "  -v, --verbose      Verbose output\n",
      "  --version          Show the version and exit.\n",
      "  --help             Show this message and exit.\n"]

end Jack.CommandLine
