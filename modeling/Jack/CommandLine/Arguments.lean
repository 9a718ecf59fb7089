import Jack.Text.Quoted

/-!
# Arguments of the command

Options and the source may come in any order. A long option takes its value after an equals sign
or as the next argument; short options may be run together, and the one that takes a value takes
the rest of its argument or the next argument. Of a repeated option the last one counts. Two
hyphens end the options, and a single hyphen is not one.
-/

namespace Jack.CommandLine

/-- The options that are either given or not. -/
inductive Switch where
  | tokens
  | tree
  | strict
  | verbose
  | version
  | help
  deriving Repr, DecidableEq

/-- The long spelling of every switch. -/
def longSwitches : List (String × Switch) :=
  [("--tokens", .tokens), ("--xml", .tree), ("--strict-classes", .strict),
    ("--verbose", .verbose), ("--version", .version), ("--help", .help)]

/-- What is wrong with the arguments. -/
inductive UsageError where
  | valueMissing (option : String)
  | valueUnwanted (option : String)
  | noSuchOption (option : String)
  | sourceMissing
  | sourceNotFound (given : String)
  | unexpectedExtra (arguments : List String)
  deriving Repr, DecidableEq

namespace UsageError

/-- The error in words. -/
def message : UsageError → String
  | valueMissing option => String.join ["Option ", Text.quoted option, " requires an argument."]
  | valueUnwanted option => String.join ["Option ", Text.quoted option, " does not take a value."]
  | noSuchOption option => String.join ["No such option ", Text.quoted option, "."]
  | sourceMissing => "Missing argument 'SOURCE'."
  | sourceNotFound given =>
    String.join ["Invalid value for 'SOURCE': Path ", Text.quoted given, " does not exist."]
  | unexpectedExtra [argument] => String.join ["Got unexpected extra argument (", argument, ")"]
  | unexpectedExtra arguments =>
    String.join ["Got unexpected extra arguments (", String.intercalate " " arguments, ")"]

/-- Whether the error is shown with a reminder of the usage. Errors about the value of an option are
not. -/
def showsUsage : UsageError → Bool
  | valueMissing _ | valueUnwanted _ => false
  | _ => true

end UsageError

/-- What the arguments ask for. -/
structure Arguments where
  output : Option String := none
  tokens : Bool := false
  tree : Bool := false
  strict : Bool := false
  verbose : Bool := false
  /-- A request for information, which takes the place of the work; the first one counts. -/
  inquiry : Option Switch := none
  /-- The arguments that are not options. -/
  operands : List String := []
  deriving Repr, DecidableEq

/-- Turns a switch on. -/
def Arguments.turnOn (a : Arguments) : Switch → Arguments
  | .tokens => { a with tokens := true }
  | .tree => { a with tree := true }
  | .strict => { a with strict := true }
  | .verbose => { a with verbose := true }
  | s => { a with inquiry := a.inquiry.or (some s) }

/-- Where the value of the output option is. -/
inductive OutputValue where
  /-- The option does not occur. -/
  | unused
  | given (value : String)
  /-- The value is the next argument; the option is named as it was spelled. -/
  | wanted (option : String)
  deriving Repr, DecidableEq

/-- What one argument with options says. -/
structure OptionGroup where
  switches : List Switch := []
  output : OutputValue := .unused
  deriving Repr, DecidableEq

/-- Reads short options that are run together. -/
def readShort (switches : List Switch) : List Char → Except UsageError OptionGroup
  | [] => .ok ⟨switches, .unused⟩
  | 'v' :: cs => readShort (switches ++ [.verbose]) cs
  | 'o' :: [] => .ok ⟨switches, .wanted "-o"⟩
  | 'o' :: cs => .ok ⟨switches, .given (String.ofList cs)⟩
  | c :: _ => .error (.noSuchOption (String.ofList ['-', c]))

/-- The name in front of the first equals sign, and what is behind the sign. -/
def splitValue (cs : List Char) : String × Option String :=
  let name := String.ofList (cs.takeWhile (· != '='))
  match cs.dropWhile (· != '=') with
  | [] => (name, none)
  | _ :: value => (name, some (String.ofList value))

/-- Reads an argument that starts with a hyphen. One that starts with two is never taken apart. -/
def readOption (argument : String) : Except UsageError OptionGroup :=
  let (name, value) := splitValue argument.toList
  match name == "--output", value with
  | true, some v => .ok ⟨[], .given v⟩
  | true, none => .ok ⟨[], .wanted name⟩
  | false, _ =>
    match longSwitches.lookup name, value with
    | some s, none => .ok ⟨[s], .unused⟩
    | some _, some _ => .error (.valueUnwanted name)
    | none, _ =>
      match argument.toList with
      | '-' :: '-' :: _ => .error (.noSuchOption name)
      | cs => readShort [] cs.tail

/-- The roles an argument can have. -/
inductive Role where
  /-- The sign that no options follow. -/
  | terminator
  | options
  | operand
  deriving Repr, DecidableEq

/-- The role of an argument. -/
def roleOf (argument : String) : Role :=
  match argument.toList with
  | ['-', '-'] => .terminator
  | '-' :: _ :: _ => .options
  | _ => .operand

/-- Reads arguments into what has been asked for so far. -/
def Arguments.read (a : Arguments) : List String → Except UsageError Arguments
  | [] => .ok a
  | arg :: rest =>
    match roleOf arg with
    | .terminator => .ok { a with operands := a.operands ++ rest }
    | .operand => { a with operands := a.operands ++ [arg] }.read rest
    | .options =>
      match readOption arg with
      | .error e => .error e
      | .ok group =>
        let a := group.switches.foldl Arguments.turnOn a
        match group.output with
        | .unused => a.read rest
        | .given v => { a with output := some v }.read rest
        | .wanted option =>
          match rest with
          | [] => .error (.valueMissing option)
          | v :: rest => { a with output := some v }.read rest

end Jack.CommandLine
