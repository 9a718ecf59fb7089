import Jack.Diagnostic
import Jack.Scope
import Jack.Text.Blank
import Jack.Text.Quoted

/-!
# Instructions

The instruction set of the stack machine, and the one place where instructions become text
(`Instruction.text`). Names stand between blanks in the text, so a name that is empty or holds a
blank is refused, and nothing can be popped into the constants (`Instruction.fault?`); everything
else about an instruction is right by its type.
-/

namespace Jack

/-- The memory segments. -/
inductive Segment where
  | constant
  | argument
  | localVar
  | static
  | this
  | that
  | pointer
  | temp
  deriving Repr, DecidableEq

namespace Segment

/-- The name of a segment. -/
def name : Segment → String
  | constant => "constant"
  | argument => "argument"
  | localVar => "local"
  | static => "static"
  | this => "this"
  | that => "that"
  | pointer => "pointer"
  | temp => "temp"

/-- All segments. -/
def all : List Segment := [constant, argument, localVar, static, this, that, pointer, temp]

/-- The segment with a given name. -/
def ofName? (given : String) : Option Segment :=
  all.find? fun s => s.name = given

@[simp] theorem ofName?_name (s : Segment) : ofName? s.name = some s := by
  cases s <;> simp [ofName?, all, name]

end Segment

/-- The segment that holds the variables of a storage. -/
def Storage.segment : Storage → Segment
  | static => .static
  | field => .this
  | argument => .argument
  | localVar => .localVar

/-- No variable stands among the constants. -/
@[simp] theorem Storage.segment_ne_constant (k : Storage) : k.segment ≠ .constant := by
  cases k <;> decide

/-- The commands that work on the stack alone. -/
inductive Command where
  | add
  | sub
  | neg
  | eq
  | gt
  | lt
  | and
  | or
  | not
  deriving Repr, DecidableEq

namespace Command

/-- The name of a command. -/
def name : Command → String
  | add => "add"
  | sub => "sub"
  | neg => "neg"
  | eq => "eq"
  | gt => "gt"
  | lt => "lt"
  | and => "and"
  | or => "or"
  | not => "not"

/-- All commands. -/
def all : List Command := [add, sub, neg, eq, gt, lt, and, or, not]

/-- The command with a given name. -/
def ofName? (given : String) : Option Command :=
  all.find? fun c => c.name = given

@[simp] theorem ofName?_name (c : Command) : ofName? c.name = some c := by
  cases c <;> simp [ofName?, all, name]

end Command

/-- A count or an index. A truth value counts as one or zero but keeps its own spelling. -/
inductive Count where
  | number (n : Nat)
  | truth (b : Bool)
  deriving Repr, DecidableEq

namespace Count

instance : Coe Nat Count := ⟨number⟩

instance (n : Nat) : OfNat Count n := ⟨number n⟩

/-- The number that is meant. -/
def value : Count → Nat
  | number n => n
  | truth b => b.toNat

/-- The spelling of a count. -/
def text : Count → String
  | number n => toString n
  | truth b => (Scalar.truth b).plain

end Count

/-- One instruction of the machine. -/
inductive Instruction where
  | push (segment : Segment) (index : Count)
  | pop (segment : Segment) (index : Count)
  | arithmetic (command : Command)
  | label (name : String)
  | goto (name : String)
  | ifGoto (name : String)
  | call (name : String) (arguments : Count)
  | function (name : String) (locals : Count)
  | ret
  deriving Repr, DecidableEq

/-- A name that keeps its place in an instruction line: not empty, and without blanks. -/
def isLineName (name : String) : Bool :=
  !name.isEmpty && !name.toList.any Text.isBlank

namespace Instruction

/-- An instruction line. -/
def text : Instruction → String
  | push s i => s!"push {s.name} {i.text}"
  | pop s i => s!"pop {s.name} {i.text}"
  | arithmetic c => c.name
  | label n => s!"label {n}"
  | goto n => s!"goto {n}"
  | ifGoto n => s!"if-goto {n}"
  | call n k => s!"call {n} {k.text}"
  | function n k => s!"function {n} {k.text}"
  | ret => "return"

/-- The lines of a program. -/
def listing (code : List Instruction) : String :=
  String.intercalate "\n" (code.map text)

/-- The name in an instruction and the part it plays there. -/
def namePart? : Instruction → Option (String × String)
  | label n | goto n | ifGoto n => some ("label", n)
  | call n _ => some ("subroutine", n)
  | function n _ => some ("function", n)
  | push _ _ | pop _ _ | arithmetic _ | ret => none

/-- What is wrong with an instruction: at most its name, or that it pops into the constants. -/
def fault? (i : Instruction) : Option Problem :=
  match i.namePart? with
  | some (what, n) => if isLineName n then none else some (.badName what (Text.quoted n))
  | none =>
    match i with
    | pop .constant _ => some .popIntoConstant
    | _ => none

end Instruction

end Jack
