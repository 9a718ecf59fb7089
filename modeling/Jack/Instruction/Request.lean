import Jack.Instruction
import Jack.Scalar
import Jack.Text.Numeral

/-!
# Requested instructions

A request asks for an instruction with operands that may be anything. `Request.check` turns it into
an instruction or says what is wrong with the first operand that is wrong; `Assembly.write` adds the
line of the instruction to those written so far, and writes it to a stream as well if there is one.

A number is put into words both in an instruction and in a complaint, which the environment does
only up to so many digits. A request that goes beyond this limit is refused for that reason.
-/

namespace Jack

/-- How many digits it takes to put a value into words, if it is a whole number. -/
def Scalar.digits : Scalar → Nat
  | .integer n => (Nat.toDigits 10 n.natAbs).length
  | _ => 0

/-- An instruction asked for, its operands unchecked. -/
inductive Request where
  | push (segment index : Scalar)
  | pop (segment index : Scalar)
  | arithmetic (command : Scalar)
  | label (name : Scalar)
  | goto (name : Scalar)
  | ifGoto (name : Scalar)
  | call (name arguments : Scalar)
  | function (name locals : Scalar)
  | ret
  deriving Repr, DecidableEq

namespace Request

/-- Why a request is refused. -/
inductive Refusal where
  | problem (p : Problem)
  /-- A number would have to be put into words that has more digits than are printed. -/
  | tooManyDigits (limit : Nat)
  deriving Repr, DecidableEq

/-- A refusal in words. -/
def Refusal.message : Refusal → String
  | problem p => Diagnostic.render { problem := p }
  | tooManyDigits limit => Text.limitMessage limit none

/-- Goes on if a value can be put into words. -/
def printing {α : Type} (limit : Option Nat) (v : Scalar) (r : Except Refusal α) :
    Except Refusal α :=
  match limit with
  | none => r
  | some n => if n < v.digits then .error (.tooManyDigits n) else r

section Check

variable (limit : Option Nat)

/-- The segment that a value names. -/
def checkSegment (v : Scalar) : Except Refusal Segment :=
  match v with
  | .text s =>
    match Segment.ofName? s with
    | some g => .ok g
    | none => .error (.problem (.unknownSegment v.plain))
  | _ => printing limit v (.error (.problem (.unknownSegment v.plain)))

/-- A value as a count: a whole number that is not negative, or a truth value. -/
def checkCount (what : String) (v : Scalar) : Except Refusal Count :=
  printing limit v <|
    match v with
    | .integer (.ofNat n) => .ok (.number n)
    | .truth b => .ok (.truth b)
    | _ => .error (.problem (.badCount what v.display))

/-- The command that a value names. -/
def checkCommand (v : Scalar) : Except Refusal Command :=
  match v with
  | .text s =>
    match Command.ofName? s with
    | some c => .ok c
    | none => .error (.problem (.unknownCommand v.plain))
  | _ => printing limit v (.error (.problem (.unknownCommand v.plain)))

/-- A value as the name of a label, a subroutine or a function. -/
def checkName (what : String) (v : Scalar) : Except Refusal String :=
  match v with
  | .text s => if isLineName s then .ok s else .error (.problem (.badName what v.display))
  | _ => printing limit v (.error (.problem (.badName what v.display)))

/-- The instruction that a request asks for. Operands are looked at from left to right; popping into
the constants is refused before the index is looked at. -/
def check : Request → Except Refusal Instruction
  | push segment index => do
    let s ← checkSegment limit segment
    let i ← checkCount limit "segment index" index
    return .push s i
  | pop segment index => do
    let s ← checkSegment limit segment
    if s = .constant then .error (.problem .popIntoConstant)
    else
      let i ← checkCount limit "segment index" index
      return .pop s i
  | arithmetic command => do
    let c ← checkCommand limit command
    return .arithmetic c
  | label name => do
    let n ← checkName limit "label" name
    return .label n
  | goto name => do
    let n ← checkName limit "label" name
    return .goto n
  | ifGoto name => do
    let n ← checkName limit "label" name
    return .ifGoto n
  | call name arguments => do
    let n ← checkName limit "subroutine" name
    let k ← checkCount limit "argument count" arguments
    return .call n k
  | function name locals => do
    let n ← checkName limit "function" name
    let k ← checkCount limit "local count" locals
    return .function n k
  | ret => return .ret

end Check

end Request

/-- The lines written so far, what has been written to a stream, if there is one, and how many
digits a number may have in a line. The environment sets that limit, or does without one. -/
structure Assembly where
  lines : List String := []
  stream : Option String := none
  limit : Option Nat := some Text.maxDigits
  deriving Repr, DecidableEq

namespace Assembly

/-- Adds a line, and then writes it to the stream. -/
def emit (a : Assembly) (line : String) : Assembly :=
  let a := { a with lines := a.lines ++ [line] }
  match a.stream with
  | none => a
  | some written => { a with stream := some (written ++ (line ++ "\n")) }

/-- Writes what a request asks for, or refuses it; and the assembly afterwards. -/
def write (a : Assembly) (r : Request) : Except Request.Refusal Instruction × Assembly :=
  match r.check a.limit with
  | .ok i => (.ok i, a.emit i.text)
  | .error e => (.error e, a)

/-- The program so far. -/
def text (a : Assembly) : String :=
  String.intercalate "\n" a.lines

end Assembly

end Jack
