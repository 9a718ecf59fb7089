import Jack.Proofs.Syntax

/-!
# The reference translation

What code a class stands for, by structural recursion on its tree and without any state: an
environment says where each name lives, and a number says how many labels have been drawn before.

- Environments (`Subroutine.env`): parameters and local variables hide class variables; the slots
  of each kind are the positions in the list of that kind; a method has its receiver `this` as its
  first argument, so that its parameters are numbered from 1.
- Labels: a conditional or a loop takes the next two numbers, and its parts go on from there.
  `labels` counts what a phrase takes, so the supply of every phrase is the number before it.

A name that has no meaning is translated to nothing; the rules in `StaticRules` exclude it.
-/

namespace Jack.Syntax

/-! ## Environments -/

/-- A place in a memory segment. -/
structure Cell where
  segment : Segment
  index : Nat
  deriving Repr, DecidableEq

def Cell.push (c : Cell) : Instruction := .push c.segment c.index

def Cell.pop (c : Cell) : Instruction := .pop c.segment c.index

/-- What a name stands for. -/
structure Binding where
  type : String
  cell : Cell
  deriving Repr, DecidableEq

def Binding.isField (b : Binding) : Bool := b.cell.segment == .this

structure Env where
  className : String
  /-- A function has no object: no fields, no `this`, no unqualified calls. -/
  inFunction : Bool
  /-- Where the current object is read from. -/
  self : Option Cell
  resolve : String → Option Binding

/-- The name of a subroutine of the current class. -/
def Env.qualify (env : Env) (callee : String) : String := s!"{env.className}.{callee}"

def Env.read (env : Env) (x : String) : List Instruction :=
  match env.resolve x with
  | some b => [b.cell.push]
  | none => []

def Env.write (env : Env) (x : String) : List Instruction :=
  match env.resolve x with
  | some b => [b.cell.pop]
  | none => []

/-! ## Expressions -/

def Operator.instruction : Operator → Instruction
  | plus => .arithmetic .add
  | minus => .arithmetic .sub
  | times => .call "Math.multiply" 2
  | divide => .call "Math.divide" 2
  | and => .arithmetic .and
  | or => .arithmetic .or
  | less => .arithmetic .lt
  | greater => .arithmetic .gt
  | equal => .arithmetic .eq

def UnaryOperator.instruction : UnaryOperator → Instruction
  | negate => .arithmetic .neg
  | complement => .arithmetic .not

/-- All bits set for truth, none for the others. -/
def Constant.code : Constant → List Instruction
  | true => [.push .constant 1, .arithmetic .neg]
  | false => [.push .constant 0]
  | null => [.push .constant 0]

/-- A string is made empty, with room for its length, and gets one character after the other. -/
def stringCode (text : String) : List Instruction :=
  .push .constant text.length :: .call "String.new" 1 ::
    text.toList.flatMap fun c => [.push .constant c.toNat, .call "String.appendChar" 2]

def numeralValue (digits : String) : Nat := Nat.ofDigitChars 10 digits.toList 0

mutual

def Expression.code (env : Env) : Expression → List Instruction
  | .mk first rest => first.code env ++ rest.code env

def Operations.code (env : Env) : Operations → List Instruction
  | .nil => []
  | .cons op operand rest => operand.code env ++ op.instruction :: rest.code env

def Term.code (env : Env) : Term → List Instruction
  | .integer digits => [.push .constant (numeralValue digits)]
  | .string text => stringCode text
  | .constant k => k.code
  | .this => (env.self.map Cell.push).toList
  | .unary op operand => operand.code env ++ [op.instruction]
  | .parens e => e.code env
  | .var x => env.read x
  | .element x index =>
    env.read x ++ index.code env ++ [Instruction.arithmetic .add, .pop .pointer 1, .push .that 0]
  | .call c => c.code env

/-- The receiver, if there is one, comes before the arguments and is counted with them. -/
def Call.code (env : Env) : Call → List Instruction
  | .unqualified callee arguments =>
    .push .pointer 0 :: arguments.code env ++
      [Instruction.call (env.qualify callee) (.number (arguments.length + 1))]
  | .qualified qualifier callee arguments =>
    match env.resolve qualifier with
    | some b =>
      b.cell.push :: arguments.code env ++
        [Instruction.call s!"{b.type}.{callee}" (.number (arguments.length + 1))]
    | none => arguments.code env ++ [Instruction.call s!"{qualifier}.{callee}" arguments.length]

def Arguments.code (env : Env) : Arguments → List Instruction
  | .nil => []
  | .cons e rest => e.code env ++ rest.code env

end

/-! ## Statements -/

def label (n : Nat) : String := s!"L{n}"

theorem toList_label (n : Nat) : (label n).toList = 'L' :: Nat.toDigits 10 n := by
  rw [← Nat.toList_repr]
  show ("L" ++ n.repr).toList = _
  simp

mutual

/-- How many labels a statement takes. -/
def Statement.labels : Statement → Nat
  | .conditional _ body alternative => 2 + body.labels + alternative.labels
  | .loop _ body => 2 + body.labels
  | .assign .. | .assignElement .. | .perform _ | .yield _ => 0

def Alternative.labels : Alternative → Nat
  | .absent => 0
  | .present body => body.labels

def Block.labels : Block → Nat
  | .nil => 0
  | .cons s rest => s.labels + rest.labels

end

mutual

def Statement.code (env : Env) (n : Nat) : Statement → List Instruction
  | .assign x value => value.code env ++ env.write x
  | .assignElement x index value =>
    env.read x ++ index.code env ++ .arithmetic .add :: value.code env ++
      [Instruction.pop .temp 0, .pop .pointer 1, .push .temp 0, .pop .that 0]
  | .conditional condition body alternative =>
    condition.code env ++ .arithmetic .not :: .ifGoto (label (n + 1)) :: body.code env (n + 2) ++
      .goto (label (n + 2)) :: .label (label (n + 1)) ::
        alternative.code env (n + 2 + body.labels) ++ [Instruction.label (label (n + 2))]
  | .loop condition body =>
    .label (label (n + 1)) :: condition.code env ++
      .arithmetic .not :: .ifGoto (label (n + 2)) :: body.code env (n + 2) ++
        [Instruction.goto (label (n + 1)), .label (label (n + 2))]
  | .perform c => c.code env ++ [Instruction.pop .temp 0]
  | .yield none => [.ret]
  | .yield (some value) => value.code env ++ [Instruction.ret]

def Alternative.code (env : Env) (n : Nat) : Alternative → List Instruction
  | .absent => []
  | .present body => body.code env n

def Block.code (env : Env) (n : Nat) : Block → List Instruction
  | .nil => []
  | .cons s rest => s.code env n ++ rest.code env (n + s.labels)

end

/-- The code of a conditional: the test, then the two parts with what joins them. -/
theorem Statement.code_conditional (env : Env) (n : Nat) (condition : Expression) (body : Block)
    (alternative : Alternative) :
    (Statement.conditional condition body alternative).code env n =
      condition.code env ++ .arithmetic .not :: .ifGoto (label (n + 1)) ::
        (body.code env (n + 2) ++ .goto (label (n + 2)) :: .label (label (n + 1)) ::
          (alternative.code env (n + 2 + body.labels) ++ [Instruction.label (label (n + 2))])) := by
  simp [Statement.code]

theorem Statement.code_loop (env : Env) (n : Nat) (condition : Expression) (body : Block) :
    (Statement.loop condition body).code env n =
      .label (label (n + 1)) :: (condition.code env ++ .arithmetic .not ::
        .ifGoto (label (n + 2)) :: (body.code env (n + 2) ++
          [Instruction.goto (label (n + 1)), .label (label (n + 2))])) := by
  simp [Statement.code]

/-! ## Classes -/

namespace ClassDecl

/-- The class variables of a kind, in order. -/
def ofKind (c : ClassDecl) (k : ClassVarKind) : List Variable :=
  (c.vars.filter fun d => d.kind = k).flatMap fun d => d.dec.vars

def statics (c : ClassDecl) : List Variable := c.ofKind .static

def fields (c : ClassDecl) : List Variable := c.ofKind .field

end ClassDecl

/-- The place of a name among the variables of a segment. -/
def place (segment : Segment) (vars : List Variable) (x : String) : Option Binding :=
  (vars.zipIdx.find? fun v => v.1.name = x).map fun v => ⟨v.1.type.text, ⟨segment, v.2⟩⟩

namespace Subroutine

def localVariables (s : Subroutine) : List Variable := s.locals.flatMap VarDec.vars

/-- The parameters, behind the receiver of a method. -/
def arguments (c : ClassDecl) (s : Subroutine) : List Variable :=
  if s.kind = .method then ⟨.named c.name, "this"⟩ :: s.parameters else s.parameters

def env (c : ClassDecl) (s : Subroutine) : Env where
  className := c.name
  inFunction := s.kind = .function
  self :=
    match s.kind with
    | .constructor => some ⟨.pointer, 0⟩
    | .function => none
    | .method => some ⟨.argument, 0⟩
  resolve x :=
    ((place .argument (s.arguments c) x).or (place .localVar s.localVariables x)).or
      ((place .static c.statics x).or (place .this c.fields x))

/-- A constructor makes its object, a method takes its receiver for the current object. -/
def prologue (c : ClassDecl) (s : Subroutine) : List Instruction :=
  match s.kind with
  | .constructor => [.push .constant c.fields.length, .call "Memory.alloc" 1, .pop .pointer 0]
  | .function => []
  | .method => [.push .argument 0, .pop .pointer 0]

def header (c : ClassDecl) (s : Subroutine) : Instruction :=
  .function s!"{c.name}.{s.name}" s.localVariables.length

def bodyCode (c : ClassDecl) (n : Nat) (s : Subroutine) : List Instruction :=
  s.body.code (s.env c) n

/-- The function block of a subroutine. -/
def code (c : ClassDecl) (n : Nat) (s : Subroutine) : List Instruction :=
  s.header c :: s.prologue c ++ s.bodyCode c n

end Subroutine

/-- The blocks of subroutines in order, each drawing its labels behind those before it. -/
def subroutinesCode (c : ClassDecl) (n : Nat) : List Subroutine → List Instruction
  | [] => []
  | s :: rest => s.code c n ++ subroutinesCode c (n + s.body.labels) rest

def ClassDecl.code (c : ClassDecl) : List Instruction := subroutinesCode c 0 c.subroutines

end Jack.Syntax
