import Jack.Proofs.Machine

/-!
# The meaning of statements

A big-step semantics of the language, on the memory of the machine but without its code, stack and
registers. Expressions are evaluated from left to right and never change the frame; only the calls
in them change the world. Statements are executed by an inductive relation, because loops need not
end.

- A condition is true exactly if its value has all bits set.
- An assignment to an array element evaluates the base, the index and the value in this order.
- `this` is read from the cell that the environment gives it. On the source level that is the
  current object (`Env.source`), wherever the code of a subroutine reads it from.
-/

namespace Jack.Syntax

open Machine

/-- On the source level the current object is always in `pointer 0`. -/
def Env.source (env : Env) : Env :=
  { env with self := env.self.map fun _ => ⟨.pointer, 0⟩ }

def Cell.read (c : Cell) (m : Memory) : Option Word := m.read c.segment c.index

def Cell.write (c : Cell) (m : Memory) (v : Word) : Option Memory := m.write v c.segment c.index

/-- The content of a variable. -/
def Env.value (env : Env) (f : Frame) (w : World) (x : String) : Option Word :=
  (env.resolve x).bind fun b => b.cell.read ⟨f, w⟩

/-! ## Expressions -/

def Constant.value (I : Interpretation) : Constant → Word
  | true => I.neg 1
  | false => 0
  | null => 0

def UnaryOperator.apply (I : Interpretation) : UnaryOperator → Word → Word
  | negate => I.neg
  | complement => I.not

/-- Two of the operators are calls of the run-time library. -/
def Operator.apply (I : Interpretation) (a b : Word) (w : World) :
    Operator → Option (Word × World)
  | plus => some (I.add a b, w)
  | minus => some (I.sub a b, w)
  | times => I.invoke "Math.multiply" [a, b] w
  | divide => I.invoke "Math.divide" [a, b] w
  | and => some (I.and a b, w)
  | or => some (I.or a b, w)
  | less => some (I.lt a b, w)
  | greater => some (I.gt a b, w)
  | equal => some (I.eq a b, w)

/-- Appends characters to the string `a`; each call yields the string to go on with. -/
def appendAll (I : Interpretation) : List Char → Word → World → Option (Word × World)
  | [], a, w => some (a, w)
  | c :: cs, a, w => do
    let (a, w) ← I.invoke "String.appendChar" [a, BitVec.ofNat 16 c.toNat] w
    appendAll I cs a w

def stringValue (I : Interpretation) (text : String) (w : World) : Option (Word × World) := do
  let (a, w) ← I.invoke "String.new" [BitVec.ofNat 16 text.length] w
  appendAll I text.toList a w

mutual

def Expression.eval (I : Interpretation) (env : Env) (f : Frame) :
    Expression → World → Option (Word × World)
  | .mk first rest, w => do
    let (a, w) ← first.eval I env f w
    rest.eval I env f a w

/-- Applies operators to a left operand, strictly from left to right. -/
def Operations.eval (I : Interpretation) (env : Env) (f : Frame) :
    Operations → Word → World → Option (Word × World)
  | .nil, a, w => some (a, w)
  | .cons op operand rest, a, w => do
    let (b, w) ← operand.eval I env f w
    let (a, w) ← op.apply I a b w
    rest.eval I env f a w

def Term.eval (I : Interpretation) (env : Env) (f : Frame) :
    Term → World → Option (Word × World)
  | .integer digits, w => some (BitVec.ofNat 16 (numeralValue digits), w)
  | .string text, w => stringValue I text w
  | .constant k, w => some (k.value I, w)
  | .this, w => do
    let c ← env.self
    let a ← c.read ⟨f, w⟩
    some (a, w)
  | .unary op operand, w => do
    let (a, w) ← operand.eval I env f w
    some (op.apply I a, w)
  | .parens e, w => e.eval I env f w
  | .var x, w => do
    let a ← env.value f w x
    some (a, w)
  | .element x index, w => do
    let a ← env.value f w x
    let (i, w) ← index.eval I env f w
    some (w.heap (I.add a i), w)
  | .call k, w => k.eval I env f w

/-- The receiver is read before the arguments are evaluated. -/
def Call.eval (I : Interpretation) (env : Env) (f : Frame) :
    Call → World → Option (Word × World)
  | .unqualified callee arguments, w => do
    let (as, w) ← arguments.eval I env f w
    I.invoke (env.qualify callee) (f.this :: as) w
  | .qualified qualifier callee arguments, w =>
    match env.resolve qualifier with
    | some b => do
      let a ← b.cell.read ⟨f, w⟩
      let (as, w) ← arguments.eval I env f w
      I.invoke s!"{b.type}.{callee}" (a :: as) w
    | none => do
      let (as, w) ← arguments.eval I env f w
      I.invoke s!"{qualifier}.{callee}" as w

def Arguments.eval (I : Interpretation) (env : Env) (f : Frame) :
    Arguments → World → Option (List Word × World)
  | .nil, w => some ([], w)
  | .cons e rest, w => do
    let (a, w) ← e.eval I env f w
    let (as, w) ← rest.eval I env f w
    some (a :: as, w)

end

/-! ## Statements -/

/-- How statements end: behind their last one, or by a return with or without a value. -/
inductive Ending where
  | through
  | returned (value : Option Word)
  deriving Repr, DecidableEq

/-- The statements of an alternative; none if it is absent. -/
def Alternative.block : Alternative → Block
  | .absent => .nil
  | .present body => body

mutual

/-- `Runs I env s m e m'`: executing `s` in memory `m` ends as `e` in memory `m'`. -/
inductive Statement.Runs (I : Interpretation) (env : Env) :
    Statement → Memory → Ending → Memory → Prop where
  | assign {x : String} {value : Expression} {m m' : Memory} {v : Word} {w : World} {b : Binding}
      (hvalue : value.eval I env m.frame m.world = some (v, w)) (hx : env.resolve x = some b)
      (hwrite : b.cell.write ⟨m.frame, w⟩ v = some m') :
      Statement.Runs I env (.assign x value) m .through m'
  | assignElement {x : String} {index value : Expression} {m : Memory} {a i v : Word}
      {w w' : World} (hbase : env.value m.frame m.world x = some a)
      (hindex : index.eval I env m.frame m.world = some (i, w))
      (hvalue : value.eval I env m.frame w = some (v, w')) :
      Statement.Runs I env (.assignElement x index value) m .through
        (Memory.poke ⟨m.frame, w'⟩ (I.add a i) v)
  | thenPart {condition : Expression} {body : Block} {alternative : Alternative} {m m' : Memory}
      {w : World} {e : Ending}
      (hcondition : condition.eval I env m.frame m.world = some (BitVec.allOnes 16, w))
      (hbody : Block.Runs I env body ⟨m.frame, w⟩ e m') :
      Statement.Runs I env (.conditional condition body alternative) m e m'
  | elsePart {condition : Expression} {body : Block} {alternative : Alternative} {m m' : Memory}
      {v : Word} {w : World} {e : Ending}
      (hcondition : condition.eval I env m.frame m.world = some (v, w))
      (hv : v ≠ BitVec.allOnes 16)
      (hbody : Block.Runs I env alternative.block ⟨m.frame, w⟩ e m') :
      Statement.Runs I env (.conditional condition body alternative) m e m'
  | loopEnd {condition : Expression} {body : Block} {m : Memory} {v : Word} {w : World}
      (hcondition : condition.eval I env m.frame m.world = some (v, w))
      (hv : v ≠ BitVec.allOnes 16) :
      Statement.Runs I env (.loop condition body) m .through ⟨m.frame, w⟩
  | loopNext {condition : Expression} {body : Block} {m m₁ m' : Memory} {w : World} {e : Ending}
      (hcondition : condition.eval I env m.frame m.world = some (BitVec.allOnes 16, w))
      (hbody : Block.Runs I env body ⟨m.frame, w⟩ .through m₁)
      (hloop : Statement.Runs I env (.loop condition body) m₁ e m') :
      Statement.Runs I env (.loop condition body) m e m'
  | loopReturn {condition : Expression} {body : Block} {m m' : Memory} {w : World}
      {r : Option Word}
      (hcondition : condition.eval I env m.frame m.world = some (BitVec.allOnes 16, w))
      (hbody : Block.Runs I env body ⟨m.frame, w⟩ (.returned r) m') :
      Statement.Runs I env (.loop condition body) m (.returned r) m'
  | perform {k : Call} {m : Memory} {v : Word} {w : World}
      (hcall : k.eval I env m.frame m.world = some (v, w)) :
      Statement.Runs I env (.perform k) m .through ⟨m.frame, w⟩
  | yieldNothing {m : Memory} : Statement.Runs I env (.yield none) m (.returned none) m
  | yieldValue {value : Expression} {m : Memory} {v : Word} {w : World}
      (hvalue : value.eval I env m.frame m.world = some (v, w)) :
      Statement.Runs I env (.yield (some value)) m (.returned (some v)) ⟨m.frame, w⟩

/-- A block is executed statement by statement, up to the first return. -/
inductive Block.Runs (I : Interpretation) (env : Env) :
    Block → Memory → Ending → Memory → Prop where
  | nil {m : Memory} : Block.Runs I env .nil m .through m
  | next {s : Statement} {rest : Block} {m m₁ m' : Memory} {e : Ending}
      (hs : Statement.Runs I env s m .through m₁) (hrest : Block.Runs I env rest m₁ e m') :
      Block.Runs I env (.cons s rest) m e m'
  | returned {s : Statement} {rest : Block} {m m' : Memory} {r : Option Word}
      (hs : Statement.Runs I env s m (.returned r) m') :
      Block.Runs I env (.cons s rest) m (.returned r) m'

end

end Jack.Syntax
