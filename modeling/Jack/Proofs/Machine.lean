import Jack.Proofs.Translation
import Mathlib.Logic.Function.Basic
import Mathlib.Logic.Relation

/-!
# The stack machine

An abstract machine for the instructions of one function body. A configuration holds the code
that is still ahead, which is always a suffix of the whole program; a jump goes to the suffix that
starts with its label. The machine stands still in front of a `return` and at the end of the code.

Memory has four stores of 16-bit words: local variables, arguments, static variables and the heap.
Fields are heap cells counted from the current object, which is `pointer 0`; `that 0` is the heap
cell that `pointer 1` names. What a call does is left open (`Interpretation`): it may or may not
come back, yields any value, and changes statics, heap and temporary cells as it likes, but not
the caller's local variables, arguments and pointers.
-/

namespace Jack.Machine

abbrev Word := BitVec 16

/-! ## Memory -/

/-- What belongs to the running subroutine; `this` is `pointer 0`. -/
structure Frame where
  locals : Nat → Word
  arguments : Nat → Word
  this : Word

/-- What is shared between subroutines. -/
structure World where
  statics : Nat → Word
  heap : Word → Word

structure Memory where
  frame : Frame
  world : World

namespace Memory

/-- The content of a variable cell, or of `pointer 0`. -/
def read (m : Memory) : Segment → Nat → Option Word
  | .argument, i => some (m.frame.arguments i)
  | .localVar, i => some (m.frame.locals i)
  | .static, i => some (m.world.statics i)
  | .this, i => some (m.world.heap (m.frame.this + BitVec.ofNat 16 i))
  | .pointer, 0 => some m.frame.this
  | _, _ => none

def write (m : Memory) (v : Word) : Segment → Nat → Option Memory
  | .argument, i =>
    some { m with frame.arguments := Function.update m.frame.arguments i v }
  | .localVar, i => some { m with frame.locals := Function.update m.frame.locals i v }
  | .static, i => some { m with world.statics := Function.update m.world.statics i v }
  | .this, i =>
    some { m with
      world.heap := Function.update m.world.heap (m.frame.this + BitVec.ofNat 16 i) v }
  | .pointer, 0 => some { m with frame.this := v }
  | _, _ => none

/-- Stores a word on the heap. -/
def poke (m : Memory) (address v : Word) : Memory :=
  { m with world.heap := Function.update m.world.heap address v }

end Memory

/-! ## Interpretations -/

/-- The meaning of the commands that work on the stack alone. -/
structure Arithmetic where
  add : Word → Word → Word
  sub : Word → Word → Word
  neg : Word → Word
  eq : Word → Word → Word
  gt : Word → Word → Word
  lt : Word → Word → Word
  and : Word → Word → Word
  or : Word → Word → Word
  not : Word → Word

/-- All bits set for truth, none for falsehood. -/
def truth (b : Bool) : Word := if b then BitVec.allOnes 16 else 0

/-- The usual meaning, on two's complement words. -/
def Arithmetic.usual : Arithmetic where
  add := (· + ·)
  sub := (· - ·)
  neg := (- ·)
  eq a b := truth (a == b)
  gt a b := truth (b.slt a)
  lt a b := truth (a.slt b)
  and := (· &&& ·)
  or := (· ||| ·)
  not := (~~~ ·)

/-- What a call leaves behind. -/
structure CallResult where
  value : Word
  world : World
  temp : Nat → Word

structure Interpretation extends Arithmetic where
  /-- What a call of a subroutine with some arguments does, if it comes back. -/
  call : String → List Word → World → Option CallResult

/-- A call, without what it leaves in the temporary cells. -/
def Interpretation.invoke (I : Interpretation) (f : String) (arguments : List Word) (w : World) :
    Option (Word × World) :=
  (I.call f arguments w).map fun r => (r.value, r.world)

/-- A command as a function of one or two operands. -/
def Arithmetic.operation (A : Arithmetic) : Command → (Word → Word) ⊕ (Word → Word → Word)
  | .add => .inr A.add
  | .sub => .inr A.sub
  | .neg => .inl A.neg
  | .eq => .inr A.eq
  | .gt => .inr A.gt
  | .lt => .inr A.lt
  | .and => .inr A.and
  | .or => .inr A.or
  | .not => .inl A.not

/-- Applies a command to the top of the stack; the right operand lies above the left one. -/
def Arithmetic.apply (A : Arithmetic) (k : Command) (stack : List Word) : Option (List Word) :=
  match A.operation k, stack with
  | .inl f, a :: s => some (f a :: s)
  | .inr f, b :: a :: s => some (f a b :: s)
  | _, _ => none

/-! ## Configurations -/

/-- The code ahead, the stack with its top first, and all memory; `that` is `pointer 1`. -/
structure Config where
  code : List Instruction
  stack : List Word
  memory : Memory
  that : Word
  temp : Nat → Word

def Config.load (k : Config) : Segment → Nat → Option Word
  | .constant, n => some (BitVec.ofNat 16 n)
  | .that, i => some (k.memory.world.heap (k.that + BitVec.ofNat 16 i))
  | .temp, i => some (k.temp i)
  | .pointer, 1 => some k.that
  | s, i => k.memory.read s i

def Config.store (k : Config) (v : Word) : Segment → Nat → Option Config
  | .that, i => some { k with memory := k.memory.poke (k.that + BitVec.ofNat 16 i) v }
  | .temp, i => some { k with temp := Function.update k.temp i v }
  | .pointer, 1 => some { k with that := v }
  | s, i => (k.memory.write v s i).map fun m => { k with memory := m }

/-- The code from a label on. -/
def findLabel (l : String) : List Instruction → Option (List Instruction)
  | [] => none
  | i :: code => if i = .label l then some (i :: code) else findLabel l code

/-- Executes one instruction; `k` has the code behind it ahead. -/
def execute (I : Interpretation) (program : List Instruction) (k : Config) :
    Instruction → Option Config
  | .push s i => (k.load s i.value).map fun v => { k with stack := v :: k.stack }
  | .pop s i =>
    match k.stack with
    | v :: stack => Config.store { k with stack := stack } v s i.value
    | [] => none
  | .arithmetic c => (I.apply c k.stack).map fun stack => { k with stack := stack }
  | .label _ => some k
  | .goto l => (findLabel l program).map fun code => { k with code := code }
  | .ifGoto l =>
    match k.stack with
    | v :: stack =>
      if v = 0 then some { k with stack := stack }
      else (findLabel l program).map fun code => { k with code := code, stack := stack }
    | [] => none
  | .call f n =>
    if n.value ≤ k.stack.length then
      (I.call f (k.stack.take n.value).reverse k.memory.world).map fun r =>
        { k with
          stack := r.value :: k.stack.drop n.value
          memory.world := r.world
          temp := r.temp }
    else none
  | .function _ _ | .ret => none

def step (I : Interpretation) (program : List Instruction) (k : Config) : Option Config :=
  match k.code with
  | [] => none
  | i :: code => execute I program { k with code := code } i

/-- Some steps lead from one configuration to the other. -/
def Reaches (I : Interpretation) (program : List Instruction) : Config → Config → Prop :=
  Relation.ReflTransGen fun k k' => step I program k = some k'

/-! ## Code behind code -/

theorem suffix_of_append {i j program : List Instruction} (h : i ++ j <:+ program) :
    j <:+ program :=
  (List.suffix_append i j).trans h

theorem suffix_of_cons {x : Instruction} {code program : List Instruction}
    (h : x :: code <:+ program) : code <:+ program :=
  (List.suffix_cons x code).trans h

/-! ## Labels -/

/-- The labels that stand in some code, in order. -/
def labelNames (code : List Instruction) : List String :=
  code.filterMap fun
    | .label l => some l
    | _ => none

@[simp] theorem labelNames_nil : labelNames [] = [] := rfl

@[simp] theorem labelNames_append (i j : List Instruction) :
    labelNames (i ++ j) = labelNames i ++ labelNames j :=
  List.filterMap_append

@[simp] theorem labelNames_label (l : String) (code : List Instruction) :
    labelNames (.label l :: code) = l :: labelNames code := rfl

theorem labelNames_cons {i : Instruction} (h : ∀ l, i ≠ .label l) (code : List Instruction) :
    labelNames (i :: code) = labelNames code := by
  cases i with
  | label l => exact absurd rfl (h l)
  | push | pop | arithmetic | goto | ifGoto | call | function | ret => rfl

theorem mem_labelNames {l : String} {code : List Instruction} :
    l ∈ labelNames code ↔ .label l ∈ code := by
  simp only [labelNames, List.mem_filterMap]
  constructor
  · intro h
    rcases h with ⟨x, hx, hl⟩
    cases x with
    | label =>
        obtain rfl := Option.some.inj hl
        exact hx
    | push | pop | arithmetic | goto | ifGoto | call | function | ret => cases hl
  · exact fun hl => ⟨_, hl, rfl⟩

/-- The label that an instruction may jump to. -/
def jumpTarget? : Instruction → Option String
  | .goto l | .ifGoto l => some l
  | _ => none

/-- The labels that some code may jump to, in order. -/
def jumpNames (code : List Instruction) : List String := code.filterMap jumpTarget?

@[simp] theorem jumpNames_nil : jumpNames [] = [] := rfl

@[simp] theorem jumpNames_cons (x : Instruction) (code : List Instruction) :
    jumpNames (x :: code) = (jumpTarget? x).toList ++ jumpNames code := by
  cases h : jumpTarget? x with
  | none => exact List.filterMap_cons_none h
  | some l => exact List.filterMap_cons_some h

@[simp] theorem jumpNames_append (i j : List Instruction) :
    jumpNames (i ++ j) = jumpNames i ++ jumpNames j :=
  List.filterMap_append

/-- Where no label stands twice, a label is found wherever it stands. -/
theorem findLabel_eq {l : String} {program back : List Instruction}
    (h : (labelNames program).Nodup) (hback : .label l :: back <:+ program) :
    findLabel l program = some (.label l :: back) := by
  obtain ⟨front, rfl⟩ := hback
  induction front with
  | nil => exact if_pos rfl
  | cons i front ih =>
      have hne : i ≠ .label l := by
        intro heq
        subst heq
        rw [List.cons_append, labelNames_label, List.nodup_cons, labelNames_append,
          labelNames_label] at h
        exact h.1 (List.mem_append_right _ (List.mem_cons_self ..))
      rw [List.cons_append, findLabel, if_neg hne]
      refine ih (h.sublist ?_)
      exact (List.sublist_cons_self i _).filterMap _

end Jack.Machine
