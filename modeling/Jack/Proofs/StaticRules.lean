import Jack.Proofs.Translation
import Jack.Text.Numeral
import Jack.Text.Upper

/-!
# The static rules

What a class must obey beyond the grammar, as a predicate on trees (`ClassDecl.Obeys`):

- class variables, subroutines, and the parameters and local variables of each subroutine have
  distinct names;
- every variable that is used is declared, and a function uses no field;
- a call is qualified by a variable whose type is a class, or else by a class that is known there;
- an unqualified call stands outside functions and names a method of the class;
- `this` stands outside functions;
- integers fit the machine, and their numerals have no more digits than are read (`Text.maxDigits`),
  zeros in front included.

The last of these, on numerals, is a rule of the reader and not of the language, whose own rules set
no limit (`ClassDecl.Obeys` with the limit `none`).

A class is known to a subroutine if it was known beforehand, is the class itself, or was named as
a type before the statements of that subroutine (`typesBefore`); unless only known classes count,
a name with an upper-case initial will do as well.
-/

namespace Jack.Syntax

/-- What the rules of a phrase depend on: the meaning of names, which names are classes, and how
many digits a numeral may have, if there is a limit. -/
structure Rules where
  env : Env
  isClass : String → Prop
  limit : Option Nat := some Text.maxDigits

/-- A variable may be used: it is declared, and is no field inside a function. -/
def Rules.Accessible (r : Rules) (x : String) : Prop :=
  ∃ b, r.env.resolve x = some b ∧ ¬(r.env.inFunction = true ∧ b.isField = true)

/-- A name may qualify a call, as a variable of class type or as a class. -/
def Rules.Qualifies (r : Rules) (q : String) : Prop :=
  match r.env.resolve q with
  | some b => ¬(r.env.inFunction = true ∧ b.isField = true) ∧ b.type ∉ Token.primitiveTypes
  | none => r.isClass q

/-- The largest integer constant of the machine. -/
def largestInteger : Nat := 32767

mutual

def Expression.Obeys (r : Rules) : Expression → Prop
  | .mk first rest => first.Obeys r ∧ rest.Obeys r

def Operations.Obeys (r : Rules) : Operations → Prop
  | .nil => True
  | .cons _ operand rest => operand.Obeys r ∧ rest.Obeys r

def Term.Obeys (r : Rules) : Term → Prop
  | .integer digits =>
    Text.beyond r.limit digits.length = false ∧ numeralValue digits ≤ largestInteger
  | .string _ => True
  | .constant _ => True
  | .this => r.env.self.isSome = true
  | .unary _ operand => operand.Obeys r
  | .parens e => e.Obeys r
  | .var x => r.Accessible x
  | .element x index => r.Accessible x ∧ index.Obeys r
  | .call c => c.Obeys r

def Call.Obeys (r : Rules) : Call → Prop
  | .unqualified _ arguments => r.env.inFunction = false ∧ arguments.Obeys r
  | .qualified qualifier _ arguments => r.Qualifies qualifier ∧ arguments.Obeys r

def Arguments.Obeys (r : Rules) : Arguments → Prop
  | .nil => True
  | .cons e rest => e.Obeys r ∧ rest.Obeys r

end

mutual

def Statement.Obeys (r : Rules) : Statement → Prop
  | .assign x value => r.Accessible x ∧ value.Obeys r
  | .assignElement x index value => r.Accessible x ∧ index.Obeys r ∧ value.Obeys r
  | .conditional condition body alternative =>
    condition.Obeys r ∧ body.Obeys r ∧ alternative.Obeys r
  | .loop condition body => condition.Obeys r ∧ body.Obeys r
  | .perform c => c.Obeys r
  | .yield none => True
  | .yield (some value) => value.Obeys r

def Alternative.Obeys (r : Rules) : Alternative → Prop
  | .absent => True
  | .present body => body.Obeys r

def Block.Obeys (r : Rules) : Block → Prop
  | .nil => True
  | .cons s rest => s.Obeys r ∧ rest.Obeys r

end

/-! ## Unqualified calls -/

mutual

def Expression.calls : Expression → List String
  | .mk first rest => first.calls ++ rest.calls

def Operations.calls : Operations → List String
  | .nil => []
  | .cons _ operand rest => operand.calls ++ rest.calls

/-- The names of the unqualified calls of a phrase, in order. -/
def Term.calls : Term → List String
  | .integer _ | .string _ | .constant _ | .this | .var _ => []
  | .unary _ operand => operand.calls
  | .parens e => e.calls
  | .element _ index => index.calls
  | .call c => c.calls

def Call.calls : Call → List String
  | .unqualified callee arguments => callee :: arguments.calls
  | .qualified _ _ arguments => arguments.calls

def Arguments.calls : Arguments → List String
  | .nil => []
  | .cons e rest => e.calls ++ rest.calls

end

mutual

def Statement.calls : Statement → List String
  | .assign _ value => value.calls
  | .assignElement _ index value => index.calls ++ value.calls
  | .conditional condition body alternative =>
    condition.calls ++ body.calls ++ alternative.calls
  | .loop condition body => condition.calls ++ body.calls
  | .perform c => c.calls
  | .yield none => []
  | .yield (some value) => value.calls

def Alternative.calls : Alternative → List String
  | .absent => []
  | .present body => body.calls

def Block.calls : Block → List String
  | .nil => []
  | .cons s rest => s.calls ++ rest.calls

end

/-! ## Classes -/

/-- The classes named by the declarations of a subroutine. -/
def Subroutine.types (s : Subroutine) : List String :=
  (s.returnType.toList ++ s.parameters.map Variable.type ++ s.locals.map VarDec.type).flatMap
    TypeName.classes

namespace ClassDecl

/-- The classes named as types in front of the statements of `s`. -/
def typesBefore (c : ClassDecl) (earlier : List Subroutine) (s : Subroutine) : List String :=
  c.vars.flatMap (fun d => d.dec.type.classes) ++ earlier.flatMap Subroutine.types ++ s.types

/-- The rules inside a subroutine that follows `earlier` ones. -/
def rules (c : ClassDecl) (known : List String) (strict : Bool) (earlier : List Subroutine)
    (s : Subroutine) (limit : Option Nat := some Text.maxDigits) : Rules where
  env := s.env c
  limit := limit
  isClass q :=
    q ∈ known ∨ q = c.name ∨ q ∈ c.typesBefore earlier s
      ∨ (strict = false ∧ Text.startsUpper q = true)

/-- The names of all class variables, in order. -/
def variableNames (c : ClassDecl) : List String :=
  (c.vars.flatMap fun d => d.dec.vars).map Variable.name

end ClassDecl

/-- The rules for one subroutine of a class. -/
structure Subroutine.Obeys (s : Subroutine) (c : ClassDecl) (r : Rules) : Prop where
  distinct : ((s.parameters ++ s.localVariables).map Variable.name).Nodup
  body : s.body.Obeys r
  calls : ∀ f ∈ s.body.calls, ∃ m ∈ c.subroutines, m.name = f ∧ m.kind = .method

/-- A class obeys the static rules, given the classes known beforehand, whether only known classes
may qualify calls, and the limit on numerals. -/
structure ClassDecl.Obeys (c : ClassDecl) (known : List String) (strict : Bool)
    (limit : Option Nat := some Text.maxDigits) : Prop where
  vars : c.variableNames.Nodup
  subroutines : (c.subroutines.map Subroutine.name).Nodup
  bodies : ∀ earlier s later, c.subroutines = earlier ++ s :: later →
    s.Obeys c (c.rules known strict earlier s limit)

end Jack.Syntax
