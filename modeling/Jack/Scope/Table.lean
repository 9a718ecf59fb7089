import Jack.Scope

/-!
# Scope tables

The declarations of a class as they are kept while it is compiled: a mapping from names for each of
the two scopes, and a counter for each storage. The counter gives the slot of the next declaration
and is moved on by it. Starting a subroutine replaces one mapping and sets the counters of its
storages back; a new class sets back the others as well.
-/

namespace Jack

namespace Storage

/-- The storages of the class. -/
def ofClass : List Storage := [static, field]

/-- The storages of a subroutine. -/
def ofSubroutine : List Storage := [argument, localVar]

end Storage

namespace Scope

/-- The counters, one for each storage. -/
structure Counters where
  static : Nat := 0
  field : Nat := 0
  argument : Nat := 0
  localVar : Nat := 0
  deriving Repr, DecidableEq

namespace Counters

/-- The counter of a storage. -/
def get (c : Counters) : Storage → Nat
  | .static => c.static
  | .field => c.field
  | .argument => c.argument
  | .localVar => c.localVar

/-- Sets the counter of a storage. -/
def set (c : Counters) (k : Storage) (n : Nat) : Counters :=
  match k with
  | .static => { c with static := n }
  | .field => { c with field := n }
  | .argument => { c with argument := n }
  | .localVar => { c with localVar := n }

@[simp] theorem get_set (c : Counters) (j k : Storage) (n : Nat) :
    (c.set j n).get k = if j = k then n else c.get k := by
  cases j <;> cases k <;> rfl

/-- Sets some counters back, one after the other. -/
def restart (c : Counters) (ks : List Storage) : Counters :=
  ks.foldl (fun c k => c.set k 0) c

@[simp] theorem get_restart (c : Counters) (ks : List Storage) (k : Storage) :
    (c.restart ks).get k = if k ∈ ks then 0 else c.get k := by
  induction ks generalizing c with
  | nil => rfl
  | cons j ks ih =>
      have hstep : c.restart (j :: ks) = (c.set j 0).restart ks := rfl
      rw [hstep, ih, get_set]
      by_cases hk : k ∈ ks
      · simp [hk]
      · by_cases hj : j = k
        · simp [hj]
        · simp [hk, hj, Ne.symm hj]

end Counters

/-- Declarations by name, in the order in which the names came in. -/
abbrev Mapping := List (String × Declaration)

namespace Mapping

/-- The declaration of a name. -/
def find? (m : Mapping) (name : String) : Option Declaration := m.lookup name

/-- Enters a name. One that is there already keeps its place and gets the new declaration. -/
def enter (m : Mapping) (name : String) (d : Declaration) : Mapping :=
  match m with
  | [] => [(name, d)]
  | (x, e) :: m => if x = name then (name, d) :: m else (x, e) :: enter m name d

/-- The declarations, in order. -/
def declarations (m : Mapping) : List Declaration := m.map Prod.snd

end Mapping

/-- Two mappings and the counters. -/
structure Table where
  classLevel : Mapping := []
  subroutine : Mapping := []
  counters : Counters := {}
  deriving Repr, DecidableEq

namespace Table

/-- The mapping in which names of a storage are entered. -/
def mapping (t : Table) (k : Storage) : Mapping :=
  if k.isClassLevel then t.classLevel else t.subroutine

/-- Enters a name in the mapping of a storage. -/
def enter (t : Table) (k : Storage) (name : String) (d : Declaration) : Table :=
  if k.isClassLevel then { t with classLevel := t.classLevel.enter name d }
  else { t with subroutine := t.subroutine.enter name d }

/-- The counter of a storage. -/
def count (t : Table) (k : Storage) : Nat := t.counters.get k

/-- Moves the counter of a storage on by one. -/
def advance (t : Table) (k : Storage) : Table :=
  { t with counters := t.counters.set k (t.counters.get k + 1) }

/-- Declares a name at the slot that the counter of its storage gives. A name may be declared once
in each mapping. -/
def define (t : Table) (name type : String) (k : Storage) : Except Problem (Declaration × Table) :=
  if ((t.mapping k).find? name).isSome then .error (.duplicate name k.scopeName)
  else
    let d : Declaration := ⟨name, type, k, t.count k⟩
    .ok (d, (t.advance k).enter k name d)

/-- The declaration that a name refers to: the subroutine's, else the class's. -/
def lookup (t : Table) (name : String) : Option Declaration :=
  (t.subroutine.find? name).or (t.classLevel.find? name)

/-- The declaration that a name must refer to. -/
def require (t : Table) (name : String) : Except Problem Declaration :=
  match t.lookup name with
  | some d => .ok d
  | none => .error (.undeclared name)

/-- Forgets the current subroutine. -/
def startSubroutine (t : Table) : Table :=
  { t with subroutine := [], counters := t.counters.restart Storage.ofSubroutine }

/-- Forgets everything, for a new class. -/
def reset (t : Table) : Table :=
  let t := { t with classLevel := [] }.startSubroutine
  { t with counters := t.counters.restart Storage.ofClass }

/-- The declarations as a scope, without the counters. -/
def scope (t : Table) : Scope where
  classLevel := t.classLevel.declarations
  subroutine := t.subroutine.declarations

/-- The declarations of both mappings in one line, for inspection. -/
def text (t : Table) : String := t.scope.text

end Table

end Scope

end Jack
