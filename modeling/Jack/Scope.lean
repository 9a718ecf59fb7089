import Jack.Diagnostic
import Jack.Scalar

/-!
# Scopes

Variables are declared in two scopes: that of the class, which lasts, and that of the current
subroutine, which hides the other and is emptied when the next subroutine starts. A declaration
gets the next free slot of its storage.

A scope is nothing but its declarations, in their order, and the next free slot is told by counting
them (`Scope.count`). `Scope.Table` keeps a counter for each storage instead; what is asked of it
has the same answers.
-/

namespace Jack

/-- Where a variable lives. -/
inductive Storage where
  | static
  | field
  | argument
  | localVar
  deriving Repr, DecidableEq

namespace Storage

/-- The name of a storage. -/
def name : Storage → String
  | static => "static"
  | field => "field"
  | argument => "argument"
  | localVar => "local"

/-- Static and field variables belong to the class, the others to a subroutine. -/
def isClassLevel : Storage → Bool
  | static | field => true
  | argument | localVar => false

/-- The name of the scope in which variables of a storage are declared. -/
def scopeName (k : Storage) : String :=
  if k.isClassLevel then "class" else "subroutine"

/-- The storage with a given name, whatever its case. Two short forms are understood as well. Only
ASCII letters are folded; no other letter folds into one that occurs in these names. -/
def ofName? (given : String) : Option Storage :=
  match given.toLower with
  | "static" => some static
  | "field" => some field
  | "argument" | "arg" => some argument
  | "local" | "var" => some localVar
  | _ => none

/-- The storage that a plain value names; only a text can name one. -/
def ofScalar? : Scalar → Option Storage
  | .text s => ofName? s
  | _ => none

/-- The complaint about a value that names no storage. -/
def refusal (given : Scalar) : String :=
  s!"{given.display} is not a valid StorageKind"

end Storage

/-- One declared variable. -/
structure Declaration where
  name : String
  type : String
  storage : Storage
  slot : Nat
  deriving Repr, DecidableEq

/-- A declaration in one line, for inspection. -/
def Declaration.text (d : Declaration) : String :=
  s!"name={d.name}, type={d.type}, kind={d.storage.name}, index={d.slot}"

/-- The declarations of a class and of its current subroutine, in order. -/
structure Scope where
  classLevel : List Declaration := []
  subroutine : List Declaration := []
  deriving Repr, DecidableEq

namespace Scope

/-- The declarations of the scope to which a storage belongs. -/
def layer (s : Scope) (k : Storage) : List Declaration :=
  if k.isClassLevel then s.classLevel else s.subroutine

/-- How many variables of a storage are declared. -/
def count (s : Scope) (k : Storage) : Nat :=
  (s.layer k).countP fun d => d.storage == k

/-- Adds a declaration at the end of its scope. -/
def add (s : Scope) (d : Declaration) : Scope :=
  if d.storage.isClassLevel then { s with classLevel := s.classLevel ++ [d] }
  else { s with subroutine := s.subroutine ++ [d] }

/-- Declares a name at the next free slot of a storage. A name may be declared once in each scope.
-/
def define (s : Scope) (name type : String) (k : Storage) : Except Problem (Declaration × Scope) :=
  if (s.layer k).any fun d => d.name == name then .error (.duplicate name k.scopeName)
  else
    let d : Declaration := ⟨name, type, k, s.count k⟩
    .ok (d, s.add d)

/-- The declaration that a name refers to: the subroutine's, else the class's. -/
def lookup (s : Scope) (name : String) : Option Declaration :=
  (s.subroutine.find? fun d => d.name == name).or (s.classLevel.find? fun d => d.name == name)

/-- Forgets the current subroutine. -/
def startSubroutine (s : Scope) : Scope :=
  { s with subroutine := [] }

/-- Forgets everything, for a new class. -/
def reset (_ : Scope) : Scope := {}

/-- The declarations of both scopes in one line, for inspection. -/
def text (s : Scope) : String :=
  let part (ds : List Declaration) := String.intercalate "," (ds.map Declaration.text)
  s!"{part s.classLevel} & {part s.subroutine}"

end Scope

end Jack
