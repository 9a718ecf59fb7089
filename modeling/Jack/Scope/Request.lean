import Jack.Scope.Table

/-!
# Requests to a scope table

What may be asked of the declarations of a class while they grow. Storages arrive as plain values,
and a value that names none is refused; so is a name that is declared twice in one scope, or one
that is not declared at all where it must be. `Table.answer` gives the answer to a request and the
table after it.
-/

namespace Jack.Scope

/-- A request, its storage unchecked. -/
inductive Request where
  | define (name type : String) (storage : Scalar)
  | startSubroutine
  | reset
  | lookup (name : String)
  | contains (name : String)
  | storageOf (name : String)
  | typeOf (name : String)
  | slotOf (name : String)
  | count (storage : Scalar)
  | classDeclarations
  | subroutineDeclarations
  deriving Repr, DecidableEq

inductive Answer where
  | done
  | declared (d : Declaration)
  | found (d : Option Declaration)
  | truth (b : Bool)
  | storage (k : Storage)
  | text (s : String)
  | number (n : Nat)
  | declarations (ds : List Declaration)
  deriving Repr, DecidableEq

/-- Why a request is refused. -/
inductive Refusal where
  | problem (p : Problem)
  | unknownStorage (given : Scalar)
  deriving Repr, DecidableEq

namespace Table

/-- An answer about the declaration that a name must refer to. -/
def answerAbout (t : Table) (name : String) (f : Declaration → Answer) : Except Refusal Answer :=
  match t.require name with
  | .ok d => .ok (f d)
  | .error p => .error (.problem p)

/-- The answer to a request, and the table after it. -/
def answer (t : Table) : Request → Except Refusal Answer × Table
  | .define name type given =>
    match Storage.ofScalar? given with
    | none => (.error (.unknownStorage given), t)
    | some k =>
      match t.define name type k with
      | .ok (d, t') => (.ok (.declared d), t')
      | .error p => (.error (.problem p), t)
  | .startSubroutine => (.ok .done, t.startSubroutine)
  | .reset => (.ok .done, t.reset)
  | .lookup name => (.ok (.found (t.lookup name)), t)
  | .contains name => (.ok (.truth (t.lookup name).isSome), t)
  | .storageOf name => (t.answerAbout name fun d => .storage d.storage, t)
  | .typeOf name => (t.answerAbout name fun d => .text d.type, t)
  | .slotOf name => (t.answerAbout name fun d => .number d.slot, t)
  | .count given =>
    match Storage.ofScalar? given with
    | none => (.error (.unknownStorage given), t)
    | some k => (.ok (.number (t.count k)), t)
  | .classDeclarations => (.ok (.declarations t.classLevel.declarations), t)
  | .subroutineDeclarations => (.ok (.declarations t.subroutine.declarations), t)

/-- The table after some requests. -/
def after (t : Table) (requests : List Request) : Table :=
  requests.foldl (fun t r => (t.answer r).2) t

end Table

end Jack.Scope
