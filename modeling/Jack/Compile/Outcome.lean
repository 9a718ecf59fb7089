import Jack.Compile.Step

/-!
# Running a compilation

The goals still due form an agenda, the first one being taken up next. `run` works an agenda off,
step by step, until it is empty or a step fails; the outcome holds the state reached in either case.
-/

namespace Jack.Compile

/-- How a compilation ends: the state reached, and the fault that stopped it, if one did. -/
structure Outcome where
  state : State
  fault : Option Fault
  deriving Repr, DecidableEq

/-- Works off an agenda. -/
def run (c : Setting) (s : State) : List Goal → Outcome
  | [] => ⟨s, none⟩
  | g :: agenda =>
    match _h : step c s g with
    | .error f => ⟨s, some f⟩
    | .ok (next, s') => run c s' (next ++ agenda)
  termination_by agenda => (s.rest.length, agendaWeight agenda)
  decreasing_by
    rcases step_progress _h with hlt | ⟨heq, hw⟩
    · exact Prod.Lex.left _ _ hlt
    · have hagenda : agendaWeight (next ++ agenda) < agendaWeight (g :: agenda) := by
        rw [agendaWeight_append]
        exact Nat.add_lt_add_right hw _
      rw [show s'.rest = s.rest from heq]
      exact Prod.Lex.right _ hagenda

theorem run_nil (c : Setting) (s : State) : run c s [] = ⟨s, none⟩ := by
  rw [run]

theorem run_cons_error {c : Setting} {s : State} {g : Goal} {f : Fault} (agenda : List Goal)
    (h : step c s g = .error f) : run c s (g :: agenda) = ⟨s, some f⟩ := by
  rw [run]
  split <;> simp_all

theorem run_cons_ok {c : Setting} {s s' : State} {g : Goal} {next : List Goal}
    (agenda : List Goal) (h : step c s g = .ok (next, s')) :
    run c s (g :: agenda) = run c s' (next ++ agenda) := by
  rw [run]
  split <;> simp_all

/-- How to compile: the classes known beforehand, whether only they may qualify calls, and which
listings to make. -/
structure Options where
  knownClasses : List String := []
  strict : Bool := false
  listTokens : Bool := false
  listTree : Bool := false
  deriving Repr, DecidableEq

/-- Compiles the class that a list of tokens spells. -/
def compileTokens (o : Options) (file : String) (lines : List String) (tokens : List Token) :
    Outcome :=
  let setting : Setting := { Token.Setting.ofTokens file lines tokens with strict := o.strict }
  let start : State :=
    { rest := tokens, known := o.knownClasses, recorded := if o.listTree then some [] else none }
  run setting start Goal.wholeClass

end Jack.Compile
