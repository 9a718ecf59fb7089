import Jack.Compile.Outcome

/-!
# With and without a record of the derivation

A compilation can record the derivation on its way, into a record that may hold marks already. The
record takes no part in anything else: a step adds some marks to it, the same ones whatever it holds
(`Adds`), and does what it would have done without (`step_adds`). So does a run (`run_recording`),
up to its end or to the fault that stops it.

Of whole compilations that is said for any record and for any code that are there before the first
token is read (`compileOnto`).
-/

namespace Jack.Compile

/-- The state with another record of the derivation, or with none. -/
def State.recording (s : State) (w : Option (List Mark)) : State := { s with recorded := w }

/-- What a step yields, with another record. -/
def recordingResult (w : Option (List Mark)) (r : List Goal × State) : List Goal × State :=
  (r.1, r.2.recording w)

/-- The outcome with another record. -/
def Outcome.recording (r : Outcome) (w : Option (List Mark)) : Outcome :=
  ⟨r.state.recording w, r.fault⟩

/-- What happens from a state on adds marks to the record, which depend on nothing recorded, and
does the same with any record and with none. -/
def Adds (f : State → StepResult) (s : State) : Prop :=
  ∃ ms, ∀ w, f (s.recording w) = (f s).map (recordingResult (w.map (ms ++ ·)))

variable {c : Setting} {s : State}

theorem rest_recording (w : Option (List Mark)) : (s.recording w).rest = s.rest := rfl

theorem record_nil (w : Option (List Mark)) : w.map ([] ++ ·) = w := by
  cases w <;> rfl

/-- Nothing is noted. -/
theorem adds_nothing {f : State → StepResult}
    (h : ∀ w, f (s.recording w) = (f s).map (recordingResult w)) : Adds f s :=
  ⟨[], fun w => by rw [record_nil, h]⟩

/-! ## Looking at the next token -/

theorem adds_expect (expected : String) (select : Token → Option (List Goal)) :
    Adds (c.expect · expected select) s := by
  cases hrest : s.rest with
  | nil =>
      refine adds_nothing fun w => ?_
      simp only [Setting.expect, rest_recording, hrest, Setting.unexpectedAt, State.peek]
      rfl
  | cons t ts =>
      refine ⟨[.token t], fun w => ?_⟩
      simp only [Setting.expect, rest_recording, hrest, Setting.unexpectedAt, State.peek]
      cases select t <;> rfl

theorem adds_choose (select : Token → Option (List Goal)) (otherwise : List Goal) :
    Adds (fun s => .ok (s.choose select otherwise)) s := by
  cases hrest : s.rest with
  | nil =>
      refine adds_nothing fun w => ?_
      simp only [State.choose, rest_recording, hrest]
      rfl
  | cons t ts =>
      cases hselect : select t with
      | none =>
          refine adds_nothing fun w => ?_
          simp only [State.choose, rest_recording, hrest, hselect]
          rfl
      | some next =>
          refine ⟨[.token t], fun w => ?_⟩
          simp only [State.choose, rest_recording, hrest, hselect]
          rfl

/-- The first token of an element is noted behind its opening tag. -/
theorem adds_openElement (select : Token → Option (Element × List Goal)) :
    Adds (fun s => .ok (s.openElement select)) s := by
  cases hrest : s.rest with
  | nil =>
      refine adds_nothing fun w => ?_
      simp only [State.openElement, rest_recording, hrest]
      rfl
  | cons t ts =>
      cases hselect : select t with
      | none =>
          refine adds_nothing fun w => ?_
          simp only [State.openElement, rest_recording, hrest, hselect]
          rfl
      | some opened =>
          refine ⟨[.token t, .opened opened.1.tag], fun w => ?_⟩
          simp only [State.openElement, rest_recording, hrest, hselect]
          cases w <;> rfl

/-! ## Resolving names -/

theorem declare_recording (name : Token) (type : String) (k : Storage) (w : Option (List Mark)) :
    c.declare (s.recording w) name type k =
      (c.declare s name type k).map (recordingResult w) := by
  have hscope : (s.recording w).scope = s.scope := rfl
  simp only [Setting.declare, hscope]
  cases s.scope.define name.text type k <;> rfl

theorem beginSubroutine_recording (kind : SubroutineKind) (name : Token) (w : Option (List Mark)) :
    c.beginSubroutine (s.recording w) kind name =
      (c.beginSubroutine s kind name).map (recordingResult w) := by
  have hkind : (s.recording w).kindOf? name.text = s.kindOf? name.text := rfl
  simp only [Setting.beginSubroutine_eq, hkind]
  cases s.kindOf? name.text <;> rfl

theorem dispatch_recording (qualifier callee : Token) (w : Option (List Mark)) :
    c.dispatch (s.recording w) qualifier callee =
      (c.dispatch s qualifier callee).map (recordingResult w) := by
  have hscope : (s.recording w).scope = s.scope := rfl
  have hclass : c.isClassName (s.recording w) qualifier.text = c.isClassName s qualifier.text := rfl
  have hresolve : c.resolve (s.recording w) qualifier = c.resolve s qualifier := rfl
  simp only [Setting.dispatch, hscope, hclass, hresolve]
  split
  · cases c.resolve s qualifier with
    | error f => rfl
    | ok d =>
        dsimp only
        split <;> rfl
  · split <;> rfl

theorem localCall_recording (name : Token) (w : Option (List Mark)) :
    c.localCall (s.recording w) name = (c.localCall s name).map (recordingResult w) := by
  have hkind : (s.recording w).subroutineKind = s.subroutineKind := rfl
  simp only [Setting.localCall, hkind]
  split <;> rfl

theorem this_recording (t : Token) (w : Option (List Mark)) :
    c.this (s.recording w) t = (c.this s t).map (recordingResult w) := by
  have hscope : (s.recording w).scope = s.scope := rfl
  have hkind : (s.recording w).subroutineKind = s.subroutineKind := rfl
  simp only [Setting.this, hscope, hkind]
  cases s.scope.lookup "this" with
  | some d => rfl
  | none =>
      dsimp only
      split <;> rfl

theorem integer_recording (t : Token) (w : Option (List Mark)) :
    c.integer (s.recording w) t = (c.integer s t).map (recordingResult w) := by
  simp only [Setting.integer]
  cases Text.readInteger t.text with
  | error why => rfl
  | ok v =>
      dsimp only
      split
      · rfl
      · split <;> rfl

/-! ## Every step -/

/-- Every step adds marks to the record and takes no notice of it. -/
theorem step_adds (c : Setting) (s : State) (g : Goal) : Adds (step c · g) s := by
  cases g with
  | enter e => exact ⟨[.opened e.tag], fun _ => rfl⟩
  | leave e => exact ⟨[.closed e.tag], fun _ => rfl⟩
  | word | className | varType | varName | returnType | subroutineName | parameter | letTarget
  | doTarget | termBody | callSign | qualifiedCall => exact adds_expect _ _
  | classVars | subroutines | localVars | statementList => exact adds_openElement _
  | moreNames | moreParameters | elsePart | operators | assignTail | moreArguments =>
      exact adds_choose _ _
  | identifierTail name =>
      exact adds_choose _ (if s.sees "(" || s.sees "." then [.callSign name] else [.load name])
  | parameters | returnValue | firstArgument | header | nameClass | noteClass | statements
  | expression | ifBody | whileBody => exact adds_nothing fun _ => rfl
  | declare name type k => exact adds_nothing (declare_recording name type k)
  | beginSubroutine kind name => exact adds_nothing (beginSubroutine_recording kind name)
  | dispatch qualifier callee => exact adds_nothing (dispatch_recording qualifier callee)
  | localCall name => exact adds_nothing (localCall_recording name)
  | this t => exact adds_nothing (this_recording t)
  | integer t => exact adds_nothing (integer_recording t)
  | emit i =>
      refine adds_nothing fun w => ?_
      simp only [step]
      cases i.fault? <;> rfl
  | assign name | load name =>
      refine adds_nothing fun w => ?_
      have hresolve : c.resolve (s.recording w) name = c.resolve s name := rfl
      simp only [step, hresolve]
      cases c.resolve s name <;> rfl
  | endOfInput | term =>
      refine adds_nothing fun w => ?_
      simp only [step, rest_recording]
      cases s.rest <;> rfl
  | verifyCalls =>
      refine adds_nothing fun w => ?_
      have hfault : c.callFault? (s.recording w) = c.callFault? s := rfl
      have hcalls : (s.recording w).localCalls = s.localCalls := rfl
      simp only [step, hfault, hcalls]
      cases s.localCalls.findSome? (c.callFault? s) <;> rfl

/-! ## Whole runs -/

/-- A run adds marks to its record, the same ones whatever the record holds, and is otherwise the
run without a record. -/
theorem run_recording (c : Setting) (s : State) (gs : List Goal) :
    ∃ ms, ∀ w, run c (s.recording w) gs = (run c s gs).recording (w.map (ms ++ ·)) := by
  fun_induction run c s gs with
  | case1 s =>
      refine ⟨[], fun w => ?_⟩
      rw [run_nil, record_nil]
      rfl
  | case2 s g gs f hstep =>
      refine ⟨[], fun w => ?_⟩
      obtain ⟨ms, hadds⟩ := step_adds c s g
      have hstep' : step c (s.recording w) g = (step c s g).map _ := hadds w
      rw [hstep] at hstep'
      rw [run_cons_error gs hstep', record_nil]
      rfl
  | case3 s g gs next s' hstep ih =>
      obtain ⟨ms, hadds⟩ := step_adds c s g
      obtain ⟨more, hmore⟩ := ih
      refine ⟨more ++ ms, fun w => ?_⟩
      have hstep' : step c (s.recording w) g = (step c s g).map _ := hadds w
      rw [hstep] at hstep'
      rw [run_cons_ok gs hstep', hmore, Option.map_map]
      refine congrArg ((run c s' (next ++ gs)).recording ·) (congrArg (Option.map · w) ?_)
      funext marks
      exact (List.append_assoc more ms marks).symm

/-- Compiles tokens behind code that is there already, and records the derivation behind marks that
are there already, or not at all. -/
def compileOnto (o : Options) (file : String) (lines : List String) (tokens : List Token)
    (code : List Instruction) (w : Option (List Mark)) : Outcome :=
  run { Token.Setting.ofTokens file lines tokens with strict := o.strict }
    { rest := tokens, known := o.knownClasses, emitted := code, recorded := w } Goal.wholeClass

theorem compileTokens_eq (o : Options) (file : String) (lines : List String)
    (tokens : List Token) :
    compileTokens o file lines tokens =
      compileOnto o file lines tokens [] (if o.listTree then some [] else none) := rfl

/-- Recording changes nothing else. Whatever the tokens, a compilation into a record ends like the
one without, in the same state and with the same fault or with none; only the record holds the
marks that were added, the same ones in every record. -/
theorem compileTokens_recording (o : Options) (file : String) (lines : List String)
    (tokens : List Token) :
    (∀ code, ∃ ms, ∀ w, compileOnto o file lines tokens code w =
        (compileOnto o file lines tokens code none).recording (w.map (ms ++ ·))) ∧
      ∃ ms, compileTokens { o with listTree := true } file lines tokens =
        (compileTokens { o with listTree := false } file lines tokens).recording (some ms) := by
  have honto : ∀ code, ∃ ms, ∀ w, compileOnto o file lines tokens code w =
      (compileOnto o file lines tokens code none).recording (w.map (ms ++ ·)) :=
    fun code => run_recording _ { rest := tokens, known := o.knownClasses, emitted := code } _
  refine ⟨honto, ?_⟩
  obtain ⟨ms, hms⟩ := honto []
  refine ⟨ms, ?_⟩
  have hrecorded := hms (some [])
  rw [Option.map_some, List.append_nil] at hrecorded
  rw [compileTokens_eq, compileTokens_eq]
  exact hrecorded

end Jack.Compile
