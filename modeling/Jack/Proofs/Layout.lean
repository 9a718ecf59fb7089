import Jack.Proofs.SyntaxErrors

/-!
# Layout

Where tokens stand matters to complaints and to nothing else. `State.moved` puts all tokens of a
state at other places and forgets the recorded derivation, and a step commutes with it
(`step_moved`): the moved goal, taken up in the moved state, yields what the step yields, moved. A
step that fails fails after the move as well. What can be said of its complaint depends on how the
two settings are related; `Corresponds` asks that a `report` of complaints does not tell them apart.
So a run commutes with moving (`run_moved`), whatever its tokens are.

Two lists of tokens with the same lexemes become the same list when all their tokens are moved to
one place, which is why the layout of a source has no influence (`compileTokens_layout`).
-/

namespace Jack

/-- The token at another place. -/
def Token.moved (f : Location → Location) (t : Token) : Token :=
  { t with location := f t.location }

namespace Compile

variable {α : Type} {f : Location → Location} {report : Fault → α}

/-- The goal with its tokens at other places. -/
def Goal.moved (f : Location → Location) : Goal → Goal
  | declare name type k => declare (name.moved f) type k
  | beginSubroutine kind name => beginSubroutine kind (name.moved f)
  | assign name => assign (name.moved f)
  | integer t => integer (t.moved f)
  | this t => this (t.moved f)
  | identifierTail name => identifierTail (name.moved f)
  | load name => load (name.moved f)
  | callSign name => callSign (name.moved f)
  | localCall name => localCall (name.moved f)
  | qualifiedCall qualifier => qualifiedCall (qualifier.moved f)
  | dispatch qualifier callee => dispatch (qualifier.moved f) (callee.moved f)
  | g => g

/-- The state with its tokens at other places, and without a record of the derivation. -/
def State.moved (f : Location → Location) (s : State) : State :=
  { s with
    rest := s.rest.map (Token.moved f)
    localCalls := s.localCalls.map (Token.moved f)
    recorded := none }

/-- What a step yields, moved. -/
def movedResult (f : Location → Location) (r : List Goal × State) : List Goal × State :=
  (r.1.map (Goal.moved f), r.2.moved f)

/-- What a step yields, moved, or what is reported of its failure. -/
def movedStep (f : Location → Location) (report : Fault → α) :
    StepResult → Except α (List Goal × State)
  | .error e => .error (report e)
  | .ok r => .ok (movedResult f r)

/-- The settings differ only in what `report` does not show of complaints about tokens. -/
structure Corresponds (f : Location → Location) (report : Fault → α) (c c' : Setting) : Prop where
  strict : c'.strict = c.strict
  unexpected : ∀ expected view,
    report (.diagnostic (c'.unexpected expected (view.map (Token.moved f)))) =
      report (.diagnostic (c.unexpected expected view))
  fault : ∀ problem t hint,
    report (c'.fault problem (t.moved f) hint) = report (c.fault problem t hint)

@[simp] theorem moved_mark (s : State) (m : Mark) : (s.mark m).moved f = s.moved f := rfl

@[simp] theorem moved_read (s : State) (t : Token) (ts : List Token) :
    (s.read t ts).moved f = (s.moved f).read (t.moved f) (ts.map (Token.moved f)) := rfl

@[simp] theorem moved_emit (s : State) (i : Instruction) :
    (s.emit i).moved f = (s.moved f).emit i := rfl

@[simp] theorem moved_text (t : Token) : (t.moved f).text = t.text := rfl

@[simp] theorem moved_scope (s : State) : (s.moved f).scope = s.scope := rfl

@[simp] theorem moved_known (s : State) : (s.moved f).known = s.known := rfl

@[simp] theorem moved_qualify (s : State) (x : String) : (s.moved f).qualify x = s.qualify x := rfl

@[simp] theorem moved_qualifiedName (s : State) :
    (s.moved f).qualifiedName = s.qualifiedName := rfl

@[simp] theorem moved_kindOf? (s : State) (x : String) : (s.moved f).kindOf? x = s.kindOf? x := rfl

theorem moved_rest (s : State) : (s.moved f).rest = s.rest.map (Token.moved f) := rfl

theorem peek_moved (s : State) : (s.moved f).peek = s.peek.map (Token.moved f) := by
  cases s with
  | mk rest => cases rest <;> rfl

theorem sees_moved (s : State) (w : String) : (s.moved f).sees w = s.sees w := by
  cases s with
  | mk rest => cases rest <;> rfl

theorem moved_stringLiteral (text : String) :
    (Goal.stringLiteral text).map (Goal.moved f) = Goal.stringLiteral text := by
  simp [Goal.stringLiteral, Goal.moved, List.map_flatMap]

/-! ## Looking at the next token -/

variable {c c' : Setting}

theorem Corresponds.unexpectedAt (h : Corresponds f report c c') (s : State) (expected : String) :
    report (c'.unexpectedAt (s.moved f) expected) = report (c.unexpectedAt s expected) := by
  simp only [Setting.unexpectedAt, peek_moved]
  exact h.unexpected expected s.peek

/-- A moved token selects what the token selects, moved. -/
def SelectMoved (f : Location → Location) (select select' : Token → Option (List Goal)) : Prop :=
  ∀ t, select' (t.moved f) = (select t).map (List.map (Goal.moved f))

theorem expect_moved (h : Corresponds f report c c') (s : State) (expected : String)
    {select select' : Token → Option (List Goal)} (hselect : SelectMoved f select select') :
    (c'.expect (s.moved f) expected select').mapError report =
      movedStep f report (c.expect s expected select) := by
  have hfault := h.unexpectedAt s expected
  unfold Setting.expect
  rw [moved_rest]
  cases hrest : s.rest with
  | nil => exact congrArg Except.error hfault
  | cons t ts =>
      simp only [List.map_cons, hselect t]
      cases select t with
      | none => exact congrArg Except.error hfault
      | some next => rfl

theorem choose_moved (s : State) {select select' : Token → Option (List Goal)}
    (hselect : SelectMoved f select select') {otherwise otherwise' : List Goal}
    (hotherwise : otherwise' = otherwise.map (Goal.moved f)) :
    (s.moved f).choose select' otherwise' = movedResult f (s.choose select otherwise) := by
  unfold State.choose
  rw [moved_rest, hotherwise]
  cases hrest : s.rest with
  | nil => rfl
  | cons t ts =>
      simp only [List.map_cons, hselect t]
      cases select t with
      | none => rfl
      | some next => rfl

/-- The token that opens an element and the goals behind it have no place in common with a
location, so they stay. -/
theorem openElement_moved (s : State) {select : Token → Option (Element × List Goal)}
    (hblind : ∀ t, select (t.moved f) = select t)
    (hgoals : ∀ t e next, select t = some (e, next) → next.map (Goal.moved f) = next) :
    (s.moved f).openElement select = movedResult f (s.openElement select) := by
  unfold State.openElement
  rw [moved_rest]
  cases hrest : s.rest with
  | nil => rfl
  | cons t ts =>
      simp only [List.map_cons, hblind t]
      cases hselect : select t with
      | none => rfl
      | some r => simp only [movedResult, hgoals t r.1 r.2 hselect, moved_read, moved_mark]; rfl

theorem selectMoved_onWord (w : String) {next next' : List Goal}
    (hnext : next' = next.map (Goal.moved f)) :
    SelectMoved f (Goal.onWord w next) (Goal.onWord w next') := by
  intro t
  have hword : (t.moved f).isWord w = t.isWord w := rfl
  simp only [Goal.onWord, hword, hnext]
  split <;> rfl

theorem selectMoved_onName {next next' : Token → List Goal}
    (hnext : ∀ t, next' (t.moved f) = (next t).map (Goal.moved f)) :
    SelectMoved f (Goal.onName next) (Goal.onName next') := by
  intro t
  have hname : (t.moved f).isIdentifier = t.isIdentifier := rfl
  simp only [Goal.onName, hname, hnext]
  split <;> rfl

theorem selectMoved_onType (keywords : List String) {next : String → List Goal}
    (hnext : ∀ x, (next x).map (Goal.moved f) = next x) :
    SelectMoved f (Goal.onType keywords next) (Goal.onType keywords next) := by
  intro t
  have hkeyword : (t.moved f).isKeyword keywords = t.isKeyword keywords := rfl
  have hname : (t.moved f).isIdentifier = t.isIdentifier := rfl
  have htext : (t.moved f).text = t.text := rfl
  simp only [Goal.onType, hkeyword, hname, htext]
  split
  · simp only [Option.map_some, hnext]
  · split
    · simp only [Option.map_some, List.map_cons, hnext]
      rfl
    · rfl

theorem selectMoved_onTerm : SelectMoved f Goal.onTerm Goal.onTerm := by
  intro t
  obtain ⟨kind, text, location⟩ := t
  cases kind with
  | integer | identifier => rfl
  | string => exact congrArg some (moved_stringLiteral text).symm
  | keyword | symbol =>
      simp only [Goal.onTerm, Token.moved, apply_ite (Option.map (List.map (Goal.moved f)))]
      rfl

theorem selectMoved_onOperator : SelectMoved f Goal.onOperator Goal.onOperator := by
  intro t
  have hword : ∀ w, (t.moved f).isWord w = t.isWord w := fun _ => rfl
  simp only [Goal.onOperator, hword, Option.map_map]
  rfl

theorem selectMoved_onCallSign (name : Token) :
    SelectMoved f (Goal.onCallSign name) (Goal.onCallSign (name.moved f)) := by
  intro t
  have hword : ∀ w, (t.moved f).isWord w = t.isWord w := fun _ => rfl
  simp only [Goal.onCallSign, hword, apply_ite (Option.map (List.map (Goal.moved f)))]
  rfl

/-- What one test selects, or else the tests behind it. -/
theorem unmoved_of_ite {p : Prop} [Decidable p] {e e' : Element} {gs gs' : List Goal}
    {otherwise : Option (Element × List Goal)} (hgs : gs.map (Goal.moved f) = gs)
    (hotherwise : otherwise = some (e', gs') → gs'.map (Goal.moved f) = gs')
    (h : (if p then some (e, gs) else otherwise) = some (e', gs')) :
    gs'.map (Goal.moved f) = gs' := by
  split at h
  · cases h
    exact hgs
  · exact hotherwise h

/-! ## Resolving names -/

theorem resolve_moved (h : Corresponds f report c c') (s : State) (name : Token) :
    (c'.resolve (s.moved f) (name.moved f)).mapError report =
      (c.resolve s name).mapError report := by
  simp only [Setting.resolve, moved_text, moved_scope, moved_qualifiedName]
  cases s.scope.lookup name.text with
  | none => exact congrArg Except.error (h.fault ..)
  | some d =>
      dsimp only
      by_cases hd : d.storage = .field ∧ s.subroutineKind = some .function
      · have hd' : d.storage = .field ∧ (s.moved f).subroutineKind = some .function := hd
        rw [if_pos hd', if_pos hd]
        exact congrArg Except.error (h.fault ..)
      · have hd' : ¬(d.storage = .field ∧ (s.moved f).subroutineKind = some .function) := hd
        rw [if_neg hd', if_neg hd]

/-- Both names stand for the same variable, or what is reported of them is the same. -/
theorem resolve_moved_cases (h : Corresponds f report c c') (s : State) (name : Token) :
    (∃ e e', c.resolve s name = .error e ∧
        c'.resolve (s.moved f) (name.moved f) = .error e' ∧ report e' = report e) ∨
      ∃ d, c.resolve s name = .ok d ∧ c'.resolve (s.moved f) (name.moved f) = .ok d := by
  have hresolve := resolve_moved h s name
  generalize c'.resolve (s.moved f) (name.moved f) = r', c.resolve s name = r at hresolve ⊢
  cases r' with
  | error e' =>
      cases r with
      | error e => exact .inl ⟨e, e', rfl, rfl, Except.error.inj hresolve⟩
      | ok d => cases hresolve
  | ok d' =>
      cases r with
      | error e => cases hresolve
      | ok d => exact .inr ⟨d, rfl, congrArg Except.ok (Except.ok.inj hresolve)⟩

/-- A goal that goes on with the variable that a name stands for. -/
theorem resolved_moved (h : Corresponds f report c c') (s : State) (name : Token)
    {next : Declaration → List Goal} (hnext : ∀ d, (next d).map (Goal.moved f) = next d) :
    Except.mapError report (match c'.resolve (s.moved f) (name.moved f) with
      | .error e => .error e
      | .ok d => .ok (next d, s.moved f)) =
    movedStep f report (match c.resolve s name with
      | .error e => .error e
      | .ok d => .ok (next d, s)) := by
  rcases resolve_moved_cases h s name with ⟨e, e', he, he', hreport⟩ | ⟨d, hd, hd'⟩
  · rw [he, he']
    exact congrArg Except.error hreport
  · rw [hd, hd']
    exact congrArg Except.ok (congrArg (·, s.moved f) (hnext d).symm)

theorem declare_moved (h : Corresponds f report c c') (s : State) (name : Token) (type : String)
    (k : Storage) :
    (c'.declare (s.moved f) (name.moved f) type k).mapError report =
      movedStep f report (c.declare s name type k) := by
  simp only [Setting.declare, moved_text, moved_scope]
  cases s.scope.define name.text type k with
  | error p => exact congrArg Except.error (h.fault ..)
  | ok d => rfl

theorem beginSubroutine_moved (h : Corresponds f report c c') (s : State) (kind : SubroutineKind)
    (name : Token) :
    (c'.beginSubroutine (s.moved f) kind (name.moved f)).mapError report =
      movedStep f report (c.beginSubroutine s kind name) := by
  simp only [Setting.beginSubroutine_eq, moved_text, moved_kindOf?]
  cases s.kindOf? name.text with
  | none => rfl
  | some k => exact congrArg Except.error (h.fault ..)

theorem isClassName_moved (h : Corresponds f report c c') (s : State) (x : String) :
    c'.isClassName (s.moved f) x = c.isClassName s x := by
  simp only [Setting.isClassName, moved_known, h.strict]

theorem dispatch_moved (h : Corresponds f report c c') (s : State) (qualifier callee : Token) :
    (c'.dispatch (s.moved f) (qualifier.moved f) (callee.moved f)).mapError report =
      movedStep f report (c.dispatch s qualifier callee) := by
  simp only [Setting.dispatch, moved_text, moved_scope, isClassName_moved h]
  by_cases hvariable : (s.scope.lookup qualifier.text).isSome = true
  · simp only [if_pos hvariable]
    rcases resolve_moved_cases h s qualifier with ⟨e, e', he, he', hreport⟩ | ⟨d, hd, hd'⟩
    · rw [he, he']
      exact congrArg Except.error hreport
    · rw [hd, hd']
      dsimp only
      by_cases hprimitive : Token.primitiveTypes.contains d.type = true
      · simp only [if_pos hprimitive]
        exact congrArg Except.error (h.fault ..)
      · simp only [if_neg hprimitive]
        rfl
  · simp only [if_neg hvariable]
    by_cases hclass : c.isClassName s qualifier.text = true
    · simp only [if_pos hclass]
      rfl
    · simp only [if_neg hclass]
      exact congrArg Except.error (h.fault ..)

theorem localCall_moved (h : Corresponds f report c c') (s : State) (name : Token) :
    (c'.localCall (s.moved f) (name.moved f)).mapError report =
      movedStep f report (c.localCall s name) := by
  simp only [Setting.localCall, moved_text, moved_qualify, moved_qualifiedName]
  by_cases hfunction : s.subroutineKind = some .function
  · have hfunction' : (s.moved f).subroutineKind = some .function := hfunction
    rw [if_pos hfunction', if_pos hfunction]
    exact congrArg Except.error (h.fault ..)
  · have hfunction' : ¬(s.moved f).subroutineKind = some .function := hfunction
    rw [if_neg hfunction', if_neg hfunction]
    refine congrArg Except.ok ?_
    simp only [movedResult, State.moved, List.map_append]
    rfl

theorem this_moved (h : Corresponds f report c c') (s : State) (t : Token) :
    (c'.this (s.moved f) (t.moved f)).mapError report = movedStep f report (c.this s t) := by
  simp only [Setting.this, moved_scope, moved_qualifiedName]
  cases s.scope.lookup "this" with
  | some d => rfl
  | none =>
      dsimp only
      by_cases hconstructor : s.subroutineKind = some .constructor
      · have hconstructor' : (s.moved f).subroutineKind = some .constructor := hconstructor
        rw [if_pos hconstructor', if_pos hconstructor]
        rfl
      · have hconstructor' : ¬(s.moved f).subroutineKind = some .constructor := hconstructor
        rw [if_neg hconstructor', if_neg hconstructor]
        exact congrArg Except.error (h.fault ..)

theorem integer_moved (h : Corresponds f report c c') (s : State) (t : Token) :
    (c'.integer (s.moved f) (t.moved f)).mapError report = movedStep f report (c.integer s t) := by
  simp only [Setting.integer, moved_text]
  cases Text.readInteger t.text with
  | error why => rfl
  | ok v =>
      by_cases hlarge : maxInteger < v
      · simp only [if_pos hlarge]
        exact congrArg Except.error (h.fault ..)
      · by_cases hnegative : v < 0
        · simp only [if_neg hlarge, if_pos hnegative]
          rfl
        · simp only [if_neg hlarge, if_neg hnegative]
          rfl

theorem callFault?_moved (h : Corresponds f report c c') (s : State) (call : Token) :
    (c'.callFault? (s.moved f) (call.moved f)).map report =
      (c.callFault? s call).map report := by
  simp only [Setting.callFault?, moved_text, moved_kindOf?, moved_qualify]
  cases s.kindOf? call.text with
  | none => exact congrArg some (h.fault ..)
  | some kind =>
      cases kind with
      | method => rfl
      | constructor | function => exact congrArg some (h.fault ..)

/-- The first unqualified call at fault is the same, and so is its report. -/
theorem findSome?_moved (h : Corresponds f report c c') (s : State) (calls : List Token) :
    ((calls.map (Token.moved f)).findSome? (c'.callFault? (s.moved f))).map report =
      (calls.findSome? (c.callFault? s)).map report := by
  induction calls with
  | nil => rfl
  | cons call calls ih =>
      have hcall := callFault?_moved h s call
      simp only [List.map_cons, List.findSome?_cons]
      generalize c'.callFault? (s.moved f) (call.moved f) = r', c.callFault? s call = r
        at hcall ⊢
      cases r' with
      | none =>
          cases r with
          | none => exact ih
          | some e => cases hcall
      | some e' =>
          cases r with
          | none => cases hcall
          | some e => exact hcall

theorem moved_header (s : State) : s.header.map (Goal.moved f) = s.header := by
  unfold State.header
  cases s.subroutineKind with
  | none => rfl
  | some kind => cases kind <;> rfl

/-! ## Steps and runs -/

/-- A step commutes with moving. -/
theorem step_moved (h : Corresponds f report c c') (s : State) (g : Goal) :
    (step c' (s.moved f) (g.moved f)).mapError report = movedStep f report (step c s g) := by
  cases g with
  | word w => exact expect_moved h s _ (selectMoved_onWord w rfl)
  | className | varName | subroutineName | letTarget | doTarget =>
      exact expect_moved h s _ (selectMoved_onName fun _ => rfl)
  | varType | returnType | parameter =>
      exact expect_moved h s _ (selectMoved_onType _ fun _ => rfl)
  | termBody => exact expect_moved h s _ selectMoved_onTerm
  | callSign name => exact expect_moved h s _ (selectMoved_onCallSign name)
  | qualifiedCall qualifier => exact expect_moved h s _ (selectMoved_onName fun _ => rfl)
  | enter | leave | nameClass | noteClass | statements | expression | ifBody | whileBody => rfl
  | classVars =>
      refine congrArg Except.ok (openElement_moved s (fun _ => rfl) fun t e next => ?_)
      exact unmoved_of_ite rfl (unmoved_of_ite rfl fun h => by cases h)
  | subroutines =>
      refine congrArg Except.ok (openElement_moved s (fun _ => rfl) fun t e next hselect => ?_)
      obtain ⟨kind, -, heq⟩ := Option.map_eq_some_iff.mp hselect
      cases heq
      rfl
  | localVars =>
      refine congrArg Except.ok (openElement_moved s (fun _ => rfl) fun t e next => ?_)
      exact unmoved_of_ite rfl fun h => by cases h
  | statementList =>
      refine congrArg Except.ok (openElement_moved s (fun _ => rfl) fun t e next => ?_)
      exact unmoved_of_ite rfl (unmoved_of_ite rfl (unmoved_of_ite rfl (unmoved_of_ite rfl
        (unmoved_of_ite rfl fun h => by cases h))))
  | moreNames | moreParameters | elsePart | assignTail | moreArguments =>
      refine congrArg Except.ok (choose_moved s (selectMoved_onWord _ ?_) ?_) <;> rfl
  | operators => exact congrArg Except.ok (choose_moved s selectMoved_onOperator rfl)
  | identifierTail name =>
      refine congrArg Except.ok (choose_moved s (selectMoved_onWord _ ?_) ?_)
      · rfl
      · rw [sees_moved, sees_moved]
        split <;> rfl
  | parameters | returnValue | firstArgument =>
      simp only [step, Goal.moved, sees_moved]
      split <;> rfl
  | header =>
      have hheader : (s.moved f).header = s.header := rfl
      simp only [step, Goal.moved, hheader, movedStep, movedResult, moved_header]
      rfl
  | emit i =>
      simp only [step, Goal.moved]
      cases i.fault? <;> rfl
  | declare name type k => exact declare_moved h s name type k
  | beginSubroutine kind name => exact beginSubroutine_moved h s kind name
  | endOfInput =>
      simp only [step, Goal.moved, moved_rest]
      cases hrest : s.rest with
      | nil => rfl
      | cons t ts => exact congrArg Except.error (h.unexpectedAt s _)
  | term =>
      simp only [step, Goal.moved, moved_rest]
      cases hrest : s.rest with
      | nil => exact congrArg Except.error (h.unexpectedAt s _)
      | cons t ts => rfl
  | verifyCalls =>
      have hcalls := findSome?_moved h s s.localCalls
      have hmoved : (s.moved f).localCalls = s.localCalls.map (Token.moved f) := rfl
      simp only [step, Goal.moved, hmoved]
      generalize (s.localCalls.map (Token.moved f)).findSome? (c'.callFault? (s.moved f)) = r',
        s.localCalls.findSome? (c.callFault? s) = r at hcalls ⊢
      cases r' with
      | none =>
          cases r with
          | none => rfl
          | some e => cases hcalls
      | some e' =>
          cases r with
          | none => cases hcalls
          | some e => exact congrArg Except.error (Option.some.inj hcalls)
  | assign name => exact resolved_moved h s name fun _ => rfl
  | load name => exact resolved_moved h s name fun _ => rfl
  | integer t => exact integer_moved h s t
  | this t => exact this_moved h s t
  | localCall name => exact localCall_moved h s name
  | dispatch qualifier callee => exact dispatch_moved h s qualifier callee

/-- A run commutes with moving. -/
theorem run_moved (h : Corresponds f report c c') (s : State) (gs : List Goal) :
    (run c' (s.moved f) (gs.map (Goal.moved f))).state = (run c s gs).state.moved f ∧
      (run c' (s.moved f) (gs.map (Goal.moved f))).fault.map report =
        (run c s gs).fault.map report := by
  fun_induction run c s gs with
  | case1 s =>
      rw [List.map_nil, run_nil]
      exact ⟨rfl, rfl⟩
  | case2 s g gs e hstep =>
      have hmoved := step_moved h s g
      rw [hstep] at hmoved
      cases hstep' : step c' (s.moved f) (g.moved f) with
      | error e' =>
          rw [hstep'] at hmoved
          rw [List.map_cons, run_cons_error _ hstep']
          exact ⟨rfl, congrArg some (Except.error.inj hmoved)⟩
      | ok r =>
          rw [hstep'] at hmoved
          cases hmoved
  | case3 s g gs next s₁ hstep ih =>
      have hmoved := step_moved h s g
      rw [hstep] at hmoved
      cases hstep' : step c' (s.moved f) (g.moved f) with
      | error e' =>
          rw [hstep'] at hmoved
          cases hmoved
      | ok r =>
          rw [hstep'] at hmoved
          obtain rfl := Except.ok.inj hmoved
          rw [List.map_cons, run_cons_ok _ hstep']
          simpa only [movedResult, List.map_append] using ih

/-! ## Compiling a list of tokens -/

/-- What a fault says, without the place and the line that it points at. -/
def Fault.complaint : Fault → Fault
  | diagnostic d => .diagnostic { problem := d.problem, hint := d.hint }
  | misread text why => .misread text why

/-- What complaints say depends on neither places nor lines. -/
theorem corresponds_complaint (hstrict : c'.strict = c.strict) :
    Corresponds f Fault.complaint c c' where
  strict := hstrict
  unexpected := by
    rintro expected (_ | t)
    · rfl
    · rfl
  fault _ _ _ := rfl

theorem moved_wholeClass : Goal.wholeClass.map (Goal.moved f) = Goal.wholeClass := rfl

/-- Tokens with the same lexemes are the same once they are all at one place. -/
theorem moved_eq_of_lexemes {tokens tokens' : List Token}
    (h : tokens.map Token.lexeme = tokens'.map Token.lexeme) (l : Location) :
    tokens.map (Token.moved fun _ => l) = tokens'.map (Token.moved fun _ => l) := by
  have hplaced : ∀ ts : List Token, ts.map (Token.moved fun _ => l) =
      (ts.map Token.lexeme).map fun x => ⟨x.kind, x.text, l⟩ := by
    intro ts
    rw [List.map_map]
    rfl
  rw [hplaced, hplaced, h]

/-- Two compilations of the same lexemes reach states that differ only in the places of tokens and
in what is recorded, and they say the same if they fail. -/
theorem compileTokens_moved {o₁ o₂ : Options} (hknown : o₁.knownClasses = o₂.knownClasses)
    (hstrict : o₁.strict = o₂.strict) (file₁ file₂ : String) (lines₁ lines₂ : List String)
    {tokens₁ tokens₂ : List Token} (hsame : tokens₁.map Token.lexeme = tokens₂.map Token.lexeme)
    (l : Location) :
    (compileTokens o₁ file₁ lines₁ tokens₁).state.moved (fun _ => l) =
        (compileTokens o₂ file₂ lines₂ tokens₂).state.moved (fun _ => l) ∧
      (compileTokens o₁ file₁ lines₁ tokens₁).fault.map Fault.complaint =
        (compileTokens o₂ file₂ lines₂ tokens₂).fault.map Fault.complaint := by
  let place : Location → Location := fun _ => l
  -- Both are compared with the compilation of the same tokens, all at `l` and without lines.
  let setting : Setting := { endLocation := l, lines := [], strict := o₁.strict }
  let start : State := { rest := tokens₁.map (Token.moved place), known := o₁.knownClasses }
  have hboth : ∀ (o : Options) (file : String) (lines : List String) (tokens : List Token),
      o.knownClasses = o₁.knownClasses → o.strict = o₁.strict →
      tokens.map (Token.moved place) = tokens₁.map (Token.moved place) →
      (run setting start Goal.wholeClass).state =
          (compileTokens o file lines tokens).state.moved place ∧
        (run setting start Goal.wholeClass).fault.map Fault.complaint =
          (compileTokens o file lines tokens).fault.map Fault.complaint := by
    intro o file lines tokens hk hs hmoved
    let c : Setting := { Token.Setting.ofTokens file lines tokens with strict := o.strict }
    have hcorresponds : Corresponds place Fault.complaint c setting :=
      corresponds_complaint hs.symm
    have hrun := run_moved hcorresponds
      { rest := tokens, known := o.knownClasses, recorded := if o.listTree then some [] else none }
      Goal.wholeClass
    have hstart : State.moved place
        { rest := tokens, known := o.knownClasses,
          recorded := if o.listTree then some [] else none } = start := by
      simp only [State.moved, hk, hmoved, start]
      rfl
    rw [hstart, moved_wholeClass] at hrun
    exact hrun
  obtain ⟨hstate₁, hfault₁⟩ := hboth o₁ file₁ lines₁ tokens₁ rfl rfl rfl
  obtain ⟨hstate₂, hfault₂⟩ := hboth o₂ file₂ lines₂ tokens₂ hknown.symm hstrict.symm
    (moved_eq_of_lexemes hsame l).symm
  exact ⟨hstate₁.symm.trans hstate₂, hfault₁.symm.trans hfault₂⟩

/-- The tokens that are left are the last ones. -/
theorem compileTokens_suffix (o : Options) (file : String) (lines : List String)
    (tokens : List Token) : (compileTokens o file lines tokens).state.rest <:+ tokens :=
  (run_forward _ _ Goal.wholeClass).rest

/-- Layout has no influence. Of two lists of tokens with the same lexemes, both compile, with the
same result, or neither does, and then both compilations have read as many tokens and complain in
the same words. -/
theorem compileTokens_layout (o₁ o₂ : Options) (hknown : o₁.knownClasses = o₂.knownClasses)
    (hstrict : o₁.strict = o₂.strict) (file₁ file₂ : String) (lines₁ lines₂ : List String)
    (tokens₁ tokens₂ : List Token)
    (hsame : tokens₁.map Token.lexeme = tokens₂.map Token.lexeme) :
    let r₁ := compileTokens o₁ file₁ lines₁ tokens₁
    let r₂ := compileTokens o₂ file₂ lines₂ tokens₂
    (r₁.fault = none ∧ r₂.fault = none ∧ r₁.state.code = r₂.state.code ∧
      r₁.state.className = r₂.state.className ∧ r₁.state.subroutines = r₂.state.subroutines ∧
      r₁.state.labels = r₂.state.labels) ∨
    (∃ f₁ f₂, r₁.fault = some f₁ ∧ r₂.fault = some f₂ ∧ f₁.complaint = f₂.complaint ∧
      ∃ consumed₁ consumed₂, tokens₁ = consumed₁ ++ r₁.state.rest ∧
        tokens₂ = consumed₂ ++ r₂.state.rest ∧ consumed₁.length = consumed₂.length) := by
  intro r₁ r₂
  obtain ⟨hstate, hfault⟩ := compileTokens_moved hknown hstrict file₁ file₂ lines₁ lines₂ hsame
    ⟨file₁, 1, 1⟩
  have hrest : (compileTokens o₁ file₁ lines₁ tokens₁).state.rest.length =
      (compileTokens o₂ file₂ lines₂ tokens₂).state.rest.length := by
    have hmoved := congrArg State.rest hstate
    rw [moved_rest, moved_rest] at hmoved
    simpa using congrArg List.length hmoved
  obtain ⟨consumed₁, hconsumed₁⟩ := compileTokens_suffix o₁ file₁ lines₁ tokens₁
  obtain ⟨consumed₂, hconsumed₂⟩ := compileTokens_suffix o₂ file₂ lines₂ tokens₂
  cases hf₁ : r₁.fault with
  | none =>
      have hf₂ : r₂.fault = none := by
        rw [show (compileTokens o₁ file₁ lines₁ tokens₁).fault = none from hf₁] at hfault
        exact Option.map_eq_none_iff.mp hfault.symm
      have hcode := congrArg State.code hstate
      have hname := congrArg State.className hstate
      have hsubroutines := congrArg State.subroutines hstate
      have hlabels := congrArg State.labels hstate
      exact .inl ⟨rfl, hf₂, hcode, hname, hsubroutines, hlabels⟩
  | some f₁ =>
      rw [show (compileTokens o₁ file₁ lines₁ tokens₁).fault = some f₁ from hf₁] at hfault
      obtain ⟨f₂, hf₂, hcomplaint⟩ := Option.map_eq_some_iff.mp hfault.symm
      refine .inr ⟨f₁, f₂, rfl, hf₂, hcomplaint.symm, consumed₁, consumed₂, hconsumed₁.symm,
        hconsumed₂.symm, ?_⟩
      have hlength : tokens₁.length = tokens₂.length := by
        simpa using congrArg List.length hsame
      rw [← hconsumed₁, ← hconsumed₂, List.length_append, List.length_append] at hlength
      omega

/-! ## A complaint at two places -/

/-- The tokens of `unseparated`, all at the start of another file. -/
def unseparatedElsewhere : List Token :=
  unseparated.map (Token.moved fun _ => ⟨"B.jack", 1, 1⟩)

theorem unseparated_elsewhere :
    ∃ f, (compileTokens {} "B.jack" ["class A"] unseparatedElsewhere).fault = some f ∧
      f.complaint = .diagnostic { problem := .unexpectedToken "'y'" "';'" } := by
  obtain ⟨state, hstops, -⟩ := unseparated_stops
  rcases compileTokens_layout {} {} rfl rfl "A.jack" "B.jack" [] ["class A"] unseparated
    unseparatedElsewhere rfl with ⟨hnone, -⟩ | ⟨f₁, f₂, hf₁, hf₂, hcomplaint, -⟩
  · rw [hstops] at hnone
    cases hnone
  · rw [hstops] at hf₁
    obtain rfl := Option.some.inj hf₁
    exact ⟨f₂, hf₂, hcomplaint.symm⟩

end Compile

end Jack
