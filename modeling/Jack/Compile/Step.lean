import Jack.Compile.Goal
import Jack.Text.Upper

/-!
# Steps

`step` takes one goal as far as one token allows: it reads the token in view, or becomes other
goals, or acts on the state. A step that fails has done nothing, so the state at a fault is the
state in which the failing goal came up.

Every step makes progress (`step_progress`): it reads a token, or it replaces its goal by goals of
less weight. That is why a compilation ends whatever the tokens are.
-/

namespace Jack.Compile

/-- What a step yields: the goals that take the place of the one at hand, and the new state. -/
abbrev StepResult := Except Fault (List Goal × State)

/-! ## Looking at the next token -/

/-- A complaint about the token in view. -/
def Setting.unexpectedAt (c : Setting) (s : State) (expected : String) : Fault :=
  .diagnostic (c.toSetting.unexpected expected s.peek)

/-- A complaint about a token that has been read. -/
def Setting.fault (c : Setting) (problem : Problem) (t : Token) (hint : Option String) : Fault :=
  .diagnostic (c.complain problem t hint)

/-- Reads a token that `select` accepts; any other is a fault. -/
def Setting.expect (c : Setting) (s : State) (expected : String)
    (select : Token → Option (List Goal)) : StepResult :=
  match s.rest with
  | [] => .error (c.unexpectedAt s expected)
  | t :: ts =>
    match select t with
    | some next => .ok (next, s.read t ts)
    | none => .error (c.unexpectedAt s expected)

/-- Reads a token that `select` accepts, else goes on with `otherwise`. -/
def State.choose (s : State) (select : Token → Option (List Goal)) (otherwise : List Goal) :
    List Goal × State :=
  match s.rest with
  | [] => (otherwise, s)
  | t :: ts =>
    match select t with
    | some next => (next, s.read t ts)
    | none => (otherwise, s)

/-- Opens the element that `select` names and reads its first token; goes on with nothing if the
token opens none. -/
def State.openElement (s : State) (select : Token → Option (Element × List Goal)) :
    List Goal × State :=
  match s.rest with
  | [] => ([], s)
  | t :: ts =>
    match select t with
    | some (e, next) => (next, (s.mark (.opened e.tag)).read t ts)
    | none => ([], s)

/-- Whether the token in view is the word `w`. -/
def State.sees (s : State) (w : String) : Bool :=
  match s.rest with
  | [] => false
  | t :: _ => t.isWord w

/-! ## Resolving names -/

/-- The largest integer constant of the machine. -/
def maxInteger : Int := 32767

/-- The variable that a name stands for. A function has no object, hence no fields. -/
def Setting.resolve (c : Setting) (s : State) (name : Token) : Except Fault Declaration :=
  match s.scope.lookup name.text with
  | none => .error (c.fault (.undeclared name.text) name none)
  | some d =>
    if d.storage = .field ∧ s.subroutineKind = some .function then
      .error (c.fault (.fieldInFunction name.text s.qualifiedName) name
        (some "fields are only accessible from methods and constructors"))
    else .ok d

/-- Declares a variable at the place where its name was read. -/
def Setting.declare (c : Setting) (s : State) (name : Token) (type : String) (k : Storage) :
    StepResult :=
  match s.scope.define name.text type k with
  | .ok (_, scope) => .ok ([], { s with scope := scope })
  | .error p => .error (c.fault p name none)

/-- Enters a subroutine whose name is new in the class. -/
def Setting.beginSubroutine (c : Setting) (s : State) (kind : SubroutineKind) (name : Token) :
    StepResult :=
  match s.kindOf? name.text with
  | some _ => .error (c.fault (.duplicate name.text "class") name none)
  | none =>
    match s.beginSubroutine kind name.text with
    | .ok s' => .ok ([], s')
    | .error p => .error (.diagnostic { problem := p })

theorem Setting.beginSubroutine_eq (c : Setting) (s : State) (kind : SubroutineKind)
    (name : Token) :
    c.beginSubroutine s kind name =
      match s.kindOf? name.text with
      | some _ => .error (c.fault (.duplicate name.text "class") name none)
      | none => .ok ([], s.entered kind name.text) := by
  simp only [beginSubroutine, State.beginSubroutine_eq]

/-- Whether a name may qualify a call although it is no variable: it is known as a class, or looks
like one and looks are enough. -/
def Setting.isClassName (c : Setting) (s : State) (name : String) : Bool :=
  s.known.contains name || (!c.strict && Text.startsUpper name)

/-- The goals of a qualified call. A variable as qualifier is the receiver, and its type is the
class; any other qualifier is the class itself. -/
def Setting.dispatch (c : Setting) (s : State) (qualifier callee : Token) : StepResult :=
  if (s.scope.lookup qualifier.text).isSome then
    match c.resolve s qualifier with
    | .error f => .error f
    | .ok d =>
      if Token.primitiveTypes.contains d.type then
        .error (c.fault (.primitiveReceiver callee.text qualifier.text d.type) qualifier none)
      else .ok (.pushVariable d :: Goal.arguments s!"{d.type}.{callee.text}" 1, s)
  else if c.isClassName s qualifier.text then
    .ok (Goal.arguments s!"{qualifier.text}.{callee.text}" 0, s)
  else
    .error (c.fault (.undeclared qualifier.text) qualifier
      (some "not a variable in scope or a known class"))

/-- The goals of an unqualified call, whose receiver is the current object. -/
def Setting.localCall (c : Setting) (s : State) (name : Token) : StepResult :=
  if s.subroutineKind = some .function then
    .error (c.fault (.receiverMissing name.text s.qualifiedName) name
      (some s!"call functions as {s.qualify name.text}(...)"))
  else
    .ok (.emit (.push .pointer 0) :: Goal.arguments (s.qualify name.text) 1,
      { s with localCalls := s.localCalls ++ [name] })

/-- The goal of the current object: the receiver of a method, or the object that a constructor is
making. -/
def Setting.this (c : Setting) (s : State) (t : Token) : StepResult :=
  match s.scope.lookup "this" with
  | some d => .ok ([.pushVariable d], s)
  | none =>
    if s.subroutineKind = some .constructor then .ok ([.emit (.push .pointer 0)], s)
    else .error (c.fault (.thisInFunction s.qualifiedName) t none)

/-- The goal of an integer constant. -/
def Setting.integer (c : Setting) (s : State) (t : Token) : StepResult :=
  match Text.readInteger t.text with
  | .error why => .error (.misread t.text why)
  | .ok v =>
    if maxInteger < v then
      .error (c.fault (.integerOutOfRange t.text) t
        (some s!"integer constants must be between 0 and {maxInteger}"))
    else if v < 0 then
      .error (.diagnostic { problem := .badCount "segment index" (toString v) })
    else .ok ([.emit (.push .constant v.toNat)], s)

/-- What is wrong with an unqualified call once all subroutines of the class are known: there is no
such subroutine, or it is not a method. -/
def Setting.callFault? (c : Setting) (s : State) (call : Token) : Option Fault :=
  match s.kindOf? call.text with
  | none =>
    some (c.fault (.undeclared call.text) call
      (some s!"class {s.className} has no subroutine '{call.text}'"))
  | some .method => none
  | some kind =>
    some (c.fault (.notAMethod s.className call.text kind.name) call
      (some s!"call it as {s.qualify call.text}(...)"))

/-- The instructions in front of the statements of the current subroutine. -/
def State.header (s : State) : List Goal :=
  .emit (.function s.qualifiedName (s.scope.count .localVar)) ::
    (match s.subroutineKind with
      | some kind => Goal.prologue (s.scope.count .field) kind
      | none => [])

/-! ## The step -/

/-- Takes one goal as far as one token allows. -/
def step (c : Setting) (s : State) : Goal → StepResult
  | .word w => c.expect s s!"'{w}'" (Goal.onWord w [])
  | .enter e => .ok ([], s.mark (.opened e.tag))
  | .leave e => .ok ([], s.mark (.closed e.tag))
  | .emit i =>
    match i.fault? with
    | some p => .error (.diagnostic { problem := p })
    | none => .ok ([], s.emit i)
  | .className => c.expect s "class name" (Goal.onName fun t => [.nameClass t.text])
  | .nameClass name => .ok ([], { s.know name with className := name })
  | .noteClass name => .ok ([], s.know name)
  | .classVars => .ok (s.openElement Goal.onClassVar)
  | .varType k => c.expect s "type" (Goal.onType Token.primitiveTypes (Goal.names k))
  | .varName what k type => c.expect s what (Goal.onName fun t => [.declare t type k])
  | .moreNames k type => .ok (s.choose (Goal.onWord "," (Goal.names k type)) [])
  | .declare name type k => c.declare s name type k
  | .subroutines => .ok (s.openElement Goal.onSubroutine)
  | .returnType =>
    c.expect s "return type" (Goal.onType (Token.primitiveTypes ++ ["void"]) fun _ => [])
  | .subroutineName kind =>
    c.expect s "subroutine name" (Goal.onName fun t => [.beginSubroutine kind t])
  | .beginSubroutine kind name => c.beginSubroutine s kind name
  | .parameters => .ok (if s.sees ")" then [] else [.parameter, .moreParameters], s)
  | .parameter =>
    c.expect s "type"
      (Goal.onType Token.primitiveTypes fun type => [.varName "parameter name" .argument type])
  | .moreParameters =>
    .ok (s.choose (Goal.onWord "," [.parameter, .moreParameters]) [])
  | .localVars => .ok (s.openElement Goal.onLocalVar)
  | .header => .ok (s.header, s)
  | .endOfInput =>
    match s.rest with
    | [] => .ok ([], s)
    | _ :: _ => .error (c.unexpectedAt s "end of input after class")
  | .verifyCalls =>
    match s.localCalls.findSome? (c.callFault? s) with
    | some f => .error f
    | none => .ok ([], s)
  | .statements => .ok ([.enter .statements, .statementList, .leave .statements], s)
  | .statementList => .ok (s.openElement Goal.onStatement)
  | .letTarget => c.expect s "variable name" (Goal.onName fun t => [.assign t])
  | .assign name =>
    match c.resolve s name with
    | .error f => .error f
    | .ok d => .ok ([.assignTail d], s)
  | .assignTail d =>
    .ok (s.choose (Goal.onWord "[" (Goal.assignElement d)) (Goal.assignVariable d))
  | .ifBody =>
    let (elseLabel, s) := s.drawLabel
    let (endLabel, s) := s.drawLabel
    .ok (Goal.conditional elseLabel endLabel, s)
  | .elsePart => .ok (s.choose (Goal.onWord "else" Goal.block) [])
  | .whileBody =>
    let (startLabel, s) := s.drawLabel
    let (endLabel, s) := s.drawLabel
    .ok (Goal.loop startLabel endLabel, s)
  | .doTarget => c.expect s "subroutine name" (Goal.onName fun t => [.callSign t])
  | .returnValue => .ok (if s.sees ";" then [] else [.expression], s)
  | .expression =>
    .ok ([.enter .expression, .term, .operators, .leave .expression], s)
  | .term =>
    match s.rest with
    | [] => .error (c.unexpectedAt s "a term")
    | _ :: _ => .ok ([.enter .term, .termBody, .leave .term], s)
  | .termBody => c.expect s "a term" Goal.onTerm
  | .operators => .ok (s.choose Goal.onOperator [])
  | .integer t => c.integer s t
  | .this t => c.this s t
  | .identifierTail name =>
    .ok (s.choose (Goal.onWord "[" (Goal.elementRest name))
      (if s.sees "(" || s.sees "." then [.callSign name] else [.load name]))
  | .load name =>
    match c.resolve s name with
    | .error f => .error f
    | .ok d => .ok ([.pushVariable d], s)
  | .callSign name => c.expect s "one of '(', '.'" (Goal.onCallSign name)
  | .localCall name => c.localCall s name
  | .qualifiedCall qualifier =>
    c.expect s "subroutine name"
      (Goal.onName fun callee => [.word "(", .dispatch qualifier callee])
  | .dispatch qualifier callee => c.dispatch s qualifier callee
  | .firstArgument target count =>
    .ok (if s.sees ")" then Goal.callEnd target count
      else [.expression, .moreArguments target (count + 1)], s)
  | .moreArguments target count =>
    .ok (s.choose (Goal.onWord "," [.expression, .moreArguments target (count + 1)])
      (Goal.callEnd target count))

/-! ## Progress -/

/-- A token has been read, or the goals have become lighter while the tokens stayed. -/
def Progress (s : State) (g : Goal) (r : List Goal × State) : Prop :=
  r.2.rest.length < s.rest.length ∨ (r.2.rest = s.rest ∧ agendaWeight r.1 < g.weight)

@[simp] theorem rest_mark (s : State) (m : Mark) : (s.mark m).rest = s.rest := rfl

@[simp] theorem rest_read (s : State) (t : Token) (ts : List Token) : (s.read t ts).rest = ts := rfl

@[simp] theorem rest_emit (s : State) (i : Instruction) : (s.emit i).rest = s.rest := rfl

theorem agendaWeight_append (gs hs : List Goal) :
    agendaWeight (gs ++ hs) = agendaWeight gs + agendaWeight hs := by
  induction gs with
  | nil => simp [agendaWeight]
  | cons g gs ih => simp only [List.cons_append, agendaWeight, ih, Nat.add_assoc]

theorem expect_lt {c : Setting} {s : State} {expected : String}
    {select : Token → Option (List Goal)} {r : List Goal × State}
    (h : c.expect s expected select = .ok r) : r.2.rest.length < s.rest.length := by
  unfold Setting.expect at h
  split at h
  · cases h
  · next t ts hs =>
    split at h
    · cases h
      simp [hs]
    · cases h

theorem choose_progress {s : State} {g : Goal} {select : Token → Option (List Goal)}
    {otherwise : List Goal} (h : agendaWeight otherwise < g.weight) :
    Progress s g (s.choose select otherwise) := by
  unfold State.choose
  split
  · exact .inr ⟨rfl, h⟩
  · next t ts hs =>
    split
    · exact .inl (by simp [hs])
    · exact .inr ⟨rfl, h⟩

theorem openElement_progress {s : State} {g : Goal} {select : Token → Option (Element × List Goal)}
    (h : 0 < g.weight) : Progress s g (s.openElement select) := by
  unfold State.openElement
  split
  · exact .inr ⟨rfl, h⟩
  · next t ts hs =>
    split
    · exact .inl (by simp [hs])
    · exact .inr ⟨rfl, h⟩

/-- Nothing has been read, and the goals have become lighter. -/
theorem Progress.lighter {s s' : State} {g : Goal} {next : List Goal} (hr : s'.rest = s.rest)
    (hw : agendaWeight next < g.weight) : Progress s g (next, s') :=
  .inr ⟨hr, hw⟩

theorem header_weight_lt (s : State) : agendaWeight s.header < 5 := by
  unfold State.header
  cases s.subroutineKind with
  | none => exact of_decide_eq_true rfl
  | some kind => cases kind <;> exact of_decide_eq_true rfl

theorem dispatch_progress {c : Setting} {s : State} {q t : Token} {r : List Goal × State}
    (h : c.dispatch s q t = .ok r) : Progress s (.dispatch q t) r := by
  unfold Setting.dispatch at h
  split at h
  · split at h
    · cases h
    · split at h
      · cases h
      · cases h
        exact .lighter rfl (of_decide_eq_true rfl)
  · split at h
    · cases h
      exact .lighter rfl (of_decide_eq_true rfl)
    · cases h

/-- Every step reads a token or makes the goals lighter. -/
theorem step_progress {c : Setting} {s : State} {g : Goal} {r : List Goal × State}
    (h : step c s g = .ok r) : Progress s g r := by
  cases g with
  | word | className | varType | varName | returnType | subroutineName | parameter | letTarget
  | doTarget | termBody | callSign | qualifiedCall => exact .inl (expect_lt h)
  | classVars | subroutines | localVars | statementList =>
    cases h
    exact openElement_progress (of_decide_eq_true rfl)
  | moreNames | moreParameters | elsePart | operators | assignTail | moreArguments =>
    cases h
    exact choose_progress (of_decide_eq_true rfl)
  | identifierTail =>
    cases h
    exact choose_progress (by split <;> exact of_decide_eq_true rfl)
  | enter | leave | nameClass | noteClass | statements | ifBody | whileBody | expression =>
    cases h
    exact .lighter rfl (of_decide_eq_true rfl)
  | header =>
    cases h
    exact .lighter rfl (header_weight_lt s)
  | parameters | returnValue | firstArgument =>
    cases h
    exact .lighter rfl (by split <;> exact of_decide_eq_true rfl)
  | emit i =>
    simp only [step] at h
    split at h
    · cases h
    · cases h
      exact .lighter rfl (of_decide_eq_true rfl)
  | declare name type k =>
    simp only [step, Setting.declare] at h
    split at h
    · cases h
      exact .lighter rfl (of_decide_eq_true rfl)
    · cases h
  | beginSubroutine kind name =>
    simp only [step, Setting.beginSubroutine_eq] at h
    split at h
    · cases h
    · cases h
      exact .lighter rfl (of_decide_eq_true rfl)
  | endOfInput =>
    simp only [step] at h
    split at h
    · cases h
      exact .lighter rfl (of_decide_eq_true rfl)
    · cases h
  | verifyCalls =>
    simp only [step] at h
    split at h
    · cases h
    · cases h
      exact .lighter rfl (of_decide_eq_true rfl)
  | assign name =>
    simp only [step] at h
    split at h
    · cases h
    · cases h
      exact .lighter rfl (of_decide_eq_true rfl)
  | load name =>
    simp only [step] at h
    split at h
    · cases h
    · cases h
      exact .lighter rfl (of_decide_eq_true rfl)
  | term =>
    simp only [step] at h
    split at h
    · cases h
    · cases h
      exact .lighter rfl (of_decide_eq_true rfl)
  | integer t =>
    simp only [step, Setting.integer] at h
    split at h
    · cases h
    · split at h
      · cases h
      · split at h
        · cases h
        · cases h
          exact .lighter rfl (of_decide_eq_true rfl)
  | this t =>
    simp only [step, Setting.this] at h
    split at h
    · cases h
      exact .lighter rfl (of_decide_eq_true rfl)
    · split at h
      · cases h
        exact .lighter rfl (of_decide_eq_true rfl)
      · cases h
  | localCall name =>
    simp only [step, Setting.localCall] at h
    split at h
    · cases h
    · cases h
      exact .lighter rfl (of_decide_eq_true rfl)
  | dispatch q t => exact dispatch_progress h

end Jack.Compile
