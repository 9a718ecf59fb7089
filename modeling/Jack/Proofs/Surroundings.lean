import Jack.Compile.Outcome

/-!
# What steps take no notice of

A step looks at the token in view and at no other. Where the tokens end matters only if there is
none in view, and which classes are known only to the goals that ask (`Goal.heedsClasses`). So for
other goals all of this can be changed together (`State.amid`, `Setting.amid`): the step does the
same, in its new surroundings (`step_amid`).
-/

namespace Jack.Compile

variable {c : Setting} {s s' : State} {g : Goal} {next : List Goal} {l : Location} {strict : Bool}
  {x : List Token} {known : List String}

/-- The state with the tokens `x` behind those ahead and with other known classes. -/
def State.amid (s : State) (x : List Token) (known : List String) : State :=
  { s with rest := s.rest ++ x, known := known }

/-- The setting with another place where the tokens end and another strictness. -/
def Setting.amid (c : Setting) (l : Location) (strict : Bool) : Setting :=
  { c with endLocation := l, strict := strict }

/-- What a step yields, in other surroundings. -/
def amidResult (x : List Token) (known : List String) (r : List Goal × State) :
    List Goal × State :=
  (r.1, r.2.amid x known)

theorem amid_self (s : State) : s.amid [] s.known = s := by
  simp only [State.amid, List.append_nil]

/-! ## Looking at the next token -/

theorem expect_amid (h : s.rest = [] → x = [] ∧ l = c.endLocation) (expected : String)
    (select : Token → Option (List Goal)) :
    (c.amid l strict).expect (s.amid x known) expected select =
      (c.expect s expected select).map (amidResult x known) := by
  cases s with
  | mk rest =>
      cases rest with
      | nil =>
          obtain ⟨rfl, rfl⟩ := h rfl
          rfl
      | cons t ts =>
          simp only [Setting.expect, State.amid, List.cons_append]
          cases select t <;> rfl

theorem choose_amid (h : s.rest = [] → x = []) (select : Token → Option (List Goal))
    (otherwise : List Goal) :
    (s.amid x known).choose select otherwise =
      amidResult x known (s.choose select otherwise) := by
  cases s with
  | mk rest =>
      cases rest with
      | nil =>
          obtain rfl := h rfl
          rfl
      | cons t ts =>
          simp only [State.choose, State.amid, List.cons_append]
          cases select t <;> rfl

theorem openElement_amid (h : s.rest = [] → x = [])
    (select : Token → Option (Element × List Goal)) :
    (s.amid x known).openElement select = amidResult x known (s.openElement select) := by
  cases s with
  | mk rest =>
      cases rest with
      | nil =>
          obtain rfl := h rfl
          rfl
      | cons t ts =>
          simp only [State.openElement, State.amid, List.cons_append]
          cases select t <;> rfl

theorem sees_amid (h : s.rest = [] → x = []) (w : String) :
    (s.amid x known).sees w = s.sees w := by
  cases s with
  | mk rest =>
      cases rest with
      | nil =>
          obtain rfl := h rfl
          rfl
      | cons t ts => rfl

/-! ## Resolving names -/

theorem resolve_amid (name : Token) :
    (c.amid l strict).resolve (s.amid x known) name = c.resolve s name := rfl

theorem declare_amid (name : Token) (type : String) (k : Storage) :
    (c.amid l strict).declare (s.amid x known) name type k =
      (c.declare s name type k).map (amidResult x known) := by
  have hscope : (s.amid x known).scope = s.scope := rfl
  simp only [Setting.declare, hscope]
  cases s.scope.define name.text type k <;> rfl

theorem beginSubroutine_amid (kind : SubroutineKind) (name : Token) :
    (c.amid l strict).beginSubroutine (s.amid x known) kind name =
      (c.beginSubroutine s kind name).map (amidResult x known) := by
  have hkind : (s.amid x known).kindOf? name.text = s.kindOf? name.text := rfl
  simp only [Setting.beginSubroutine_eq, hkind]
  cases s.kindOf? name.text <;> rfl

theorem localCall_amid (name : Token) :
    (c.amid l strict).localCall (s.amid x known) name =
      (c.localCall s name).map (amidResult x known) := by
  have hkind : (s.amid x known).subroutineKind = s.subroutineKind := rfl
  simp only [Setting.localCall, hkind]
  split <;> rfl

theorem this_amid (t : Token) :
    (c.amid l strict).this (s.amid x known) t = (c.this s t).map (amidResult x known) := by
  have hscope : (s.amid x known).scope = s.scope := rfl
  have hkind : (s.amid x known).subroutineKind = s.subroutineKind := rfl
  simp only [Setting.this, hscope, hkind]
  cases s.scope.lookup "this" with
  | some d => rfl
  | none =>
    dsimp only
    split <;> rfl

theorem integer_amid (t : Token) :
    (c.amid l strict).integer (s.amid x known) t =
      (c.integer s t).map (amidResult x known) := by
  simp only [Setting.integer]
  cases Text.readInteger t.text with
  | error why => rfl
  | ok v =>
    dsimp only
    split
    · rfl
    · split <;> rfl

/-! ## The step -/

/-- The goal makes a class known or asks whether one is. -/
def Goal.heedsClasses : Goal → Bool
  | nameClass _ | noteClass _ | dispatch _ _ => true
  | _ => false

/-- The goal is taken up without a look at the tokens ahead. -/
def Goal.isBlind : Goal → Bool
  | enter _ | leave _ | emit _ | nameClass _ | noteClass _ | declare _ _ _ | beginSubroutine _ _
  | header | verifyCalls | statements | assign _ | ifBody | whileBody | expression | integer _
  | this _ | load _ | localCall _ | dispatch _ _ => true
  | _ => false

/-- A step does the same in other surroundings, if its goal does not ask for known classes, and if
the tokens are not changed where there is none in view. -/
theorem step_amid (hg : g.heedsClasses = false)
    (h : (s.rest = [] → x = [] ∧ l = c.endLocation) ∨ g.isBlind = true) :
    step (c.amid l strict) (s.amid x known) g = (step c s g).map (amidResult x known) := by
  have hview : g.isBlind = false → s.rest = [] → x = [] ∧ l = c.endLocation := by
    intro hblind
    rcases h with h | h
    · exact h
    · rw [hblind] at h
      cases h
  have htokens : g.isBlind = false → s.rest = [] → x = [] := fun hblind hs => (hview hblind hs).1
  cases g with
  | nameClass | noteClass | dispatch => cases hg
  | word | className | varType | varName | returnType | subroutineName | parameter | letTarget
  | doTarget | termBody | callSign | qualifiedCall => exact expect_amid (hview rfl) _ _
  | classVars | subroutines | localVars | statementList =>
      exact congrArg Except.ok (openElement_amid (htokens rfl) _)
  | moreNames | moreParameters | elsePart | operators | assignTail | moreArguments =>
      exact congrArg Except.ok (choose_amid (htokens rfl) _ _)
  | identifierTail name =>
      have hx := htokens rfl
      simp only [step, sees_amid hx, choose_amid hx]
      rfl
  | parameters | returnValue | firstArgument =>
      simp only [step, sees_amid (htokens rfl)]
      rfl
  | enter | leave | header | statements | expression | ifBody | whileBody => rfl
  | emit i =>
      simp only [step]
      cases i.fault? <;> rfl
  | declare name type k => exact declare_amid name type k
  | beginSubroutine kind name => exact beginSubroutine_amid kind name
  | assign name | load name =>
      simp only [step, resolve_amid]
      cases c.resolve s name <;> rfl
  | integer t => exact integer_amid t
  | this t => exact this_amid t
  | localCall name => exact localCall_amid name
  | endOfInput | term =>
      have hx := hview rfl
      cases s with
      | mk rest =>
          cases rest with
          | nil =>
              obtain ⟨rfl, rfl⟩ := hx rfl
              rfl
          | cons t ts => rfl
  | verifyCalls =>
      have hfault : (c.amid l strict).callFault? (s.amid x known) = c.callFault? s := rfl
      have hcalls : (s.amid x known).localCalls = s.localCalls := rfl
      simp only [step, hfault, hcalls]
      cases s.localCalls.findSome? (c.callFault? s) <;> rfl

/-- Goals that do not ask for known classes leave them as they are. -/
theorem known_of_step (hg : g.heedsClasses = false) (h : step c s g = .ok (next, s')) :
    s'.known = s.known := by
  have hself : step c (s.amid [] s.known) g = (step c s g).map (amidResult [] s.known) :=
    step_amid hg (.inl fun _ => ⟨rfl, rfl⟩)
  rw [amid_self, h] at hself
  exact (congrArg (fun r => r.2.known) (Except.ok.inj hself) :)

end Jack.Compile
