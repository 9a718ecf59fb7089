import Jack.Proofs.Located
import Mathlib.Tactic.SplitIfs

/-!
# What complaints are about

A complaint of a compilation is about one token: it names it, points at its place and shows the line
of that place (`Diagnostic.Concerns`). Or it is about the end of the input, where there is no token
and no line to show. Only instructions that no source asks for are refused without saying where, and
integer tokens that are not read as numbers.

The token is one of those that were given. A goal may hold on to tokens that have been read, and the
unqualified calls are kept for the end; what is said of all given tokens stays true of all of these
(`step_about`), so it is true of the token that a run complains about (`run_about`). Nothing is
assumed of the tokens there. If they come from a source, every complaint is about one of them or
about their end (`compileSource_about`).
-/

namespace Jack

/-- The problem speaks of the token, by its text. -/
def Problem.Names (t : Token) : Problem → Prop
  | unexpectedToken found _ => found = s!"'{t.text}'"
  | undeclared name | duplicate name _ | integerOutOfRange name | fieldInFunction name _
  | receiverMissing name _ | primitiveReceiver _ name _ | notAMethod _ name _ => name = t.text
  | thisInFunction _ => t.text = "this"
  | other _ _ | unterminatedComment | unterminatedString | unknownSegment _ | popIntoConstant
  | badCount _ _ | unknownCommand _ | badName _ _ => False

/-- The complaint names the token, points at it and shows the line of its place. -/
structure Diagnostic.Concerns (d : Diagnostic) (c : Token.Setting) (t : Token) : Prop where
  names : d.problem.Names t
  location : d.location = some t.location
  sourceLine : d.sourceLine = c.sourceLine t.location.line

namespace Compile

/-- A complaint about a token with a property, or about the end of the input, or about an
instruction, which does not say where; or an integer with the property is not read. -/
def Fault.About (c : Setting) (P : Token → Prop) : Fault → Prop
  | diagnostic d =>
    (∃ t, P t ∧ d.Concerns c.toSetting t) ∨
      (∃ expected, d = c.toSetting.unexpected expected none) ∨
      ∃ p : Problem, p.category = .emission ∧ d = { problem := p }
  | misread text _ => ∃ t, P t ∧ t.kind = .integer ∧ t.text = text

/-- The tokens that a goal holds on to have a property. -/
def Goal.Holds (P : Token → Prop) : Goal → Prop
  | declare t _ _ | beginSubroutine _ t | assign t | identifierTail t | load t | callSign t
  | localCall t | qualifiedCall t => P t
  | dispatch q t => P q ∧ P t
  | integer t => P t ∧ t.kind = .integer
  | this t => P t ∧ t.text = "this"
  | _ => True

def AllHold (P : Token → Prop) (gs : List Goal) : Prop := ∀ g ∈ gs, g.Holds P

/-- The tokens ahead and the calls that are kept have a property. -/
structure State.Holds (P : Token → Prop) (s : State) : Prop where
  rest : ∀ t ∈ s.rest, P t
  calls : ∀ t ∈ s.localCalls, P t

/-- The result of a step: the tokens that are held on to still have the property, or the complaint
is about one that has it. -/
def Retains (c : Setting) (P : Token → Prop) : StepResult → Prop
  | .ok (next, s') => AllHold P next ∧ s'.Holds P
  | .error f => f.About c P

variable {P : Token → Prop} {c : Setting} {s : State} {t : Token} {gs hs : List Goal}

@[simp] theorem allHold_nil : AllHold P [] := fun _ hg => (List.not_mem_nil hg).elim

@[simp] theorem allHold_cons {g : Goal} : AllHold P (g :: gs) ↔ g.Holds P ∧ AllHold P gs :=
  List.forall_mem_cons

@[simp] theorem allHold_append : AllHold P (gs ++ hs) ↔ AllHold P gs ∧ AllHold P hs :=
  List.forall_mem_append

/-! ## Complaints -/

theorem about_fault {p : Problem} {hint : Option String} (hp : p.Names t) (ht : P t) :
    (c.fault p t hint).About c P :=
  .inl ⟨t, ht, hp, rfl, rfl⟩

theorem State.Holds.about_unexpected (hs : s.Holds P) (expected : String) :
    (c.unexpectedAt s expected).About c P := by
  unfold Setting.unexpectedAt State.peek
  cases hrest : s.rest with
  | nil => exact .inr (.inl ⟨expected, rfl⟩)
  | cons t ts => exact .inl ⟨t, hs.rest t (hrest ▸ List.mem_cons_self ..), rfl, rfl, rfl⟩

/-! ## Looking at a token -/

/-- What is selected by a token with the property holds on to no other tokens. -/
def Supplies (P : Token → Prop) (select : Token → Option (List Goal)) : Prop :=
  ∀ t next, P t → select t = some next → AllHold P next

theorem State.Holds.read (hs : s.Holds P) {ts : List Token} (hrest : s.rest = t :: ts) :
    P t ∧ (s.read t ts).Holds P := by
  have hall := List.forall_mem_cons.mp (hrest ▸ hs.rest)
  exact ⟨hall.1, hall.2, hs.calls⟩

theorem retains_expect (hs : s.Holds P) {expected : String} {select : Token → Option (List Goal)}
    (h : Supplies P select) : Retains c P (c.expect s expected select) := by
  unfold Setting.expect
  split
  · exact hs.about_unexpected expected
  · next t ts hrest =>
      obtain ⟨ht, hread⟩ := hs.read hrest
      split
      · next next hselect => exact ⟨h t next ht hselect, hread⟩
      · exact hs.about_unexpected expected

theorem retains_choose (hs : s.Holds P) {select : Token → Option (List Goal)}
    {otherwise : List Goal} (h : Supplies P select) (hotherwise : AllHold P otherwise) :
    Retains c P (.ok (s.choose select otherwise)) := by
  unfold State.choose
  split
  · exact ⟨hotherwise, hs⟩
  · next t ts hrest =>
      obtain ⟨ht, hread⟩ := hs.read hrest
      split
      · next next hselect => exact ⟨h t next ht hselect, hread⟩
      · exact ⟨hotherwise, hs⟩

theorem retains_openElement (hs : s.Holds P) {select : Token → Option (Element × List Goal)}
    (h : ∀ t e next, select t = some (e, next) → AllHold P next) :
    Retains c P (.ok (s.openElement select)) := by
  unfold State.openElement
  split
  · exact ⟨allHold_nil, hs⟩
  · next t ts hrest =>
      obtain ⟨-, hread⟩ := hs.read hrest
      split
      · next e next hselect => exact ⟨h t e next hselect, hread.rest, hread.calls⟩
      · exact ⟨allHold_nil, hs⟩

theorem supplies_onWord (w : String) (h : AllHold P gs) : Supplies P (Goal.onWord w gs) := by
  intro t next _ hselect
  unfold Goal.onWord at hselect
  split_ifs at hselect
  cases hselect
  exact h

theorem supplies_onName {f : Token → List Goal} (h : ∀ t, P t → AllHold P (f t)) :
    Supplies P (Goal.onName f) := by
  intro t next ht hselect
  unfold Goal.onName at hselect
  split_ifs at hselect
  cases hselect
  exact h t ht

theorem supplies_onType (ws : List String) {f : String → List Goal} (h : ∀ x, AllHold P (f x)) :
    Supplies P (Goal.onType ws f) := by
  intro t next _ hselect
  unfold Goal.onType at hselect
  split_ifs at hselect <;> cases hselect
  · exact h t.text
  · exact allHold_cons.mpr ⟨trivial, h t.text⟩

theorem supplies_onTerm : Supplies P Goal.onTerm := by
  intro t next ht hselect
  unfold Goal.onTerm at hselect
  split at hselect
  · next hkind =>
      cases hselect
      exact allHold_cons.mpr ⟨⟨ht, hkind⟩, allHold_nil⟩
  · cases hselect
    intro g hg
    simp only [Goal.stringLiteral, List.mem_cons, List.mem_flatMap] at hg
    rcases hg with rfl | rfl | ⟨x, -, rfl | rfl | hg⟩
    iterate 4 exact trivial
    cases hg
  · cases hselect
    exact allHold_cons.mpr ⟨ht, allHold_nil⟩
  · split_ifs at hselect with _ _ hthis <;> cases hselect
    · simp [Goal.Holds]
    · simp [Goal.Holds]
    · exact allHold_cons.mpr ⟨⟨ht, hthis⟩, allHold_nil⟩
  · split_ifs at hselect <;> cases hselect <;> simp [Goal.Holds]

theorem supplies_onOperator : Supplies P Goal.onOperator := by
  intro t next _ hselect
  obtain ⟨e, -, rfl⟩ := Option.map_eq_some_iff.mp hselect
  simp [Goal.Holds]

theorem supplies_onCallSign {name : Token} (h : P name) : Supplies P (Goal.onCallSign name) := by
  intro t next _ hselect
  unfold Goal.onCallSign at hselect
  split_ifs at hselect <;> cases hselect
  · exact allHold_cons.mpr ⟨h, allHold_nil⟩
  · exact allHold_cons.mpr ⟨h, allHold_nil⟩

theorem allHold_onClassVar (t : Token) (e : Element) (next : List Goal)
    (h : Goal.onClassVar t = some (e, next)) : AllHold P next := by
  simp only [Goal.onClassVar] at h
  split_ifs at h <;> cases h <;> simp [Goal.Holds]

theorem allHold_onSubroutine (t : Token) (e : Element) (next : List Goal)
    (h : Goal.onSubroutine t = some (e, next)) : AllHold P next := by
  obtain ⟨kind, -, hnext⟩ := Option.map_eq_some_iff.mp h
  cases hnext
  simp [Goal.subroutineRest, Goal.Holds]

theorem allHold_onLocalVar (t : Token) (e : Element) (next : List Goal)
    (h : Goal.onLocalVar t = some (e, next)) : AllHold P next := by
  unfold Goal.onLocalVar at h
  split_ifs at h
  cases h
  simp [Goal.Holds]

theorem allHold_onStatement (t : Token) (e : Element) (next : List Goal)
    (h : Goal.onStatement t = some (e, next)) : AllHold P next := by
  unfold Goal.onStatement at h
  split_ifs at h <;> cases h <;> simp [Goal.Holds]

/-! ## Resolving names -/

theorem about_resolve (ht : P t) {f : Fault} (h : c.resolve s t = .error f) : f.About c P := by
  unfold Setting.resolve at h
  split at h
  · cases h
    exact about_fault rfl ht
  · split_ifs at h
    cases h
    exact about_fault rfl ht

theorem retains_declare (hs : s.Holds P) (ht : P t) (type : String) (k : Storage) :
    Retains c P (c.declare s t type k) := by
  unfold Setting.declare Scope.define
  by_cases htaken : ((s.scope.layer k).any fun d => d.name == t.text) = true
  · simp only [if_pos htaken]
    exact about_fault rfl ht
  · simp only [if_neg htaken]
    exact ⟨allHold_nil, hs.rest, hs.calls⟩

theorem retains_beginSubroutine (hs : s.Holds P) (kind : SubroutineKind) (ht : P t) :
    Retains c P (c.beginSubroutine s kind t) := by
  rw [Setting.beginSubroutine_eq]
  split
  · exact about_fault rfl ht
  · exact ⟨allHold_nil, hs.rest, hs.calls⟩

theorem retains_dispatch (hs : s.Holds P) (ht : P t) (callee : Token) :
    Retains c P (c.dispatch s t callee) := by
  unfold Setting.dispatch
  split
  · split
    · next f hf => exact about_resolve ht hf
    · split
      · exact about_fault rfl ht
      · exact ⟨by simp [Goal.arguments, Goal.pushVariable, Goal.Holds], hs⟩
  · split
    · exact ⟨by simp [Goal.arguments, Goal.Holds], hs⟩
    · exact about_fault rfl ht

theorem retains_localCall (hs : s.Holds P) (ht : P t) : Retains c P (c.localCall s t) := by
  unfold Setting.localCall
  split
  · exact about_fault rfl ht
  · have hcalls : ∀ u ∈ s.localCalls ++ [t], P u :=
      List.forall_mem_append.mpr ⟨hs.calls, fun u hu => List.mem_singleton.mp hu ▸ ht⟩
    exact ⟨by simp [Goal.arguments, Goal.Holds], hs.rest, hcalls⟩

theorem retains_this (hs : s.Holds P) (ht : P t) (htext : t.text = "this") :
    Retains c P (c.this s t) := by
  unfold Setting.this
  split
  · exact ⟨by simp [Goal.pushVariable, Goal.Holds], hs⟩
  · split
    · exact ⟨by simp [Goal.Holds], hs⟩
    · exact about_fault htext ht

theorem retains_integer (hs : s.Holds P) (ht : P t) (hkind : t.kind = .integer) :
    Retains c P (c.integer s t) := by
  unfold Setting.integer
  split
  · exact ⟨t, ht, hkind, rfl⟩
  · split
    · exact about_fault rfl ht
    · split
      · exact .inr (.inr ⟨_, rfl, rfl⟩)
      · exact ⟨by simp [Goal.Holds], hs⟩

theorem about_callFault? (ht : P t) {f : Fault} (h : c.callFault? s t = some f) :
    f.About c P := by
  unfold Setting.callFault? at h
  split at h
  · cases h
    exact about_fault rfl ht
  · cases h
  · cases h
    exact about_fault rfl ht

/-! ## Every step -/

theorem allHold_header (s : State) : AllHold P s.header := by
  refine allHold_cons.mpr ⟨trivial, ?_⟩
  cases s.subroutineKind with
  | none => exact allHold_nil
  | some kind => cases kind <;> simp [Goal.prologue, Goal.Holds]

/-- A step retains what is true of the given tokens, or complains about one of them, about the end
of the input, or about an instruction. -/
theorem step_about (hs : s.Holds P) {g : Goal} (hg : g.Holds P) : Retains c P (step c s g) := by
  cases g with
  | word w => exact retains_expect hs (supplies_onWord w allHold_nil)
  | className | varName | subroutineName | letTarget | doTarget =>
      exact retains_expect hs (supplies_onName fun t ht => by simp [Goal.Holds, ht])
  | qualifiedCall q =>
      have hq : P q := hg
      exact retains_expect hs (supplies_onName fun t ht => by simp [Goal.Holds, hq, ht])
  | varType k =>
      exact retains_expect hs (supplies_onType _ fun x => by simp [Goal.names, Goal.Holds])
  | returnType | parameter =>
      exact retains_expect hs (supplies_onType _ fun x => by simp [Goal.Holds])
  | termBody => exact retains_expect hs supplies_onTerm
  | callSign name => exact retains_expect hs (supplies_onCallSign hg)
  | classVars => exact retains_openElement hs allHold_onClassVar
  | subroutines => exact retains_openElement hs allHold_onSubroutine
  | localVars => exact retains_openElement hs allHold_onLocalVar
  | statementList => exact retains_openElement hs allHold_onStatement
  | moreNames | moreParameters =>
      exact retains_choose hs (supplies_onWord _ (by simp [Goal.names, Goal.Holds])) allHold_nil
  | elsePart =>
      exact retains_choose hs (supplies_onWord _ (by simp [Goal.block, Goal.Holds])) allHold_nil
  | operators => exact retains_choose hs supplies_onOperator allHold_nil
  | assignTail d =>
      refine retains_choose hs (supplies_onWord _ ?_) ?_
      · simp [Goal.assignElement, Goal.pushVariable, Goal.Holds]
      · simp [Goal.assignVariable, Goal.popVariable, Goal.Holds]
  | moreArguments =>
      refine retains_choose hs (supplies_onWord _ ?_) ?_ <;> simp [Goal.callEnd, Goal.Holds]
  | identifierTail name =>
      have hname : P name := hg
      refine retains_choose hs (supplies_onWord _ ?_) ?_
      · simp [Goal.elementRest, Goal.Holds, hname]
      · split <;> simp [Goal.Holds, hname]
  | enter | leave | nameClass | noteClass => exact ⟨allHold_nil, hs.rest, hs.calls⟩
  | statements | expression => exact ⟨by simp [Goal.Holds], hs⟩
  | header => exact ⟨allHold_header s, hs⟩
  | ifBody =>
      exact ⟨by simp [Goal.conditional, Goal.block, Goal.Holds], hs.rest, hs.calls⟩
  | whileBody => exact ⟨by simp [Goal.loop, Goal.block, Goal.Holds], hs.rest, hs.calls⟩
  | parameters | returnValue | firstArgument =>
      refine ⟨?_, hs⟩
      split <;> simp [Goal.callEnd, Goal.Holds]
  | emit i =>
      simp only [step]
      split
      · next p hp => exact .inr (.inr ⟨p, Syntax.category_fault? hp, rfl⟩)
      · exact ⟨allHold_nil, hs.rest, hs.calls⟩
  | endOfInput =>
      simp only [step]
      split
      · exact ⟨allHold_nil, hs⟩
      · exact hs.about_unexpected _
  | term =>
      simp only [step]
      split
      · exact hs.about_unexpected _
      · exact ⟨by simp [Goal.Holds], hs⟩
  | verifyCalls =>
      simp only [step]
      split
      · next f hf =>
          obtain ⟨t, ht, hfault⟩ := List.exists_of_findSome?_eq_some hf
          exact about_callFault? (hs.calls t ht) hfault
      · exact ⟨allHold_nil, hs⟩
  | assign name | load name =>
      simp only [step]
      split
      · next f hf => exact about_resolve hg hf
      · exact ⟨by simp [Goal.pushVariable, Goal.Holds], hs⟩
  | declare name type k => exact retains_declare hs hg type k
  | beginSubroutine kind name => exact retains_beginSubroutine hs kind hg
  | dispatch q callee => exact retains_dispatch hs hg.1 callee
  | localCall name => exact retains_localCall hs hg
  | this t => exact retains_this hs hg.1 hg.2
  | integer t => exact retains_integer hs hg.1 hg.2

/-! ## Whole runs -/

theorem run_about (hs : s.Holds P) (hgs : AllHold P gs) {f : Fault}
    (h : (run c s gs).fault = some f) : f.About c P := by
  fun_induction run c s gs with
  | case1 s => cases h
  | case2 s g gs f' hstep =>
      have hretains := step_about (c := c) hs (allHold_cons.mp hgs).1
      rw [hstep] at hretains
      obtain rfl := Option.some.inj h
      exact hretains
  | case3 s g gs next s' hstep ih =>
      obtain ⟨hg, hrest⟩ := allHold_cons.mp hgs
      have hretains := step_about (c := c) hs hg
      rw [hstep] at hretains
      exact ih hretains.2 (allHold_append.mpr ⟨hretains.1, hrest⟩) h

/-- A compilation complains about one of its tokens, about their end, or about an instruction. -/
theorem compileTokens_about {o : Options} {file : String} {lines : List String}
    {tokens : List Token} {f : Fault}
    (h : (compileTokens o file lines tokens).fault = some f) :
    f.About { Token.Setting.ofTokens file lines tokens with strict := o.strict } (· ∈ tokens) :=
  run_about ⟨fun _ ht => ht, fun t ht => (List.not_mem_nil ht).elim⟩
    (by simp [Goal.wholeClass, Goal.Holds]) h

end Compile

/-- If a source can be cut into tokens, compiling it fails as compiling its tokens does. -/
theorem compileSource_eq_error_iff {o : Compile.Options} {source file : String}
    {f : Compile.Fault} (hscan : (Token.scan source file).fault = none) :
    (compileSource o source file).result = .error f ↔
      (Compile.compileTokens { o with knownClasses := o.allKnown } file (Text.linesOf source)
        (Token.scan source file).tokens).fault = some f := by
  unfold compileSource
  simp only [hscan]
  split
  · next f' hf => simp [hf]
  · next hf => simp [hf]

theorem compileSource_file {o : Compile.Options} {source file : String} {r : Compiled}
    (h : (compileSource o source file).result = .ok r) : r.file = file := by
  unfold compileSource at h
  dsimp only at h
  split at h
  · cases h
  · split at h
    · cases h
    · cases h
      rfl

/-- A source that can be cut into tokens is complained about for one of them or for their end. -/
theorem compileSource_about {o : Compile.Options} {source file : String} {d : Diagnostic}
    (hscan : (Token.scan source file).fault = none)
    (herror : (compileSource o source file).result = .error (.diagnostic d)) :
    let tokens := (Token.scan source file).tokens
    let c := Token.Setting.ofTokens file (Text.linesOf source) tokens
    (∃ t ∈ tokens, d.Concerns c t) ∨ ∃ expected, d = c.unexpected expected none := by
  have hfault := (compileSource_eq_error_iff hscan).mp herror
  have hgenuine := Compile.compileTokens_genuine _ _ (Token.scan_genuine source file) hfault
  rcases Compile.compileTokens_about hfault with habout | hend | ⟨p, -, rfl⟩
  · exact .inl habout
  · exact .inr hend
  · obtain ⟨-, l, hl, -⟩ := hgenuine
    cases hl

/-- Compiling a source succeeds, or it ends with a complaint about the grammar or the meaning of
the source, at a line and a column of the given file. The one exception is an integer of the source
with more digits than are read. -/
theorem compileSource_located (o : Compile.Options) (source file : String) :
    (∃ compiled, (compileSource o source file).result = .ok compiled ∧ compiled.file = file) ∨
      (∃ d l, (compileSource o source file).result = .error (.diagnostic d) ∧
        (d.problem.category = .grammar ∨ d.problem.category = .meaning) ∧
        d.location = some l ∧ l.file = file ∧ 1 ≤ l.line ∧ 1 ≤ l.column) ∨
      ∃ t ∈ (Token.scan source file).tokens, t.kind = .integer ∧
        Text.maxDigits < t.text.length ∧
        (compileSource o source file).result =
          .error (.misread t.text (.tooLong t.text.length)) := by
  have hplaced : ∀ d : Diagnostic, d.Located file →
      (compileSource o source file).result = .error (.diagnostic d) →
      ∃ d l, (compileSource o source file).result = .error (.diagnostic d) ∧
        (d.problem.category = .grammar ∨ d.problem.category = .meaning) ∧
        d.location = some l ∧ l.file = file ∧ 1 ≤ l.line ∧ 1 ≤ l.column := by
    rintro d ⟨hcategory, l, hl, hplace⟩ hresult
    exact ⟨d, l, hresult, hcategory, hl, hplace.file, hplace.line, hplace.column⟩
  cases hscan : (Token.scan source file).fault with
  | some d =>
      refine .inr (.inl (hplaced d (Token.scan_located hscan) ?_))
      simp only [compileSource, hscan]
  | none =>
      cases hresult : (compileSource o source file).result with
      | ok compiled => exact .inl ⟨compiled, rfl, compileSource_file hresult⟩
      | error f =>
          have hfault := (compileSource_eq_error_iff hscan).mp hresult
          have hgenuine :=
            Compile.compileTokens_genuine _ _ (Token.scan_genuine source file) hfault
          rw [← hresult]
          cases f with
          | diagnostic d => exact .inr (.inl (hplaced d hgenuine hresult))
          | misread text why =>
              obtain ⟨hlong, rfl⟩ := hgenuine
              obtain ⟨t, ht, hkind, rfl⟩ := Compile.compileTokens_about hfault
              exact .inr (.inr ⟨t, ht, hkind, hlong, hresult⟩)

end Jack
