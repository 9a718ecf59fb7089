import Jack.Proofs.Declarations
import Jack.Proofs.Lockstep

/-!
# Compilations divided by subroutines

A compilation that succeeds falls into parts, one for each subroutine (`Division`), and its code is
the code of the parts, one after the other (`Division.code`). No part changes the name or the
variables of the class (`Compiles.within`), so all of them start from the same class.

Facts of this kind hold of a run because goals of some kind lead only to goals of the same kind,
each step keeping what the run is to keep (`run_stays`).
-/

namespace Jack.Compile

variable {c : Setting} {s s' f : State} {r : List Goal × State} {P : Goal → Bool}
  {R : State → State → Prop}

/-! ## Goals that lead only to their kind -/

/-- The step leads to goals in `P` only, and to a state in the relation `R`. -/
def Stays (P : Goal → Bool) (R : State → State → Prop) (s : State) (r : List Goal × State) : Prop :=
  r.1.all P = true ∧ R s r.2

/-- If every step stays, so does every run. -/
theorem run_stays (hrefl : ∀ s, R s s) (htrans : ∀ {s s' s''}, R s s' → R s' s'' → R s s'')
    (hstep : ∀ {s g r}, P g = true → step c s g = .ok r → Stays P R s r) {gs : List Goal}
    (hgs : gs.all P = true) (h : run c s gs = ⟨f, none⟩) : R s f := by
  fun_induction run c s gs with
  | case1 s =>
      cases h
      exact hrefl _
  | case2 s g gs e herror => cases h
  | case3 s g gs next s' hok ih =>
      rw [List.all_cons, Bool.and_eq_true] at hgs
      obtain ⟨hnext, hs'⟩ := hstep hgs.1 hok
      have hall : (next ++ gs).all P = true := by
        rw [List.all_append, hnext, hgs.2]
        rfl
      exact htrans hs' (ih hall h)

/-- Only goals in `P` are selected. -/
def SelectsIn (P : Goal → Bool) (select : Token → Option (List Goal)) : Prop :=
  ∀ t gs, select t = some gs → gs.all P = true

theorem selectsIn_onWord (w : String) {gs : List Goal} (h : gs.all P = true) :
    SelectsIn P (Goal.onWord w gs) := by
  intro t gs' hselect
  unfold Goal.onWord at hselect
  split at hselect
  · cases hselect
    exact h
  · cases hselect

theorem selectsIn_onName {next : Token → List Goal} (h : ∀ t, (next t).all P = true) :
    SelectsIn P (Goal.onName next) := by
  intro t gs hselect
  unfold Goal.onName at hselect
  split at hselect
  · cases hselect
    exact h t
  · cases hselect

theorem selectsIn_onType (hnote : ∀ x, P (.noteClass x) = true) {ws : List String}
    {next : String → List Goal} (h : ∀ type, (next type).all P = true) :
    SelectsIn P (Goal.onType ws next) := by
  intro t gs hselect
  unfold Goal.onType at hselect
  split at hselect
  · cases hselect
    exact h t.text
  · split at hselect
    · cases hselect
      rw [List.all_cons, hnote, h t.text]
      rfl
    · cases hselect

theorem expect_stays (hread : ∀ t ts, R s (s.read t ts)) {expected : String}
    {select : Token → Option (List Goal)} (hselect : SelectsIn P select)
    (h : c.expect s expected select = .ok r) : Stays P R s r := by
  obtain ⟨next, s'⟩ := r
  obtain ⟨t, ts, -, hnext, rfl⟩ := expect_succeeds h
  exact ⟨hselect t next hnext, hread t ts⟩

theorem choose_stays (hread : ∀ t ts, R s (s.read t ts)) (hstay : R s s)
    {select : Token → Option (List Goal)} (hselect : SelectsIn P select) {otherwise : List Goal}
    (h : otherwise.all P = true) : Stays P R s (s.choose select otherwise) := by
  unfold State.choose
  split
  · exact ⟨h, hstay⟩
  · next t ts hts =>
      split
      · next gs hgs => exact ⟨hselect t gs hgs, hread t ts⟩
      · exact ⟨h, hstay⟩

theorem openElement_stays (hopen : ∀ m t ts, R s ((s.mark m).read t ts)) (hstay : R s s)
    {select : Token → Option (Element × List Goal)}
    (hselect : ∀ t e gs, select t = some (e, gs) → gs.all P = true) :
    Stays P R s (s.openElement select) := by
  unfold State.openElement
  split
  · exact ⟨rfl, hstay⟩
  · next t ts hts =>
      split
      · next e gs hgs => exact ⟨hselect t e gs hgs, hopen _ t ts⟩
      · exact ⟨rfl, hstay⟩

/-! ## What subroutines leave alone -/

/-- A goal that neither names the class nor declares a variable of it. -/
def Goal.isInner : Goal → Bool
  | className | nameClass _ | classVars => false
  | varType k | varName _ k _ | moreNames k _ | declare _ _ k => !k.isClassLevel
  | _ => true

/-- From `s` to `s'` the class has kept its name and its variables, and code has been added. -/
structure Within (s s' : State) : Prop where
  className : s'.className = s.className
  classLevel : s'.scope.classLevel = s.scope.classLevel
  code : s.code <+: s'.code

theorem Within.same (hname : s'.className = s.className)
    (hclass : s'.scope.classLevel = s.scope.classLevel) (hcode : s'.code = s.code) :
    Within s s' :=
  ⟨hname, hclass, hcode ▸ List.prefix_refl _⟩

theorem Within.trans {s s' s'' : State} (h : Within s s') (h' : Within s' s'') : Within s s'' :=
  ⟨h'.className.trans h.className, h'.classLevel.trans h.classLevel, h.code.trans h'.code⟩

theorem isInner_emits (i : List Instruction) :
    (i.map Goal.emit).all Goal.isInner = true := by
  simp [Goal.isInner]

theorem isInner_onTerm : SelectsIn Goal.isInner Goal.onTerm := by
  intro t gs hselect
  unfold Goal.onTerm at hselect
  split at hselect
  · cases hselect
    rfl
  · cases hselect
    rw [stringLiteral_eq]
    exact isInner_emits _
  · cases hselect
    rfl
  · repeat' (split at hselect)
    all_goals cases hselect
    all_goals rfl
  · repeat' (split at hselect)
    all_goals cases hselect
    all_goals rfl

theorem isInner_onOperator : SelectsIn Goal.isInner Goal.onOperator := by
  intro t gs hselect
  obtain ⟨e, -, rfl⟩ := Option.map_eq_some_iff.mp hselect
  rfl

theorem isInner_onCallSign (name : Token) : SelectsIn Goal.isInner (Goal.onCallSign name) := by
  intro t gs hselect
  unfold Goal.onCallSign at hselect
  repeat' (split at hselect)
  all_goals cases hselect
  all_goals rfl

theorem declare_within {name : Token} {type : String} {k : Storage}
    (hk : k.isClassLevel = false) (h : c.declare s name type k = .ok r) :
    Stays Goal.isInner Within s r := by
  unfold Setting.declare Scope.define at h
  by_cases htaken : ((s.scope.layer k).any fun d => d.name == name.text) = true
  · simp only [if_pos htaken] at h
    cases h
  · simp only [if_neg htaken] at h
    cases h
    refine ⟨rfl, .same rfl ?_ rfl⟩
    simp only [Scope.add, hk]
    rfl

theorem entered_classLevel (s : State) (kind : SubroutineKind) (x : String) :
    (s.entered kind x).scope.classLevel = s.scope.classLevel := by
  cases kind <;> rfl

/-- Every step of a subroutine stays within it. -/
theorem step_within {g : Goal} (hg : g.isInner = true) (h : step c s g = .ok r) :
    Stays Goal.isInner Within s r := by
  have hread : ∀ t ts, Within s (s.read t ts) := fun _ _ => .same rfl rfl rfl
  have hopen : ∀ m t ts, Within s ((s.mark m).read t ts) := fun _ _ _ => .same rfl rfl rfl
  have hsame : Within s s := .same rfl rfl rfl
  have hnote : ∀ x, Goal.isInner (.noteClass x) = true := fun _ => rfl
  cases g with
  | className | nameClass | classVars => cases hg
  | word w => exact expect_stays hread (selectsIn_onWord w rfl) h
  | enter | leave | noteClass =>
      cases h
      exact ⟨rfl, .same rfl rfl rfl⟩
  | emit i =>
      simp only [step] at h
      split at h
      · cases h
      · cases h
        refine ⟨rfl, rfl, rfl, ?_⟩
        rw [State.code_emit]
        exact List.prefix_append _ _
  | varType k =>
      have hnames : ∀ type, (Goal.names k type).all Goal.isInner = true := by
        intro type
        simpa [Goal.names, Goal.isInner] using hg
      exact expect_stays hread (selectsIn_onType hnote hnames) h
  | varName what k type =>
      refine expect_stays hread (selectsIn_onName fun t => ?_) h
      simpa [Goal.isInner] using hg
  | moreNames k type =>
      cases h
      refine choose_stays hread hsame (selectsIn_onWord "," ?_) rfl
      simpa [Goal.names, Goal.isInner] using hg
  | declare name type k =>
      have hk : k.isClassLevel = false := by simpa [Goal.isInner] using hg
      exact declare_within hk h
  | subroutines =>
      cases h
      refine openElement_stays hopen hsame fun t e gs hselect => ?_
      obtain ⟨kind, -, heq⟩ := Option.map_eq_some_iff.mp hselect
      cases heq
      rfl
  | returnType => exact expect_stays hread (selectsIn_onType hnote fun _ => rfl) h
  | subroutineName kind => exact expect_stays hread (selectsIn_onName fun _ => rfl) h
  | beginSubroutine kind name =>
      simp only [step, Setting.beginSubroutine_eq] at h
      split at h
      · cases h
      · cases h
        exact ⟨rfl, .same rfl (entered_classLevel s kind name.text) rfl⟩
  | parameters | returnValue | firstArgument =>
      cases h
      exact ⟨by split <;> rfl, hsame⟩
  | parameter => exact expect_stays hread (selectsIn_onType hnote fun _ => rfl) h
  | moreParameters =>
      cases h
      exact choose_stays hread hsame (selectsIn_onWord "," rfl) rfl
  | localVars =>
      cases h
      refine openElement_stays hopen hsame fun t e gs hselect => ?_
      unfold Goal.onLocalVar at hselect
      split at hselect
      · cases hselect
        rfl
      · cases hselect
  | header =>
      cases h
      rw [header_eq]
      exact ⟨isInner_emits _, hsame⟩
  | endOfInput | verifyCalls | term =>
      simp only [step] at h
      split at h <;> cases h
      exact ⟨rfl, hsame⟩
  | statements | expression =>
      cases h
      exact ⟨rfl, hsame⟩
  | statementList =>
      cases h
      refine openElement_stays hopen hsame fun t e gs hselect => ?_
      unfold Goal.onStatement at hselect
      repeat' (split at hselect)
      all_goals cases hselect
      all_goals rfl
  | letTarget | doTarget | qualifiedCall =>
      exact expect_stays hread (selectsIn_onName fun _ => rfl) h
  | assign name | load name =>
      simp only [step] at h
      split at h <;> cases h
      exact ⟨rfl, hsame⟩
  | assignTail d =>
      cases h
      exact choose_stays hread hsame (selectsIn_onWord "[" rfl) rfl
  | ifBody | whileBody =>
      cases h
      exact ⟨rfl, .same rfl rfl rfl⟩
  | elsePart =>
      cases h
      exact choose_stays hread hsame (selectsIn_onWord "else" rfl) rfl
  | termBody => exact expect_stays hread isInner_onTerm h
  | operators =>
      cases h
      exact choose_stays hread hsame isInner_onOperator rfl
  | integer t =>
      simp only [step, Setting.integer] at h
      repeat' (split at h)
      all_goals cases h
      exact ⟨rfl, hsame⟩
  | this t =>
      simp only [step, Setting.this] at h
      repeat' (split at h)
      all_goals cases h
      all_goals exact ⟨rfl, hsame⟩
  | identifierTail name =>
      cases h
      exact choose_stays hread hsame (selectsIn_onWord "[" rfl) (by split <;> rfl)
  | callSign name => exact expect_stays hread (isInner_onCallSign name) h
  | localCall name =>
      simp only [step, Setting.localCall] at h
      split at h <;> cases h
      exact ⟨rfl, .same rfl rfl rfl⟩
  | dispatch qualifier callee =>
      simp only [step, Setting.dispatch] at h
      repeat' (split at h)
      all_goals cases h
      all_goals exact ⟨rfl, hsame⟩
  | moreArguments target count =>
      cases h
      exact choose_stays hread hsame (selectsIn_onWord "," rfl) rfl

/-- No subroutine changes the name or the variables of the class. -/
theorem run_within {gs : List Goal} (hgs : gs.all Goal.isInner = true)
    (h : run c s gs = ⟨f, none⟩) : Within s f :=
  run_stays (fun _ => .same rfl rfl rfl) Within.trans step_within hgs h

/-! ## What emits no code -/

/-- A goal of the class around its subroutines. -/
def Goal.isOuter : Goal → Bool
  | word _ | enter _ | leave _ | className | nameClass _ | noteClass _ | classVars | varType _
  | varName _ _ _ | moreNames _ _ | declare _ _ _ | endOfInput | verifyCalls => true
  | _ => false

def SameCode (s s' : State) : Prop := s'.code = s.code

/-- A step of the class around its subroutines emits no code. -/
theorem step_outer {g : Goal} (hg : g.isOuter = true) (h : step c s g = .ok r) :
    Stays Goal.isOuter SameCode s r := by
  have hread : ∀ t ts, SameCode s (s.read t ts) := fun _ _ => rfl
  have hopen : ∀ m t ts, SameCode s ((s.mark m).read t ts) := fun _ _ _ => rfl
  have hsame : SameCode s s := rfl
  have hnote : ∀ x, Goal.isOuter (.noteClass x) = true := fun _ => rfl
  cases g with
  | word w => exact expect_stays hread (selectsIn_onWord w rfl) h
  | enter | leave | nameClass | noteClass =>
      cases h
      exact ⟨rfl, rfl⟩
  | className | varName => exact expect_stays hread (selectsIn_onName fun _ => rfl) h
  | classVars =>
      cases h
      refine openElement_stays hopen hsame fun t e gs hselect => ?_
      unfold Goal.onClassVar at hselect
      repeat' (split at hselect)
      all_goals cases hselect
      all_goals rfl
  | varType k => exact expect_stays hread (selectsIn_onType hnote fun _ => rfl) h
  | moreNames k type =>
      cases h
      exact choose_stays hread hsame (selectsIn_onWord "," rfl) rfl
  | declare name type k =>
      simp only [step, Setting.declare] at h
      split at h <;> cases h
      exact ⟨rfl, rfl⟩
  | endOfInput | verifyCalls =>
      simp only [step] at h
      split at h <;> cases h
      exact ⟨rfl, rfl⟩
  | _ => cases hg

theorem run_outer {gs : List Goal} (hgs : gs.all Goal.isOuter = true)
    (h : run c s gs = ⟨f, none⟩) : SameCode s f :=
  run_stays (fun _ => rfl) (fun h h' => Eq.trans h' h) step_outer hgs h

/-! ## Cutting a run -/

/-- A run that succeeds can be cut between any two of its goals. -/
theorem run_append {gs hs : List Goal} (h : run c s (gs ++ hs) = ⟨f, none⟩) :
    ∃ m, run c s gs = ⟨m, none⟩ ∧ run c m hs = ⟨f, none⟩ := by
  fun_induction run c s gs with
  | case1 s => exact ⟨s, rfl, h⟩
  | case2 s g gs e hstep =>
      rw [List.cons_append, run_cons_error _ hstep] at h
      cases h
  | case3 s g gs next s' hstep ih =>
      rw [List.cons_append, run_cons_ok _ hstep, ← List.append_assoc] at h
      exact ih h

namespace Goal

/-- The start of a class up to its declarations. -/
def classOpening : List Goal :=
  [enter .classDecl, word "class", className, word openBrace]

/-- The end of a class behind its declarations. -/
def classClosing : List Goal :=
  [word closeBrace, leave .classDecl, endOfInput, verifyCalls]

/-- A subroutine from its parameters up to its last statement. -/
def subroutineInside : List Goal :=
  [word "(", enter .parameterList, parameters, leave .parameterList, word ")",
    enter .subroutineBody, word openBrace, localVars, header, statements]

/-- One subroutine behind its leading keyword. -/
def oneSubroutine (kind : SubroutineKind) : List Goal :=
  returnType :: subroutineName kind :: (subroutineInside ++
    word closeBrace :: [leave .subroutineBody, leave .subroutineDec])

theorem subroutineRest_eq (kind : SubroutineKind) :
    subroutineRest kind = oneSubroutine kind ++ [subroutines] := rfl

theorem wholeClass_eq :
    wholeClass = classOpening ++ ([classVars] ++ (subroutines :: classClosing)) := rfl

end Goal

/-- What one subroutine has in a compilation: its tokens, the number of the last label drawn before
it, and its code. -/
structure Part where
  tokens : List Token
  labels : Int
  code : List Instruction

/-- The next subroutine after `s` is `b`, and leads to `s'`. -/
structure Compiles (c : Setting) (s : State) (b : Part) (s' : State) : Prop where
  run : ∃ kind t ts, s.rest = t :: ts ∧ SubroutineKind.ofWord? t = some kind ∧
    run c ((s.mark (.opened Element.subroutineDec.tag)).read t ts) (Goal.oneSubroutine kind) =
      ⟨s', none⟩
  tokens : s.rest = b.tokens ++ s'.rest
  labels : b.labels = s.labels
  code : s'.code = s.code ++ b.code

/-- The next subroutines after `s` are these, and lead to `s'`. -/
inductive CompilesAll (c : Setting) : State → List Part → State → Prop where
  | nil (s : State) : CompilesAll c s [] s
  | cons {s m s' : State} {b : Part} {bs : List Part} (first : Compiles c s b m)
    (later : CompilesAll c m bs s') : CompilesAll c s (b :: bs) s'

def Options.setting (o : Options) (file : String) (lines : List String) (tokens : List Token) :
    Setting :=
  { Token.Setting.ofTokens file lines tokens with strict := o.strict }

def Options.start (o : Options) (tokens : List Token) : State :=
  { rest := tokens, known := o.knownClasses, recorded := if o.listTree then some [] else none }

/-- A compilation that succeeds: the opening of the class leads to `opened`, the declarations of
its variables to `first`, and its subroutines to `last`, where the class is closed. -/
structure Division (o : Options) (file : String) (lines : List String) (tokens : List Token) where
  opened : State
  first : State
  last : State
  vars : List Token
  parts : List Part
  opens : run (o.setting file lines tokens) (o.start tokens) Goal.classOpening = ⟨opened, none⟩
  declares : run (o.setting file lines tokens) opened [.classVars] = ⟨first, none⟩
  spelled : opened.rest = vars ++ first.rest
  compiles : CompilesAll (o.setting file lines tokens) first parts last
  closes : run (o.setting file lines tokens) last Goal.classClosing =
    compileTokens o file lines tokens

/-! ## Every compilation that succeeds can be divided -/

theorem Compiles.within {b : Part} (h : Compiles c s b s') : Within s s' := by
  obtain ⟨kind, t, ts, -, -, hrun⟩ := h.run
  have hwithin := run_within rfl hrun
  exact ⟨hwithin.className, hwithin.classLevel, hwithin.code⟩

theorem Compiles.forward {b : Part} (h : Compiles c s b s') : s.labels ≤ s'.labels := by
  obtain ⟨kind, t, ts, -, -, hrun⟩ := h.run
  have hforward := run_forward c ((s.mark (.opened Element.subroutineDec.tag)).read t ts)
    (Goal.oneSubroutine kind)
  rw [hrun] at hforward
  exact hforward.labels

/-- What a run has read. -/
theorem exists_read {gs : List Goal} (h : run c s gs = ⟨f, none⟩) : ∃ p, s.rest = p ++ f.rest := by
  have hforward := (run_forward c s gs).rest
  rw [h] at hforward
  obtain ⟨p, hp⟩ := hforward
  exact ⟨p, hp.symm⟩

theorem exists_read_cons {u : State} {gs : List Goal} {t : Token} {p : List Token}
    (hts : s.rest = t :: u.rest) (h : run c u gs = ⟨f, none⟩) (hp : s.rest = p ++ f.rest) :
    ∃ q, p = t :: q ∧ u.rest = q ++ f.rest := by
  obtain ⟨q, hq⟩ := exists_read h
  refine ⟨q, ?_, hq⟩
  rw [hts, hq, ← List.cons_append] at hp
  exact (List.append_cancel_right hp).symm

theorem exists_compiles {kind : SubroutineKind} {t : Token} {ts : List Token} {m : State}
    (hts : s.rest = t :: ts) (hkind : SubroutineKind.ofWord? t = some kind)
    (h : run c ((s.mark (.opened Element.subroutineDec.tag)).read t ts) (Goal.oneSubroutine kind) =
      ⟨m, none⟩) : ∃ b, Compiles c s b m := by
  obtain ⟨p, hp⟩ := exists_read h
  have hcode : s.code <+: m.code := (run_within rfl h).code
  obtain ⟨code, hcode⟩ := hcode
  refine ⟨⟨t :: p, s.labels, code⟩, ⟨kind, t, ts, hts, hkind, h⟩, ?_, rfl, hcode.symm⟩
  rw [hts]
  exact congrArg (t :: ·) hp

/-- Taking up the subroutines leads through each of them. -/
theorem exists_parts {ks : List Goal} (h : run c s (.subroutines :: ks) = ⟨f, none⟩) :
    ∃ parts last, CompilesAll c s parts last ∧ run c last ks = ⟨f, none⟩ := by
  -- On the number of tokens ahead: every subroutine reads at least its keyword.
  induction hn : s.rest.length using Nat.strongRecOn generalizing s with
  | ind n ih =>
    obtain ⟨next, s', hstep, hrun⟩ := run_cons_succeeds h
    simp only [step, State.openElement] at hstep
    split at hstep
    · cases hstep
      exact ⟨[], s, .nil s, hrun⟩
    · next t ts hts =>
        split at hstep
        · next e gs hselect =>
            obtain ⟨kind, hkind, heq⟩ := Option.map_eq_some_iff.mp hselect
            cases heq
            cases hstep
            rw [Goal.subroutineRest_eq, List.append_assoc] at hrun
            obtain ⟨m, hone, hrest⟩ := run_append hrun
            obtain ⟨b, hb⟩ := exists_compiles hts hkind hone
            have hlt : m.rest.length < n := by
              have hle := run_length_le hone
              rw [← hn, hts]
              exact Nat.lt_succ_of_le hle
            obtain ⟨parts, last, hparts, hlast⟩ := ih m.rest.length hlt hrest rfl
            exact ⟨b :: parts, last, .cons hb hparts, hlast⟩
        · cases hstep
          exact ⟨[], s, .nil s, hrun⟩

theorem exists_division {o : Options} {file : String} {lines : List String} {tokens : List Token}
    (h : (compileTokens o file lines tokens).fault = none) :
    Nonempty (Division o file lines tokens) := by
  have hrun : run (o.setting file lines tokens) (o.start tokens) Goal.wholeClass =
      ⟨(compileTokens o file lines tokens).state, none⟩ :=
    congrArg (Outcome.mk (compileTokens o file lines tokens).state) h
  rw [Goal.wholeClass_eq] at hrun
  obtain ⟨opened, hopened, hrun⟩ := run_append hrun
  obtain ⟨first, hfirst, hrun⟩ := run_append hrun
  obtain ⟨parts, last, hparts, hlast⟩ := exists_parts hrun
  obtain ⟨vars, hvars⟩ := exists_read hfirst
  refine ⟨⟨opened, first, last, vars, parts, hopened, hfirst, hvars, hparts, ?_⟩⟩
  rw [hlast, ← h]

/-- Where a subroutine starts, the class still has its name and its variables. -/
theorem CompilesAll.mem {bs : List Part} (h : CompilesAll c s bs s') {b : Part} (hb : b ∈ bs) :
    ∃ m m', Compiles c m b m' ∧ Within s m ∧ s.labels ≤ m.labels := by
  induction h with
  | nil s => exact (List.not_mem_nil hb).elim
  | cons first later ih =>
      rcases List.mem_cons.mp hb with rfl | hb
      · exact ⟨_, _, first, .same rfl rfl rfl, Int.le_refl _⟩
      · obtain ⟨m, m', hm, hwithin, hlabels⟩ := ih hb
        exact ⟨m, m', hm, first.within.trans hwithin, Int.le_trans first.forward hlabels⟩

/-! ## The code of a division -/

theorem CompilesAll.code {bs : List Part} (h : CompilesAll c s bs s') :
    s'.code = s.code ++ bs.flatMap Part.code := by
  induction h with
  | nil s => rw [List.flatMap_nil, List.append_nil]
  | cons first later ih => rw [ih, first.code, List.flatMap_cons, List.append_assoc]

/-- The code of a class is the code of its subroutines, one after the other. -/
theorem Division.code {o : Options} {file : String} {lines : List String} {tokens : List Token}
    (d : Division o file lines tokens) (h : (compileTokens o file lines tokens).fault = none) :
    (compileTokens o file lines tokens).state.code = d.parts.flatMap Part.code := by
  have hcloses : run (o.setting file lines tokens) d.last Goal.classClosing =
      ⟨(compileTokens o file lines tokens).state, none⟩ := by
    rw [d.closes, ← h]
  have hstart : (o.start tokens).code = [] := rfl
  have hopened : d.opened.code = (o.start tokens).code := run_outer rfl d.opens
  have hfirst : d.first.code = d.opened.code := run_outer rfl d.declares
  have hdone : (compileTokens o file lines tokens).state.code = d.last.code := run_outer rfl hcloses
  rw [hdone, d.compiles.code, hfirst, hopened, hstart, List.nil_append]

end Jack.Compile
