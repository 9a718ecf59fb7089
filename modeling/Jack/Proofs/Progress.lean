import Jack.Proofs.Division

/-!
# Progress

Whatever the tokens are, a compilation ends, and soon. What is read is never given back
(`Steps.suffix`), and a production that must not be empty reads a token (`run_reads`). A token makes
goals of bounded weight due, apart from the instructions that build a string (`step_spends`), so the
tokens ahead and the weight of the agenda bound the steps that are still to come and the goals that
are ever due (`Steps.length_le`). Decisions, which are all steps but those that emit an instruction,
are bounded by the number of tokens alone, whatever their texts (`Steps.decisions_le`).
-/

namespace Jack.Compile

variable {c : Setting} {s s' s'' : State} {g : Goal} {gs gs' next taken : List Goal}

/-! ## What a token makes due -/

/-- Every goal decides how to go on, unless it is an instruction to emit. -/
def Goal.decides : Goal → Bool
  | emit _ => false
  | _ => true

/-- The goal notes an unqualified call. -/
def Goal.notesCall : Goal → Bool
  | localCall _ => true
  | _ => false

/-- The largest weight of goals that become due with one token, apart from those that spell out
strings. -/
def productionWeight : Nat := 26

/-- What may become due with the token `t`. -/
structure Affords (t : Token) (gs : List Goal) : Prop where
  weight : agendaWeight gs ≤ productionWeight + 2 * t.text.length
  decisions : agendaWeight (gs.filter Goal.decides) ≤ productionWeight
  calls : gs.countP Goal.notesCall ≤ 1

theorem weight_pos (g : Goal) : 0 < g.weight := by
  cases g <;> exact of_decide_eq_true rfl

theorem agendaWeight_filter_le (p : Goal → Bool) (gs : List Goal) :
    agendaWeight (gs.filter p) ≤ agendaWeight gs := by
  induction gs with
  | nil => exact Nat.le_refl 0
  | cons g gs ih =>
      rw [List.filter_cons]
      split
      · exact Nat.add_le_add_left ih _
      · exact Nat.le_trans ih (Nat.le_add_left _ _)

theorem Affords.light {t : Token}
    (h : agendaWeight gs ≤ productionWeight ∧ gs.countP Goal.notesCall ≤ 1) : Affords t gs where
  weight := Nat.le_trans h.1 (Nat.le_add_right _ _)
  decisions := Nat.le_trans (agendaWeight_filter_le _ _) h.1
  calls := h.2

/-- Whatever is selected is afforded by the token. -/
def Affordable (select : Token → Option (List Goal)) : Prop :=
  ∀ t next, select t = some next → Affords t next

theorem affordable_onWord (w : String)
    (h : agendaWeight next ≤ productionWeight ∧ next.countP Goal.notesCall ≤ 1) :
    Affordable (Goal.onWord w next) := by
  intro t gs hselect
  unfold Goal.onWord at hselect
  split at hselect <;> cases hselect
  exact .light h

theorem affordable_onName {next : Token → List Goal}
    (h : ∀ t, agendaWeight (next t) ≤ productionWeight ∧ (next t).countP Goal.notesCall ≤ 1) :
    Affordable (Goal.onName next) := by
  intro t gs hselect
  unfold Goal.onName at hselect
  split at hselect <;> cases hselect
  exact .light (h t)

theorem affordable_onType (keywords : List String) {next : String → List Goal}
    (h : ∀ type, agendaWeight (next type) < productionWeight ∧
      (next type).countP Goal.notesCall ≤ 1) :
    Affordable (Goal.onType keywords next) := by
  intro t gs hselect
  obtain ⟨hweight, hcalls⟩ := h t.text
  unfold Goal.onType at hselect
  split at hselect
  · cases hselect
    exact .light ⟨Nat.le_of_lt hweight, hcalls⟩
  · split at hselect <;> cases hselect
    refine .light ⟨?_, hcalls⟩
    rw [agendaWeight, Nat.add_comm]
    exact hweight

theorem affordable_onOperator : Affordable Goal.onOperator := by
  intro t gs hselect
  obtain ⟨e, -, rfl⟩ := Option.map_eq_some_iff.mp hselect
  exact .light (of_decide_eq_true rfl)

theorem affordable_onCallSign (name : Token) : Affordable (Goal.onCallSign name) := by
  intro t gs hselect
  unfold Goal.onCallSign at hselect
  repeat' (split at hselect)
  all_goals cases hselect
  all_goals exact .light (of_decide_eq_true rfl)

theorem agendaWeight_emits (code : List Instruction) :
    agendaWeight (code.map Goal.emit) = code.length := by
  induction code with
  | nil => rfl
  | cons i code ih =>
      rw [List.map_cons, agendaWeight, ih, List.length_cons, Nat.add_comm]
      rfl

/-- The instructions of a string are all that depends on the length of a text. -/
theorem affords_stringLiteral (t : Token) : Affords t (Goal.stringLiteral t.text) := by
  rw [stringLiteral_eq]
  refine ⟨?_, ?_, ?_⟩
  · have hlength : (Syntax.stringCode t.text).length = 2 + 2 * t.text.length := by
      simp only [Syntax.stringCode, List.length_cons, List.length_flatMap, List.length_nil,
        List.map_const', List.sum_replicate_nat, String.length_toList]
      omega
    rw [agendaWeight_emits, hlength]
    exact Nat.add_le_add_right (of_decide_eq_true rfl) _
  · have hnone : ((Syntax.stringCode t.text).map Goal.emit).filter Goal.decides = [] := by
      rw [List.filter_map]
      exact congrArg _ (List.filter_eq_nil_iff.mpr fun _ _ => Bool.false_ne_true)
    rw [hnone]
    exact Nat.zero_le _
  · have hnone : ((Syntax.stringCode t.text).map Goal.emit).countP Goal.notesCall = 0 := by
      rw [List.countP_map]
      exact List.countP_eq_zero.mpr fun _ _ => Bool.false_ne_true
    rw [hnone]
    exact Nat.zero_le _

theorem affordable_onTerm : Affordable Goal.onTerm := by
  intro t gs hselect
  unfold Goal.onTerm at hselect
  split at hselect
  · cases hselect
    exact .light (of_decide_eq_true rfl)
  · cases hselect
    exact affords_stringLiteral t
  · cases hselect
    exact .light (of_decide_eq_true rfl)
  · repeat' (split at hselect)
    all_goals cases hselect
    all_goals exact .light (of_decide_eq_true rfl)
  · repeat' (split at hselect)
    all_goals cases hselect
    all_goals exact .light (of_decide_eq_true rfl)

/-- Whatever is selected together with an element is afforded by the token. -/
def AffordableElement (select : Token → Option (Element × List Goal)) : Prop :=
  ∀ t e next, select t = some (e, next) → Affords t next

theorem affordable_onClassVar : AffordableElement Goal.onClassVar := by
  intro t e gs hselect
  unfold Goal.onClassVar at hselect
  repeat' (split at hselect)
  all_goals cases hselect
  all_goals exact .light (of_decide_eq_true rfl)

theorem affordable_onSubroutine : AffordableElement Goal.onSubroutine := by
  intro t e gs hselect
  obtain ⟨kind, -, hkind⟩ := Option.map_eq_some_iff.mp hselect
  cases hkind
  exact .light (of_decide_eq_true rfl)

theorem affordable_onLocalVar : AffordableElement Goal.onLocalVar := by
  intro t e gs hselect
  unfold Goal.onLocalVar at hselect
  split at hselect <;> cases hselect
  exact .light (of_decide_eq_true rfl)

theorem affordable_onStatement : AffordableElement Goal.onStatement := by
  intro t e gs hselect
  unfold Goal.onStatement at hselect
  repeat' (split at hselect)
  all_goals cases hselect
  all_goals exact .light (of_decide_eq_true rfl)

/-! ## What a step spends -/

variable {r : List Goal × State}

/-- A step reads nothing, or it reads one token and makes due what the token affords. An unqualified
call is noted once for every goal to note one. -/
inductive Spends (s : State) (g : Goal) (r : List Goal × State) : Prop where
  | nothing (rest : r.2.rest = s.rest)
      (calls : r.2.localCalls.length + r.1.countP Goal.notesCall ≤
        s.localCalls.length + [g].countP Goal.notesCall)
  | token (t : Token) (rest : s.rest = t :: r.2.rest) (calls : r.2.localCalls = s.localCalls)
      (affords : Affords t r.1)

/-- Nothing is read, and no call has to do with it. -/
theorem Spends.quiet (hrest : r.2.rest = s.rest) (hcalls : r.2.localCalls = s.localCalls)
    (hnext : r.1.countP Goal.notesCall = 0) : Spends s g r := by
  refine .nothing hrest ?_
  rw [hcalls, hnext]
  exact Nat.le_add_right _ _

theorem spends_expect {expected : String} {select : Token → Option (List Goal)}
    (hselect : Affordable select) (h : c.expect s expected select = .ok r) : Spends s g r := by
  unfold Setting.expect at h
  split at h
  · cases h
  · next t ts hts =>
      split at h
      · next hnext =>
          cases h
          exact .token t hts rfl (hselect t _ hnext)
      · cases h

theorem spends_choose {select : Token → Option (List Goal)} {otherwise : List Goal}
    (hselect : Affordable select) (hother : otherwise.countP Goal.notesCall = 0) :
    Spends s g (s.choose select otherwise) := by
  unfold State.choose
  split
  · exact .quiet rfl rfl hother
  · next t ts hts =>
      split
      · next hnext => exact .token t hts rfl (hselect t _ hnext)
      · exact .quiet rfl rfl hother

theorem spends_openElement {select : Token → Option (Element × List Goal)}
    (hselect : AffordableElement select) : Spends s g (s.openElement select) := by
  unfold State.openElement
  split
  · exact .quiet rfl rfl rfl
  · next t ts hts =>
      split
      · next hnext => exact .token t hts rfl (hselect t _ _ hnext)
      · exact .quiet rfl rfl rfl

theorem header_notesCall (s : State) : s.header.countP Goal.notesCall = 0 := by
  unfold State.header
  cases s.subroutineKind with
  | none => rfl
  | some kind => cases kind <;> rfl

theorem step_spends (h : step c s g = .ok r) : Spends s g r := by
  cases g with
  | word w => exact spends_expect (affordable_onWord w (of_decide_eq_true rfl)) h
  | className | varName | subroutineName | letTarget | doTarget | qualifiedCall =>
      exact spends_expect (affordable_onName fun _ => of_decide_eq_true rfl) h
  | varType | returnType | parameter =>
      exact spends_expect (affordable_onType _ fun _ => of_decide_eq_true rfl) h
  | termBody => exact spends_expect affordable_onTerm h
  | callSign name => exact spends_expect (affordable_onCallSign name) h
  | classVars =>
      cases h
      exact spends_openElement affordable_onClassVar
  | subroutines =>
      cases h
      exact spends_openElement affordable_onSubroutine
  | localVars =>
      cases h
      exact spends_openElement affordable_onLocalVar
  | statementList =>
      cases h
      exact spends_openElement affordable_onStatement
  | moreNames | moreParameters | elsePart | assignTail | moreArguments =>
      cases h
      exact spends_choose (affordable_onWord _ (of_decide_eq_true rfl)) rfl
  | operators =>
      cases h
      exact spends_choose affordable_onOperator rfl
  | identifierTail =>
      cases h
      refine spends_choose (affordable_onWord _ (of_decide_eq_true rfl)) ?_
      split <;> rfl
  | enter | leave | nameClass | noteClass | statements | expression | ifBody | whileBody =>
      cases h
      exact .quiet rfl rfl rfl
  | header =>
      cases h
      exact .quiet rfl rfl (header_notesCall s)
  | parameters | returnValue | firstArgument =>
      cases h
      refine .quiet rfl rfl ?_
      dsimp only
      split <;> rfl
  | emit | endOfInput | verifyCalls | assign | load | term =>
      simp only [step] at h
      split at h <;> cases h
      exact .quiet rfl rfl rfl
  | declare name type k =>
      simp only [step, Setting.declare] at h
      split at h <;> cases h
      exact .quiet rfl rfl rfl
  | beginSubroutine kind name =>
      simp only [step, Setting.beginSubroutine_eq] at h
      split at h <;> cases h
      exact .quiet rfl rfl rfl
  | integer t =>
      simp only [step, Setting.integer] at h
      repeat' (split at h)
      all_goals cases h
      exact .quiet rfl rfl rfl
  | this t =>
      simp only [step, Setting.this] at h
      repeat' (split at h)
      all_goals cases h
      all_goals exact .quiet rfl rfl rfl
  | dispatch qualifier callee =>
      simp only [step, Setting.dispatch] at h
      repeat' (split at h)
      all_goals cases h
      all_goals exact .quiet rfl rfl rfl
  | localCall name =>
      simp only [step, Setting.localCall] at h
      split at h <;> cases h
      refine .nothing rfl ?_
      rw [List.length_append]
      exact Nat.le_refl _

/-! ## Steps, one after the other -/

/-- The steps that lead from one state and agenda to another, with the goals that they take up. -/
inductive Steps (c : Setting) : State → List Goal → List Goal → State → List Goal → Prop where
  | refl (s : State) (gs : List Goal) : Steps c s gs [] s gs
  | step {s s' s'' : State} {g : Goal} {gs gs' next taken : List Goal}
      (first : Compile.step c s g = .ok (next, s'))
      (later : Steps c s' (next ++ gs) taken s'' gs') :
      Steps c s (g :: gs) (g :: taken) s'' gs'

/-- Nothing is due any more, or the step that would be next fails. -/
inductive Ends (c : Setting) (s : State) : List Goal → Outcome → Prop where
  | done : Ends c s [] ⟨s, none⟩
  | stopped {g : Goal} (gs : List Goal) {f : Fault} (h : step c s g = .error f) :
      Ends c s (g :: gs) ⟨s, some f⟩

theorem exists_steps (c : Setting) (s : State) (gs : List Goal) :
    ∃ taken s' gs', Steps c s gs taken s' gs' ∧ Ends c s' gs' (run c s gs) := by
  fun_induction run c s gs with
  | case1 s => exact ⟨[], s, [], .refl s [], .done⟩
  | case2 s g gs f hstep => exact ⟨[], s, g :: gs, .refl s _, .stopped gs hstep⟩
  | case3 s g gs next s' hstep ih =>
      obtain ⟨taken, s'', gs', hsteps, hends⟩ := ih
      exact ⟨g :: taken, s'', gs', .step hstep hsteps, hends⟩

theorem Steps.suffix (h : Steps c s gs taken s' gs') : s'.rest <:+ s.rest := by
  induction h with
  | refl s gs => exact List.suffix_refl _
  | step first later ih => exact ih.trans (step_forward first).rest

/-- The weight of what may become due with tokens, strings included. -/
def allowance : List Token → Nat
  | [] => 0
  | t :: ts => productionWeight + 2 * t.text.length + allowance ts

theorem step_weight_le (h : step c s g = .ok r) :
    1 + agendaWeight r.1 + allowance r.2.rest ≤ g.weight + allowance s.rest := by
  rcases step_spends h with ⟨hrest, -⟩ | ⟨t, hrest, -, haffords⟩
  · have hlighter : agendaWeight r.1 < g.weight := by
      rcases step_progress h with hread | ⟨-, hweight⟩
      · rw [hrest] at hread
        exact absurd hread (Nat.lt_irrefl _)
      · exact hweight
    rw [hrest]
    omega
  · have hweight := haffords.weight
    have hpos := weight_pos g
    rw [hrest, allowance]
    omega

/-- The steps taken and the weight of what is still due are paid with the first agenda and the
tokens read. -/
theorem Steps.length_le (h : Steps c s gs taken s' gs') :
    taken.length + agendaWeight gs' + allowance s'.rest ≤ agendaWeight gs + allowance s.rest := by
  induction h with
  | refl s gs => simp
  | step first later ih =>
      have hstep := step_weight_le first
      rw [agendaWeight_append] at ih
      rw [List.length_cons, agendaWeight]
      dsimp only at hstep
      omega

theorem step_decisions_le (h : step c s g = .ok r) :
    ([g].filter Goal.decides).length + agendaWeight (r.1.filter Goal.decides) +
        productionWeight * r.2.rest.length ≤
      agendaWeight ([g].filter Goal.decides) + productionWeight * s.rest.length := by
  cases hg : g.decides with
  | false =>
      obtain ⟨i, rfl⟩ : ∃ i, g = .emit i := by
        cases g with
        | emit i => exact ⟨i, rfl⟩
        | _ => cases hg
      simp only [step] at h
      split at h <;> cases h
      exact Nat.le_refl _
  | true =>
      have hone : [g].filter Goal.decides = [g] := by simp [hg]
      have hfewer := agendaWeight_filter_le Goal.decides r.1
      rw [hone]
      rcases step_spends h with ⟨hrest, -⟩ | ⟨t, hrest, -, haffords⟩
      · have hweight := step_weight_le h
        rw [hrest] at hweight ⊢
        simp only [List.length_singleton, agendaWeight]
        omega
      · have hdecisions := haffords.decisions
        have hpos := weight_pos g
        rw [hrest]
        simp only [List.length_cons, List.length_nil, agendaWeight, Nat.mul_succ]
        omega

/-- The decisions taken are paid with those first due and the number of tokens read. -/
theorem Steps.decisions_le (h : Steps c s gs taken s' gs') :
    (taken.filter Goal.decides).length + agendaWeight (gs'.filter Goal.decides) +
        productionWeight * s'.rest.length ≤
      agendaWeight (gs.filter Goal.decides) + productionWeight * s.rest.length := by
  induction h with
  | refl s gs => simp
  | @step s s' s'' g gs gs' next taken first later ih =>
      have hstep := step_decisions_le first
      have htaken : ((g :: taken).filter Goal.decides).length =
          ([g].filter Goal.decides).length + (taken.filter Goal.decides).length := by
        rw [← List.length_append, ← List.filter_append, List.singleton_append]
      have hagenda : agendaWeight ((g :: gs).filter Goal.decides) =
          agendaWeight ([g].filter Goal.decides) + agendaWeight (gs.filter Goal.decides) := by
        rw [← agendaWeight_append, ← List.filter_append, List.singleton_append]
      rw [List.filter_append, agendaWeight_append] at ih
      rw [htaken, hagenda]
      dsimp only at hstep
      omega

theorem step_calls_le (h : step c s g = .ok r) :
    r.2.localCalls.length + r.1.countP Goal.notesCall + r.2.rest.length ≤
      s.localCalls.length + [g].countP Goal.notesCall + s.rest.length := by
  rcases step_spends h with ⟨hrest, hcalls⟩ | ⟨t, hrest, hcalls, haffords⟩
  · rw [hrest]
    exact Nat.add_le_add_right hcalls _
  · have hone := haffords.calls
    rw [hcalls, hrest, List.length_cons]
    omega

/-- Every unqualified call to be verified in the end has cost a token. -/
theorem Steps.calls_le (h : Steps c s gs taken s' gs') :
    s'.localCalls.length + gs'.countP Goal.notesCall + s'.rest.length ≤
      s.localCalls.length + gs.countP Goal.notesCall + s.rest.length := by
  induction h with
  | refl s gs => exact Nat.le_refl _
  | @step s s' s'' g gs gs' next taken first later ih =>
      have hstep := step_calls_le first
      have hagenda : (g :: gs).countP Goal.notesCall =
          [g].countP Goal.notesCall + gs.countP Goal.notesCall := by
        rw [← List.countP_append, List.singleton_append]
      rw [List.countP_append] at ih
      rw [hagenda]
      dsimp only at hstep
      omega

/-! ## What must be read -/

/-- The goals that cannot be reached without a token being read. -/
def Goal.mustRead : Goal → Bool
  | word _ | className | varType _ | varName _ _ _ | returnType | subroutineName _ | parameter
  | letTarget | assign _ | assignTail _ | ifBody | whileBody | doTarget | expression | term
  | termBody | callSign _ | localCall _ | qualifiedCall _ | dispatch _ _ | firstArgument _ _
  | moreArguments _ _ => true
  | _ => false

/-- What must read a token has read one, or has become something that must. -/
theorem step_mustRead (hg : g.mustRead = true) (h : step c s g = .ok r) :
    r.2.rest.length < s.rest.length ∨ r.1.any Goal.mustRead = true := by
  cases g with
  | word | className | varType | varName | returnType | subroutineName | parameter | letTarget
  | doTarget | termBody | callSign | qualifiedCall => exact .inl (expect_lt h)
  | expression | ifBody | whileBody =>
      cases h
      exact .inr rfl
  | assign | term =>
      simp only [step] at h
      split at h <;> cases h
      exact .inr rfl
  | assignTail | moreArguments =>
      cases h
      unfold State.choose
      split
      · exact .inr rfl
      · next t ts hts =>
          split
          · exact .inl (by simp [hts])
          · exact .inr rfl
  | firstArgument =>
      cases h
      refine .inr ?_
      dsimp only
      split <;> rfl
  | localCall name =>
      simp only [step, Setting.localCall] at h
      split at h <;> cases h
      exact .inr rfl
  | dispatch qualifier callee =>
      simp only [step, Setting.dispatch] at h
      repeat' (split at h)
      all_goals cases h
      all_goals exact .inr rfl
  | _ => cases hg

/-- A run through something that must be read reads it. -/
theorem run_reads (hgs : gs.any Goal.mustRead = true) (h : run c s gs = ⟨s', none⟩) :
    s'.rest.length < s.rest.length := by
  fun_induction run c s gs with
  | case1 s => cases hgs
  | case2 s g gs f hstep => cases h
  | case3 s g gs next s₁ hstep ih =>
      have hlater : s'.rest.length ≤ s₁.rest.length := by
        have hforward := (run_forward c s₁ (next ++ gs)).rest
        rw [h] at hforward
        exact hforward.length_le
      have hfirst := (step_forward hstep).rest.length_le
      rw [List.any_cons, Bool.or_eq_true] at hgs
      -- Unless the token has been read by now, it is still due, from `g` or from behind it.
      have hdue : s₁.rest.length < s.rest.length ∨ (next ++ gs).any Goal.mustRead = true := by
        rw [List.any_append, Bool.or_eq_true]
        rcases hgs with hg | hrest
        · exact (step_mustRead hg hstep).imp_right .inl
        · exact .inr (.inr hrest)
      rcases hdue with hread | hdue
      · exact Nat.lt_of_le_of_lt hlater hread
      · exact Nat.lt_of_lt_of_le (ih hdue h) hfirst

/-! ## Productions -/

/-- The productions that are never empty and that others repeat or nest. -/
inductive Production where
  | classVarDec
  | subroutineDec
  | varDec
  | statement
  | expression
  | term

/-- Begins one round of a loop, if the token in view opens it: the goals up to the one that takes up
the loop again, and the state behind the token. -/
def State.round (s : State) (select : Token → Option (Element × List Goal)) :
    Option (List Goal × State) :=
  match s.rest with
  | [] => none
  | t :: ts =>
    (select t).map fun (e, gs) => (gs.dropLast, (s.mark (.opened e.tag)).read t ts)

namespace Production

/-- The goals of a production, and the state in which they are taken up. -/
def begin? (s : State) : Production → Option (List Goal × State)
  | classVarDec => s.round Goal.onClassVar
  | subroutineDec => s.round Goal.onSubroutine
  | varDec => s.round Goal.onLocalVar
  | statement => s.round Goal.onStatement
  | expression => some ([.expression], s)
  | term => some ([.term], s)

/-- The goal that repeats a production. -/
def loop? : Production → Option Goal
  | classVarDec => some .classVars
  | subroutineDec => some .subroutines
  | varDec => some .localVars
  | statement => some .statementList
  | expression | term => none

end Production

theorem exists_token_of_round {select : Token → Option (Element × List Goal)}
    (h : s.round select = some (gs, s')) : ∃ t, s.rest = t :: s'.rest := by
  unfold State.round at h
  split at h
  · cases h
  · next t ts hts =>
      obtain ⟨⟨e, opened⟩, -, hround⟩ := Option.map_eq_some_iff.mp h
      cases hround
      exact ⟨t, hts⟩

/-- A loop goes round as long as the token in view opens another round. -/
theorem openElement_eq_round {select : Token → Option (Element × List Goal)} {loop : Goal}
    (hselect : ∀ t e gs, select t = some (e, gs) → gs.getLast? = some loop) :
    s.openElement select =
      match s.round select with
      | some (gs, s') => (gs ++ [loop], s')
      | none => ([], s) := by
  unfold State.openElement State.round
  cases s.rest with
  | nil => rfl
  | cons t ts =>
      cases hopened : select t with
      | none => simp only [hopened, Option.map_none]
      | some opened =>
          obtain ⟨e, gs⟩ := opened
          obtain ⟨body, rfl⟩ := List.getLast?_eq_some_iff.mp (hselect t e gs hopened)
          simp only [hopened, Option.map_some, List.dropLast_concat]

theorem step_loop {p : Production} (hloop : p.loop? = some g) :
    step c s g = .ok
      (match p.begin? s with
        | some (gs, s') => (gs ++ [g], s')
        | none => ([], s)) := by
  cases p with
  | classVarDec =>
      cases hloop
      refine congrArg Except.ok (openElement_eq_round fun t e gs hselect => ?_)
      unfold Goal.onClassVar at hselect
      repeat' (split at hselect)
      all_goals cases hselect
      all_goals rfl
  | subroutineDec =>
      cases hloop
      refine congrArg Except.ok (openElement_eq_round fun t e gs hselect => ?_)
      obtain ⟨kind, -, hkind⟩ := Option.map_eq_some_iff.mp hselect
      cases hkind
      rfl
  | varDec =>
      cases hloop
      refine congrArg Except.ok (openElement_eq_round fun t e gs hselect => ?_)
      unfold Goal.onLocalVar at hselect
      split at hselect <;> cases hselect
      rfl
  | statement =>
      cases hloop
      refine congrArg Except.ok (openElement_eq_round fun t e gs hselect => ?_)
      unfold Goal.onStatement at hselect
      repeat' (split at hselect)
      all_goals cases hselect
      all_goals rfl
  | expression | term => cases hloop

/-- A production that is completed has read a token, and none but those ahead. -/
theorem production_reads {p : Production} (hbegin : p.begin? s = some (gs, s'))
    (h : run c s' gs = ⟨s'', none⟩) : ∃ front, front ≠ [] ∧ s.rest = front ++ s''.rest := by
  obtain ⟨front, hfront⟩ : s''.rest <:+ s'.rest := by
    have hforward := (run_forward c s' gs).rest
    rwa [h] at hforward
  have hopened : (∃ t, s.rest = t :: s'.rest) →
      ∃ front, front ≠ [] ∧ s.rest = front ++ s''.rest := by
    rintro ⟨t, ht⟩
    exact ⟨t :: front, List.cons_ne_nil t front, by rw [ht, ← hfront, List.cons_append]⟩
  cases p with
  | classVarDec | subroutineDec | varDec | statement =>
      exact hopened (exists_token_of_round hbegin)
  | expression | term =>
      cases hbegin
      refine ⟨front, ?_, hfront.symm⟩
      rintro rfl
      have hread := run_reads rfl h
      rw [← hfront] at hread
      exact absurd hread (Nat.lt_irrefl _)

/-- Compiling makes progress in every state and over any tokens. A production that is completed has
read at least one of the tokens ahead; a loop takes up its production as long as the token in view
opens one. No step goes back. The decisions taken, and those that are due, are paid with the tokens
read, `productionWeight` for each; all steps, the instructions of strings included, are paid with
the tokens and their texts. So a run ends, after finitely many steps, with nothing due or with a
fault; and the calls that a whole compilation verifies in the end are no more than its tokens. -/
theorem compilation_ends (c : Setting) (s : State) :
    (∀ (p : Production) gs opened s', p.begin? s = some (gs, opened) →
        run c opened gs = ⟨s', none⟩ → ∃ front, front ≠ [] ∧ s.rest = front ++ s'.rest) ∧
      (∀ (p : Production) g, p.loop? = some g → step c s g = .ok
        (match p.begin? s with
          | some (gs, opened) => (gs ++ [g], opened)
          | none => ([], s))) ∧
      (∀ gs taken s' gs', Steps c s gs taken s' gs' →
        s'.rest <:+ s.rest ∧
          (taken.filter Goal.decides).length + agendaWeight (gs'.filter Goal.decides) +
              productionWeight * s'.rest.length ≤
            agendaWeight (gs.filter Goal.decides) + productionWeight * s.rest.length ∧
          taken.length + agendaWeight gs' + allowance s'.rest ≤
            agendaWeight gs + allowance s.rest) ∧
      (∀ gs, ∃ taken s' gs', Steps c s gs taken s' gs' ∧ Ends c s' gs' (run c s gs)) ∧
      ∀ (o : Options) (file : String) (lines : List String) (tokens : List Token),
        ∃ taken s' gs',
          Steps (o.setting file lines tokens) (o.start tokens) Goal.wholeClass taken s' gs' ∧
            Ends (o.setting file lines tokens) s' gs' (compileTokens o file lines tokens) ∧
            (taken.filter Goal.decides).length ≤ 10 + productionWeight * tokens.length ∧
            taken.length ≤ 10 + allowance tokens ∧
            s'.localCalls.length ≤ tokens.length := by
  refine ⟨fun p gs opened s' => production_reads, fun p g => step_loop,
    fun gs taken s' gs' h => ⟨h.suffix, h.decisions_le, h.length_le⟩, exists_steps c s, ?_⟩
  intro o file lines tokens
  obtain ⟨taken, s', gs', hsteps, hends⟩ :=
    exists_steps (o.setting file lines tokens) (o.start tokens) Goal.wholeClass
  have hdecisions : (taken.filter Goal.decides).length + agendaWeight (gs'.filter Goal.decides) +
      productionWeight * s'.rest.length ≤ 10 + productionWeight * tokens.length :=
    hsteps.decisions_le
  have hlength : taken.length + agendaWeight gs' + allowance s'.rest ≤ 10 + allowance tokens :=
    hsteps.length_le
  have hcalls : s'.localCalls.length + gs'.countP Goal.notesCall + s'.rest.length ≤
      0 + 0 + tokens.length := hsteps.calls_le
  exact ⟨taken, s', gs', hsteps, hends, by omega, by omega, by omega⟩

end Jack.Compile
