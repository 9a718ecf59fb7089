import Jack.Proofs.Ahead

/-!
# Phrases confined to their tokens

A phrase of an expression is confined to its own tokens (`Confined`): a run over them needs no
others, reads them all unless it is stopped, and does the same with other tokens behind them,
provided that these do not continue the phrase. Operations are special, as another operator
continues them: there the run goes on with the operations behind.

Nothing is assumed of the tokens except that they spell the phrase, nor of the state; a run may well
be stopped by an unknown name or an integer that is too large. It is stopped at the same place then.
The proofs follow the trees; what a step does is needed only for the goals of expressions, and that
it takes no notice of the tokens behind those in view is `step_extend`.
-/

namespace Jack.Compile

open Syntax

variable {c : Setting} {s : State} {g : Goal} {gs hs ks next : List Goal} {l : Location}
  {q r x : List Token} {t t' : Token} {w : String} {ws ws' : List String}

/-! ## Runs one after the other -/

/-- Goes on from the state in which a run ended, unless it was stopped. -/
def Outcome.andThen (r : Outcome) (next : State → Outcome) : Outcome :=
  match r.fault with
  | none => next r.state
  | some _ => r

theorem andThen_congr {r : Outcome} {next next' : State → Outcome}
    (h : r.fault = none → next r.state = next' r.state) : r.andThen next = r.andThen next' := by
  unfold Outcome.andThen
  split
  · exact h ‹_›
  · rfl

theorem andThen_assoc (r : Outcome) (next next' : State → Outcome) :
    (r.andThen next).andThen next' = r.andThen fun s => (next s).andThen next' := by
  obtain ⟨s, fault⟩ := r
  cases fault <;> rfl

theorem run_goals_append (c : Setting) (s : State) (gs hs : List Goal) :
    run c s (gs ++ hs) = (run c s gs).andThen fun s' => run c s' hs := by
  fun_induction run c s gs with
  | case1 s => rfl
  | case2 s g gs f hstep =>
      rw [List.cons_append, run_cons_error _ hstep]
      rfl
  | case3 s g gs next s' hstep ih =>
      rw [List.cons_append, run_cons_ok _ hstep, ← List.append_assoc, ih]

/-! ## Phrases confined to their tokens -/

/-- The state with the tokens `q` ahead, in place of those that are. -/
def State.facing (s : State) (q : List Token) : State := { s with rest := q }

theorem extend_of_rest (h : s.rest = []) (x : List Token) : s.extend x = s.facing x := by
  simp only [State.extend, State.facing, h, List.nil_append]

/-- The tokens do not start with any of the given words. -/
def Clear (ws : List String) (x : List Token) : Prop :=
  ∀ t ∈ x.head?, ∀ w ∈ ws, t.isWord w = false

theorem clear_nil (ws : List String) : Clear ws [] := by
  intro t ht
  cases ht

/-- A token is one word at most. -/
theorem isWord_eq_false {w' : String} (h : t.isWord w = true) (hne : w' ≠ w) :
    t.isWord w' = false := by
  simp only [Token.isWord, Bool.and_eq_true, beq_iff_eq] at h ⊢
  rw [h.2, Bool.and_eq_false_iff]
  exact .inr (beq_eq_false_iff_ne.mpr hne.symm)

theorem clear_of_isWord (h : t.isWord w = true) (hw : w ∉ ws) : Clear ws (t :: x) := by
  intro u hu w' hw'
  obtain rfl : t = u := by simpa using hu
  exact isWord_eq_false h fun heq => hw (heq ▸ hw')

theorem sees_of_clear (h : Clear ws q) (hw : w ∈ ws) : (s.facing q).sees w = false := by
  cases q with
  | nil => rfl
  | cons t q => exact h t rfl w hw

/-- A run of `gs` over the tokens `q` needs no others. Unless it is stopped, it reads them all; and
if there are others behind them, which start with none of `ws`, it does the same and then takes up
`ks`. -/
structure Confined (gs : List Goal) (q : List Token) (ws : List String) (ks : List Goal) :
    Prop where
  reads (c : Setting) (s : State) : (run c (s.facing q) gs).fault = none →
    (run c (s.facing q) gs).state.rest = []
  resumes (c : Setting) (s : State) (l : Location) {x : List Token} : Clear ws x →
    run (c.endingAt l) (s.facing (q ++ x)) gs =
      ((run c (s.facing q) gs).extend x).andThen fun s' => run (c.endingAt l) s' ks

theorem confined_nil : Confined [] [] ws [] where
  reads c s _ := by
    rw [run_nil]
    rfl
  resumes c s l x _ := by
    rw [run_nil, run_nil]
    exact (run_nil ..).symm

theorem Confined.weaken (h : Confined gs q ws ks) (hws : ∀ w ∈ ws, w ∈ ws') :
    Confined gs q ws' ks :=
  ⟨h.reads, fun c s l _ hx => h.resumes c s l fun t ht w hw => hx t ht w (hws w hw)⟩

/-- A goal that reads a token in view, or needs to see none, is confined if what it leads to is. -/
theorem Confined.of_step (hview : q ≠ [] ∨ g.isBlind = true)
    (hnext : ∀ {c : Setting} {s s' : State} {next : List Goal},
      step c (s.facing q) g = .ok (next, s') → Confined next s'.rest ws ks) :
    Confined [g] q ws ks where
  reads c s hfault := by
    cases hstep : step c (s.facing q) g with
    | error f =>
        rw [run_cons_error _ hstep] at hfault
        cases hfault
    | ok r =>
        obtain ⟨next, s'⟩ := r
        rw [run_cons_ok _ hstep, List.append_nil] at hfault ⊢
        exact (hnext hstep).reads c s' hfault
  resumes c s l x hx := by
    have hextend : step (c.endingAt l) (s.facing (q ++ x)) g = _ :=
      step_extend (s := s.facing q) hview
    cases hstep : step c (s.facing q) g with
    | error f =>
        rw [hstep] at hextend
        rw [run_cons_error _ hstep, run_cons_error _ hextend]
        rfl
    | ok r =>
        obtain ⟨next, s'⟩ := r
        rw [hstep] at hextend
        rw [run_cons_ok _ hstep, run_cons_ok _ hextend, List.append_nil]
        exact (hnext hstep).resumes c s' l hx

/-- A run over a phrase in front of tokens that do not continue it. -/
theorem Confined.run_before (h : Confined gs q ws []) (c : Setting) (s : State) (l : Location)
    (hx : Clear ws x) :
    run (c.endingAt l) (s.facing (q ++ x)) gs = (run c (s.facing q) gs).extend x := by
  rw [h.resumes c s l hx]
  obtain ⟨s', fault⟩ := run c (s.facing q) gs
  cases fault with
  | none => exact run_nil ..
  | some f => rfl

/-- Two phrases, of which the second does not continue the first. -/
theorem Confined.append (h : Confined gs q ws []) (h' : Confined hs r ws' ks)
    (hclear : ∀ x, Clear ws' x → Clear ws (r ++ x)) : Confined (gs ++ hs) (q ++ r) ws' ks := by
  -- A run over both phrases, with tokens behind them, is a run over the first one and then a run
  -- over the second one, from the state in which the first has left it.
  have hboth : ∀ (c : Setting) (s : State) (l : Location) {x : List Token}, Clear ws' x →
      run (c.endingAt l) (s.facing (q ++ r ++ x)) (gs ++ hs) =
        ((run c (s.facing q) gs).extend (r ++ x)).andThen fun _ =>
          run (c.endingAt l) ((run c (s.facing q) gs).state.facing (r ++ x)) hs := by
    intro c s l x hx
    rw [run_goals_append, List.append_assoc, h.run_before c s l (hclear x hx)]
    refine andThen_congr fun hfault => ?_
    rw [Outcome.extend, extend_of_rest (h.reads c s hfault)]
  have hplain : ∀ (c : Setting) (s : State), run c (s.facing (q ++ r)) (gs ++ hs) =
      ((run c (s.facing q) gs).extend r).andThen fun _ =>
        run c ((run c (s.facing q) gs).state.facing r) hs := by
    intro c s
    have hrun := hboth c s c.endLocation (clear_nil ws')
    rwa [List.append_nil, List.append_nil] at hrun
  constructor
  · intro c s hfault
    rw [hplain] at hfault ⊢
    generalize run c (s.facing q) gs = first at hfault ⊢
    obtain ⟨s', fault⟩ := first
    cases fault with
    | none => exact h'.reads c s' hfault
    | some f => cases hfault
  · intro c s l x hx
    rw [hboth c s l hx, hplain]
    generalize run c (s.facing q) gs = first
    obtain ⟨s', fault⟩ := first
    cases fault with
    | none => exact h'.resumes c s' l hx
    | some f =>
        simp only [Outcome.andThen, Outcome.extend, State.extend, List.append_assoc]

/-- A phrase behind one that nothing continues. -/
theorem Confined.seq (h : Confined gs q [] []) (h' : Confined hs r ws ks) :
    Confined (gs ++ hs) (q ++ r) ws ks :=
  h.append h' fun _ _ _ _ w hw => absurd hw (by simp)

/-- Goals that need no tokens, behind a phrase. -/
theorem Confined.behind (h : Confined gs q ws []) (h' : Confined hs [] ws []) :
    Confined (gs ++ hs) q ws [] := by
  have hboth := h.append h' fun _ hx => hx
  rwa [List.append_nil] at hboth

/-! ## Goals -/

theorem confined_enter (e : Element) : Confined [.enter e] [] ws [] :=
  .of_step (.inr rfl) fun hstep => by
    cases hstep
    exact confined_nil

theorem confined_leave (e : Element) : Confined [.leave e] [] ws [] :=
  .of_step (.inr rfl) fun hstep => by
    cases hstep
    exact confined_nil

theorem confined_emit (i : Instruction) : Confined [.emit i] [] ws [] :=
  .of_step (.inr rfl) fun hstep => by
    simp only [step] at hstep
    split at hstep
    · cases hstep
    · cases hstep
      exact confined_nil

theorem confined_emits (i : List Instruction) : Confined (i.map Goal.emit) [] ws [] := by
  induction i with
  | nil => exact confined_nil
  | cons x i ih => exact (confined_emit x).seq ih

theorem confined_word (h : t.isWord w = true) : Confined [.word w] [t] ws [] :=
  .of_step (.inl (by simp)) fun hstep => by
    simp only [step, Setting.expect, State.facing, Goal.onWord, h] at hstep
    cases hstep
    exact confined_nil

theorem confined_load (name : Token) : Confined [.load name] [] ws [] :=
  .of_step (.inr rfl) fun hstep => by
    simp only [step] at hstep
    split at hstep
    · cases hstep
    · cases hstep
      exact confined_emit _

theorem confined_integer (name : Token) : Confined [.integer name] [] ws [] :=
  .of_step (.inr rfl) fun hstep => by
    simp only [step, Setting.integer] at hstep
    repeat' split at hstep
    all_goals cases hstep
    exact confined_emit _

theorem confined_this (name : Token) : Confined [.this name] [] ws [] :=
  .of_step (.inr rfl) fun hstep => by
    simp only [step, Setting.this] at hstep
    repeat' split at hstep
    all_goals cases hstep
    · exact confined_emit _
    · exact confined_emit _

theorem confined_callEnd (h : t.isWord ")" = true) (target : String) (count : Nat) :
    Confined (Goal.callEnd target count) [t] ws [] :=
  (confined_leave _).seq ((confined_word h).seq (confined_emit _))

theorem confined_arguments {target : String} {count : Nat}
    (h : Confined [.firstArgument target count] q ws []) :
    Confined (Goal.arguments target count) q ws [] :=
  (confined_enter _).seq h

theorem confined_localCall (name : Token)
    (h : ∀ target count, Confined [.firstArgument target count] q ws []) :
    Confined [.localCall name] q ws [] :=
  .of_step (.inr rfl) fun hstep => by
    simp only [step, Setting.localCall] at hstep
    split at hstep
    · cases hstep
    · cases hstep
      exact (confined_emit _).seq (confined_arguments (h _ _))

theorem confined_dispatch (qualifier callee : Token)
    (h : ∀ target count, Confined [.firstArgument target count] q ws []) :
    Confined [.dispatch qualifier callee] q ws [] :=
  .of_step (.inr rfl) fun hstep => by
    simp only [step, Setting.dispatch] at hstep
    repeat' split at hstep
    all_goals cases hstep
    · exact (confined_emit _).seq (confined_arguments (h _ _))
    · exact confined_arguments (h _ _)

/-! ## Words that spell phrases -/

/-- The first token of a spelling is its first lexeme at some place. -/
theorem exists_token {l : Lexeme} {ls : List Lexeme} (h : q.map Token.lexeme = l :: ls) :
    ∃ place r, q = ⟨l.kind, l.text, place⟩ :: r ∧ r.map Token.lexeme = ls := by
  obtain ⟨t, r, rfl, rfl, hr⟩ := List.map_eq_cons_iff.mp h
  exact ⟨t.location, r, rfl, hr⟩

theorem isWord_of_lexeme (h : t.lexeme = .word w) : t.isWord w = true := by
  have hkind : t.kind = (Lexeme.word w).kind := congrArg Lexeme.kind h
  have htext : t.text = w := congrArg Lexeme.text h
  rw [Token.isWord, hkind, htext, Lexeme.word]
  split <;> simp

/-- The signs that make a name more than a variable. -/
def nameSigns : List String := ["[", "(", "."]

/-- The signs that continue an expression. -/
def expressionSigns : List String := operatorSigns ++ nameSigns

theorem onOperator_of_lexeme {op : Operator} (h : t.lexeme = .word op.sign) :
    Goal.onOperator t = some [.term, .emit op.instruction, .operators] := by
  obtain ⟨kind, text, location⟩ := t
  cases h
  cases op <;> rfl

theorem onOperator_of_clear (h : Clear operatorSigns (t :: x)) : Goal.onOperator t = none := by
  have hsigns : Goal.operatorTable.map Prod.fst = operatorSigns := by decide
  rw [Goal.onOperator, Option.map_eq_none_iff, List.find?_eq_none]
  intro e he
  rw [h t rfl e.1 (hsigns ▸ List.mem_map_of_mem he)]
  exact Bool.false_ne_true

/-- What operations are made of does not continue a name. -/
theorem clear_operations {o : Operations} (hr : r.map Token.lexeme = o.spelling)
    (hx : Clear nameSigns x) : Clear nameSigns (r ++ x) := by
  cases o with
  | nil =>
      obtain rfl := List.map_eq_nil_iff.mp hr
      exact hx
  | cons op operand rest =>
      obtain ⟨t, r, rfl, ht, -⟩ := List.map_eq_cons_iff.mp hr
      exact clear_of_isWord (isWord_of_lexeme ht) (sign_not_continuing op)

/-- Operations end where no operator follows. -/
theorem step_operators_clear (c : Setting) (s : State) (hx : Clear operatorSigns x) :
    step c (s.facing x) .operators = .ok ([], s.facing x) := by
  cases x with
  | nil => rfl
  | cons t x => simp only [step, State.choose, State.facing, onOperator_of_clear hx]

theorem run_operators_clear (c : Setting) (s : State) (hx : Clear operatorSigns x) :
    run c (s.facing x) [.operators] = ⟨s.facing x, none⟩ := by
  rw [run_cons_ok [] (step_operators_clear c s hx), List.append_nil, run_nil]

theorem Confined.operations (h : Confined [.operators] q nameSigns [.operators]) :
    Confined [.operators] q expressionSigns [] where
  reads := h.reads
  resumes c s l x hx := by
    have hname : Clear nameSigns x := fun t ht w hw => hx t ht w (List.mem_append_right _ hw)
    have hsign : Clear operatorSigns x := fun t ht w hw => hx t ht w (List.mem_append_left _ hw)
    rw [h.resumes c s l hname]
    refine andThen_congr fun hfault => ?_
    rw [Outcome.extend, extend_of_rest (h.reads c s hfault), run_operators_clear _ _ hsign, run_nil]

/-- An expression in front of a sign that closes it. -/
theorem Confined.closed (h : Confined [.expression] q expressionSigns []) (hw : w ∈ closers)
    (ht : t.isWord w = true) : Confined [.expression, .word w] (q ++ [t]) ws [] := by
  have hclosers : ∀ w ∈ closers, w ∉ expressionSigns := by decide
  exact h.append (confined_word ht) fun x _ => clear_of_isWord ht (hclosers w hw)

/-- The token selects a form of term, and the tokens behind it spell the rest of that form. -/
theorem confined_term (hsel : Goal.onTerm t = some next) (h : Confined next q ws []) :
    Confined [.term] (t :: q) ws [] := by
  have hbody : Confined [.termBody] (t :: q) ws [] :=
    .of_step (.inl (by simp)) fun hstep => by
      simp only [step, Setting.expect, State.facing, hsel] at hstep
      cases hstep
      exact h
  refine .of_step (.inl (by simp)) fun hstep => ?_
  cases hstep
  exact (confined_enter _).seq (hbody.behind (confined_leave _))

theorem confined_element (name : Token) (h : Confined [.expression] q expressionSigns [])
    (ht : t.isWord "[" = true) (ht' : t'.isWord "]" = true) :
    Confined [.identifierTail name] (t :: (q ++ [t'])) ws [] := by
  refine .of_step (.inl (by simp)) fun hstep => ?_
  simp only [step, State.choose, State.facing, Goal.onWord, ht] at hstep
  cases hstep
  have hrest : Confined (Goal.elementRest name) ([] ++ (q ++ [t'])) ws [] :=
    (confined_load name).seq ((h.closed (by decide) ht').behind
      (confined_emits [.arithmetic .add, .pop .pointer 1, .push .that 0]))
  exact hrest

/-- A name and a sign of a call in front of what the call goes on with. -/
theorem confined_callSign (name : Token) (hsel : Goal.onCallSign name t = some next)
    (h : Confined next q ws []) : Confined [.identifierTail name] (t :: q) ws [] := by
  have hsigns : (t.isWord "(" || t.isWord ".") = true := by
    unfold Goal.onCallSign at hsel
    split at hsel
    · next hparen => rw [hparen, Bool.true_or]
    · split at hsel
      · next hdot => rw [hdot, Bool.or_true]
      · cases hsel
  have hbracket : t.isWord "[" = false := by
    rw [Bool.or_eq_true] at hsigns
    rcases hsigns with ht | ht
    · exact isWord_eq_false ht (by decide)
    · exact isWord_eq_false ht (by decide)
  have hsign : Confined [.callSign name] (t :: q) ws [] :=
    .of_step (.inl (by simp)) fun hstep => by
      simp only [step, Setting.expect, State.facing, hsel] at hstep
      cases hstep
      exact h
  refine .of_step (.inl (by simp)) fun hstep => ?_
  simp only [step, State.choose, State.facing, Goal.onWord, hbracket, State.sees, hsigns] at hstep
  cases hstep
  exact hsign

theorem confined_qualifiedCall (qualifier : Token) {x : String} (ht : t.lexeme = .name x)
    (ht' : t'.isWord "(" = true)
    (h : ∀ target count, Confined [.firstArgument target count] q ws []) :
    Confined [.qualifiedCall qualifier] (t :: t' :: q) ws [] := by
  have hname : t.isIdentifier = true := by
    obtain ⟨kind, text, location⟩ := t
    cases ht
    rfl
  refine .of_step (.inl (by simp)) fun hstep => ?_
  simp only [step, Setting.expect, State.facing, Goal.onName, hname] at hstep
  cases hstep
  exact (confined_word ht').seq (confined_dispatch qualifier t h)

/-- A name that is a variable, because nothing makes it more. -/
theorem confined_variable (name : Token) : Confined [.identifierTail name] [] nameSigns [] := by
  have hstep : ∀ (c : Setting) (s : State) {x : List Token}, Clear nameSigns x →
      step c (s.facing x) (.identifierTail name) = .ok ([.load name], s.facing x) := by
    intro c s x hx
    cases x with
    | nil => rfl
    | cons t x =>
        have hbracket : t.isWord "[" = false := hx t rfl "[" (by decide)
        have hparen : t.isWord "(" = false := hx t rfl "(" (by decide)
        have hdot : t.isWord "." = false := hx t rfl "." (by decide)
        simp only [step, State.choose, State.sees, State.facing, Goal.onWord, hbracket, hparen,
          hdot]
        rfl
  have hload : Confined [.load name] [] nameSigns [] := confined_load name
  constructor
  · intro c s
    rw [run_cons_ok [] (hstep c s (clear_nil _))]
    exact hload.reads c s
  · intro c s l x hx
    rw [List.nil_append, run_cons_ok [] (hstep _ s hx), run_cons_ok [] (hstep c s (clear_nil _))]
    exact hload.resumes c s l hx

/-! ## Trees -/

theorem clear_of_head {ls : List Lexeme} {l : Lexeme} (h : q.map Token.lexeme = l :: ls)
    (hl : (∃ w, l = .word w ∧ w ∉ ws) ∨ (l.kind ≠ .keyword ∧ l.kind ≠ .symbol)) : Clear ws q := by
  obtain ⟨t, q, rfl, rfl, -⟩ := List.map_eq_cons_iff.mp h
  rcases hl with ⟨w, ht, hw⟩ | ⟨hkeyword, hsymbol⟩
  · exact clear_of_isWord (isWord_of_lexeme ht) hw
  · intro u hu w _
    obtain rfl : t = u := by simpa using hu
    simp only [Token.lexeme] at hkeyword hsymbol
    simp [Token.isWord, hkeyword, hsymbol]

/-- No expression starts with the sign that closes arguments. -/
theorem clear_expression (e : Expression) {ls : List Lexeme}
    (h : q.map Token.lexeme = e.spelling ++ ls) : Clear [")"] q := by
  have hname : ∀ x, (Lexeme.name x).kind ≠ .keyword ∧ (Lexeme.name x).kind ≠ .symbol :=
    fun x => by simp [Lexeme.name]
  obtain ⟨first, rest⟩ := e
  cases first with
  | integer | string => exact clear_of_head h (.inr (by simp))
  | constant k => exact clear_of_head h (.inl ⟨_, rfl, by cases k <;> decide⟩)
  | this | parens => exact clear_of_head h (.inl ⟨_, rfl, by decide⟩)
  | unary op operand => exact clear_of_head h (.inl ⟨_, rfl, by cases op <;> decide⟩)
  | var x | element x => exact clear_of_head h (.inr (hname x))
  | call k =>
      cases k with
      | unqualified x | qualified x => exact clear_of_head h (.inr (hname x))

/-- What stands behind an argument does not continue it. -/
theorem clear_more (a : Arguments) (h : q.map Token.lexeme = a.moreSpelling ++ [Lexeme.word ")"])
    (x : List Token) : Clear expressionSigns (q ++ x) := by
  have hcloser : ∀ {w : String} {ls : List Lexeme}, w ∉ expressionSigns →
      q.map Token.lexeme = .word w :: ls → Clear expressionSigns (q ++ x) := by
    intro w ls hw hq
    obtain ⟨t, q, rfl, ht, -⟩ := List.map_eq_cons_iff.mp hq
    exact clear_of_isWord (isWord_of_lexeme ht) hw
  cases a with
  | nil => exact hcloser (by decide) h
  | cons e rest => exact hcloser (by decide) h

mutual

theorem Expression.confined (e : Expression) {q : List Token}
    (h : q.map Token.lexeme = e.spelling) : Confined [.expression] q expressionSigns [] := by
  cases e with
  | mk first rest =>
      obtain ⟨q, r, rfl, hq, hr⟩ := List.map_eq_append_iff.mp h
      refine .of_step (.inr rfl) fun hstep => ?_
      cases hstep
      have hoperations := (Operations.confined rest hr).operations
      have hboth : Confined [.term, .operators] (q ++ r) expressionSigns [] :=
        (Term.confined first hq).append hoperations fun x hx =>
          clear_operations hr fun t ht w hw => hx t ht w (List.mem_append_right _ hw)
      exact (confined_enter _).seq (hboth.behind (confined_leave _))

theorem Operations.confined (o : Operations) {q : List Token}
    (h : q.map Token.lexeme = o.spelling) : Confined [.operators] q nameSigns [.operators] := by
  cases o with
  | nil =>
      obtain rfl := List.map_eq_nil_iff.mp h
      constructor
      · intro c s _
        rw [run_operators_clear c s (clear_nil _)]
        rfl
      · intro c s l x hx
        rw [run_operators_clear c s (clear_nil _)]
        rfl
  | cons op operand rest =>
      obtain ⟨t, q, rfl, ht, h⟩ := List.map_eq_cons_iff.mp h
      obtain ⟨q, r, rfl, hq, hr⟩ := List.map_eq_append_iff.mp h
      refine .of_step (.inl (by simp)) fun hstep => ?_
      simp only [step, State.choose, State.facing, onOperator_of_lexeme ht] at hstep
      cases hstep
      exact (Term.confined operand hq).append
        ((confined_emit _).seq (Operations.confined rest hr)) fun x hx => clear_operations hr hx

theorem Term.confined (x : Term) {q : List Token} (h : q.map Token.lexeme = x.spelling) :
    Confined [.term] q nameSigns [] := by
  -- A term starts with its leading lexeme; the tokens behind it are what the selected goals read.
  cases x with
  | integer digits =>
      obtain ⟨_, q, rfl, h₁⟩ := exists_token h
      obtain rfl := List.map_eq_nil_iff.mp h₁
      exact confined_term rfl (confined_integer _)
  | string text =>
      obtain ⟨_, q, rfl, h₁⟩ := exists_token h
      obtain rfl := List.map_eq_nil_iff.mp h₁
      exact confined_term (congrArg some (stringLiteral_eq text)) (confined_emits _)
  | constant k =>
      obtain ⟨_, q, rfl, h₁⟩ := exists_token h
      obtain rfl := List.map_eq_nil_iff.mp h₁
      exact confined_term (show _ = some (k.code.map Goal.emit) by cases k <;> rfl)
        (confined_emits _)
  | this =>
      obtain ⟨_, q, rfl, h₁⟩ := exists_token h
      obtain rfl := List.map_eq_nil_iff.mp h₁
      exact confined_term rfl (confined_this _)
  | unary op operand =>
      obtain ⟨_, q, rfl, h₁⟩ := exists_token h
      exact confined_term (show _ = some [.term, .emit op.instruction] by cases op <;> rfl)
        ((Term.confined operand h₁).behind (confined_emit _))
  | parens e =>
      obtain ⟨_, q, rfl, h₁⟩ := exists_token h
      obtain ⟨q, r, rfl, hq, hr⟩ := List.map_eq_append_iff.mp h₁
      obtain ⟨_, r, rfl, h₂⟩ := exists_token hr
      obtain rfl := List.map_eq_nil_iff.mp h₂
      exact confined_term rfl ((Expression.confined e hq).closed (by decide) (isWord_of_lexeme rfl))
  | var x =>
      obtain ⟨_, q, rfl, h₁⟩ := exists_token h
      obtain rfl := List.map_eq_nil_iff.mp h₁
      exact confined_term rfl (confined_variable _)
  | element x index =>
      obtain ⟨_, q, rfl, h₁⟩ := exists_token h
      obtain ⟨_, q, rfl, h₂⟩ := exists_token h₁
      obtain ⟨q, r, rfl, hq, hr⟩ := List.map_eq_append_iff.mp h₂
      obtain ⟨_, r, rfl, h₃⟩ := exists_token hr
      obtain rfl := List.map_eq_nil_iff.mp h₃
      exact confined_term rfl (confined_element _ (Expression.confined index hq)
        (isWord_of_lexeme rfl) (isWord_of_lexeme rfl))
  | call k => exact (Call.confined k h).weaken (by simp)

theorem Call.confined (k : Call) {q : List Token} (h : q.map Token.lexeme = k.spelling) :
    Confined [.term] q [] [] := by
  cases k with
  | unqualified callee a =>
      obtain ⟨_, q, rfl, h₁⟩ := exists_token h
      obtain ⟨_, q, rfl, h₂⟩ := exists_token h₁
      exact confined_term rfl (confined_callSign _ rfl
        (confined_localCall _ fun target count => Arguments.confined a h₂ target count))
  | qualified qualifier callee a =>
      obtain ⟨_, q, rfl, h₁⟩ := exists_token h
      obtain ⟨_, q, rfl, h₂⟩ := exists_token h₁
      obtain ⟨_, q, rfl, h₃⟩ := exists_token h₂
      obtain ⟨_, q, rfl, h₄⟩ := exists_token h₃
      exact confined_term rfl (confined_callSign _ rfl (confined_qualifiedCall _ rfl
        (isWord_of_lexeme rfl) fun target count => Arguments.confined a h₄ target count))

theorem Arguments.confined (a : Arguments) {q : List Token}
    (h : q.map Token.lexeme = a.spelling ++ [Lexeme.word ")"]) (target : String) (count : Nat) :
    Confined [.firstArgument target count] q [] [] := by
  cases a with
  | nil =>
      obtain ⟨_, q, rfl, h₁⟩ := exists_token h
      obtain rfl := List.map_eq_nil_iff.mp h₁
      refine .of_step (.inl (by simp)) fun hstep => ?_
      cases hstep
      exact confined_callEnd (isWord_of_lexeme rfl) target count
  | cons e rest =>
      rw [Arguments.spelling, List.append_assoc] at h
      have hclear := clear_expression e h
      obtain ⟨q, r, rfl, hq, hr⟩ := List.map_eq_append_iff.mp h
      have hr' : r ≠ [] := by
        rintro rfl
        simp at hr
      refine .of_step (.inl (List.append_ne_nil_of_right_ne_nil q hr')) fun hstep => ?_
      have hsees := fun s => sees_of_clear (s := s) hclear (List.mem_singleton_self _)
      simp only [step, hsees] at hstep
      cases hstep
      exact (Expression.confined e hq).append
        (Arguments.confined_more rest hr target (count + 1)) fun x _ => clear_more rest hr x

theorem Arguments.confined_more (a : Arguments) {q : List Token}
    (h : q.map Token.lexeme = a.moreSpelling ++ [Lexeme.word ")"]) (target : String) (count : Nat) :
    Confined [.moreArguments target count] q [] [] := by
  cases a with
  | nil =>
      obtain ⟨_, q, rfl, h₁⟩ := exists_token h
      obtain rfl := List.map_eq_nil_iff.mp h₁
      refine .of_step (.inl (by simp)) fun hstep => ?_
      cases hstep
      exact confined_callEnd (isWord_of_lexeme rfl) target count
  | cons e rest =>
      obtain ⟨_, q, rfl, h₁⟩ := exists_token h
      obtain ⟨q, r, rfl, hq, hr⟩ := List.map_eq_append_iff.mp (h₁.trans (List.append_assoc ..))
      refine .of_step (.inl (by simp)) fun hstep => ?_
      cases hstep
      exact (Expression.confined e hq).append
        (Arguments.confined_more rest hr target (count + 1)) fun x _ => clear_more rest hr x

end

end Jack.Compile
