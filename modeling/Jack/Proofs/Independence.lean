import Jack.Proofs.Acceptance
import Jack.Proofs.Division

/-!
# Independence of subroutines

What a subroutine compiles to depends on the class around it only through the name of the class,
the variables of the class and the number of labels drawn before. The other subroutines, the
classes that are known and the strictness decide whether the class compiles, not what a subroutine
of it compiles to.

Classes of the same name with the same variables bring their compilations into states that are
alike in what subroutines depend on (`Division.alike_first`). A subroutine that occurs in both
forgets on entry what was current before (`alike_entered`), and both compilations are in
step until it ends (`Compiles.alongside`).
-/

namespace Jack.Compile

variable {c : Setting} {s f : State}

/-! ## Up to the subroutines -/

/-- The opening gives the class its name and leaves all else as it is. -/
theorem run_classOpening (h : run c s Goal.classOpening = ⟨f, none⟩) :
    f.subroutineKind = s.subroutineKind ∧ f.subroutineName = s.subroutineName ∧
      f.scope = s.scope ∧ f.labels = s.labels := by
  obtain ⟨_, _, hstep, h⟩ := run_cons_succeeds h
  cases hstep
  obtain ⟨_, _, hstep, h⟩ := run_cons_succeeds h
  obtain ⟨t, ts, -, rfl, rfl⟩ := step_word hstep
  obtain ⟨_, _, hstep, h⟩ := run_cons_succeeds h
  obtain ⟨u, us, -, hname, rfl⟩ := expect_succeeds hstep
  unfold Goal.onName at hname
  split at hname
  · cases hname
    obtain ⟨_, _, hstep, h⟩ := run_cons_succeeds h
    cases hstep
    obtain ⟨_, _, hstep, h⟩ := run_cons_succeeds h
    obtain ⟨v, vs, -, rfl, rfl⟩ := step_word hstep
    rw [List.nil_append, run_nil] at h
    cases h
    exact ⟨rfl, rfl, rfl, rfl⟩
  · cases hname

/-- The declarations of class variables end at once, or another one follows. -/
theorem run_classVars (h : run c s [.classVars] = ⟨f, none⟩) :
    f = s ∨ ∃ k t ts, s.rest = t :: ts ∧
      Goal.onClassVar t = some (.classVarDec, [.varType k] ++ .word ";" ::
        [.leave .classVarDec, .classVars]) ∧
      run c ((s.mark (.opened Element.classVarDec.tag)).read t ts)
        ([.varType k] ++ .word ";" :: [.leave .classVarDec, .classVars]) = ⟨f, none⟩ := by
  obtain ⟨next, s', hstep, hrun⟩ := run_cons_succeeds h
  simp only [step, State.openElement] at hstep
  rw [List.append_nil] at hrun
  split at hstep
  · cases hstep
    rw [run_nil] at hrun
    cases hrun
    exact .inl rfl
  · next t ts hts =>
      split at hstep
      · next e gs hselect =>
          cases hstep
          have hdec : ∃ k, (e, next) = (.classVarDec, [.varType k] ++ .word ";" ::
              [.leave .classVarDec, .classVars]) := by
            unfold Goal.onClassVar at hselect
            split at hselect
            · cases hselect
              exact ⟨_, rfl⟩
            · split at hselect
              · cases hselect
                exact ⟨_, rfl⟩
              · cases hselect
          obtain ⟨k, hk⟩ := hdec
          cases hk
          exact .inr ⟨k, t, ts, hts, hselect, hrun⟩
      · cases hstep
        rw [run_nil] at hrun
        cases hrun
        exact .inl rfl

section

variable {c₁ c₂ : Setting} {o₁ o₂ s₁ s₂ f₁ f₂ : State}

/-- Both runs read one token before `u₁` and `u₂`: it is the same, and so are the others. -/
theorem heads_alongside {u₁ u₂ : State} {t₁ t₂ : Token} {gs₁ gs₂ : List Goal} {p₁ p₂ : List Token}
    (ht₁ : s₁.rest = t₁ :: u₁.rest) (ht₂ : s₂.rest = t₂ :: u₂.rest)
    (h₁ : run c₁ u₁ gs₁ = ⟨f₁, none⟩) (h₂ : run c₂ u₂ gs₂ = ⟨f₂, none⟩)
    (hp₁ : s₁.rest = p₁ ++ f₁.rest) (hp₂ : s₂.rest = p₂ ++ f₂.rest)
    (hp : p₁.map Token.lexeme = p₂.map Token.lexeme) :
    t₁.lexeme = t₂.lexeme ∧ ∃ q₁ q₂, p₁ = t₁ :: q₁ ∧ u₁.rest = q₁ ++ f₁.rest ∧
      u₂.rest = q₂ ++ f₂.rest ∧ q₁.map Token.lexeme = q₂.map Token.lexeme := by
  obtain ⟨q₁, rfl, hq₁⟩ := exists_read_cons ht₁ h₁ hp₁
  obtain ⟨q₂, rfl, hq₂⟩ := exists_read_cons ht₂ h₂ hp₂
  obtain ⟨ht, hq⟩ := List.cons.inj hp
  exact ⟨ht, q₁, q₂, rfl, hq₁, hq₂, hq⟩

/-- Class variables that are spelled alike are declared alike. -/
theorem classVars_alongside (hl₁ : 0 ≤ o₁.labels) (hl₂ : 0 ≤ o₂.labels) {p₁ p₂ : List Token}
    (hs : Alike o₁ o₂ s₁ s₂) (h₁ : run c₁ s₁ [.classVars] = ⟨f₁, none⟩)
    (h₂ : run c₂ s₂ [.classVars] = ⟨f₂, none⟩) (hp₁ : s₁.rest = p₁ ++ f₁.rest)
    (hp₂ : s₂.rest = p₂ ++ f₂.rest) (hp : p₁.map Token.lexeme = p₂.map Token.lexeme) :
    Alike o₁ o₂ f₁ f₂ := by
  -- On the number of tokens to be read. They run out in both compilations at the same time.
  induction hn : p₁.length using Nat.strongRecOn generalizing s₁ s₂ p₁ p₂ with
  | ind n ih =>
    rcases run_classVars h₁ with rfl | ⟨k₁, t₁, ts₁, hts₁, hk₁, hrun₁⟩
    · obtain rfl := List.self_eq_append_left.mp hp₁
      rcases run_classVars h₂ with rfl | ⟨k₂, t₂, ts₂, hts₂, -, hrun₂⟩
      · exact hs
      · obtain ⟨q₂, rfl, -⟩ := exists_read_cons hts₂ hrun₂ hp₂
        cases hp
    · rcases run_classVars h₂ with rfl | ⟨k₂, t₂, ts₂, hts₂, hk₂, hrun₂⟩
      · obtain rfl := List.self_eq_append_left.mp hp₂
        obtain ⟨q₁, rfl, -⟩ := exists_read_cons hts₁ hrun₁ hp₁
        cases hp
      · obtain ⟨ht, q₁, q₂, rfl, hq₁, hq₂, hq⟩ :=
          heads_alongside hts₁ hts₂ hrun₁ hrun₂ hp₁ hp₂ hp
        have hk : k₁ = k₂ := by
          obtain ⟨l, rfl⟩ := eq_relocated ht
          have hselect := hk₁.symm.trans hk₂
          cases hselect
          rfl
        subst hk
        have hread := (hs.mark (.opened Element.classVarDec.tag)
          (.opened Element.classVarDec.tag)).read t₁ t₂ ts₁ ts₂
        -- The declaration ends with a word, so both compilations are alike behind it.
        obtain ⟨m₁, m₂, r₁, r₂, hm₁, hm₂, hr₁, hr₂, hr, hlength, hm⟩ :=
          run_alongside hl₁ hl₂ hread (.refl rfl) hrun₁ hrun₂ hq₁ hq₂ hq
        obtain ⟨_, _, hstep₁, hm₁⟩ := run_cons_succeeds hm₁
        obtain ⟨_, _, hstep₂, hm₂⟩ := run_cons_succeeds hm₂
        cases hstep₁
        cases hstep₂
        exact ih r₁.length (by rw [List.length_cons] at hn; omega) (hm.mark _ _) hm₁ hm₂ hr₁ hr₂
          hr rfl

/-! ## One subroutine -/

/-- A return type is read. It may become known as a class, but nothing else is changed. -/
theorem run_returnType {gs : List Goal} (h : run c s (.returnType :: gs) = ⟨f, none⟩) :
    ∃ (t : Token) (u : State), s.rest = t :: u.rest ∧ u.className = s.className ∧
      u.scope = s.scope ∧ u.labels = s.labels ∧ u.code = s.code ∧ run c u gs = ⟨f, none⟩ := by
  obtain ⟨next, s', hstep, h⟩ := run_cons_succeeds h
  obtain ⟨t, ts, hts, hselect, rfl⟩ := expect_succeeds hstep
  unfold Goal.onType at hselect
  split at hselect
  · cases hselect
    exact ⟨t, s.read t ts, hts, rfl, rfl, rfl, rfl, h⟩
  · split at hselect
    · cases hselect
      obtain ⟨_, _, hstep, h⟩ := run_cons_succeeds h
      cases hstep
      exact ⟨t, (s.read t ts).know t.text, hts, rfl, rfl, rfl, rfl, h⟩
    · cases hselect

theorem run_subroutineName {kind : SubroutineKind} {gs : List Goal}
    (h : run c s (.subroutineName kind :: gs) = ⟨f, none⟩) :
    ∃ x ts, s.rest = x :: ts ∧
      run c ((s.read x ts).entered kind x.text) gs = ⟨f, none⟩ := by
  obtain ⟨next, s', hstep, h⟩ := run_cons_succeeds h
  obtain ⟨x, ts, hts, hselect, rfl⟩ := expect_succeeds hstep
  unfold Goal.onName at hselect
  split at hselect
  · cases hselect
    obtain ⟨_, _, hstep, h⟩ := run_cons_succeeds h
    simp only [step, Setting.beginSubroutine_eq] at hstep
    split at hstep
    · cases hstep
    · cases hstep
      exact ⟨x, ts, hts, h⟩
  · cases hselect

/-- Subroutines of the same name and kind start alike in classes of the same name with the same
variables, whatever was current before. -/
theorem alike_entered (hname : s₁.className = s₂.className)
    (hclass : s₁.scope.classLevel = s₂.scope.classLevel) (hl₁ : s₁.labels = o₁.labels)
    (hl₂ : s₂.labels = o₂.labels) (hc₁ : s₁.code = o₁.code) (hc₂ : s₂.code = o₂.code)
    (kind : SubroutineKind) (x : String) :
    Alike o₁ o₂ (s₁.entered kind x) (s₂.entered kind x) where
  className := hname
  subroutineKind := rfl
  subroutineName := rfl
  scope := by
    simp only [State.entered, Scope.startSubroutine, hname, hclass]
  labels := ⟨0, hl₁.trans (Int.add_zero _).symm, hl₂.trans (Int.add_zero _).symm⟩
  code :=
    ⟨[], [], hc₁.trans (List.append_nil _).symm, hc₂.trans (List.append_nil _).symm, rfl⟩

theorem signature_alongside {kind : SubroutineKind} {gs : List Goal} {p₁ p₂ : List Token}
    (h₁ : run c₁ s₁ (.returnType :: .subroutineName kind :: gs) = ⟨f₁, none⟩)
    (h₂ : run c₂ s₂ (.returnType :: .subroutineName kind :: gs) = ⟨f₂, none⟩)
    (hp₁ : s₁.rest = p₁ ++ f₁.rest) (hp₂ : s₂.rest = p₂ ++ f₂.rest)
    (hp : p₁.map Token.lexeme = p₂.map Token.lexeme) (hname : s₁.className = s₂.className)
    (hclass : s₁.scope.classLevel = s₂.scope.classLevel) :
    ∃ m₁ m₂ q₁ q₂, run c₁ m₁ gs = ⟨f₁, none⟩ ∧ run c₂ m₂ gs = ⟨f₂, none⟩ ∧
      m₁.rest = q₁ ++ f₁.rest ∧ m₂.rest = q₂ ++ f₂.rest ∧
      q₁.map Token.lexeme = q₂.map Token.lexeme ∧ Alike s₁ s₂ m₁ m₂ := by
  obtain ⟨t₁, u₁, ht₁, hname₁, hscope₁, hlabels₁, hcode₁, hrun₁⟩ := run_returnType h₁
  obtain ⟨t₂, u₂, ht₂, hname₂, hscope₂, hlabels₂, hcode₂, hrun₂⟩ := run_returnType h₂
  obtain ⟨-, q₁, q₂, -, hq₁, hq₂, hq⟩ := heads_alongside ht₁ ht₂ hrun₁ hrun₂ hp₁ hp₂ hp
  obtain ⟨x₁, ts₁, hx₁, hrun₁⟩ := run_subroutineName hrun₁
  obtain ⟨x₂, ts₂, hx₂, hrun₂⟩ := run_subroutineName hrun₂
  obtain ⟨hx, r₁, r₂, -, hr₁, hr₂, hr⟩ := heads_alongside hx₁ hx₂ hrun₁ hrun₂ hq₁ hq₂ hq
  refine ⟨_, _, r₁, r₂, hrun₁, hrun₂, hr₁, hr₂, hr, ?_⟩
  have hscope : u₁.scope.classLevel = u₂.scope.classLevel := by
    rw [hscope₁, hscope₂, hclass]
  rw [text_eq hx]
  apply alike_entered
  · exact hname₁.trans (hname.trans hname₂.symm)
  · exact hscope
  · exact hlabels₁
  · exact hlabels₂
  · exact hcode₁
  · exact hcode₂

/-- Subroutines that are spelled alike compile alike in classes of the same name with the same
variables. -/
theorem Compiles.alongside {b₁ b₂ : Part} (h₁ : Compiles c₁ s₁ b₁ f₁) (h₂ : Compiles c₂ s₂ b₂ f₂)
    (hname : s₁.className = s₂.className)
    (hclass : s₁.scope.classLevel = s₂.scope.classLevel) (hl₁ : 0 ≤ s₁.labels)
    (hl₂ : 0 ≤ s₂.labels) (hb : b₁.tokens.map Token.lexeme = b₂.tokens.map Token.lexeme) :
    b₁.code.map (Instruction.rebase b₁.labels) = b₂.code.map (Instruction.rebase b₂.labels) := by
  obtain ⟨kind₁, k₁, ts₁, hts₁, hkind₁, hrun₁⟩ := h₁.run
  obtain ⟨kind₂, k₂, ts₂, hts₂, hkind₂, hrun₂⟩ := h₂.run
  obtain ⟨hk, p₁, p₂, -, hp₁, hp₂, hp⟩ :=
    heads_alongside hts₁ hts₂ hrun₁ hrun₂ h₁.tokens h₂.tokens hb
  have hkind : kind₁ = kind₂ := by
    obtain ⟨l, rfl⟩ := eq_relocated hk
    exact Option.some.inj (hkind₁.symm.trans hkind₂)
  subst hkind
  obtain ⟨u₁, u₂, q₁, q₂, hrun₁, hrun₂, hq₁, hq₂, hq, hu⟩ :=
    signature_alongside hrun₁ hrun₂ hp₁ hp₂ hp hname hclass
  have hu : Alike s₁ s₂ u₁ u₂ := { hu with }
  -- The body ends with a word, behind which only marks are set.
  obtain ⟨m₁, m₂, _, _, hm₁, hm₂, -, -, -, -, hm⟩ :=
    run_alongside hl₁ hl₂ hu (.refl rfl) hrun₁ hrun₂ hq₁ hq₂ hq
  obtain ⟨code₁, code₂, hcode₁, hcode₂, hcode⟩ := hm.code
  have hb₁ : b₁.code = code₁ := by
    have hend : f₁.code = m₁.code := run_outer rfl hm₁
    rw [h₁.code, hcode₁] at hend
    exact List.append_cancel_left hend
  have hb₂ : b₂.code = code₂ := by
    have hend : f₂.code = m₂.code := run_outer rfl hm₂
    rw [h₂.code, hcode₂] at hend
    exact List.append_cancel_left hend
  rw [hb₁, hb₂, h₁.labels, h₂.labels]
  exact hcode

end

/-! ## Two compilations -/

/-- The name of the class. -/
def Division.name {o : Options} {file : String} {lines : List String} {tokens : List Token}
    (d : Division o file lines tokens) : String :=
  d.opened.className

section

variable {o₁ o₂ : Options} {file₁ file₂ : String} {lines₁ lines₂ : List String}
  {tokens₁ tokens₂ : List Token}

theorem Division.alike_opened (d₁ : Division o₁ file₁ lines₁ tokens₁)
    (d₂ : Division o₂ file₂ lines₂ tokens₂) (hname : d₁.name = d₂.name) :
    Alike d₁.opened d₂.opened d₁.opened d₂.opened := by
  obtain ⟨hkind₁, hsubroutine₁, hscope₁, -⟩ := run_classOpening d₁.opens
  obtain ⟨hkind₂, hsubroutine₂, hscope₂, -⟩ := run_classOpening d₂.opens
  exact {
    className := hname
    subroutineKind := hkind₁.trans hkind₂.symm
    subroutineName := hsubroutine₁.trans hsubroutine₂.symm
    scope := hscope₁.trans hscope₂.symm
    labels := ⟨0, (Int.add_zero _).symm, (Int.add_zero _).symm⟩
    code := ⟨[], [], (List.append_nil _).symm, (List.append_nil _).symm, rfl⟩ }

theorem Division.labels_opened (d : Division o₁ file₁ lines₁ tokens₁) : d.opened.labels = 0 :=
  (run_classOpening d.opens).2.2.2

theorem Division.alike_first (d₁ : Division o₁ file₁ lines₁ tokens₁)
    (d₂ : Division o₂ file₂ lines₂ tokens₂) (hname : d₁.name = d₂.name)
    (hvars : d₁.vars.map Token.lexeme = d₂.vars.map Token.lexeme) :
    Alike d₁.opened d₂.opened d₁.first d₂.first :=
  classVars_alongside (Int.le_of_eq d₁.labels_opened.symm) (Int.le_of_eq d₂.labels_opened.symm)
    (d₁.alike_opened d₂ hname) d₁.declares d₂.declares d₁.spelled d₂.spelled hvars

/-- No subroutine starts with a negative number of labels. -/
theorem Division.labels_nonneg (d : Division o₁ file₁ lines₁ tokens₁) {m : State}
    (h : d.first.labels ≤ m.labels) : 0 ≤ m.labels := by
  have hopened := d.labels_opened
  have hforward := (run_forward (o₁.setting file₁ lines₁ tokens₁) d.opened [.classVars]).labels
  rw [d.declares] at hforward
  dsimp only at hforward
  omega

end

/-- The code of a class is made up of blocks, one for each subroutine, and two classes of the same
name with the same variables have the same block for a subroutine that both have, apart from the
number of labels drawn before it. -/
theorem compileTokens_independent (o₁ o₂ : Options) (file₁ file₂ : String)
    (lines₁ lines₂ : List String) (tokens₁ tokens₂ : List Token)
    (h₁ : (compileTokens o₁ file₁ lines₁ tokens₁).fault = none)
    (h₂ : (compileTokens o₂ file₂ lines₂ tokens₂).fault = none) :
    Nonempty (Division o₁ file₁ lines₁ tokens₁) ∧ Nonempty (Division o₂ file₂ lines₂ tokens₂) ∧
      ∀ (d₁ : Division o₁ file₁ lines₁ tokens₁) (d₂ : Division o₂ file₂ lines₂ tokens₂),
        (compileTokens o₁ file₁ lines₁ tokens₁).state.code = d₁.parts.flatMap Part.code ∧
        (compileTokens o₂ file₂ lines₂ tokens₂).state.code = d₂.parts.flatMap Part.code ∧
        (d₁.name = d₂.name → d₁.vars.map Token.lexeme = d₂.vars.map Token.lexeme →
          ∀ b₁ ∈ d₁.parts, ∀ b₂ ∈ d₂.parts,
            b₁.tokens.map Token.lexeme = b₂.tokens.map Token.lexeme →
            b₁.code.map (Instruction.rebase b₁.labels) =
              b₂.code.map (Instruction.rebase b₂.labels)) := by
  refine ⟨exists_division h₁, exists_division h₂, fun d₁ d₂ => ⟨d₁.code h₁, d₂.code h₂, ?_⟩⟩
  intro hname hvars b₁ hb₁ b₂ hb₂ hb
  obtain ⟨m₁, m₁', hm₁, hwithin₁, hlabels₁⟩ := d₁.compiles.mem hb₁
  obtain ⟨m₂, m₂', hm₂, hwithin₂, hlabels₂⟩ := d₂.compiles.mem hb₂
  have hfirst := d₁.alike_first d₂ hname hvars
  have hnames : m₁.className = m₂.className := by
    rw [hwithin₁.className, hwithin₂.className, hfirst.className]
  have hclass : m₁.scope.classLevel = m₂.scope.classLevel := by
    rw [hwithin₁.classLevel, hwithin₂.classLevel, hfirst.scope]
  exact hm₁.alongside hm₂ hnames hclass (d₁.labels_nonneg hlabels₁) (d₂.labels_nonneg hlabels₂) hb

/-! ## Evaluating a run -/

/-- The goals and the state after `n` steps, or at the end of the run if it ends before. -/
def steps (c : Setting) : Nat → State → List Goal → List Goal × State
  | 0, s, gs => (gs, s)
  | _, s, [] => ([], s)
  | n + 1, s, g :: gs =>
    match step c s g with
    | .ok (next, s') => steps c n s' (next ++ gs)
    | .error _ => (g :: gs, s)

/-- A run goes on from wherever some of its steps lead. -/
theorem run_steps {c : Setting} {n : Nat} {s s' : State} {gs gs' : List Goal}
    (h : steps c n s gs = (gs', s')) : run c s gs = run c s' gs' := by
  fun_induction steps c n s gs with
  | case1 s gs =>
      cases h
      rfl
  | case2 n s hn =>
      cases h
      rfl
  | case3 n s g gs next s' hstep ih => rw [run_cons_ok gs hstep, ih h]
  | case4 n s g gs e hstep =>
      cases h
      rfl

theorem run_of_steps {c : Setting} {n : Nat} {s f : State} {gs : List Goal}
    (h : steps c n s gs = ([], f)) : run c s gs = ⟨f, none⟩ := by
  rw [run_steps h, run_nil]

/-! ## A subroutine in two classes -/

def mainOpening : List Token :=
  tokensAt ⟨"Main.jack", 1, 1⟩ [.word "class", .name "Main", .word Goal.openBrace]

def mainVars : List Token :=
  tokensAt ⟨"Main.jack", 2, 3⟩ [.word "static", .word "int", .name "n", .word ";"]

def mainClosing : List Token := tokensAt ⟨"Main.jack", 9, 1⟩ [.word Goal.closeBrace]

/-- A method that comes first in one of the classes; it draws two labels. -/
def skip : List Token :=
  tokensAt ⟨"Main.jack", 3, 3⟩
    [.word "method", .word "void", .name "skip", .word "(", .word "int", .name "k", .word ")",
      .word Goal.openBrace, .word "if", .word "(", .name "k", .word ")", .word Goal.openBrace,
      .word Goal.closeBrace, .word "return", .word ";", .word Goal.closeBrace]

/-- A function in both classes, on different lines. -/
def spin (line : Nat) : List Token :=
  tokensAt ⟨"Main.jack", line, 3⟩
    [.word "function", .word "void", .name "spin", .word "(", .word ")", .word Goal.openBrace,
      .word "while", .word "(", .name "n", .word ")", .word Goal.openBrace, .word "do",
      .name "Sys", .word ".", .name "wait", .word "(", .name "n", .word ")", .word ";",
      .word Goal.closeBrace, .word "return", .word ";", .word Goal.closeBrace]

def skipCode : List Instruction :=
  [.function "Main.skip" 0, .push .argument 0, .pop .pointer 0, .push .argument 1,
    .arithmetic .not, .ifGoto "L1", .goto "L2", .label "L1", .label "L2", .ret]

def spinCode (x y : String) : List Instruction :=
  [.function "Main.spin" 0, .label x, .push .static 0, .arithmetic .not, .ifGoto y,
    .push .static 0, .call "Sys.wait" 1, .pop .temp 0, .goto x, .label y, .ret]

def skipPart : Part := ⟨skip, 0, skipCode⟩

/-- The function with no labels drawn before it. -/
def spinFirst : Part := ⟨spin 3, 0, spinCode "L1" "L2"⟩

/-- The function behind the method. -/
def spinSecond : Part := ⟨spin 6, 2, spinCode "L3" "L4"⟩

def alone : List Token := mainOpening ++ mainVars ++ spin 3 ++ mainClosing

def behind : List Token := mainOpening ++ mainVars ++ skip ++ spin 6 ++ mainClosing

/-- The class behind its variables. -/
def mainFirst (known : List String) (rest : List Token) : State :=
  { rest := rest, className := "Main", known := known, scope := ⟨[⟨"n", "int", .static, 0⟩], []⟩ }

def aloneLast : State :=
  { mainFirst ["Main"] mainClosing with
    subroutineKind := some .function, subroutineName := "spin", labels := 2
    subroutines := [("spin", .function)], emitted := (spinCode "L1" "L2").reverse }

theorem alone_compiles :
    compileTokens {} "Main.jack" [] alone = ⟨{ aloneLast with rest := [] }, none⟩ :=
  run_of_steps (n := 200) (by decide +kernel)

theorem alone_division :
    ∃ d : Division {} "Main.jack" [] alone, d.name = "Main" ∧ d.vars = mainVars ∧
      spinFirst ∈ d.parts := by
  refine ⟨{
    opened :=
      { rest := mainVars ++ spin 3 ++ mainClosing, className := "Main", known := ["Main"] }
    first := mainFirst ["Main"] (spin 3 ++ mainClosing)
    last := aloneLast
    vars := mainVars
    parts := [spinFirst]
    opens := run_of_steps (n := 200) ?_
    declares := run_of_steps (n := 200) ?_
    spelled := rfl
    compiles :=
      .cons ⟨⟨.function, _, _, rfl, rfl, run_of_steps (n := 200) ?_⟩, rfl, rfl, ?_⟩ (.nil _)
    closes := (run_of_steps (n := 200) ?_).trans alone_compiles.symm }, rfl, rfl, ?member⟩
  case member => exact List.mem_singleton_self _
  all_goals decide +kernel

def behindOptions : Options := { knownClasses := ["Sys"], strict := true }

def behindMiddle : State :=
  { mainFirst ["Main", "Sys"] (spin 6 ++ mainClosing) with
    subroutineKind := some .method, subroutineName := "skip", labels := 2
    subroutines := [("skip", .method)]
    scope :=
      { classLevel := [⟨"n", "int", .static, 0⟩]
        subroutine := [⟨"this", "Main", .argument, 0⟩, ⟨"k", "int", .argument, 1⟩] }
    emitted := skipCode.reverse }

def behindLast : State :=
  { mainFirst ["Main", "Sys"] mainClosing with
    subroutineKind := some .function, subroutineName := "spin", labels := 4
    subroutines := [("skip", .method), ("spin", .function)]
    emitted := (skipCode ++ spinCode "L3" "L4").reverse }

theorem behind_compiles :
    compileTokens behindOptions "Main.jack" [] behind = ⟨{ behindLast with rest := [] }, none⟩ :=
  run_of_steps (n := 200) (by decide +kernel)

theorem behind_division :
    ∃ d : Division behindOptions "Main.jack" [] behind, d.name = "Main" ∧ d.vars = mainVars ∧
      spinSecond ∈ d.parts := by
  refine ⟨{
    opened :=
      { rest := mainVars ++ skip ++ spin 6 ++ mainClosing, className := "Main",
        known := ["Main", "Sys"] }
    first := mainFirst ["Main", "Sys"] (skip ++ spin 6 ++ mainClosing)
    last := behindLast
    vars := mainVars
    parts := [skipPart, spinSecond]
    opens := run_of_steps (n := 200) ?_
    declares := run_of_steps (n := 200) ?_
    spelled := rfl
    compiles :=
      .cons (m := behindMiddle)
        ⟨⟨.method, _, _, rfl, rfl, run_of_steps (n := 200) ?_⟩, rfl, rfl, ?_⟩
      (.cons ⟨⟨.function, _, _, rfl, rfl, run_of_steps (n := 200) ?_⟩, rfl, rfl, ?_⟩ (.nil _))
    closes := (run_of_steps (n := 200) ?_).trans behind_compiles.symm }, rfl, rfl, ?member⟩
  case member => exact List.mem_cons_of_mem _ (List.mem_singleton_self _)
  all_goals decide +kernel

theorem spin_independent :
    (compileTokens {} "Main.jack" [] alone).fault = none ∧
      (compileTokens behindOptions "Main.jack" [] behind).fault = none ∧
      ∃ (d₁ : Division {} "Main.jack" [] alone) (d₂ : Division behindOptions "Main.jack" [] behind),
        spinFirst ∈ d₁.parts ∧ spinSecond ∈ d₂.parts ∧
        spinFirst.code.map (Instruction.rebase spinFirst.labels) =
          spinSecond.code.map (Instruction.rebase spinSecond.labels) := by
  have h₁ : (compileTokens {} "Main.jack" [] alone).fault = none := by rw [alone_compiles]
  have h₂ : (compileTokens behindOptions "Main.jack" [] behind).fault = none := by
    rw [behind_compiles]
  obtain ⟨d₁, hname₁, hvars₁, hb₁⟩ := alone_division
  obtain ⟨d₂, hname₂, hvars₂, hb₂⟩ := behind_division
  have hvars : d₁.vars.map Token.lexeme = d₂.vars.map Token.lexeme := by rw [hvars₁, hvars₂]
  have htokens : spinFirst.tokens.map Token.lexeme = spinSecond.tokens.map Token.lexeme := by
    decide +kernel
  obtain ⟨-, -, hblocks⟩ := (compileTokens_independent _ _ _ _ _ _ _ _ h₁ h₂).2.2 d₁ d₂
  exact ⟨h₁, h₂, d₁, d₂, hb₁, hb₂,
    hblocks (hname₁.trans hname₂.symm) hvars _ hb₁ _ hb₂ htokens⟩

end Jack.Compile
