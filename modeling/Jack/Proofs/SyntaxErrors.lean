import Jack.Proofs.Acceptance
import Jack.Proofs.Lookahead

/-!
# Syntax errors

A compilation complains about an unexpected token as early as a reader of the tokens could know.
What it has read up to there begins some class (`Moves.completable`), and with the token in view
added no class begins so (`Moves.not_spans`).

Every goal stands for phrases of the grammar (`Goal.phrases`); goals that only act on the state
stand for none. A step on a goal makes the moves of these phrases or leaves them as they are, and
it complains about the token in view only if the first phrase refuses it (`step_follows`). So a run
is a chain of moves, and a complaint is a refusal at its end (`run_follows`).
-/

namespace Jack.Compile

open Syntax
open Syntax.Phrase (Moves predict onWords)

/-- The phrases that a goal stands for. -/
def Goal.phrases : Goal → List Phrase
  | word w => [.word w]
  | className | varName _ _ _ | subroutineName _ => [.name]
  | classVars => [.classVars]
  | varType _ => Phrase.declaration
  | moreNames _ _ => [.moreNames]
  | subroutines => [.subroutines]
  | returnType => [.returnType]
  | parameters => [.parameters]
  | parameter => [.type, .name]
  | moreParameters => [.moreParameters]
  | localVars => [.localVars]
  | endOfInput => [.finish]
  | statements | statementList => [.statements]
  | letTarget => [.name, .assignTail]
  | assign _ | assignTail _ => [.assignTail]
  | ifBody => Phrase.condition ++ Phrase.block ++ [.elsePart]
  | elsePart => [.elsePart]
  | whileBody => Phrase.condition ++ Phrase.block
  | doTarget => [.name, .callTail]
  | returnValue => [.returnValue]
  | expression => [.expression]
  | term | termBody => [.term]
  | operators => [.operators]
  | identifierTail _ => [.nameTail]
  | callSign _ => [.callTail]
  | localCall _ | dispatch _ _ | firstArgument _ _ => [.arguments]
  | qualifiedCall _ => [.name, .word "(", .arguments]
  | moreArguments _ _ => [.moreArguments]
  | enter _ | leave _ | emit _ | nameClass _ | noteClass _ | declare _ _ _ | beginSubroutine _ _
  | header | verifyCalls | integer _ | this _ | load _ => []

/-- The phrases that goals stand for, one goal behind the other. -/
def phrasesOf (gs : List Goal) : List Phrase := gs.flatMap Goal.phrases

theorem phrasesOf_append (gs hs : List Goal) :
    phrasesOf (gs ++ hs) = phrasesOf gs ++ phrasesOf hs :=
  List.flatMap_append

theorem phrasesOf_emits (i : List Instruction) : phrasesOf (i.map Goal.emit) = [] := by
  simp [phrasesOf, List.flatMap_map, Goal.phrases]

/-- The fault is a complaint about an unexpected token. -/
def Fault.isUnexpected : Fault → Bool
  | diagnostic d =>
    match d.problem with
    | .unexpectedToken _ _ => true
    | _ => false
  | misread _ _ => false

/-- The result of a step agrees with the phrases of its goal. -/
def Follows (c : Setting) (s : State) (g : Goal) : StepResult → Prop
  | .ok (next, s') => ∃ front, s.view.rest = front ++ s'.view.rest ∧
      Moves s'.view.rest.head? g.phrases front (phrasesOf next)
  | .error f => f.isUnexpected = true → ∃ expected p ps, f = c.unexpectedAt s expected ∧
      g.phrases = p :: ps ∧ predict s.view.rest.head? p = .refuse

variable {c : Setting} {s : State} {g : Goal}

/-! ## Steps that read no token -/

theorem follows_stay {next : List Goal} {s' : State} (hr : s'.rest = s.rest)
    (hp : g.phrases = phrasesOf next) : Follows c s g (.ok (next, s')) := by
  refine ⟨[], by rw [view_rest, view_rest, hr, List.nil_append], ?_⟩
  rw [hp]
  exact .refl _

theorem follows_become {next : List Goal} {s' : State} {p : Phrase} (hr : s'.rest = s.rest)
    (hg : g.phrases = [p]) (hp : predict s.view.rest.head? p = .become (phrasesOf next)) :
    Follows c s g (.ok (next, s')) := by
  have hrest : s'.view.rest = s.view.rest := by rw [view_rest, view_rest, hr]
  refine ⟨[], by rw [hrest, List.nil_append], ?_⟩
  rw [hg, hrest]
  exact .become hp (by rw [List.append_nil]; exact .refl _)

theorem follows_other {f : Fault} (hf : f.isUnexpected = false) : Follows c s g (.error f) := by
  intro h
  rw [hf] at h
  cases h

/-! ## Steps that look at a token -/

theorem follows_read {t : Token} {ts : List Token} (hts : s.rest = t :: ts) {next : List Goal}
    {s' : State} (hs' : s'.rest = ts) {p : Phrase} {ps qs : List Phrase} (hg : g.phrases = p :: ps)
    (hp : predict (some t.lexeme) p = .read qs) (hnext : phrasesOf next = qs ++ ps) :
    Follows c s g (.ok (next, s')) := by
  refine ⟨[t.lexeme], by rw [view_rest, view_rest, hts, hs', List.map_cons]; rfl, ?_⟩
  rw [hg, hnext]
  exact .read hp (.refl _)

theorem follows_refuse {p : Phrase} {ps : List Phrase} (hg : g.phrases = p :: ps)
    {expected : String} (hp : predict s.view.rest.head? p = .refuse) :
    Follows c s g (.error (c.unexpectedAt s expected)) :=
  fun _ => ⟨expected, p, ps, rfl, hg, hp⟩

theorem view_head {t : Token} {ts : List Token} (hts : s.rest = t :: ts) :
    s.view.rest.head? = some t.lexeme := by
  rw [view_rest, hts, List.map_cons, List.head?_cons]

theorem view_head_nil (hts : s.rest = []) : s.view.rest.head? = none := by
  rw [view_rest, hts, List.map_nil, List.head?_nil]

/-- A token is expected that the phrase reads; it refuses any other. -/
theorem follows_expect {p : Phrase} {ps : List Phrase} (hg : g.phrases = p :: ps)
    {expected : String} {select : Token → Option (List Goal)}
    (hnone : predict none p = .refuse)
    (hsome : ∀ t ∈ s.rest, match select t with
      | some next => ∃ qs, predict (some t.lexeme) p = .read qs ∧ phrasesOf next = qs ++ ps
      | none => predict (some t.lexeme) p = .refuse) :
    Follows c s g (c.expect s expected select) := by
  unfold Setting.expect
  split
  · next hts => exact follows_refuse hg (by rwa [view_head_nil hts])
  · next t ts hts =>
      have hmove := hsome t (hts ▸ List.mem_cons_self ..)
      split
      · next next hsel =>
          simp only [hsel] at hmove
          obtain ⟨qs, hread, hnext⟩ := hmove
          exact follows_read hts rfl hg hread hnext
      · next hsel =>
          simp only [hsel] at hmove
          exact follows_refuse hg (by rwa [view_head hts])

/-- A table of words says of a valid token what the selection by that table says. -/
theorem onWords_selects {β : Type} {select : Token → Option β} {table : List (String × β)}
    (h : Selects select table) {t : Token} (ht : t.lexeme.valid = true) (f : β → Move)
    (otherwise : Move) :
    onWords (table.map fun e => (e.1, f e.2)) otherwise (some t.lexeme) =
      ((select t).map f).getD otherwise := by
  refine Phrase.onWords_cases (P := (· = ((select t).map f).getD otherwise)) ?_ ?_
  · intro e he heq
    obtain ⟨⟨w, b⟩, hmem, rfl⟩ := List.mem_map.mp he
    rw [(h t ht b).mpr ⟨w, hmem, Option.some.inj heq⟩]
    rfl
  · intro hne
    cases hsel : select t with
    | none => rfl
    | some b =>
        obtain ⟨w, hmem, heq⟩ := (h t ht b).mp hsel
        have hentry : (w, f b) ∈ table.map fun e => (e.1, f e.2) :=
          List.mem_map.mpr ⟨(w, b), hmem, rfl⟩
        exact absurd (congrArg some heq) (hne _ hentry)

/-- Each word of a table is read, and the phrases of the goals that it selects are due then. -/
def readMoves (table : List (String × List Goal)) : List (String × Move) :=
  table.map fun e => (e.1, .read (phrasesOf e.2))

theorem follows_choose (hs : s.Sound) {select : Token → Option (List Goal)}
    {table : List (String × List Goal)} (h : Selects select table) {otherwise : List Goal}
    {p : Phrase} (hg : g.phrases = [p])
    (hp : predict s.view.rest.head? p =
      onWords (readMoves table) (.become (phrasesOf otherwise)) s.view.rest.head?) :
    Follows c s g (.ok (s.choose select otherwise)) := by
  unfold State.choose
  split
  · next hts =>
      rw [view_head_nil hts, Phrase.onWords_of_ne (fun _ _ => by simp)] at hp
      exact follows_become rfl hg (by rwa [view_head_nil hts])
  · next t ts hts =>
      have hvalid := hs.valid t (hts ▸ List.mem_cons_self ..)
      rw [view_head hts, readMoves,
        onWords_selects h hvalid (fun gs => .read (phrasesOf gs)) (.become (phrasesOf otherwise))]
        at hp
      split
      · next next hsel =>
          rw [hsel] at hp
          exact follows_read hts rfl hg hp (List.append_nil _).symm
      · next hsel =>
          rw [hsel] at hp
          exact follows_become rfl hg (by rwa [view_head hts])

theorem follows_openElement (hs : s.Sound) {select : Token → Option (Element × List Goal)}
    {table : List (String × Element × List Goal)} (h : Selects select table) {p : Phrase}
    (hg : g.phrases = [p])
    (hp : ∀ l, predict l p =
      onWords (table.map fun e => (e.1, .read (phrasesOf e.2.2))) (.become []) l) :
    Follows c s g (.ok (s.openElement select)) := by
  unfold State.openElement
  split
  · next hts =>
      refine follows_become rfl hg ?_
      rw [view_head_nil hts, hp, Phrase.onWords_of_ne (fun _ _ => by simp)]
      rfl
  · next t ts hts =>
      have hvalid := hs.valid t (hts ▸ List.mem_cons_self ..)
      have hmove : predict (some t.lexeme) p = _ :=
        (hp _).trans (onWords_selects h hvalid (fun b => .read (phrasesOf b.2)) (.become []))
      split
      · next e next hsel =>
          rw [hsel] at hmove
          exact follows_read hts rfl hg hmove (List.append_nil _).symm
      · next hsel =>
          rw [hsel] at hmove
          exact follows_become rfl hg (by rwa [view_head hts])

/-- One word decides between two ways on, without being read. -/
theorem follows_sees (hs : s.Sound) {w : String} {present absent : List Goal} {p : Phrase}
    (hg : g.phrases = [p])
    (hp : ∀ l, predict l p =
      onWords [(w, .become (phrasesOf present))] (.become (phrasesOf absent)) l) :
    Follows c s g (.ok (if s.sees w then present else absent, s)) := by
  refine follows_become rfl hg ?_
  rw [hp]
  cases hsees : s.sees w with
  | true =>
      rw [(sees_iff hs w).mp hsees]
      simp [onWords]
  | false =>
      refine Phrase.onWords_of_ne fun e he => ?_
      obtain rfl := List.mem_singleton.mp he
      exact (sees_eq_false_iff hs w).mp hsees

theorem follows_expectTable (hs : s.Sound) {select : Token → Option (List Goal)}
    {table : List (String × List Goal)} (h : Selects select table) {expected : String}
    {p : Phrase} (hg : g.phrases = [p])
    (hp : ∀ l, predict l p = onWords (readMoves table) .refuse l) :
    Follows c s g (c.expect s expected select) := by
  refine follows_expect hg ?_ fun t ht => ?_
  · rw [hp, Phrase.onWords_of_ne (fun _ _ => by simp)]
  · rw [hp, readMoves, onWords_selects h (hs.valid t ht) (fun gs => .read (phrasesOf gs)) .refuse]
    split
    · next next hsel => exact ⟨phrasesOf next, by rw [hsel]; rfl, (List.append_nil _).symm⟩
    · next hsel => rw [hsel]; rfl

theorem follows_onName {ps : List Phrase} (hg : g.phrases = .name :: ps) {expected : String}
    {next : Token → List Goal} (hnext : ∀ t, phrasesOf (next t) = ps) :
    Follows c s g (c.expect s expected (Goal.onName next)) := by
  refine follows_expect hg rfl fun t _ => ?_
  unfold Goal.onName
  split
  · next next' hsel =>
      split at hsel
      · next hid =>
          cases hsel
          rw [isIdentifier_iff.mp hid]
          exact ⟨[], rfl, hnext t⟩
      · cases hsel
  · next hsel =>
      split at hsel
      · cases hsel
      · next hid =>
          have hkind : t.kind ≠ .identifier := by simpa [Token.isIdentifier] using hid
          exact if_neg fun h => hkind (Option.some.inj h)

theorem onType_of_word {w : String} {ws : List String} (hw : w ∈ ws) :
    Phrase.onType ws (some (.word w)) = .read [] := by
  unfold Phrase.onType Phrase.onName
  split
  · rfl
  · refine Phrase.onWords_cases (P := (· = .read [])) ?_ ?_
    · intro e he _
      obtain ⟨x, -, rfl⟩ := List.mem_map.mp he
      rfl
    · intro hne
      exact absurd rfl (hne _ (List.mem_map.mpr ⟨w, hw, rfl⟩))

theorem follows_onType {w : String} {ws : List String}
    (hws : ∀ x ∈ w :: ws, Token.keywords.contains x = true) {p : Phrase} {ps : List Phrase}
    (hp : ∀ l, predict l p = Phrase.onType (w :: ws) l) (hg : g.phrases = p :: ps)
    {expected : String} {next : String → List Goal} (hnext : ∀ x, phrasesOf (next x) = ps) :
    Follows c s g (c.expect s expected (Goal.onType (w :: ws) next)) := by
  have hread : ∀ x, ∃ qs, Move.read [] = .read qs ∧ phrasesOf (next x) = qs ++ ps :=
    fun x => ⟨[], rfl, hnext x⟩
  refine follows_expect hg (by rw [hp]; exact Phrase.onWords_of_ne fun _ _ => by simp) fun t _ => ?_
  rw [hp, Goal.onType]
  by_cases hkeyword : t.isKeyword (w :: ws) = true
  · obtain ⟨x, hx, hlex⟩ := (isKeyword_iff hws).mp hkeyword
    rw [if_pos hkeyword, hlex, onType_of_word hx]
    exact hread t.text
  · rw [if_neg hkeyword]
    by_cases hid : t.isIdentifier = true
    · rw [if_pos hid, isIdentifier_iff.mp hid]
      exact hread t.text
    · have hkind : t.kind ≠ .identifier := by simpa [Token.isIdentifier] using hid
      rw [if_neg hid]
      refine (if_neg fun h => hkind (Option.some.inj h)).trans ?_
      refine Phrase.onWords_of_ne fun e he heq => hkeyword ((isKeyword_iff hws).mpr ?_)
      obtain ⟨x, hx, rfl⟩ := List.mem_map.mp he
      exact ⟨x, hx, Option.some.inj heq⟩

/-! ## Terms -/

theorem phrasesOf_stringLiteral (text : String) : phrasesOf (Goal.stringLiteral text) = [] := by
  rw [stringLiteral_eq, phrasesOf_emits]

/-- A keyword or a symbol that no entry of the table of terms is spelled with. -/
theorem predict_term_of_ne {l : Lexeme} (hkind : l.kind = .keyword ∨ l.kind = .symbol)
    (h : ∀ e ∈ Phrase.termMoves, l ≠ .word e.1) : predict (some l) .term = .refuse := by
  have hwords : predict (some l) .term = onWords Phrase.termMoves .refuse (some l) := by
    rcases hkind with hkind | hkind <;> simp only [predict, Option.map_some, hkind]
  rw [hwords]
  exact Phrase.onWords_of_ne fun e he heq => h e he (Option.some.inj heq)

/-- The table of terms says of a token what its selection says. -/
theorem predict_term (t : Token) :
    match Goal.onTerm t with
    | some next => predict (some t.lexeme) .term = .read (phrasesOf next)
    | none => predict (some t.lexeme) .term = .refuse := by
  obtain ⟨kind, text, location⟩ := t
  have hkeywords : ∀ e ∈ Phrase.termMoves, (Lexeme.word e.1).kind = .keyword →
      e.1 ∈ ["true", "false", "null", "this"] := by decide
  have hsymbols : ∀ e ∈ Phrase.termMoves, (Lexeme.word e.1).kind = .symbol →
      e.1 ∈ ["-", "~", "("] := by decide
  cases kind with
  | integer => rfl
  | string => exact (congrArg Move.read (phrasesOf_stringLiteral text)).symm
  | identifier => rfl
  | keyword =>
      by_cases hmem : text ∈ ["true", "false", "null", "this"]
      · simp only [List.mem_cons, List.not_mem_nil, or_false] at hmem
        rcases hmem with rfl | rfl | rfl | rfl <;> rfl
      · have hnone : Goal.onTerm ⟨.keyword, text, location⟩ = none := by
          simp only [List.mem_cons, List.not_mem_nil, or_false, not_or] at hmem
          simp [Goal.onTerm, hmem]
        rw [hnone]
        refine predict_term_of_ne (.inl rfl) fun e he heq => hmem ?_
        rw [show text = e.1 from congrArg Lexeme.text heq]
        exact hkeywords e he (congrArg Lexeme.kind heq).symm
  | symbol =>
      by_cases hmem : text ∈ ["-", "~", "("]
      · simp only [List.mem_cons, List.not_mem_nil, or_false] at hmem
        rcases hmem with rfl | rfl | rfl <;> rfl
      · have hnone : Goal.onTerm ⟨.symbol, text, location⟩ = none := by
          simp only [List.mem_cons, List.not_mem_nil, or_false, not_or] at hmem
          simp [Goal.onTerm, hmem]
        rw [hnone]
        refine predict_term_of_ne (.inr rfl) fun e he heq => hmem ?_
        rw [show text = e.1 from congrArg Lexeme.text heq]
        exact hsymbols e he (congrArg Lexeme.kind heq).symm

theorem follows_identifierTail (hs : s.Sound) (name : Token) :
    Follows c s (.identifierTail name) (step c s (.identifierTail name)) := by
  refine follows_choose hs (selects_onWord "[" _) (p := .nameTail) rfl ?_
  cases hparen : s.sees "(" with
  | true =>
      rw [(sees_iff hs "(").mp hparen]
      rfl
  | false =>
      cases hdot : s.sees "." with
      | true =>
          rw [(sees_iff hs ".").mp hdot]
          rfl
      | false =>
          have hparen := (sees_eq_false_iff hs "(").mp hparen
          have hdot := (sees_eq_false_iff hs ".").mp hdot
          simp only [predict, onWords, readMoves, List.map_cons, List.map_nil, List.find?_cons,
            List.find?_nil, hparen, hdot, decide_false]
          rfl

/-! ## Every step -/

theorem isUnexpected_resolve {name : Token} {f : Fault} (h : c.resolve s name = .error f) :
    f.isUnexpected = false := by
  unfold Setting.resolve at h
  split at h
  · cases h
    rfl
  · split at h
    · cases h
      rfl
    · cases h

theorem isUnexpected_fault? {i : Instruction} {p : Problem} (h : i.fault? = some p) :
    Fault.isUnexpected (.diagnostic { problem := p }) = false := by
  have hcategory := Syntax.category_fault? h
  cases p with
  | unexpectedToken => cases hcategory
  | _ => rfl

theorem isUnexpected_callFault? {t : Token} {f : Fault} (h : c.callFault? s t = some f) :
    f.isUnexpected = false := by
  unfold Setting.callFault? at h
  split at h
  · cases h
    rfl
  · cases h
  · cases h
    rfl

/-- Every step agrees with the phrases of its goal. -/
theorem step_follows (hs : s.Sound) (g : Goal) : Follows c s g (step c s g) := by
  cases g with
  | word w => exact follows_expectTable hs (selects_onWord w []) rfl fun _ => rfl
  | className | varName | subroutineName | letTarget | doTarget | qualifiedCall =>
      exact follows_onName rfl fun _ => rfl
  | varType | parameter =>
      exact follows_onType (by decide) (p := .type) (fun _ => rfl) rfl fun _ => rfl
  | returnType =>
      exact follows_onType (by decide) (p := .returnType) (fun _ => rfl) rfl fun _ => rfl
  | classVars => exact follows_openElement hs selects_onClassVar rfl fun _ => rfl
  | subroutines => exact follows_openElement hs selects_onSubroutine rfl fun _ => rfl
  | localVars => exact follows_openElement hs selects_onLocalVar rfl fun _ => rfl
  | statementList => exact follows_openElement hs selects_onStatement rfl fun _ => rfl
  | moreNames | moreParameters | elsePart | assignTail | moreArguments =>
      exact follows_choose hs (selects_onWord _ _) rfl rfl
  | operators => exact follows_choose hs selects_onOperator rfl rfl
  | identifierTail name => exact follows_identifierTail hs name
  | parameters | returnValue | firstArgument => exact follows_sees hs rfl fun _ => rfl
  | callSign name => exact follows_expectTable hs (selects_onCallSign name) rfl fun _ => rfl
  | termBody =>
      refine follows_expect (p := .term) rfl rfl fun t _ => ?_
      have hterm := predict_term t
      split
      · next next hsel =>
          rw [hsel] at hterm
          exact ⟨phrasesOf next, hterm, (List.append_nil _).symm⟩
      · next hsel =>
          rw [hsel] at hterm
          exact hterm
  | term =>
      simp only [step]
      split
      · next hts => exact follows_refuse rfl (by rw [view_head_nil hts]; rfl)
      · exact follows_stay rfl rfl
  | endOfInput =>
      simp only [step]
      split
      · next hts => exact follows_become rfl rfl (by rw [view_head_nil hts]; rfl)
      · next t ts hts => exact follows_refuse rfl (by rw [view_head hts]; rfl)
  | expression => exact follows_become rfl rfl rfl
  | enter | leave | nameClass | noteClass | statements | ifBody | whileBody =>
      exact follows_stay rfl rfl
  | header => exact follows_stay rfl (by rw [header_eq, phrasesOf_emits]; rfl)
  | emit i =>
      simp only [step]
      split
      · next p hp => exact follows_other (isUnexpected_fault? hp)
      · exact follows_stay rfl rfl
  | declare name type k =>
      simp only [step, Setting.declare, Scope.define]
      split
      · next heq => exact follows_stay rfl rfl
      · next p heq =>
          split at heq
          · cases heq
            exact follows_other rfl
          · cases heq
  | beginSubroutine kind name =>
      simp only [step, Setting.beginSubroutine_eq]
      split
      · exact follows_other rfl
      · exact follows_stay rfl rfl
  | verifyCalls =>
      simp only [step]
      split
      · next f hf =>
          obtain ⟨t, -, ht⟩ := List.exists_of_findSome?_eq_some hf
          exact follows_other (isUnexpected_callFault? ht)
      · exact follows_stay rfl rfl
  | assign name | load name =>
      simp only [step]
      split
      · next f hf => exact follows_other (isUnexpected_resolve hf)
      · exact follows_stay rfl rfl
  | integer t =>
      simp only [step, Setting.integer]
      split
      · exact follows_other rfl
      · split
        · exact follows_other rfl
        · split
          · exact follows_other rfl
          · exact follows_stay rfl rfl
  | this t =>
      simp only [step, Setting.this]
      split
      · exact follows_stay rfl rfl
      · split
        · exact follows_stay rfl rfl
        · exact follows_other rfl
  | localCall name =>
      simp only [step, Setting.localCall]
      split
      · exact follows_other rfl
      · exact follows_stay rfl rfl
  | dispatch q callee =>
      simp only [step, Setting.dispatch]
      split
      · split
        · next f hf => exact follows_other (isUnexpected_resolve hf)
        · split
          · exact follows_other rfl
          · exact follows_stay rfl rfl
      · split
        · exact follows_stay rfl rfl
        · exact follows_other rfl

/-! ## Whole runs -/

/-- A run that ends with a complaint about a token is a chain of moves up to a refusal. -/
theorem run_follows (gs : List Goal) (s : State) (hs : s.Sound) {s' : State} {f : Fault}
    (h : run c s gs = ⟨s', some f⟩) (hf : f.isUnexpected = true) :
    ∃ front p ps expected, s.view.rest = front ++ s'.view.rest ∧
      Moves s'.view.rest.head? (phrasesOf gs) front (p :: ps) ∧
      predict s'.view.rest.head? p = .refuse ∧ f = c.unexpectedAt s' expected := by
  fun_induction run c s gs with
  | case1 s => cases h
  | case2 s g gs f' hstep =>
      obtain ⟨rfl, heq⟩ := Outcome.mk.injEq .. |>.mp h
      obtain rfl := Option.some.inj heq
      have hfollows := step_follows (c := c) hs g
      rw [hstep] at hfollows
      obtain ⟨expected, p, ps, hexpected, hg, hp⟩ := hfollows hf
      refine ⟨[], p, ps ++ phrasesOf gs, expected, rfl, ?_, hp, hexpected⟩
      rw [phrasesOf, List.flatMap_cons, hg]
      exact .refl _
  | case3 s g gs next s₁ hstep ih =>
      have hfollows := step_follows (c := c) hs g
      rw [hstep] at hfollows
      obtain ⟨front, hrest, hmoves⟩ := hfollows
      obtain ⟨more, p, ps, expected, hrest', hmoves', hp, hexpected⟩ :=
        ih ((step_forward hstep).sound hs) h
      refine ⟨front ++ more, p, ps, expected, ?_, ?_, hp, hexpected⟩
      · rw [hrest, hrest', List.append_assoc]
      · rw [phrasesOf_append] at hmoves'
        rw [hrest', List.head?_append] at hmoves
        exact (hmoves.append (phrasesOf gs)).trans hmoves'

theorem phrasesOf_wholeClass : phrasesOf Goal.wholeClass = Phrase.wholeClass := rfl

theorem compileTokens_refused {o : Options} {file : String} {lines : List String}
    {tokens : List Token} (hvalid : ∀ t ∈ tokens, t.lexeme.valid = true) {state : State}
    {d : Diagnostic} {found expected : String}
    (h : compileTokens o file lines tokens = ⟨state, some (.diagnostic d)⟩)
    (hd : d.problem = .unexpectedToken found expected) :
    ∃ consumed p ps wanted, tokens = consumed ++ state.rest ∧
      Moves state.view.rest.head? Phrase.wholeClass (consumed.map Token.lexeme) (p :: ps) ∧
      predict state.view.rest.head? p = .refuse ∧
      d = (Token.Setting.ofTokens file lines tokens).unexpected wanted state.peek := by
  let setting : Setting := { Token.Setting.ofTokens file lines tokens with strict := o.strict }
  let start : State :=
    { rest := tokens, known := o.knownClasses, recorded := if o.listTree then some [] else none }
  have hrun : run setting start Goal.wholeClass = ⟨state, some (.diagnostic d)⟩ := h
  have hsound : start.Sound := ⟨hvalid, Int.le_refl 0⟩
  have hunexpected : Fault.isUnexpected (.diagnostic d) = true := by
    simp only [Fault.isUnexpected, hd]
  obtain ⟨front, p, ps, wanted, hrest, hmoves, hrefuse, hfault⟩ :=
    run_follows Goal.wholeClass start hsound hrun hunexpected
  rw [phrasesOf_wholeClass] at hmoves
  have hforward := (run_forward setting start Goal.wholeClass).rest
  rw [hrun] at hforward
  obtain ⟨consumed, hconsumed⟩ := hforward
  have htokens : tokens = consumed ++ state.rest := hconsumed.symm
  have hfront : front = consumed.map Token.lexeme := by
    have hmap : tokens.map Token.lexeme = front ++ state.rest.map Token.lexeme := hrest
    rw [htokens, List.map_append] at hmap
    exact (List.append_cancel_right hmap).symm
  subst hfront
  exact ⟨consumed, p, ps, wanted, htokens, hmoves, hrefuse, Fault.diagnostic.inj hfault⟩

/-- A complaint about an unexpected token comes as early as possible. The tokens read so far begin a
class, and the complaint is about the next one, with which they begin none; or all tokens have been
read, and they are not a class. -/
theorem compileTokens_unexpected (o : Options) (file : String) (lines : List String)
    (tokens : List Token) (hvalid : ∀ t ∈ tokens, t.lexeme.valid = true) {state : State}
    {d : Diagnostic} {found expected : String}
    (h : compileTokens o file lines tokens = ⟨state, some (.diagnostic d)⟩)
    (hd : d.problem = .unexpectedToken found expected) :
    ∃ consumed, tokens = consumed ++ state.rest ∧
      (∃ cd : ClassDecl, Valid cd.spelling ∧ consumed.map Token.lexeme <+: cd.spelling) ∧
      match state.rest with
      | t :: _ => found = s!"'{t.text}'" ∧ d.location = some t.location ∧
          ∀ cd : ClassDecl, ¬(consumed ++ [t]).map Token.lexeme <+: cd.spelling
      | [] => found = "end of input" ∧ ∀ cd : ClassDecl, tokens.map Token.lexeme ≠ cd.spelling := by
  obtain ⟨consumed, p, ps, wanted, htokens, hmoves, hrefuse, rfl⟩ :=
    compileTokens_refused hvalid h hd
  refine ⟨consumed, htokens, ?_, ?_⟩
  · obtain ⟨ls, hls, hyields⟩ := hmoves.completable (by decide)
    obtain ⟨cd, hcd⟩ := Phrase.yieldsAll_class hyields
    have hread : Valid (consumed.map Token.lexeme) :=
      valid_lexemes fun t ht => hvalid t (htokens ▸ List.mem_append_left _ ht)
    exact ⟨cd, hcd ▸ valid_append.mpr ⟨hread, hls⟩, ls, hcd⟩
  · cases hrest : state.rest with
    | nil =>
        rw [State.peek, hrest] at hd
        rw [view_head_nil hrest] at hmoves hrefuse
        refine ⟨(Problem.unexpectedToken.inj hd).1.symm, fun cd heq => ?_⟩
        rw [htokens, hrest, List.append_nil] at heq
        refine hmoves.not_spans hrefuse [] [] rfl ?_
        rw [List.append_nil, heq]
        exact Phrase.spans_class cd
    | cons t ts =>
        rw [State.peek, hrest] at hd ⊢
        rw [view_head hrest] at hmoves hrefuse
        refine ⟨(Problem.unexpectedToken.inj hd).1.symm, rfl, fun cd hprefix => ?_⟩
        obtain ⟨k, hk⟩ := hprefix
        refine hmoves.not_spans hrefuse (t.lexeme :: k) [] rfl ?_
        rw [List.map_append, List.append_assoc] at hk
        exact hk ▸ Phrase.spans_class cd

/-! ## A declaration without its comma -/

def unseparated : List Token :=
  [⟨.keyword, "class", ⟨"A.jack", 1, 1⟩⟩, ⟨.identifier, "A", ⟨"A.jack", 1, 7⟩⟩,
    ⟨.symbol, Goal.openBrace, ⟨"A.jack", 1, 9⟩⟩, ⟨.keyword, "field", ⟨"A.jack", 2, 3⟩⟩,
    ⟨.keyword, "int", ⟨"A.jack", 2, 9⟩⟩, ⟨.identifier, "x", ⟨"A.jack", 2, 13⟩⟩,
    ⟨.identifier, "y", ⟨"A.jack", 2, 15⟩⟩, ⟨.symbol, ";", ⟨"A.jack", 2, 16⟩⟩]

theorem unseparated_stops :
    ∃ state, compileTokens {} "A.jack" [] unseparated = ⟨state, some (.diagnostic
        { problem := .unexpectedToken "'y'" "';'", location := some ⟨"A.jack", 2, 15⟩ })⟩ ∧
      state.rest = unseparated.drop 6 := by
  apply Exists.intro
  constructor
  · -- Ten steps read the first six tokens; the eleventh wants a semicolon.
    iterate 10 refine (run_cons_ok _ rfl).trans ?_
    exact run_cons_error _ rfl
  · rfl

theorem unseparated_unexpected :
    ∃ state d, compileTokens {} "A.jack" [] unseparated = ⟨state, some (.diagnostic d)⟩ ∧
      d.problem = .unexpectedToken "'y'" "';'" ∧ d.location = some ⟨"A.jack", 2, 15⟩ ∧
      (∃ cd : ClassDecl, Valid cd.spelling ∧
        (unseparated.take 6).map Token.lexeme <+: cd.spelling) ∧
      ∀ cd : ClassDecl, ¬(unseparated.take 7).map Token.lexeme <+: cd.spelling := by
  obtain ⟨state, hrun, hrest⟩ := unseparated_stops
  obtain ⟨consumed, htokens, hbegins, hends⟩ :=
    compileTokens_unexpected {} "A.jack" [] unseparated (by decide) hrun rfl
  rw [hrest] at htokens hends
  have hconsumed : consumed = unseparated.take 6 := List.append_cancel_right htokens.symm
  subst hconsumed
  exact ⟨state, _, hrun, rfl, hends.2.1, hbegins, hends.2.2⟩

end Jack.Compile
