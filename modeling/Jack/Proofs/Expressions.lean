import Jack.Proofs.Meaning

/-!
# Steps on expressions

For every goal that belongs to an expression, a step leads exactly to what the goal means. Each
proof reads the production in both directions: what the goals of the production read one after the
other is put together to the tree of the whole (`Reads.append`), and the tree of the whole is cut
at the places where the goals change (`Reads.split`).
-/

namespace Jack.Compile

open Syntax

variable {c : Setting} {s : State} {v' : View}

/-! ## Words, marks and instructions -/

theorem leads_word (hs : s.Sound) (w : String) :
    Leads c s (.word w) v' ↔ Means c (.word w) s.view v' := by
  rw [leads_expect rfl, (selects_onWord w []).some_iff hs
    (P := fun next ls => MeansAll c next (s.view.at ls) v')]
  simp only [List.mem_singleton, Prod.mk.injEq, Means, Reads.cons_iff, Reads.nil_iff]
  constructor
  · intro h
    rcases h with ⟨x, next, ls, ⟨rfl, rfl⟩, hrest, hmeans⟩
    exact ⟨ls, hrest, hmeans⟩
  · intro h
    rcases h with ⟨ls, hrest, hmeans⟩
    exact ⟨w, [], ls, ⟨rfl, rfl⟩, hrest, hmeans⟩

theorem step_emit {i : Instruction} (h : i.fault? = none) :
    step c s (.emit i) = .ok ([], s.emit i) := by
  simp only [step, h]

theorem leads_emit (i : Instruction) : Leads c s (.emit i) v' ↔ Means c (.emit i) s.view v' := by
  simp only [Means, Reads.emit_iff, Reads.nil_iff]
  cases hi : i.fault? with
  | some p =>
      have hstep : step c s (.emit i) = .error (.diagnostic { problem := p }) := by
        simp only [step, hi]
      simp [not_leads hstep]
  | none =>
      rw [leads_ok (step_emit hi)]
      simp

theorem meansAll_chooseWord (hs : s.Sound) {w : String} {next otherwise : List Goal} :
    MeansAll c (s.choose (Goal.onWord w next) otherwise).1
        (s.choose (Goal.onWord w next) otherwise).2.view v' ↔
      (∃ ls, s.view.rest = .word w :: ls ∧ MeansAll c next (s.view.at ls) v') ∨
      (Stops [w] s.view.rest ∧ MeansAll c otherwise s.view v') := by
  rw [meansAll_choose hs (selects_onWord w next)]
  simp only [List.mem_singleton, Prod.mk.injEq, List.map_cons, List.map_nil]
  constructor
  · intro h
    rcases h with ⟨x, gs, ls, ⟨rfl, rfl⟩, h⟩ | h
    · exact .inl ⟨ls, h⟩
    · exact .inr h
  · intro h
    rcases h with ⟨ls, h⟩ | h
    · exact .inl ⟨w, next, ls, ⟨rfl, rfl⟩, h⟩
    · exact .inr h

theorem sees_iff (hs : s.Sound) (w : String) :
    s.sees w = true ↔ s.view.rest.head? = some (.word w) := by
  rw [view_rest, State.sees]
  cases hts : s.rest with
  | nil => simp
  | cons t ts =>
      have hvalid := hs.valid t (hts ▸ List.mem_cons_self ..)
      simp only [isWord_iff hvalid, List.map_cons, List.head?_cons, Option.some.injEq]

/-! ## Operators and terms -/

theorem operations_ends_iff {o : Operations} {before : Bool} {ls : List Lexeme} :
    o.Ends before ls ↔
      o.Ends false ls ∧ (o = .nil → before = true → Stops ["[", "(", "."] ls) := by
  cases o <;> simp [Operations.Ends, Operations.isOpen]

theorem sign_not_continuing (op : Operator) : op.sign ∉ ["[", "(", "."] := by
  cases op <;> decide

/-- Behind a term, an operator ends whatever name the term ends in. -/
theorem term_ends_iff {t : Term} {o : Operations} {ls : List Lexeme} :
    t.Ends (o.spelling ++ ls) ↔
      (o = .nil → t.isOpen = true → Stops ["[", "(", "."] ls) := by
  cases o with
  | nil => simp [Term.Ends, Operations.spelling]
  | cons op operand rest =>
      simp only [Term.Ends, Operations.spelling, List.cons_append, reduceCtorEq, false_implies,
        iff_true]
      exact fun _ => stops_word (sign_not_continuing op) _

theorem leads_expression : Leads c s .expression v' ↔ Means c .expression s.view v' := by
  rw [leads_ok rfl]
  simp only [meansAll_cons, meansAll_nil, Means, exists_eq_left, exists_eq_right']
  constructor
  · intro h
    rcases h with ⟨u, ⟨t, ht, hread, hends⟩, o, ho, hread', hends'⟩
    rw [hread.rules] at ho
    rw [hread.env] at hread'
    rw [hread'.rest, term_ends_iff] at hends
    exact ⟨.mk t o, ⟨ht, ho⟩, hread.append hread', operations_ends_iff.mpr ⟨hends', hends⟩⟩
  · intro h
    rcases h with ⟨⟨t, o⟩, ⟨ht, ho⟩, hread, hends⟩
    obtain ⟨u, hread, hread'⟩ := Reads.split (n := 0) (m := 0) hread
    obtain ⟨hends', hends⟩ := operations_ends_iff.mp hends
    refine ⟨u, ⟨t, ht, hread, ?_⟩, o, ?_, ?_, hends'⟩
    · rw [hread'.rest, term_ends_iff]
      exact hends
    · rw [hread.rules]
      exact ho
    · rw [hread.env]
      exact hread'

theorem mem_operatorTable {w : String} {i : Instruction} :
    (w, i) ∈ Goal.operatorTable ↔ ∃ op : Operator, w = op.sign ∧ i = op.instruction := by
  constructor
  · intro h
    simp only [Goal.operatorTable, List.mem_cons, List.not_mem_nil, or_false,
      Prod.mk.injEq] at h
    rcases h with h | h | h | h | h | h | h | h | h
    · exact ⟨.plus, h⟩
    · exact ⟨.minus, h⟩
    · exact ⟨.times, h⟩
    · exact ⟨.divide, h⟩
    · exact ⟨.and, h⟩
    · exact ⟨.or, h⟩
    · exact ⟨.less, h⟩
    · exact ⟨.greater, h⟩
    · exact ⟨.equal, h⟩
  · intro h
    rcases h with ⟨op, rfl, rfl⟩
    cases op <;> decide

theorem selects_onOperator :
    Selects Goal.onOperator
      (Goal.operatorTable.map fun e => (e.1, [Goal.term, .emit e.2, .operators])) :=
  selects_find Prod.fst _ (by decide)

theorem leads_operators (hs : s.Sound) :
    Leads c s .operators v' ↔ Means c .operators s.view v' := by
  rw [leads_ok rfl, meansAll_choose hs selects_onOperator]
  have hsigns : (Goal.operatorTable.map fun e =>
      (e.1, [Goal.term, .emit e.2, .operators])).map Prod.fst = operatorSigns := by decide
  rw [hsigns]
  constructor
  · intro h
    rcases h with ⟨w, next, ls, hmem, hrest, hmeans⟩ | ⟨hstops, rfl⟩
    · obtain ⟨⟨w, i⟩, htable, heq⟩ := List.mem_map.mp hmem
      obtain ⟨rfl, rfl⟩ := Prod.mk.injEq .. |>.mp heq
      obtain ⟨op, hw, rfl⟩ := mem_operatorTable.mp htable
      simp only [hw] at hrest
      obtain ⟨u, ⟨t, ht, hread, hends⟩, u', hemit, u'', ⟨o, ho, hread', hends'⟩, rfl⟩ := hmeans
      rw [hemit.rules, hread.rules] at ho
      rw [hemit.env, hread.env] at hread'
      have hrest' : u.rest = o.spelling ++ v'.rest := by
        rw [hemit.rest, hread'.rest, List.nil_append]
      rw [hrest', term_ends_iff] at hends
      refine ⟨.cons op t o, ⟨ht, ho⟩, ?_, ?_⟩
      · refine Reads.cons_iff.mpr ⟨ls, hrest, ?_⟩
        simpa [Operations.code, Operations.calls] using (hread.append hemit).append hread'
      · show o.Ends t.isOpen v'.rest
        exact operations_ends_iff.mpr ⟨hends', hends⟩
    · exact ⟨.nil, trivial, .refl _, hstops, fun h => by cases h⟩
  · intro h
    rcases h with ⟨o, ho, hread, hends⟩
    cases o with
    | nil =>
        obtain rfl := Reads.nil_iff.mp hread
        exact .inr ⟨hends.1, rfl⟩
    | cons op t o =>
        obtain ⟨ht, ho⟩ := ho
        obtain ⟨ls, hrest, hread⟩ := Reads.cons_iff.mp hread
        obtain ⟨u, hread, hread'⟩ := Reads.split (n := 0) (m := 0) hread
        obtain ⟨hfault, hread'⟩ := Reads.emit_iff.mp hread'
        refine .inl ⟨op.sign, [.term, .emit op.instruction, .operators], ls, ?_, hrest, ?_⟩
        · exact List.mem_map.mpr
            ⟨(op.sign, op.instruction), mem_operatorTable.mpr ⟨op, rfl, rfl⟩, rfl⟩
        · have hemit : Reads u [] [op.instruction] 0 [] _ :=
            Reads.emit_iff.mpr ⟨hfault, .refl _⟩
          have hends : o.Ends t.isOpen v'.rest := hends
          obtain ⟨hends', hends⟩ := operations_ends_iff.mp hends
          refine ⟨u, ⟨t, ht, hread, ?_⟩, _, hemit, v', ⟨o, ?_, ?_, hends'⟩, rfl⟩
          · rw [show u.rest = o.spelling ++ v'.rest from hread'.rest, term_ends_iff]
            exact hends
          · rw [hemit.rules, hread.rules]
            exact ho
          · rw [hemit.env, hread.env]
            exact hread'

/-! ## Leaves of terms -/

theorem binding_isField (d : Declaration) : d.binding.isField = true ↔ d.storage = .field := by
  cases hd : d.storage <;> simp [Declaration.binding, Binding.isField, Storage.segment, hd]

/-- A name is resolved exactly if the rules allow its use. -/
theorem resolve_spec (c : Setting) (s : State) (name : Token) :
    match c.resolve s name with
    | .ok d => s.view.env.resolve name.text = some d.binding ∧
        (s.view.rules c).Accessible name.text
    | .error _ => ¬(s.view.rules c).Accessible name.text := by
  have hresolve : s.view.env.resolve name.text
      = (s.scope.lookup name.text).map Declaration.binding := rfl
  have hfunction : s.view.env.inFunction = true ↔ s.subroutineKind = some .function :=
    decide_eq_true_iff
  unfold Setting.resolve
  cases hd : s.scope.lookup name.text with
  | none =>
      intro h
      rcases h with ⟨b, hb, -⟩
      rw [hd] at hresolve
      rw [show s.view.env.resolve name.text = some b from hb] at hresolve
      cases hresolve
  | some d =>
      rw [hd, Option.map_some] at hresolve
      by_cases hfield : d.storage = .field ∧ s.subroutineKind = some .function
      · simp only [hfield, and_self, if_true]
        intro h
        rcases h with ⟨b, hb, hok⟩
        obtain rfl : d.binding = b := Option.some.inj (hresolve.symm.trans hb)
        exact hok ⟨hfunction.mpr hfield.2, (binding_isField d).mpr hfield.1⟩
      · simp only [hfield, if_false]
        refine ⟨hresolve, d.binding, hresolve, ?_⟩
        intro h
        rcases h with ⟨hfun, hbind⟩
        exact hfield ⟨(binding_isField d).mp hbind, hfunction.mp hfun⟩

theorem leads_load (name : Token) :
    Leads c s (.load name) v' ↔ Means c (.load name) s.view v' := by
  have hspec := resolve_spec c s name
  cases hd : c.resolve s name with
  | error f =>
      rw [hd] at hspec
      have hstep : step c s (.load name) = .error f := by simp only [step, hd]
      simp only [not_leads hstep, Means, false_iff]
      exact fun h => hspec h.1
  | ok d =>
      rw [hd] at hspec
      have hstep : step c s (.load name) = .ok ([.pushVariable d], s) := by simp only [step, hd]
      rw [leads_ok hstep]
      simp only [meansAll_cons, meansAll_nil, Means, Env.read, hspec.1, hspec.2, true_and,
        Goal.pushVariable, exists_eq_right']
      rfl

theorem leads_integer (t : Token) :
    Leads c s (.integer t) v' ↔ Means c (.integer t) s.view v' := by
  cases hv : Text.readInteger t.text with
  | error why =>
      have hstep : step c s (.integer t) = .error (.misread t.text why) := by
        simp only [step, Setting.integer, hv]
      simp [not_leads hstep, Means, hv]
  | ok v =>
      by_cases hmax : maxInteger < v
      · have hstep : ∃ f, step c s (.integer t) = .error f := by
          simp only [step, Setting.integer, hv, hmax, if_true]
          exact ⟨_, rfl⟩
        simp only [not_leads hstep.choose_spec, Means, hv, Except.ok.injEq, false_iff]
        intro h
        rcases h with ⟨n, rfl, hn, -⟩
        simp only [maxInteger, largestInteger] at hmax hn
        omega
      · by_cases hneg : v < 0
        · have hstep : ∃ f, step c s (.integer t) = .error f := by
            simp only [step, Setting.integer, hv, hmax, hneg, if_true, if_false]
            exact ⟨_, rfl⟩
          simp only [not_leads hstep.choose_spec, Means, hv, Except.ok.injEq, false_iff]
          intro h
          rcases h with ⟨n, rfl, -⟩
          omega
        · have hstep : step c s (.integer t) = .ok ([.emit (.push .constant v.toNat)], s) := by
            simp only [step, Setting.integer, hv, hmax, hneg, if_false]
          rw [leads_ok hstep]
          simp only [meansAll_cons, meansAll_nil, Means, exists_eq_right', hv, Except.ok.injEq]
          constructor
          · intro h
            refine ⟨v.toNat, by omega, ?_, h⟩
            simp only [maxInteger, largestInteger] at hmax ⊢
            omega
          · intro h
            rcases h with ⟨n, rfl, -, h⟩
            exact h

theorem leads_this (t : Token) :
    Leads c s (.this t) v' ↔ Means c (.this t) s.view v' := by
  cases hd : s.scope.lookup "this" with
  | some d =>
      have hself : s.view.env.self = some d.binding.cell := by
        simp only [View.env, State.view, hd]
      have hstep : step c s (.this t) = .ok ([.pushVariable d], s) := by
        simp only [step, Setting.this, hd]
      rw [leads_ok hstep]
      simp only [meansAll_cons, meansAll_nil, Means, exists_eq_right', hself,
        Option.some.injEq, exists_eq_left', Goal.pushVariable]
      rfl
  | none =>
      have hself : s.view.env.self =
          if s.subroutineKind = some .constructor then some ⟨.pointer, 0⟩ else none := by
        simp only [View.env, State.view, hd]
        rfl
      by_cases hk : s.subroutineKind = some .constructor
      · have hstep : step c s (.this t) = .ok ([.emit (.push .pointer 0)], s) := by
          simp only [step, Setting.this, hd, hk, if_true]
        rw [leads_ok hstep]
        simp only [meansAll_cons, meansAll_nil, Means, exists_eq_right', hself, hk, if_true,
          Option.some.injEq, exists_eq_left']
        rfl
      · have hstep : ∃ f, step c s (.this t) = .error f := by
          simp only [step, Setting.this, hd, hk, if_false]
          exact ⟨_, rfl⟩
        simp only [not_leads hstep.choose_spec, Means, hself, hk, if_false, reduceCtorEq,
          false_and, exists_false]

/-! ## Calls -/

/-- A fixed word is a keyword or a symbol. -/
theorem ne_word {l : Lexeme} (hk : l.kind ≠ .keyword) (hs : l.kind ≠ .symbol) (w : String) :
    l ≠ .word w := by
  intro heq
  subst heq
  simp only [Lexeme.word] at hk hs
  split at hk
  · exact hk rfl
  · next hw =>
      rw [if_neg hw] at hs
      exact hs rfl

theorem name_ne_word (x w : String) : Lexeme.name x ≠ .word w :=
  ne_word (l := .name x) (by simp [Lexeme.name]) (by simp [Lexeme.name]) w

theorem name_injective {x y : String} (h : Lexeme.name x = .name y) : x = y :=
  congrArg Lexeme.text h

/-- No term starts with the sign that ends a list of arguments or a statement. -/
theorem term_starts (t : Term) :
    ∃ l ls, t.spelling = l :: ls ∧ l ≠ .word ")" ∧ l ≠ .word ";" := by
  have hname : ∀ x, Lexeme.name x ≠ .word ")" ∧ Lexeme.name x ≠ .word ";" :=
    fun x => ⟨name_ne_word x _, name_ne_word x _⟩
  cases t with
  | integer digits =>
      exact ⟨_, _, rfl, ne_word (by simp) (by simp) _, ne_word (by simp) (by simp) _⟩
  | string text =>
      exact ⟨_, _, rfl, ne_word (by simp) (by simp) _, ne_word (by simp) (by simp) _⟩
  | constant k => exact ⟨_, _, rfl, by cases k <;> decide, by cases k <;> decide⟩
  | this => exact ⟨_, _, rfl, by decide, by decide⟩
  | unary op operand => exact ⟨_, _, rfl, by cases op <;> decide, by cases op <;> decide⟩
  | parens e => exact ⟨_, _, rfl, by decide, by decide⟩
  | var x => exact ⟨_, _, rfl, hname x⟩
  | element x index => exact ⟨_, _, rfl, hname x⟩
  | call k =>
      cases k with
      | unqualified callee arguments => exact ⟨_, _, rfl, hname callee⟩
      | qualified q callee arguments => exact ⟨_, _, rfl, hname q⟩

theorem expression_starts (e : Expression) :
    ∃ l ls, e.spelling = l :: ls ∧ l ≠ .word ")" ∧ l ≠ .word ";" := by
  obtain ⟨t, o⟩ := e
  obtain ⟨l, ls, h, hl⟩ := term_starts t
  exact ⟨l, ls ++ o.spelling, by rw [Expression.spelling, h, List.cons_append], hl⟩

theorem ends_before_more (e : Expression) (a : Arguments) (ls : List Lexeme) :
    e.Ends (a.moreSpelling ++ .word ")" :: ls) := by
  cases a with
  | nil => exact e.ends_of_closer (by decide) _
  | cons e' a => exact e.ends_of_closer (by decide) _

theorem meansAll_callEnd {target : String} {count : Nat} {v : View} :
    MeansAll c (Goal.callEnd target count) v v' ↔
      Reads v [.word ")"] [.call target (.number count)] 0 [] v' := by
  simp only [Goal.callEnd, meansAll_cons, meansAll_nil, Means, exists_eq_left, exists_eq_right']
  constructor
  · intro h
    rcases h with ⟨u, hword, hemit⟩
    exact hword.append hemit
  · exact fun h => Reads.split (l := [_]) (i := []) (n := 0) (f := []) h

theorem meansAll_nextArgument {target : String} {count : Nat} {v : View} :
    MeansAll c [.expression, .moreArguments target (count + 1)] v v' ↔
      ∃ (e : Expression) (a : Arguments), e.Obeys (v.rules c) ∧ a.Obeys (v.rules c) ∧
        Reads v (e.spelling ++ a.moreSpelling ++ [Lexeme.word ")"])
          (e.code v.env ++ a.code v.env ++
            [Instruction.call target (.number (count + (a.length + 1)))]) 0
          (e.calls ++ a.calls) v' := by
  simp only [meansAll_cons, meansAll_nil, Means, exists_eq_right']
  constructor
  · intro h
    rcases h with ⟨u, ⟨e, he, hread, -⟩, a, ha, hread'⟩
    rw [hread.rules] at ha
    rw [hread.env, Nat.add_assoc, Nat.add_comm 1] at hread'
    refine ⟨e, a, he, ha, ?_⟩
    simpa only [List.append_assoc] using hread.append hread'
  · intro h
    rcases h with ⟨e, a, he, ha, hread⟩
    simp only [List.append_assoc] at hread
    obtain ⟨u, hread, hread'⟩ := Reads.split (n := 0) (m := 0) hread
    refine ⟨u, ⟨e, he, hread, ?_⟩, a, ?_, ?_⟩
    · rw [hread'.rest, List.append_assoc]
      exact ends_before_more e a _
    · rw [hread.rules]
      exact ha
    · rw [hread.env, Nat.add_assoc, Nat.add_comm 1]
      exact hread'

theorem leads_firstArgument (hs : s.Sound) (target : String) (count : Nat) :
    Leads c s (.firstArgument target count) v' ↔
      Means c (.firstArgument target count) s.view v' := by
  rw [leads_ok rfl]
  simp only [Means]
  by_cases hsees : s.sees ")" = true
  · rw [if_pos hsees, meansAll_callEnd]
    have hhead := (sees_iff hs ")").mp hsees
    constructor
    · exact fun h => ⟨.nil, trivial, h⟩
    · intro h
      rcases h with ⟨a, ha, hread⟩
      cases a with
      | nil => exact hread
      | cons e a =>
          obtain ⟨l, ls, hl, hne, -⟩ := expression_starts e
          rw [hread.rest, Arguments.spelling, hl] at hhead
          exact absurd (Option.some.inj hhead) hne
  · rw [if_neg hsees, meansAll_nextArgument]
    constructor
    · intro h
      rcases h with ⟨e, a, he, ha, hread⟩
      exact ⟨.cons e a, ⟨he, ha⟩, hread⟩
    · intro h
      rcases h with ⟨a, ha, hread⟩
      cases a with
      | nil =>
          refine absurd ((sees_iff hs ")").mpr ?_) hsees
          rw [hread.rest]
          rfl
      | cons e a => exact ⟨e, a, ha.1, ha.2, hread⟩

theorem leads_moreArguments (hs : s.Sound) (target : String) (count : Nat) :
    Leads c s (.moreArguments target count) v' ↔
      Means c (.moreArguments target count) s.view v' := by
  rw [leads_ok rfl, meansAll_chooseWord hs, meansAll_callEnd]
  simp only [meansAll_nextArgument, Means]
  constructor
  · intro h
    rcases h with ⟨ls, hrest, e, a, he, ha, hread⟩ | ⟨-, hread⟩
    · exact ⟨.cons e a, ⟨he, ha⟩, Reads.cons_iff.mpr ⟨ls, hrest, hread⟩⟩
    · exact ⟨.nil, trivial, hread⟩
  · intro h
    rcases h with ⟨a, ha, hread⟩
    cases a with
    | nil =>
        refine .inr ⟨?_, hread⟩
        rw [hread.rest]
        exact stops_word (by decide) _
    | cons e a =>
        obtain ⟨ls, hrest, hread⟩ := Reads.cons_iff.mp hread
        exact .inl ⟨ls, hrest, e, a, ha.1, ha.2, hread⟩

theorem meansAll_arguments {target : String} {count : Nat} {v : View} :
    MeansAll c (Goal.arguments target count) v v' ↔
      Means c (.firstArgument target count) v v' := by
  simp only [Goal.arguments, meansAll_cons, meansAll_nil, Means, exists_eq_left,
    exists_eq_right']

theorem callBehind_unqualified {x : String} {v : View} :
    CallBehind c [.name x, .word "("] v v' ↔
      v.env.inFunction = false ∧ ∃ a : Arguments, a.Obeys (v.rules c) ∧
        Reads v (a.spelling ++ [Lexeme.word ")"]) ((Call.unqualified x a).code v.env) 0
          (x :: a.calls) v' := by
  constructor
  · intro h
    rcases h with ⟨k, ls, hk, hobeys, hread⟩
    cases k with
    | unqualified y a =>
        simp only [Call.spelling, List.cons_append, List.nil_append, List.cons.injEq,
          true_and] at hk
        obtain ⟨hx, rfl⟩ := hk
        obtain rfl := name_injective hx
        exact ⟨hobeys.1, a, hobeys.2, hread⟩
    | qualified q y a =>
        simp only [Call.spelling, List.cons_append, List.nil_append, List.cons.injEq] at hk
        exact absurd (word_injective hk.2.1) (by decide)
  · intro h
    rcases h with ⟨hfun, a, ha, hread⟩
    exact ⟨.unqualified x a, _, rfl, ⟨hfun, ha⟩, hread⟩

theorem callBehind_qualified {q x : String} {v : View} :
    CallBehind c [.name q, .word ".", .name x, .word "("] v v' ↔
      (v.rules c).Qualifies q ∧ ∃ a : Arguments, a.Obeys (v.rules c) ∧
        Reads v (a.spelling ++ [Lexeme.word ")"]) ((Call.qualified q x a).code v.env) 0
          a.calls v' := by
  constructor
  · intro h
    rcases h with ⟨k, ls, hk, hobeys, hread⟩
    cases k with
    | unqualified y a =>
        simp only [Call.spelling, List.cons_append, List.nil_append, List.cons.injEq] at hk
        exact absurd (word_injective hk.2.1) (by decide)
    | qualified p y a =>
        simp only [Call.spelling, List.cons_append, List.nil_append, List.cons.injEq,
          true_and] at hk
        obtain ⟨hq, hx, rfl⟩ := hk
        obtain rfl := name_injective hq
        obtain rfl := name_injective hx
        exact ⟨hobeys.1, a, hobeys.2, hread⟩
  · intro h
    rcases h with ⟨hq, a, ha, hread⟩
    exact ⟨.qualified q x a, _, rfl, ⟨hq, ha⟩, hread⟩

theorem leads_localCall (name : Token) :
    Leads c s (.localCall name) v' ↔ Means c (.localCall name) s.view v' := by
  show _ ↔ CallBehind c _ s.view v'
  rw [callBehind_unqualified]
  by_cases hfun : s.subroutineKind = some .function
  · have hstep : ∃ f, step c s (.localCall name) = .error f := by
      simp only [step, Setting.localCall, hfun, if_true]
      exact ⟨_, rfl⟩
    have henv : s.view.env.inFunction = true := decide_eq_true hfun
    simp [not_leads hstep.choose_spec, henv]
  · have hstep : step c s (.localCall name) =
        .ok (.emit (.push .pointer 0) :: Goal.arguments (s.qualify name.text) 1,
          { s with localCalls := s.localCalls ++ [name] }) := by
      simp only [step, Setting.localCall, hfun, if_false]
    have henv : s.view.env.inFunction = false := decide_eq_false hfun
    have hview : State.view { s with localCalls := s.localCalls ++ [name] } =
        { s.view with calls := s.view.calls ++ [name.text] } := by
      simp [State.view, State.code]
    rw [leads_ok hstep]
    simp only [meansAll_cons, meansAll_arguments, henv, true_and, hview]
    constructor
    · intro h
      rcases h with ⟨u, hemit, a, ha, hread⟩
      rw [hemit.rules] at ha
      rw [hemit.env, Nat.add_comm 1] at hread
      exact ⟨a, ha, Reads.call_iff.mpr (hemit.append hread)⟩
    · intro h
      rcases h with ⟨a, ha, hread⟩
      obtain ⟨u, hemit, hread⟩ := Reads.split (l := []) (i := [_]) (n := 0) (m := 0) (f := [])
        (Reads.call_iff.mp hread)
      refine ⟨u, hemit, a, ?_, ?_⟩
      · rw [hemit.rules]
        exact ha
      · rw [hemit.env, Nat.add_comm 1]
        exact hread

theorem leads_dispatch (q callee : Token) :
    Leads c s (.dispatch q callee) v' ↔ Means c (.dispatch q callee) s.view v' := by
  show _ ↔ CallBehind c _ s.view v'
  rw [callBehind_qualified]
  have hresolve : s.view.env.resolve q.text = (s.scope.lookup q.text).map Declaration.binding := rfl
  cases hd : s.scope.lookup q.text with
  | none =>
      rw [hd] at hresolve
      have hclass : (s.view.rules c).Qualifies q.text ↔ c.isClassName s q.text = true := by
        simp only [Rules.Qualifies, View.rules, hresolve, Option.map_none, Setting.isClassName,
          Bool.or_eq_true, List.contains_iff_mem, Bool.and_eq_true, Bool.not_eq_true']
        rfl
      by_cases hq : c.isClassName s q.text = true
      · have hstep : step c s (.dispatch q callee) =
            .ok (Goal.arguments s!"{q.text}.{callee.text}" 0, s) := by
          simp [step, Setting.dispatch, hd, hq]
        rw [leads_ok hstep, meansAll_arguments]
        simp only [Means, hclass.mpr hq, true_and, Call.code, hresolve, Option.map_none,
          Nat.zero_add]
      · have hstep : ∃ f, step c s (.dispatch q callee) = .error f := by
          simp [step, Setting.dispatch, hd, hq]
        simp only [not_leads hstep.choose_spec, hclass, hq, false_and, Bool.false_eq_true]
  | some d =>
      rw [hd, Option.map_some] at hresolve
      have hspec := resolve_spec c s q
      cases hr : c.resolve s q with
      | error f =>
          rw [hr] at hspec
          have hstep : step c s (.dispatch q callee) = .error f := by
            simp [step, Setting.dispatch, hd, hr]
          simp only [not_leads hstep, false_iff]
          intro h
          rcases h with ⟨hq, -⟩
          simp only [Rules.Qualifies, View.rules, hresolve] at hq
          exact hspec ⟨d.binding, hresolve, hq.1⟩
      | ok e =>
          rw [hr] at hspec
          obtain ⟨hbinding, b, hb, haccess⟩ := hspec
          obtain rfl : e.binding = b := Option.some.inj (hbinding.symm.trans hb)
          have hqualifies : (s.view.rules c).Qualifies q.text ↔
              Token.primitiveTypes.contains e.type = false := by
            simp only [Rules.Qualifies, show (s.view.rules c).env.resolve q.text = _ from hb]
            simp only [haccess, not_false_eq_true, true_and, ← List.contains_iff_mem,
              Bool.not_eq_true]
            rfl
          cases hprim : Token.primitiveTypes.contains e.type with
          | true =>
            have hstep : ∃ f, step c s (.dispatch q callee) = .error f := by
              simp only [step, Setting.dispatch, hd, Option.isSome_some, if_true, hr, hprim]
              exact ⟨_, rfl⟩
            simp only [not_leads hstep.choose_spec, hqualifies, hprim, Bool.true_eq_false,
              false_and]
          | false =>
            have hstep : step c s (.dispatch q callee) =
                .ok (.pushVariable e :: Goal.arguments s!"{e.type}.{callee.text}" 1, s) := by
              simp only [step, Setting.dispatch, hd, Option.isSome_some, if_true, hr, hprim,
                Bool.false_eq_true, if_false]
            rw [leads_ok hstep]
            simp only [hqualifies, hprim, true_and, meansAll_cons, meansAll_arguments,
              Goal.pushVariable, Call.code, hbinding]
            constructor
            · intro h
              rcases h with ⟨u, hemit, a, ha, hread⟩
              rw [hemit.rules] at ha
              rw [hemit.env, Nat.add_comm 1] at hread
              exact ⟨a, ha, hemit.append hread⟩
            · intro h
              rcases h with ⟨a, ha, hread⟩
              obtain ⟨u, hemit, hread⟩ := Reads.split (l := []) (i := [_]) (n := 0) (m := 0)
                (f := []) hread
              refine ⟨u, hemit, a, ?_, ?_⟩
              · rw [hemit.rules]
                exact ha
              · rw [hemit.env, Nat.add_comm 1]
                exact hread

/-- One more lexeme of a call is read. -/
theorem callBehind_read {front : List Lexeme} {l : Lexeme} {ls : List Lexeme} {v : View}
    (hrest : v.rest = l :: ls) (h : CallBehind c (front ++ [l]) (v.at ls) v') :
    CallBehind c front v v' := by
  obtain ⟨k, ks, hk, hobeys, hread⟩ := h
  exact ⟨k, l :: ks, by rw [hk, List.append_assoc]; rfl, hobeys,
    Reads.cons_iff.mpr ⟨ls, hrest, hread⟩⟩

theorem leads_qualifiedCall (q : Token) :
    Leads c s (.qualifiedCall q) v' ↔ Means c (.qualifiedCall q) s.view v' := by
  rw [leads_onName (P := fun x v => ∃ u, Reads v [.word "("] [] 0 [] u ∧
    CallBehind c [.name q.text, .word ".", .name x, .word "("] u v') rfl]
  · show _ ↔ CallBehind c _ s.view v'
    constructor
    · intro h
      rcases h with ⟨x, ls, hrest, u, hword, hcall⟩
      obtain ⟨ks, hks, hu⟩ := Reads.cons_iff.mp hword
      obtain rfl := Reads.nil_iff.mp hu
      exact callBehind_read hrest (callBehind_read (l := .word "(") hks hcall)
    · intro h
      rcases h with ⟨k, ls, hk, hobeys, hread⟩
      cases k with
      | unqualified y a =>
          simp only [Call.spelling, List.cons_append, List.nil_append, List.cons.injEq] at hk
          exact absurd (word_injective hk.2.1) (by decide)
      | qualified p y a =>
          simp only [Call.spelling, List.cons_append, List.nil_append, List.cons.injEq,
            true_and] at hk
          obtain ⟨hq, rfl⟩ := hk
          obtain rfl := name_injective hq
          obtain ⟨ls, hrest, hread⟩ := Reads.cons_iff.mp hread
          obtain ⟨ks, hks, hread⟩ := Reads.cons_iff.mp hread
          exact ⟨y, ls, hrest, _, .word hks, .qualified q.text y a, _, rfl, hobeys, hread⟩
  · intro t v
    simp only [meansAll_cons, meansAll_nil, Means, exists_eq_right']

theorem selects_onCallSign (name : Token) :
    Selects (Goal.onCallSign name)
      [("(", [.localCall name]), (".", [.qualifiedCall name])] :=
  (Selects.nil.cons _ (fun _ ht => isWord_iff ht ".") (List.not_mem_nil)).cons _
    (fun _ ht => isWord_iff ht "(") (by simp)

theorem leads_callSign (hs : s.Sound) (name : Token) :
    Leads c s (.callSign name) v' ↔ Means c (.callSign name) s.view v' := by
  rw [leads_expect rfl, (selects_onCallSign name).some_iff hs
    (P := fun next ls => MeansAll c next (s.view.at ls) v')]
  show _ ↔ CallBehind c _ s.view v'
  constructor
  · intro h
    rcases h with ⟨w, next, ls, hmem, hrest, hmeans⟩
    simp only [List.mem_cons, List.not_mem_nil, or_false, Prod.mk.injEq] at hmem
    rcases hmem with ⟨rfl, rfl⟩ | ⟨rfl, rfl⟩
    · obtain ⟨u, hcall, rfl⟩ := hmeans
      exact callBehind_read hrest hcall
    · obtain ⟨u, hcall, rfl⟩ := hmeans
      exact callBehind_read hrest hcall
  · intro h
    rcases h with ⟨k, ls, hk, hobeys, hread⟩
    cases k with
    | unqualified y a =>
        obtain ⟨hx, rfl⟩ := List.cons.inj hk
        obtain rfl := name_injective hx
        obtain ⟨ls, hrest, hread⟩ := Reads.cons_iff.mp hread
        exact ⟨"(", [.localCall name], ls, by simp, hrest, v',
          ⟨.unqualified name.text a, _, rfl, hobeys, hread⟩, rfl⟩
    | qualified q y a =>
        obtain ⟨hx, rfl⟩ := List.cons.inj hk
        obtain rfl := name_injective hx
        obtain ⟨ls, hrest, hread⟩ := Reads.cons_iff.mp hread
        exact ⟨".", [.qualifiedCall name], ls, by simp, hrest, v',
          ⟨.qualified name.text y a, _, rfl, hobeys, hread⟩, rfl⟩

theorem leads_doTarget : Leads c s .doTarget v' ↔ Means c .doTarget s.view v' := by
  rw [leads_onName (P := fun x v => CallBehind c [.name x] v v') rfl]
  · show _ ↔ CallBehind c [] s.view v'
    constructor
    · intro h
      rcases h with ⟨x, ls, hrest, hcall⟩
      exact callBehind_read hrest hcall
    · intro h
      rcases h with ⟨k, ls, hk, hobeys, hread⟩
      cases k with
      | unqualified y a =>
          obtain rfl := hk
          obtain ⟨ls, hrest, hread⟩ := Reads.cons_iff.mp hread
          exact ⟨y, ls, hrest, .unqualified y a, _, rfl, hobeys, hread⟩
      | qualified q y a =>
          obtain rfl := hk
          obtain ⟨ls, hrest, hread⟩ := Reads.cons_iff.mp hread
          exact ⟨q, ls, hrest, .qualified q y a, _, rfl, hobeys, hread⟩
  · intro t v
    simp only [meansAll_cons, meansAll_nil, Means, exists_eq_right']

/-! ## Terms -/

theorem stops_cons_iff {w : String} {ws : List String} {ls : List Lexeme} :
    Stops (w :: ws) ls ↔ ls.head? ≠ some (.word w) ∧ Stops ws ls := by
  simp [Stops]

theorem sees_eq_false_iff (hs : s.Sound) (w : String) :
    s.sees w = false ↔ s.view.rest.head? ≠ some (.word w) := by
  rw [← Bool.not_eq_true, sees_iff hs]

/-- An expression up to the sign that closes it. -/
theorem meansAll_closed {w : String} (hw : w ∈ closers) {v : View} :
    MeansAll c [.expression, .word w] v v' ↔
      ∃ e : Expression, e.Obeys (v.rules c) ∧
        Reads v (e.spelling ++ [Lexeme.word w]) (e.code v.env) 0 e.calls v' := by
  simp only [meansAll_cons, meansAll_nil, Means, exists_eq_right']
  constructor
  · intro h
    rcases h with ⟨u, ⟨e, he, hread, -⟩, hword⟩
    exact ⟨e, he, by simpa using hread.append hword⟩
  · intro h
    rcases h with ⟨e, he, hread⟩
    rw [← List.append_nil (e.code v.env), ← List.append_nil e.calls] at hread
    obtain ⟨u, hread, hword⟩ := Reads.split (n := 0) (m := 0) hread
    refine ⟨u, ⟨e, he, hread, ?_⟩, hword⟩
    rw [hword.rest]
    exact e.ends_of_closer hw _

theorem meansAll_elementRest {name : Token} {v : View} :
    MeansAll c (Goal.elementRest name) v v' ↔
      ∃ e : Expression, (v.rules c).Accessible name.text ∧ e.Obeys (v.rules c) ∧
        Reads v (e.spelling ++ [Lexeme.word "]"])
          (v.env.read name.text ++ e.code v.env ++
            [Instruction.arithmetic .add, .pop .pointer 1, .push .that 0]) 0 e.calls v' := by
  have hgoals : Goal.elementRest name = [Goal.load name] ++ [Goal.expression, .word "]"] ++
      [Instruction.arithmetic .add, .pop .pointer 1, .push .that 0].map Goal.emit := rfl
  rw [hgoals, meansAll_append]
  simp only [meansAll_append, meansAll_emits, meansAll_closed (show "]" ∈ closers by decide)]
  constructor
  · intro h
    rcases h with ⟨u₂, ⟨u₁, ⟨_, ⟨hx, hload⟩, rfl⟩, e, he, hread⟩, hemit⟩
    rw [hload.rules] at he
    rw [hload.env] at hread
    refine ⟨e, hx, he, ?_⟩
    simpa using (hload.append hread).append hemit
  · intro h
    rcases h with ⟨e, hx, he, hread⟩
    rw [← List.append_nil (e.spelling ++ _), ← List.append_nil e.calls] at hread
    obtain ⟨u₂, hread, hemit⟩ := Reads.split (n := 0) (m := 0) hread
    obtain ⟨u₁, hload, hread⟩ := Reads.split (l := []) (n := 0) (m := 0) (f := []) hread
    rw [← hload.rules] at he
    rw [← hload.env] at hread
    exact ⟨u₂, ⟨u₁, ⟨u₁, ⟨hx, hload⟩, rfl⟩, e, he, hread⟩, hemit⟩

theorem leads_identifierTail (hs : s.Sound) (name : Token) :
    Leads c s (.identifierTail name) v' ↔ Means c (.identifierTail name) s.view v' := by
  rw [leads_ok rfl, meansAll_chooseWord hs]
  simp only [meansAll_elementRest, Means]
  constructor
  · intro h
    rcases h with ⟨ls, hrest, e, hx, he, hread⟩ | ⟨hbracket, hmeans⟩
    · exact ⟨.element name.text e, _, rfl, ⟨hx, he⟩, Reads.cons_iff.mpr ⟨ls, hrest, hread⟩,
        fun h => by cases h⟩
    · split at hmeans
      · obtain ⟨u, ⟨k, ls, hk, hobeys, hread⟩, rfl⟩ := hmeans
        exact ⟨.call k, ls, hk, hobeys, hread, fun h => by cases h⟩
      · next hsees =>
          obtain ⟨u, ⟨hx, hread⟩, rfl⟩ := hmeans
          simp only [Bool.or_eq_true, not_or, Bool.not_eq_true, sees_eq_false_iff hs] at hsees
          refine ⟨.var name.text, [], rfl, hx, hread, fun _ => ?_⟩
          rw [← show s.view.rest = v'.rest from hread.rest]
          refine stops_cons_iff.mpr ⟨(stops_cons_iff.mp hbracket).1, ?_⟩
          exact stops_cons_iff.mpr ⟨hsees.1, stops_cons_iff.mpr ⟨hsees.2, by simp [Stops]⟩⟩
  · intro h
    rcases h with ⟨t, ls, ht, hobeys, hread, hends⟩
    cases t with
    | integer digits =>
        exact absurd (congrArg Lexeme.kind (List.cons.inj ht).1) (by simp [Lexeme.name])
    | string text =>
        exact absurd (congrArg Lexeme.kind (List.cons.inj ht).1) (by simp [Lexeme.name])
    | constant k => exact absurd (List.cons.inj ht).1.symm (name_ne_word _ _)
    | this => exact absurd (List.cons.inj ht).1.symm (name_ne_word _ _)
    | unary op operand => exact absurd (List.cons.inj ht).1.symm (name_ne_word _ _)
    | parens e => exact absurd (List.cons.inj ht).1.symm (name_ne_word _ _)
    | var x =>
        obtain ⟨hx, rfl⟩ := List.cons.inj ht
        obtain rfl := name_injective hx
        have hstops := hends rfl
        rw [← show s.view.rest = v'.rest from hread.rest] at hstops
        obtain ⟨hbracket, hstops⟩ := stops_cons_iff.mp hstops
        obtain ⟨hparen, hstops⟩ := stops_cons_iff.mp hstops
        obtain ⟨hdot, -⟩ := stops_cons_iff.mp hstops
        refine .inr ⟨stops_cons_iff.mpr ⟨hbracket, by simp [Stops]⟩, ?_⟩
        rw [(sees_eq_false_iff hs "(").mpr hparen, (sees_eq_false_iff hs ".").mpr hdot]
        exact ⟨v', ⟨hobeys, hread⟩, rfl⟩
    | element x e =>
        obtain ⟨hx, rfl⟩ := List.cons.inj ht
        obtain rfl := name_injective hx
        obtain ⟨ls, hrest, hread⟩ := Reads.cons_iff.mp hread
        exact .inl ⟨ls, hrest, e, hobeys.1, hobeys.2, hread⟩
    | call k =>
        have hsign : ∃ w ks, ls = .word w :: ks ∧ (w = "(" ∨ w = ".") := by
          cases k with
          | unqualified y a => exact ⟨"(", _, (List.cons.inj ht).2.symm, .inl rfl⟩
          | qualified q y a => exact ⟨".", _, (List.cons.inj ht).2.symm, .inr rfl⟩
        obtain ⟨w, ks, rfl, hw⟩ := hsign
        have hhead : s.view.rest.head? = some (.word w) := by rw [hread.rest]; rfl
        refine .inr ⟨?_, ?_⟩
        · rw [hread.rest]
          rcases hw with rfl | rfl <;> exact stops_word (by decide) _
        · have hsees : (s.sees "(" || s.sees ".") = true := by
            rw [Bool.or_eq_true, sees_iff hs, sees_iff hs, hhead]
            rcases hw with rfl | rfl
            · exact .inl rfl
            · exact .inr rfl
          rw [if_pos hsees]
          exact ⟨v', ⟨k, _, ht, hobeys, hread⟩, rfl⟩

theorem leads_term : Leads c s .term v' ↔ Means c .term s.view v' := by
  cases hts : s.rest with
  | nil =>
      have hstep : ∃ f, step c s .term = .error f := by
        simp only [step, hts]
        exact ⟨_, rfl⟩
      simp only [not_leads hstep.choose_spec, Means, false_iff]
      intro h
      rcases h with ⟨t, -, hread, -⟩
      obtain ⟨l, ls, hl, -⟩ := term_starts t
      have hrest := hread.rest
      rw [view_rest, hts, hl] at hrest
      cases hrest
  | cons t ts =>
      have hstep : step c s .term = .ok ([.enter .term, .termBody, .leave .term], s) := by
        simp only [step, hts]
      rw [leads_ok hstep]
      simp only [meansAll_cons, meansAll_nil, Means, exists_eq_left, exists_eq_right']

theorem stringLiteral_eq (text : String) :
    Goal.stringLiteral text = (stringCode text).map Goal.emit := by
  simp [Goal.stringLiteral, stringCode, List.map_flatMap]

theorem meansAll_unary {i : Instruction} {v : View} :
    MeansAll c [.term, .emit i] v v' ↔
      ∃ t : Term, t.Obeys (v.rules c) ∧ Reads v t.spelling (t.code v.env ++ [i]) 0 t.calls v' ∧
        t.Ends v'.rest := by
  simp only [meansAll_cons, meansAll_nil, Means, exists_eq_right']
  constructor
  · intro h
    rcases h with ⟨u, ⟨t, ht, hread, hends⟩, hemit⟩
    refine ⟨t, ht, by simpa using hread.append hemit, ?_⟩
    rw [← show u.rest = v'.rest from hemit.rest]
    exact hends
  · intro h
    rcases h with ⟨t, ht, hread, hends⟩
    rw [← List.append_nil t.spelling, ← List.append_nil t.calls] at hread
    obtain ⟨u, hread, hemit⟩ := Reads.split (n := 0) (m := 0) hread
    refine ⟨u, ⟨t, ht, hread, ?_⟩, hemit⟩
    rw [show u.rest = v'.rest from hemit.rest]
    exact hends

/-- A term read from its first token on, whose lexeme is `l` and which selects `next`. -/
theorem term_of_onTerm (hs : s.Sound) {t : Token} {ts : List Token} (hts : s.rest = t :: ts)
    {next : List Goal} (hsel : Goal.onTerm t = some next)
    (hmeans : MeansAll c next (s.view.at (ts.map Token.lexeme)) v') :
    Means c .termBody s.view v' := by
  have hvalid := hs.valid t (hts ▸ List.mem_cons_self ..)
  have hrest : s.view.rest = t.lexeme :: ts.map Token.lexeme := by
    rw [view_rest, hts, List.map_cons]
  unfold Goal.onTerm at hsel
  split at hsel
  · next hk =>
      obtain rfl := Option.some.inj hsel
      obtain ⟨u, ⟨n, hn, hmax, hread⟩, rfl⟩ := hmeans
      have hlex : t.lexeme = ⟨.integer, t.text⟩ := by rw [Token.lexeme, hk]
      rw [hlex] at hrest hvalid
      have hshort : t.text.length ≤ Text.maxDigits := by
        refine Nat.le_of_not_lt fun hlong => ?_
        rw [readInteger_of_long hvalid hlong] at hn
        cases hn
      have hwithin : Text.beyond (s.view.rules c).limit t.text.length = false :=
        decide_eq_false (Nat.not_lt.mpr hshort)
      rw [readInteger_of_short hvalid hshort] at hn
      obtain rfl : numeralValue t.text = n := Int.ofNat.inj (Except.ok.inj hn)
      exact ⟨.integer t.text, ⟨hwithin, hmax⟩, Reads.cons_iff.mpr ⟨_, hrest, hread⟩,
        fun h => by cases h⟩
  · next hk =>
      obtain rfl := Option.some.inj hsel
      have hlex : t.lexeme = ⟨.string, t.text⟩ := by rw [Token.lexeme, hk]
      rw [hlex] at hrest
      rw [stringLiteral_eq, meansAll_emits] at hmeans
      exact ⟨.string t.text, trivial, Reads.cons_iff.mpr ⟨_, hrest, hmeans⟩, fun h => by cases h⟩
  · next hk =>
      obtain rfl := Option.some.inj hsel
      have hlex : t.lexeme = .name t.text := by rw [Token.lexeme, hk]; rfl
      rw [hlex] at hrest
      obtain ⟨u, ⟨x, ls, hx, hobeys, hread, hends⟩, rfl⟩ := hmeans
      refine ⟨x, hobeys, ?_, hends⟩
      rw [hx]
      exact Reads.cons_iff.mpr ⟨_, hrest, hread⟩
  · next hk =>
      have hlex : t.lexeme = ⟨.keyword, t.text⟩ := by rw [Token.lexeme, hk]
      rw [hlex] at hrest
      split at hsel
      · next htrue =>
          obtain rfl := Option.some.inj hsel
          rw [htrue] at hrest
          have hread := (meansAll_emits (i := Constant.true.code)).mp hmeans
          exact ⟨.constant .true, trivial, Reads.cons_iff.mpr ⟨_, hrest, hread⟩,
            fun h => by cases h⟩
      · split at hsel
        · next hfalse =>
            obtain rfl := Option.some.inj hsel
            have hread := (meansAll_emits (i := Constant.null.code)).mp hmeans
            rcases hfalse with hfalse | hnull
            · rw [hfalse] at hrest
              exact ⟨.constant .false, trivial, Reads.cons_iff.mpr ⟨_, hrest, hread⟩,
                fun h => by cases h⟩
            · rw [hnull] at hrest
              exact ⟨.constant .null, trivial, Reads.cons_iff.mpr ⟨_, hrest, hread⟩,
                fun h => by cases h⟩
        · split at hsel
          · next hthis =>
              obtain rfl := Option.some.inj hsel
              rw [hthis] at hrest
              obtain ⟨u, ⟨cell, hself, hread⟩, rfl⟩ := hmeans
              have hself : s.view.env.self = some cell := hself
              refine ⟨.this, ?_, Reads.cons_iff.mpr ⟨_, hrest, ?_⟩, fun h => by cases h⟩
              · exact Option.isSome_iff_exists.mpr ⟨cell, hself⟩
              · rw [Term.code, hself]
                exact hread
          · cases hsel
  · next hk =>
      have hlex : t.lexeme = ⟨.symbol, t.text⟩ := by rw [Token.lexeme, hk]
      rw [hlex] at hrest
      split at hsel
      · next hminus =>
          obtain rfl := Option.some.inj hsel
          rw [hminus] at hrest
          obtain ⟨x, hobeys, hread, hends⟩ := meansAll_unary.mp hmeans
          exact ⟨.unary .negate x, hobeys, Reads.cons_iff.mpr ⟨_, hrest, hread⟩, hends⟩
      · split at hsel
        · next htilde =>
            obtain rfl := Option.some.inj hsel
            rw [htilde] at hrest
            obtain ⟨x, hobeys, hread, hends⟩ := meansAll_unary.mp hmeans
            exact ⟨.unary .complement x, hobeys, Reads.cons_iff.mpr ⟨_, hrest, hread⟩, hends⟩
        · split at hsel
          · next hparen =>
              obtain rfl := Option.some.inj hsel
              rw [hparen] at hrest
              obtain ⟨e, hobeys, hread⟩ := (meansAll_closed (by decide)).mp hmeans
              exact ⟨.parens e, hobeys, Reads.cons_iff.mpr ⟨_, hrest, hread⟩, fun h => by cases h⟩
          · cases hsel

theorem view_cons {l : Lexeme} {ls : List Lexeme} (h : s.view.rest = l :: ls) :
    ∃ t ts, s.rest = t :: ts ∧ t.kind = l.kind ∧ t.text = l.text ∧ ts.map Token.lexeme = ls := by
  obtain ⟨t, ts, hts, rfl, rfl⟩ := List.map_eq_cons_iff.mp h
  exact ⟨t, ts, hts, rfl, rfl, rfl⟩

/-- The first token of a term selects the goals that read its rest. -/
theorem onTerm_of_term (hs : s.Sound) (h : Means c .termBody s.view v') :
    ∃ t ts next, s.rest = t :: ts ∧ Goal.onTerm t = some next ∧
      MeansAll c next (s.view.at (ts.map Token.lexeme)) v' := by
  obtain ⟨x, hobeys, hread, hends⟩ := h
  obtain ⟨l, ls, hx, -⟩ := term_starts x
  rw [hx] at hread
  obtain ⟨ks, hrest, htail⟩ := Reads.cons_iff.mp hread
  obtain ⟨t, ts, hts, hkind, htext, rfl⟩ := view_cons hrest
  have hvalid := hs.valid t (hts ▸ List.mem_cons_self ..)
  have hname : ∀ y, l = .name y → Goal.onTerm t = some [.identifierTail t] := by
    rintro y rfl
    simp only [Goal.onTerm, hkind, Lexeme.name]
  refine ⟨t, ts, ?_⟩
  cases x with
  | integer digits =>
      obtain ⟨rfl, rfl⟩ := List.cons.inj hx
      have hlex : t.lexeme = ⟨.integer, digits⟩ := by rw [Token.lexeme, hkind, htext]
      rw [hlex] at hvalid
      obtain ⟨hwithin, hmax⟩ := hobeys
      have hshort : digits.length ≤ Text.maxDigits := Nat.not_lt.mp (of_decide_eq_false hwithin)
      refine ⟨[.integer t], hts, by simp only [Goal.onTerm, hkind], v', ⟨_, ?_, hmax, htail⟩, rfl⟩
      rw [htext]
      exact readInteger_of_short hvalid hshort
  | string text =>
      obtain ⟨rfl, rfl⟩ := List.cons.inj hx
      refine ⟨Goal.stringLiteral t.text, hts, by simp only [Goal.onTerm, hkind], ?_⟩
      rw [stringLiteral_eq, meansAll_emits, htext]
      exact htail
  | constant k =>
      obtain ⟨rfl, rfl⟩ := List.cons.inj hx
      have hkeyword : t.kind = .keyword := by
        rw [hkind]
        cases k <;> decide
      have htext : t.text = k.word := htext
      refine ⟨k.code.map Goal.emit, hts, ?_, meansAll_emits.mpr htail⟩
      cases k <;> simp [Goal.onTerm, hkeyword, htext, Constant.word, Constant.code]
  | this =>
      obtain ⟨rfl, rfl⟩ := List.cons.inj hx
      have hkeyword : t.kind = .keyword := hkind
      have htext : t.text = "this" := htext
      obtain ⟨cell, hself⟩ := Option.isSome_iff_exists.mp hobeys
      have hself : s.view.env.self = some cell := hself
      refine ⟨[.this t], hts, by simp [Goal.onTerm, hkeyword, htext], v', ⟨cell, hself, ?_⟩, rfl⟩
      rw [Term.code, hself] at htail
      exact htail
  | unary op operand =>
      obtain ⟨rfl, rfl⟩ := List.cons.inj hx
      have hsymbol : t.kind = .symbol := by
        rw [hkind]
        cases op <;> decide
      have htext : t.text = op.sign := htext
      refine ⟨[.term, .emit op.instruction], hts, ?_,
        meansAll_unary.mpr ⟨operand, hobeys, htail, hends⟩⟩
      cases op <;>
        simp [Goal.onTerm, hsymbol, htext, UnaryOperator.sign, UnaryOperator.instruction]
  | parens e =>
      obtain ⟨rfl, rfl⟩ := List.cons.inj hx
      have hsymbol : t.kind = .symbol := hkind
      have htext : t.text = "(" := htext
      exact ⟨[.expression, .word ")"], hts, by simp [Goal.onTerm, hsymbol, htext],
        (meansAll_closed (by decide)).mpr ⟨e, hobeys, htail⟩⟩
  | var x =>
      obtain ⟨rfl, rfl⟩ := List.cons.inj hx
      refine ⟨_, hts, hname x rfl, v', ⟨.var x, [], ?_, hobeys, htail, hends⟩, rfl⟩
      rw [htext]
      rfl
  | element x index =>
      obtain ⟨rfl, rfl⟩ := List.cons.inj hx
      refine ⟨_, hts, hname x rfl, v', ⟨.element x index, _, ?_, hobeys, htail, hends⟩, rfl⟩
      rw [htext]
      rfl
  | call k =>
      refine ⟨[.identifierTail t], hts, ?_, v', ⟨.call k, ls, ?_, hobeys, htail, hends⟩, rfl⟩
      · cases k with
        | unqualified y a => exact hname y (List.cons.inj hx).1.symm
        | qualified q y a => exact hname q (List.cons.inj hx).1.symm
      · rw [hx, htext]
        cases k with
        | unqualified y a => rw [← (List.cons.inj hx).1]; rfl
        | qualified q y a => rw [← (List.cons.inj hx).1]; rfl

theorem leads_termBody (hs : s.Sound) :
    Leads c s .termBody v' ↔ Means c .termBody s.view v' := by
  rw [leads_expect rfl]
  constructor
  · intro h
    rcases h with ⟨t, ts, next, hts, hsel, hmeans⟩
    exact term_of_onTerm hs hts hsel hmeans
  · exact onTerm_of_term hs

end Jack.Compile
