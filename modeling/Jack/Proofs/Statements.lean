import Jack.Proofs.Expressions

/-!
# Steps on statements

For every goal that belongs to a statement, a step leads exactly to what the goal means. The
goals of a statement are taken apart into the phrases between its fixed words: conditions, blocks
and values (`meansAll_condition`, `meansAll_block`, `meansAll_closed`). Each kind of statement is
then one equivalence between its goals and the trees that start with its keyword
(`StatementBehind`), and a list of statements is read one keyword after the other.

Labels are drawn before the condition is read, so the numbers of the labels in the rest of the
statement count from behind them (`Reads.labels_iff`).
-/

namespace Jack.Syntax

/-! ## First and last lexemes -/

theorem statement_starts (s : Statement) :
    ∃ w ∈ statementWords, ∃ ls, s.spelling = .word w :: ls := by
  cases s with
  | assign x value => exact ⟨"let", by decide, _, rfl⟩
  | assignElement x index value => exact ⟨"let", by decide, _, rfl⟩
  | conditional condition body alternative => exact ⟨"if", by decide, _, rfl⟩
  | loop condition body => exact ⟨"while", by decide, _, rfl⟩
  | perform k => exact ⟨"do", by decide, _, rfl⟩
  | yield value => cases value <;> exact ⟨"return", by decide, _, rfl⟩

theorem block_ends_iff {b : Block} {before : Bool} {ls : List Lexeme} :
    b.Ends before ls ↔ b.Ends false ls ∧ (b = .nil → before = true → Stops ["else"] ls) := by
  cases b <;> simp [Block.Ends, Block.isOpen]

/-- Behind a statement, the keyword of another one ends whatever conditional it ends in. -/
theorem stops_else_iff {s : Statement} {b : Block} {ls : List Lexeme} :
    (s.isOpen = true → Stops ["else"] (b.spelling ++ ls)) ↔
      (b = .nil → s.isOpen = true → Stops ["else"] ls) := by
  cases b with
  | nil => simp [Block.spelling]
  | cons t rest =>
      obtain ⟨w, hw, ks, hks⟩ := statement_starts t
      have helse : ∀ x ∈ statementWords, x ∉ ["else"] := by decide
      simp only [Block.spelling, hks, List.cons_append, reduceCtorEq, false_implies, iff_true]
      exact fun _ => stops_word (helse w hw) _

theorem Block.ends_of_closeBrace (b : Block) (ls : List Lexeme) :
    b.Ends false (.word Compile.Goal.closeBrace :: ls) :=
  ⟨stops_word (by decide) ls, fun _ => stops_word (by decide) ls⟩

end Jack.Syntax

namespace Jack.Compile

open Syntax

variable {c : Setting} {s : State} {v v' : View}

/-! ## The parts of a statement -/

theorem leads_statements :
    Leads c s .statements v' ↔ Means c .statements s.view v' := by
  rw [leads_ok rfl]
  simp only [meansAll_cons, meansAll_nil, Means, exists_eq_left, exists_eq_right']

theorem meansAll_condition :
    MeansAll c [.word "(", .expression, .word ")"] v v' ↔
      ∃ e : Expression, e.Obeys (v.rules c) ∧
        Reads v (.word "(" :: e.spelling ++ [Lexeme.word ")"]) (e.code v.env) 0 e.calls v' := by
  rw [meansAll_cons]
  simp only [meansAll_closed (show ")" ∈ closers by decide), Means]
  constructor
  · intro h
    rcases h with ⟨u, hopen, e, he, hread⟩
    rw [hopen.rules] at he
    rw [hopen.env] at hread
    exact ⟨e, he, by simpa using hopen.append hread⟩
  · intro h
    rcases h with ⟨e, he, hread⟩
    obtain ⟨u, hopen, hread⟩ := Reads.split (l := [_]) (i := []) (n := 0) (m := 0) (f := []) hread
    rw [← hopen.rules] at he
    rw [← hopen.env] at hread
    exact ⟨u, hopen, e, he, hread⟩

theorem meansAll_block :
    MeansAll c Goal.block v v' ↔
      ∃ b : Block, b.Obeys (v.rules c) ∧
        Reads v (.word Goal.openBrace :: b.spelling ++ [Lexeme.word Goal.closeBrace])
          (b.code v.env v.labels) b.labels b.calls v' := by
  simp only [Goal.block, meansAll_cons, meansAll_nil, Means, exists_eq_right']
  constructor
  · intro h
    rcases h with ⟨u, hopen, w, ⟨b, hb, hread, -⟩, hclose⟩
    rw [hopen.rules] at hb
    rw [hopen.env, hopen.labels] at hread
    exact ⟨b, hb, by simpa using (hopen.append hread).append hclose⟩
  · intro h
    rcases h with ⟨b, hb, hread⟩
    obtain ⟨u, hopen, hread⟩ := Reads.split (l := [_]) (i := []) (n := 0) (m := b.labels) (f := [])
      (by simpa using hread)
    rw [← List.append_nil (b.code v.env v.labels), ← List.append_nil b.calls] at hread
    obtain ⟨w, hread, hclose⟩ := Reads.split (n := b.labels) (m := 0) hread
    have hlabels : u.labels = v.labels := hopen.labels
    rw [← hopen.rules] at hb
    rw [← hopen.env, ← hlabels] at hread
    refine ⟨u, hopen, w, ⟨b, hb, hread, ?_⟩, hclose⟩
    rw [hclose.rest]
    exact b.ends_of_closeBrace _

theorem leads_elsePart (hs : s.Sound) :
    Leads c s .elsePart v' ↔ Means c .elsePart s.view v' := by
  rw [leads_ok rfl, meansAll_chooseWord hs]
  simp only [meansAll_block, meansAll_nil]
  constructor
  · intro h
    rcases h with ⟨ls, hrest, b, hb, hread⟩ | ⟨hstops, rfl⟩
    · exact ⟨.present b, hb, Reads.cons_iff.mpr ⟨ls, hrest, hread⟩, fun h => by cases h⟩
    · exact ⟨.absent, trivial, .refl _, fun _ => hstops⟩
  · intro h
    rcases h with ⟨a, ha, hread, hstops⟩
    cases a with
    | absent =>
        obtain rfl := Reads.nil_iff.mp hread
        exact .inr ⟨hstops rfl, rfl⟩
    | present b =>
        obtain ⟨ls, hrest, hread⟩ := Reads.cons_iff.mp hread
        exact .inl ⟨ls, hrest, b, ha, hread⟩

/-! ## Assignments -/

theorem meansAll_assignVariable (d : Declaration) :
    MeansAll c (Goal.assignVariable d) v v' ↔
      ∃ e : Expression, e.Obeys (v.rules c) ∧
        Reads v (.word "=" :: e.spelling ++ [Lexeme.word ";"])
          (e.code v.env ++ [d.binding.cell.pop]) 0 e.calls v' := by
  have hgoals : Goal.assignVariable d = [Goal.word "="] ++ [Goal.expression, .word ";"] ++
      [d.binding.cell.pop].map Goal.emit := rfl
  rw [hgoals, meansAll_append]
  simp only [meansAll_append, meansAll_emits, meansAll_closed (show ";" ∈ closers by decide)]
  constructor
  · intro h
    rcases h with ⟨u₂, ⟨u₁, ⟨_, hsign, rfl⟩, e, he, hread⟩, hemit⟩
    have hsign : Reads v [.word "="] [] 0 [] u₁ := hsign
    rw [hsign.rules] at he
    rw [hsign.env] at hread
    exact ⟨e, he, by simpa using (hsign.append hread).append hemit⟩
  · intro h
    rcases h with ⟨e, he, hread⟩
    have hread : Reads v (([Lexeme.word "="] ++ (e.spelling ++ [Lexeme.word ";"])) ++ [])
        (([] ++ e.code v.env) ++ [d.binding.cell.pop]) (0 + 0 + 0) (([] ++ e.calls) ++ []) v' := by
      simpa using hread
    obtain ⟨u₂, hread, hemit⟩ := hread.split
    obtain ⟨u₁, hsign, hread⟩ := hread.split
    rw [← hsign.rules] at he
    rw [← hsign.env] at hread
    exact ⟨u₂, ⟨u₁, ⟨u₁, hsign, rfl⟩, e, he, hread⟩, hemit⟩

theorem meansAll_assignElement (d : Declaration) :
    MeansAll c (Goal.assignElement d) v v' ↔
      ∃ i e : Expression, i.Obeys (v.rules c) ∧ e.Obeys (v.rules c) ∧
        Reads v (i.spelling ++ .word "]" :: .word "=" :: e.spelling ++ [Lexeme.word ";"])
          (d.binding.cell.push :: i.code v.env ++ .arithmetic .add :: e.code v.env ++
            [Instruction.pop .temp 0, .pop .pointer 1, .push .temp 0, .pop .that 0]) 0
          (i.calls ++ e.calls) v' := by
  have hgoals : Goal.assignElement d = [d.binding.cell.push].map Goal.emit ++
      [Goal.expression, .word "]"] ++ [Goal.emit (.arithmetic .add), .word "="] ++
      [Goal.expression, .word ";"] ++
      [Instruction.pop .temp 0, .pop .pointer 1, .push .temp 0, .pop .that 0].map Goal.emit := rfl
  have hmiddle : ∀ u w, MeansAll c [.emit (.arithmetic .add), .word "="] u w ↔
      Reads u [.word "="] [.arithmetic .add] 0 [] w := by
    intro u w
    simp only [meansAll_cons, meansAll_nil, Means, exists_eq_right']
    constructor
    · intro h
      rcases h with ⟨_, hadd, hsign⟩
      exact hadd.append hsign
    · exact fun h => Reads.split (l := []) (j := []) (n := 0) (m := 0) (f := []) h
  rw [hgoals, meansAll_append]
  simp only [meansAll_append, meansAll_emits, meansAll_closed (show ";" ∈ closers by decide),
    meansAll_closed (show "]" ∈ closers by decide), hmiddle]
  constructor
  · intro h
    rcases h with ⟨u₄, ⟨u₃, ⟨u₂, ⟨u₁, hbase, i, hi, hindex⟩, hadd⟩, e, he, hvalue⟩, hemit⟩
    rw [hbase.rules] at hi
    rw [hbase.env] at hindex
    rw [hadd.rules, hindex.rules, hbase.rules] at he
    rw [hadd.env, hindex.env, hbase.env] at hvalue
    refine ⟨i, e, hi, he, ?_⟩
    simpa using (((hbase.append hindex).append hadd).append hvalue).append hemit
  · intro h
    rcases h with ⟨i, e, hi, he, hread⟩
    have hread : Reads v
        (((([] ++ (i.spelling ++ [Lexeme.word "]"])) ++ [Lexeme.word "="]) ++
          (e.spelling ++ [Lexeme.word ";"])) ++ [])
        (((([d.binding.cell.push] ++ i.code v.env) ++ [Instruction.arithmetic .add]) ++
          e.code v.env) ++ [Instruction.pop .temp 0, .pop .pointer 1, .push .temp 0, .pop .that 0])
        (0 + 0 + 0 + 0 + 0) (((([] ++ i.calls) ++ []) ++ e.calls) ++ []) v' := by
      simpa using hread
    obtain ⟨u₄, hread, hemit⟩ := hread.split
    obtain ⟨u₃, hread, hvalue⟩ := hread.split
    obtain ⟨u₂, hread, hadd⟩ := hread.split
    obtain ⟨u₁, hbase, hindex⟩ := hread.split
    rw [← hbase.rules, ← hindex.rules, ← hadd.rules] at he
    rw [← hbase.env, ← hindex.env, ← hadd.env] at hvalue
    rw [← hbase.rules] at hi
    rw [← hbase.env] at hindex
    exact ⟨u₄, ⟨u₃, ⟨u₂, ⟨u₁, hbase, i, hi, hindex⟩, hadd⟩, e, he, hvalue⟩, hemit⟩

theorem leads_assignTail (hs : s.Sound) (d : Declaration) :
    Leads c s (.assignTail d) v' ↔ Means c (.assignTail d) s.view v' := by
  rw [leads_ok rfl, meansAll_chooseWord hs]
  simp only [meansAll_assignVariable, meansAll_assignElement, Means]
  constructor
  · intro h
    rcases h with ⟨ls, hrest, i, e, hi, he, hread⟩ | ⟨-, h⟩
    · exact .inr ⟨i, e, hi, he, Reads.cons_iff.mpr ⟨ls, hrest, hread⟩⟩
    · exact .inl h
  · intro h
    rcases h with ⟨e, he, hread⟩ | ⟨i, e, hi, he, hread⟩
    · refine .inr ⟨?_, e, he, hread⟩
      rw [hread.rest]
      exact stops_word (by decide) _
    · obtain ⟨ls, hrest, hread⟩ := Reads.cons_iff.mp hread
      exact .inl ⟨ls, hrest, i, e, hi, he, hread⟩

theorem statementBehind_let {x : String} :
    StatementBehind c [.word "let", .name x] v v' ↔
      (∃ e : Expression, (v.rules c).Accessible x ∧ e.Obeys (v.rules c) ∧
        Reads v (.word "=" :: e.spelling ++ [Lexeme.word ";"]) (e.code v.env ++ v.env.write x) 0
          e.calls v') ∨
      (∃ i e : Expression, (v.rules c).Accessible x ∧ i.Obeys (v.rules c) ∧
        e.Obeys (v.rules c) ∧
        Reads v (.word "[" :: i.spelling ++ .word "]" :: .word "=" :: e.spelling ++
            [Lexeme.word ";"])
          (v.env.read x ++ i.code v.env ++ .arithmetic .add :: e.code v.env ++
            [Instruction.pop .temp 0, .pop .pointer 1, .push .temp 0, .pop .that 0]) 0
          (i.calls ++ e.calls) v') := by
  constructor
  · intro h
    rcases h with ⟨t, ls, ht, hobeys, hread, -⟩
    cases t with
    | assign y e =>
        obtain ⟨-, htail⟩ := List.cons.inj ht
        obtain ⟨hy, rfl⟩ := List.cons.inj htail
        obtain rfl := name_injective hy
        exact .inl ⟨e, hobeys.1, hobeys.2, hread⟩
    | assignElement y i e =>
        obtain ⟨-, htail⟩ := List.cons.inj ht
        obtain ⟨hy, rfl⟩ := List.cons.inj htail
        obtain rfl := name_injective hy
        exact .inr ⟨i, e, hobeys.1, hobeys.2.1, hobeys.2.2, hread⟩
    | conditional | loop | perform => exact absurd (List.cons.inj ht).1 (by decide)
    | yield value => cases value <;> exact absurd (List.cons.inj ht).1 (by decide)
  · intro h
    rcases h with ⟨e, hx, he, hread⟩ | ⟨i, e, hx, hi, he, hread⟩
    · exact ⟨.assign x e, _, rfl, ⟨hx, he⟩, hread, fun h => by cases h⟩
    · exact ⟨.assignElement x i e, _, rfl, ⟨hx, hi, he⟩, hread, fun h => by cases h⟩

theorem leads_assign (name : Token) :
    Leads c s (.assign name) v' ↔ Means c (.assign name) s.view v' := by
  have hspec := resolve_spec c s name
  simp only [Means, statementBehind_let]
  cases hd : c.resolve s name with
  | error f =>
      rw [hd] at hspec
      have hstep : step c s (.assign name) = .error f := by simp only [step, hd]
      simp only [not_leads hstep, false_iff]
      intro h
      rcases h with ⟨e, hx, -⟩ | ⟨i, e, hx, -⟩
      · exact hspec hx
      · exact hspec hx
  | ok d =>
      rw [hd] at hspec
      obtain ⟨hresolve, hx⟩ := hspec
      have hstep : step c s (.assign name) = .ok ([.assignTail d], s) := by simp only [step, hd]
      rw [leads_ok hstep]
      simp only [meansAll_cons, meansAll_nil, Means, exists_eq_right', Env.read, Env.write,
        hresolve, hx, true_and, List.singleton_append]

theorem statementBehind_read {front : List Lexeme} {l : Lexeme} {ls : List Lexeme}
    (h : v.rest = l :: ls) (hb : StatementBehind c (front ++ [l]) (v.at ls) v') :
    StatementBehind c front v v' := by
  obtain ⟨t, ks, ht, hobeys, hread, hstops⟩ := hb
  exact ⟨t, l :: ks, by rw [ht, List.append_assoc, List.singleton_append], hobeys,
    Reads.cons_iff.mpr ⟨ls, h, hread⟩, hstops⟩

theorem leads_letTarget : Leads c s .letTarget v' ↔ Means c .letTarget s.view v' := by
  rw [leads_onName rfl (P := fun x v => StatementBehind c [.word "let", .name x] v v')
    (fun t v => by simp only [meansAll_cons, meansAll_nil, Means, exists_eq_right'])]
  constructor
  · intro h
    rcases h with ⟨x, ls, hrest, h⟩
    exact statementBehind_read hrest h
  · intro h
    rcases h with ⟨t, ls, ht, hobeys, hread, hstops⟩
    have hname : ∃ x ks, ls = .name x :: ks := by
      cases t with
      | assign x e => exact ⟨x, _, (List.cons.inj ht).2.symm⟩
      | assignElement x i e => exact ⟨x, _, (List.cons.inj ht).2.symm⟩
      | conditional | loop | perform => exact absurd (List.cons.inj ht).1 (by decide)
      | yield value => cases value <;> exact absurd (List.cons.inj ht).1 (by decide)
    obtain ⟨x, ks, rfl⟩ := hname
    obtain ⟨ls, hrest, hread⟩ := Reads.cons_iff.mp hread
    exact ⟨x, ls, hrest, t, ks, ht, hobeys, hread, hstops⟩

/-! ## Conditionals and loops -/

theorem statementBehind_if :
    StatementBehind c [.word "if"] v v' ↔
      ∃ (e : Expression) (b : Block) (a : Alternative), e.Obeys (v.rules c) ∧
        b.Obeys (v.rules c) ∧ a.Obeys (v.rules c) ∧
        Reads v (.word "(" :: e.spelling ++ .word ")" :: .word Goal.openBrace :: b.spelling ++
            .word Goal.closeBrace :: a.spelling)
          (Statement.code v.env v.labels (.conditional e b a)) (2 + (b.labels + a.labels))
          (e.calls ++ b.calls ++ a.calls) v' ∧
        (a = .absent → Stops ["else"] v'.rest) := by
  constructor
  · intro h
    rcases h with ⟨t, ls, ht, hobeys, hread, hstops⟩
    cases t with
    | conditional e b a =>
        obtain ⟨-, rfl⟩ := List.cons.inj ht
        rw [Statement.labels, Nat.add_assoc] at hread
        refine ⟨e, b, a, hobeys.1, hobeys.2.1, hobeys.2.2, hread, ?_⟩
        intro heq
        subst heq
        exact hstops rfl
    | assign | assignElement | loop | perform => exact absurd (List.cons.inj ht).1 (by decide)
    | yield value => cases value <;> exact absurd (List.cons.inj ht).1 (by decide)
  · intro h
    rcases h with ⟨e, b, a, he, hb, ha, hread, hstops⟩
    rw [← Nat.add_assoc] at hread
    refine ⟨.conditional e b a, _, rfl, ⟨he, hb, ha⟩, hread, ?_⟩
    cases a with
    | absent => exact fun _ => hstops rfl
    | present b => exact fun h => by cases h

theorem statementBehind_while :
    StatementBehind c [.word "while"] v v' ↔
      ∃ (e : Expression) (b : Block), e.Obeys (v.rules c) ∧ b.Obeys (v.rules c) ∧
        Reads v (.word "(" :: e.spelling ++ .word ")" :: .word Goal.openBrace :: b.spelling ++
            [Lexeme.word Goal.closeBrace])
          (Statement.code v.env v.labels (.loop e b)) (2 + b.labels) (e.calls ++ b.calls) v' := by
  constructor
  · intro h
    rcases h with ⟨t, ls, ht, hobeys, hread, -⟩
    cases t with
    | loop e b =>
        obtain ⟨-, rfl⟩ := List.cons.inj ht
        exact ⟨e, b, hobeys.1, hobeys.2, hread⟩
    | assign | assignElement | conditional | perform =>
        exact absurd (List.cons.inj ht).1 (by decide)
    | yield value => cases value <;> exact absurd (List.cons.inj ht).1 (by decide)
  · intro h
    rcases h with ⟨e, b, he, hb, hread⟩
    exact ⟨.loop e b, _, rfl, ⟨he, hb⟩, hread, fun h => by cases h⟩

theorem labelText_eq {s : State} (hs : s.Sound) (n : Nat) :
    State.labelText (s.labels + n) = label (s.view.labels + n) := by
  have hlabels : s.labels + n = ((s.view.labels + n : Nat) : Int) := by
    have h := hs.labels
    simp only [State.view]
    omega
  rw [hlabels]
  rfl

/-- What a state looks like when two labels have been drawn. -/
theorem view_drawn {s : State} (hs : s.Sound) :
    State.view { s with labels := s.labels + 1 + 1 } = s.view.drawn 2 := by
  have h := hs.labels
  have hlabels : (s.labels + 1 + 1).toNat = s.labels.toNat + 2 := by omega
  simp only [State.view, View.drawn, hlabels]
  rfl

theorem meansAll_conditional (m n : Nat) :
    MeansAll c (Goal.conditional (label m) (label n)) v v' ↔
      ∃ (e : Expression) (b : Block) (a : Alternative), e.Obeys (v.rules c) ∧
        b.Obeys (v.rules c) ∧ a.Obeys (v.rules c) ∧
        Reads v (.word "(" :: e.spelling ++ .word ")" :: .word Goal.openBrace :: b.spelling ++
            .word Goal.closeBrace :: a.spelling)
          (e.code v.env ++ .arithmetic .not :: .ifGoto (label m) :: b.code v.env v.labels ++
            .goto (label n) :: .label (label m) :: a.code v.env (v.labels + b.labels) ++
              [Instruction.label (label n)])
          (b.labels + a.labels) (e.calls ++ b.calls ++ a.calls) v' ∧
        (a = .absent → Stops ["else"] v'.rest) := by
  have hgoals : Goal.conditional (label m) (label n) =
      [Goal.word "(", .expression, .word ")"] ++
        [Instruction.arithmetic .not, .ifGoto (label m)].map Goal.emit ++ Goal.block ++
        [Instruction.goto (label n), .label (label m)].map Goal.emit ++ [Goal.elsePart] ++
        [Instruction.label (label n)].map Goal.emit := rfl
  rw [hgoals, meansAll_append]
  simp only [meansAll_append, meansAll_emits, meansAll_condition, meansAll_block]
  constructor
  · intro h
    rcases h with ⟨u₅, ⟨u₄, ⟨u₃, ⟨u₂, ⟨u₁, ⟨e, he, hcond⟩, hjump⟩, b, hb, hbody⟩, hskip⟩, _, ⟨a,
      ha, helse, hstops⟩, rfl⟩, hend⟩
    rw [hjump.rules, hcond.rules] at hb
    rw [hjump.env, hcond.env, hjump.labels, hcond.labels] at hbody
    rw [hskip.rules, hbody.rules, hjump.rules, hcond.rules] at ha
    rw [hskip.env, hbody.env, hjump.env, hcond.env, hskip.labels, hbody.labels, hjump.labels,
      hcond.labels] at helse
    refine ⟨e, b, a, he, hb, ha, ?_, ?_⟩
    · simpa using ((((hcond.append hjump).append hbody).append hskip).append helse).append hend
    · rw [← show u₅.rest = v'.rest from hend.rest]
      exact hstops
  · intro h
    rcases h with ⟨e, b, a, he, hb, ha, hread, hstops⟩
    have hread : Reads v
        ((((((.word "(" :: e.spelling ++ [Lexeme.word ")"]) ++ []) ++
          (.word Goal.openBrace :: b.spelling ++ [Lexeme.word Goal.closeBrace])) ++ []) ++
            a.spelling) ++ [])
        (((((e.code v.env ++ [Instruction.arithmetic .not, .ifGoto (label m)]) ++
          b.code v.env v.labels) ++
          [Instruction.goto (label n), .label (label m)]) ++ a.code v.env (v.labels + b.labels)) ++
            [Instruction.label (label n)])
        (0 + 0 + b.labels + 0 + a.labels + 0)
        (((((e.calls ++ []) ++ b.calls) ++ []) ++ a.calls) ++ []) v' := by
      simpa using hread
    obtain ⟨u₅, hread, hend⟩ := hread.split
    obtain ⟨u₄, hread, helse⟩ := hread.split
    obtain ⟨u₃, hread, hskip⟩ := hread.split
    obtain ⟨u₂, hread, hbody⟩ := hread.split
    obtain ⟨u₁, hcond, hjump⟩ := hread.split
    have hlabels₂ : u₂.labels = v.labels := by
      simp only [hjump.labels, hcond.labels, Nat.add_zero]
    have hlabels₄ : u₄.labels = v.labels + b.labels := by
      rw [hskip.labels, hbody.labels, hlabels₂, Nat.add_zero]
    rw [← hcond.rules, ← hjump.rules, ← hbody.rules, ← hskip.rules] at ha
    rw [← hcond.env, ← hjump.env, ← hbody.env, ← hskip.env, ← hlabels₄] at helse
    rw [← hcond.rules, ← hjump.rules] at hb
    rw [← hcond.env, ← hjump.env, ← hlabels₂] at hbody
    rw [← show u₅.rest = v'.rest from hend.rest] at hstops
    exact ⟨u₅, ⟨u₄, ⟨u₃, ⟨u₂, ⟨u₁, ⟨e, he, hcond⟩, hjump⟩, b, hb, hbody⟩, hskip⟩, u₅,
      ⟨a, ha, helse, hstops⟩, rfl⟩, hend⟩

theorem leads_ifBody (hs : s.Sound) :
    Leads c s .ifBody v' ↔ Means c .ifBody s.view v' := by
  have hstep : step c s .ifBody =
      .ok (Goal.conditional (label (s.view.labels + 1)) (label (s.view.labels + 2)),
        { s with labels := s.labels + 1 + 1 }) := by
    rw [← labelText_eq hs 1, ← labelText_eq hs 2]
    simp only [step, State.drawLabel, Int.add_assoc]
    rfl
  rw [leads_ok hstep]
  simp only [view_drawn hs, meansAll_conditional, Means, statementBehind_if,
    Reads.labels_iff (n := 2), View.drawn_env, View.drawn_rules, View.drawn_labels,
    Statement.code]

theorem meansAll_loop (m n : Nat) :
    MeansAll c (Goal.loop (label m) (label n)) v v' ↔
      ∃ (e : Expression) (b : Block), e.Obeys (v.rules c) ∧ b.Obeys (v.rules c) ∧
        Reads v (.word "(" :: e.spelling ++ .word ")" :: .word Goal.openBrace :: b.spelling ++
            [Lexeme.word Goal.closeBrace])
          (.label (label m) :: e.code v.env ++ .arithmetic .not :: .ifGoto (label n) ::
            b.code v.env v.labels ++ [Instruction.goto (label m), .label (label n)])
          b.labels (e.calls ++ b.calls) v' := by
  have hgoals : Goal.loop (label m) (label n) = [Instruction.label (label m)].map Goal.emit ++
      [Goal.word "(", .expression, .word ")"] ++
        [Instruction.arithmetic .not, .ifGoto (label n)].map Goal.emit ++ Goal.block ++
        [Instruction.goto (label m), .label (label n)].map Goal.emit := rfl
  rw [hgoals, meansAll_append]
  simp only [meansAll_append, meansAll_emits, meansAll_condition, meansAll_block]
  constructor
  · intro h
    rcases h with ⟨u₄, ⟨u₃, ⟨u₂, ⟨u₁, hstart, e, he, hcond⟩, hjump⟩, b, hb, hbody⟩, hend⟩
    rw [hstart.rules] at he
    rw [hstart.env] at hcond
    rw [hjump.rules, hcond.rules, hstart.rules] at hb
    rw [hjump.env, hcond.env, hstart.env, hjump.labels, hcond.labels, hstart.labels] at hbody
    refine ⟨e, b, he, hb, ?_⟩
    simpa using (((hstart.append hcond).append hjump).append hbody).append hend
  · intro h
    rcases h with ⟨e, b, he, hb, hread⟩
    have hread : Reads v
        (((([] ++ (.word "(" :: e.spelling ++ [Lexeme.word ")"])) ++ []) ++
          (.word Goal.openBrace :: b.spelling ++ [Lexeme.word Goal.closeBrace])) ++ [])
        (((([Instruction.label (label m)] ++ e.code v.env) ++
          [Instruction.arithmetic .not, .ifGoto (label n)]) ++
          b.code v.env v.labels) ++ [Instruction.goto (label m), .label (label n)])
        (0 + 0 + 0 + b.labels + 0) (((([] ++ e.calls) ++ []) ++ b.calls) ++ []) v' := by
      simpa using hread
    obtain ⟨u₄, hread, hend⟩ := hread.split
    obtain ⟨u₃, hread, hbody⟩ := hread.split
    obtain ⟨u₂, hread, hjump⟩ := hread.split
    obtain ⟨u₁, hstart, hcond⟩ := hread.split
    have hlabels : u₃.labels = v.labels := by
      simp only [hjump.labels, hcond.labels, hstart.labels, Nat.add_zero]
    rw [← hstart.rules, ← hcond.rules, ← hjump.rules] at hb
    rw [← hstart.env, ← hcond.env, ← hjump.env, ← hlabels] at hbody
    rw [← hstart.rules] at he
    rw [← hstart.env] at hcond
    exact ⟨u₄, ⟨u₃, ⟨u₂, ⟨u₁, hstart, e, he, hcond⟩, hjump⟩, b, hb, hbody⟩, hend⟩

theorem leads_whileBody (hs : s.Sound) :
    Leads c s .whileBody v' ↔ Means c .whileBody s.view v' := by
  have hstep : step c s .whileBody =
      .ok (Goal.loop (label (s.view.labels + 1)) (label (s.view.labels + 2)),
        { s with labels := s.labels + 1 + 1 }) := by
    rw [← labelText_eq hs 1, ← labelText_eq hs 2]
    simp only [step, State.drawLabel, Int.add_assoc]
    rfl
  rw [leads_ok hstep]
  simp only [view_drawn hs, meansAll_loop, Means, statementBehind_while,
    Reads.labels_iff (n := 2), View.drawn_env, View.drawn_rules, View.drawn_labels,
    Statement.code]

/-! ## Calls and returns -/

theorem meansAll_perform :
    MeansAll c [.doTarget, .word ";", .emit (.pop .temp 0)] v v' ↔
      StatementBehind c [.word "do"] v v' := by
  simp only [meansAll_cons, meansAll_nil, Means, exists_eq_right']
  constructor
  · intro h
    rcases h with ⟨u, ⟨k, ls, hk, hobeys, hread⟩, w, hword, hemit⟩
    obtain rfl : k.spelling = ls := hk
    refine ⟨.perform k, _, rfl, hobeys, ?_, fun h => by cases h⟩
    simpa [Statement.code, Statement.labels, Statement.calls] using
      (hread.append hword).append hemit
  · intro h
    rcases h with ⟨t, ls, ht, hobeys, hread, -⟩
    cases t with
    | perform k =>
        obtain ⟨-, rfl⟩ := List.cons.inj ht
        have hread : Reads v ((k.spelling ++ [Lexeme.word ";"]) ++ [])
            ((k.code v.env ++ []) ++ [Instruction.pop .temp 0]) (0 + 0 + 0)
            ((k.calls ++ []) ++ []) v' := by
          simpa [Statement.code, Statement.labels, Statement.calls] using hread
        obtain ⟨w, hread, hemit⟩ := hread.split
        obtain ⟨u, hread, hword⟩ := hread.split
        exact ⟨u, ⟨k, _, rfl, hobeys, hread⟩, w, hword, hemit⟩
    | assign | assignElement | conditional | loop =>
        exact absurd (List.cons.inj ht).1 (by decide)
    | yield value => cases value <;> exact absurd (List.cons.inj ht).1 (by decide)

theorem leads_returnValue (hs : s.Sound) :
    Leads c s .returnValue v' ↔ Means c .returnValue s.view v' := by
  rw [leads_ok rfl]
  simp only [sees_iff hs, Means]
  by_cases hend : s.view.rest.head? = some (.word ";")
  · rw [if_pos hend]
    constructor
    · intro heq
      subst heq
      exact .inl ⟨hend, rfl⟩
    · intro h
      rcases h with ⟨-, rfl⟩ | ⟨e, -, hread, -⟩
      · rfl
      · obtain ⟨l, ls, he, -, hl⟩ := expression_starts e
        rw [hread.rest, he] at hend
        exact absurd (Option.some.inj hend) hl
  · rw [if_neg hend]
    simp only [hend, false_and, false_or, meansAll_cons, meansAll_nil, Means, exists_eq_right']

theorem meansAll_yield :
    MeansAll c [.returnValue, .word ";", .emit .ret] v v' ↔
      StatementBehind c [.word "return"] v v' := by
  simp only [meansAll_cons, meansAll_nil, Means, exists_eq_right']
  constructor
  · intro h
    rcases h with ⟨u, ⟨-, rfl⟩ | ⟨e, he, hread, -⟩, w, hword, hemit⟩
    · exact ⟨.yield none, _, rfl, trivial, hword.append hemit, fun h => by cases h⟩
    · refine ⟨.yield (some e), _, rfl, he, ?_, fun h => by cases h⟩
      simpa [Statement.code, Statement.labels, Statement.calls] using
        (hread.append hword).append hemit
  · intro h
    rcases h with ⟨t, ls, ht, hobeys, hread, -⟩
    cases t with
    | yield value =>
        cases value with
        | none =>
            obtain ⟨-, rfl⟩ := List.cons.inj ht
            obtain ⟨w, hword, hemit⟩ := Reads.split (l := [.word ";"]) (k := []) (i := []) (n := 0)
              (m := 0) (f := []) hread
            exact ⟨v, .inl ⟨by rw [hread.rest]; rfl, rfl⟩, w, hword, hemit⟩
        | some e =>
            obtain ⟨-, rfl⟩ := List.cons.inj ht
            have hread : Reads v ((e.spelling ++ [Lexeme.word ";"]) ++ [])
                ((e.code v.env ++ []) ++ [Instruction.ret]) (0 + 0 + 0)
                ((e.calls ++ []) ++ []) v' := by
              simpa [Statement.code, Statement.labels, Statement.calls] using hread
            obtain ⟨w, hread, hemit⟩ := hread.split
            obtain ⟨u, hread, hword⟩ := hread.split
            refine ⟨u, .inr ⟨e, hobeys, hread, ?_⟩, w, hword, hemit⟩
            rw [hword.rest]
            exact e.ends_of_closer (by decide) _
    | assign | assignElement | conditional | loop | perform =>
        exact absurd (List.cons.inj ht).1 (by decide)

/-! ## Lists of statements -/

/-- What each keyword selects. -/
def statementTable : List (String × Element × List Goal) :=
  [("let", .letStatement, [.letTarget, .leave .letStatement, .statementList]),
    ("if", .ifStatement, [.ifBody, .leave .ifStatement, .statementList]),
    ("while", .whileStatement, [.whileBody, .leave .whileStatement, .statementList]),
    ("do", .doStatement,
      [.doTarget, .word ";", .emit (.pop .temp 0), .leave .doStatement, .statementList]),
    ("return", .returnStatement,
      [.returnValue, .word ";", .emit .ret, .leave .returnStatement, .statementList])]

theorem selects_onStatement : Selects Goal.onStatement statementTable := by
  have hkeyword : ∀ w ∈ statementWords, ∀ t : Token, t.lexeme.valid = true →
      (t.isKeyword [w] = true ↔ t.lexeme = .word w) := by
    intro w hw t _
    have hreserved : ∀ x ∈ statementWords, Token.keywords.contains x = true := by decide
    exact isKeyword_singleton_iff (hreserved w hw)
  exact ((((Selects.nil.cons _ (hkeyword "return" (by decide)) List.not_mem_nil).cons _
    (hkeyword "do" (by decide)) (by decide)).cons _
    (hkeyword "while" (by decide)) (by decide)).cons _
    (hkeyword "if" (by decide)) (by decide)).cons _
    (hkeyword "let" (by decide)) (by decide)

/-- Whatever the keyword, the selected goals read the rest of a statement and then a list. -/
theorem meansAll_statement {w : String} {e : Element} {next : List Goal}
    (h : (w, e, next) ∈ statementTable) :
    MeansAll c next v v' ↔
      ∃ u, StatementBehind c [.word w] v u ∧ Means c .statementList u v' := by
  simp only [statementTable, List.mem_cons, List.not_mem_nil, or_false, Prod.mk.injEq] at h
  have hlist : ∀ (gs : List Goal) {x : Element},
      (∀ u, MeansAll c gs v u ↔ StatementBehind c [.word w] v u) →
      (MeansAll c (gs ++ [Goal.leave x, .statementList]) v v' ↔
        ∃ u, StatementBehind c [.word w] v u ∧ Means c .statementList u v') := by
    intro gs x hgs
    simp only [meansAll_append, hgs, meansAll_cons, meansAll_nil, Means, exists_eq_left,
      exists_eq_right']
  rcases h with ⟨rfl, -, rfl⟩ | ⟨rfl, -, rfl⟩ | ⟨rfl, -, rfl⟩ | ⟨rfl, -, rfl⟩ | ⟨rfl, -, rfl⟩
  · exact hlist [.letTarget] fun u => by simp [Means]
  · exact hlist [.ifBody] fun u => by simp [Means]
  · exact hlist [.whileBody] fun u => by simp [Means]
  · exact hlist [.doTarget, .word ";", .emit (.pop .temp 0)] fun u => meansAll_perform
  · exact hlist [.returnValue, .word ";", .emit .ret] fun u => meansAll_yield

theorem leads_statementList (hs : s.Sound) :
    Leads c s .statementList v' ↔ Means c .statementList s.view v' := by
  have hwords : statementTable.map Prod.fst = statementWords := rfl
  rw [leads_ok rfl, meansAll_openElement hs selects_onStatement, hwords]
  constructor
  · intro h
    rcases h with ⟨w, x, next, ls, hmem, hrest, hmeans⟩ | ⟨hstops, rfl⟩
    · obtain ⟨u, ⟨t, ks, ht, hobeys, hread, hopen⟩, b, hb, hread', hends⟩ :=
        (meansAll_statement hmem).mp hmeans
      have hread : Reads s.view t.spelling (t.code s.view.env s.view.labels) t.labels t.calls
          u := by
        rw [ht]
        exact Reads.cons_iff.mpr ⟨ls, hrest, hread⟩
      rw [hread.rules] at hb
      rw [hread.env, hread.labels] at hread'
      rw [hread'.rest, stops_else_iff] at hopen
      refine ⟨.cons t b, ⟨hobeys, hb⟩, hread.append hread', ?_⟩
      show b.Ends t.isOpen v'.rest
      exact block_ends_iff.mpr ⟨hends, hopen⟩
    · exact ⟨.nil, trivial, .refl _, hstops, fun h => by cases h⟩
  · intro h
    rcases h with ⟨b, hb, hread, hends⟩
    cases b with
    | nil =>
        obtain rfl := Reads.nil_iff.mp hread
        exact .inr ⟨hends.1, rfl⟩
    | cons t b =>
        obtain ⟨u, hread, hread'⟩ := Reads.split hread
        obtain ⟨w, hw, ks, ht⟩ := statement_starts t
        obtain ⟨⟨w, x, next⟩, hmem, rfl⟩ := List.mem_map.mp (hwords ▸ hw)
        have hends : b.Ends t.isOpen v'.rest := hends
        obtain ⟨hends, hopen⟩ := block_ends_iff.mp hends
        rw [← stops_else_iff, ← hread'.rest] at hopen
        obtain ⟨hobeys, hb⟩ := hb
        rw [← hread.rules] at hb
        rw [← hread.env, ← hread.labels] at hread'
        rw [ht] at hread
        obtain ⟨ls, hrest, hread⟩ := Reads.cons_iff.mp hread
        exact .inl ⟨w, x, next, ls, hmem, hrest, (meansAll_statement hmem).mpr
          ⟨u, ⟨t, ks, ht, hobeys, hread, hopen⟩, b, hb, hread', hends⟩⟩

end Jack.Compile
