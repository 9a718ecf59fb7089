import Jack.Proofs.View

/-!
# The meaning of goals

`Means c g v v'` says what the goal `g` stands for as a relation between views: which tree it
reads, under which rules, and what that adds to the view. `MeansAll` chains meanings along a list
of goals. The definition follows the grammar and never mentions steps.

One token of lookahead decides where a repetition or an optional part ends, so a meaning also says
what must not come next: an expression is not followed by an operator, a name at the end of one is
not followed by a bracket (`Ends`), and a conditional without alternative is not followed by
`else`. These conditions are exact. They make the meaning of every goal a fixed point of `step`
(`Leads c s g v' ↔ Means c g s.view v'`, shown in `Expressions`, `Statements` and
`Declarations`), and a fixed point of `step` is what `run` computes (`run_iff_of_leads_iff`).
-/

namespace Jack.Syntax

open Compile (SubroutineKind)

def ClassVarKind.storage : ClassVarKind → Storage
  | static => .static
  | field => .field

/-! ## Where phrases end -/

/-- The lexemes do not start with any of the given words. -/
def Stops (ws : List String) (ls : List Lexeme) : Prop :=
  ∀ w ∈ ws, ls.head? ≠ some (.word w)

/-- The term ends in a bare name, which a bracket could continue. -/
def Term.isOpen : Term → Bool
  | .var _ => true
  | .unary _ operand => operand.isOpen
  | _ => false

/-- Operations end in a bare name, or are none behind something that does. -/
def Operations.isOpen (before : Bool) : Operations → Bool
  | .nil => before
  | .cons _ operand rest => rest.isOpen operand.isOpen

def Term.Ends (t : Term) (ls : List Lexeme) : Prop :=
  t.isOpen = true → Stops ["[", "(", "."] ls

def operatorSigns : List String := ["+", "-", "*", "/", "&", "|", "<", ">", "="]

def Operations.Ends (o : Operations) (before : Bool) (ls : List Lexeme) : Prop :=
  Stops operatorSigns ls ∧ (o.isOpen before = true → Stops ["[", "(", "."] ls)

def Expression.Ends : Expression → List Lexeme → Prop
  | .mk first rest, ls => rest.Ends first.isOpen ls

/-- The statement is a conditional that could still get an alternative. -/
def Statement.isOpen : Statement → Bool
  | .conditional _ _ .absent => true
  | _ => false

def Block.isOpen (before : Bool) : Block → Bool
  | .nil => before
  | .cons s rest => rest.isOpen s.isOpen

def statementWords : List String := ["let", "if", "while", "do", "return"]

def Block.Ends (b : Block) (before : Bool) (ls : List Lexeme) : Prop :=
  Stops statementWords ls ∧ (b.isOpen before = true → Stops ["else"] ls)

theorem word_injective {w x : String} (h : Lexeme.word w = .word x) : w = x :=
  congrArg Lexeme.text h

theorem stops_word {ws : List String} {w : String} (h : w ∉ ws) (ls : List Lexeme) :
    Stops ws (.word w :: ls) := by
  intro x hx heq
  exact h (word_injective (Option.some.inj heq) ▸ hx)

/-- The signs that can stand behind an expression. -/
def closers : List String := [")", "]", ";", ","]

theorem Expression.ends_of_closer {w : String} (hw : w ∈ closers) (e : Expression)
    (ls : List Lexeme) : e.Ends (.word w :: ls) := by
  have hdisjoint : ∀ x ∈ closers, x ∉ operatorSigns ∧ x ∉ ["[", "(", "."] := by decide
  obtain ⟨first, rest⟩ := e
  exact ⟨stops_word (hdisjoint w hw).1 ls, fun _ => stops_word (hdisjoint w hw).2 ls⟩

end Jack.Syntax

namespace Jack.Compile

open Syntax

/-! ## The meaning of each goal -/

namespace View

/-- Enters a subroutine. -/
def begin (v : View) (kind : SubroutineKind) (name : String) : View :=
  let fresh := v.scope.startSubroutine
  { v with
    subroutines := v.subroutines ++ [(name, kind)]
    kind := some kind
    subroutineName := name
    scope :=
      if kind = .method then fresh.add ⟨"this", v.className, .argument, 0⟩ else fresh }

def prologue (v : View) : List Instruction :=
  match v.kind with
  | some .constructor =>
    [.push .constant (v.scope.count .field), .call "Memory.alloc" 1, .pop .pointer 0]
  | some .method => [.push .argument 0, .pop .pointer 0]
  | some .function | none => []

def header (v : View) : List Instruction :=
  .function s!"{v.className}.{v.subroutineName}" (v.scope.count .localVar) :: v.prologue

end View

/-- What a variable declaration declares in a storage. -/
def declared (k : Storage) (d : VarDec) : List (String × String × Storage) :=
  (d.first :: d.more).map (·, d.type.text, k)

def declaredParameter (p : Variable) : String × String × Storage :=
  (p.name, p.type.text, .argument)

/-- The rest of a statement whose first lexemes have been read. -/
def StatementBehind (c : Setting) (front : List Lexeme) (v v' : View) : Prop :=
  ∃ (s : Statement) (ls : List Lexeme), s.spelling = front ++ ls ∧ s.Obeys (v.rules c) ∧
    Reads v ls (s.code v.env v.labels) s.labels s.calls v' ∧
    (s.isOpen = true → Stops ["else"] v'.rest)

/-- The rest of a call whose first lexemes have been read. -/
def CallBehind (c : Setting) (front : List Lexeme) (v v' : View) : Prop :=
  ∃ (k : Call) (ls : List Lexeme), k.spelling = front ++ ls ∧ k.Obeys (v.rules c) ∧
    Reads v ls (k.code v.env) 0 k.calls v'

/-- One subroutine, from its keyword to its closing brace. -/
def SubroutineMeans (c : Setting) (v : View) (s : Subroutine) (v' : View) : Prop :=
  ∃ v₁ v₂ ls, Declares v [.word s.kind.name, returnLexeme s.returnType] []
      (s.returnType.toList.flatMap TypeName.classes) v₁ ∧
    v₁.rest = .name s.name :: ls ∧ v₁.subroutines.lookup s.name = none ∧
    Declares ((v₁.at ls).begin s.kind s.name)
      (.word "(" :: parametersSpelling s.parameters ++
        .word ")" :: .word Goal.openBrace :: localsSpelling s.locals)
      (s.parameters.map declaredParameter ++ s.locals.flatMap (declared .localVar))
      (s.parameters.flatMap (·.type.classes) ++ s.locals.flatMap (·.type.classes)) v₂ ∧
    s.body.Obeys (v₂.rules c) ∧
    Reads v₂ (s.body.spelling ++ [Lexeme.word Goal.closeBrace])
      (v₂.header ++ s.body.code v₂.env v₂.labels) s.body.labels s.body.calls v'

def SubroutinesMean (c : Setting) : View → List Subroutine → View → Prop
  | v, [], v' => v' = v
  | v, s :: rest, v' => ∃ v₁, SubroutineMeans c v s v₁ ∧ SubroutinesMean c v₁ rest v'

/-- What a goal stands for. -/
def Means (c : Setting) : Goal → View → View → Prop
  | .word w, v, v' => Reads v [.word w] [] 0 [] v'
  | .enter _, v, v' | .leave _, v, v' => v' = v
  | .emit i, v, v' => Reads v [] [i] 0 [] v'
  -- The class and its declarations.
  | .className, v, v' =>
    ∃ x ls, v.rest = .name x :: ls ∧ v' = { v.at ls with known := x :: v.known, className := x }
  | .nameClass x, v, v' => v' = { v with known := x :: v.known, className := x }
  | .noteClass x, v, v' => Declares v [] [] [x] v'
  | .classVars, v, v' =>
    ∃ ds : List ClassVarDec, Declares v (ds.flatMap ClassVarDec.spelling)
      (ds.flatMap fun d => declared d.kind.storage d.dec)
      (ds.flatMap (·.dec.type.classes)) v' ∧ Stops ["static", "field"] v'.rest
  | .varType k, v, v' =>
    ∃ d : VarDec, Declares v d.phrase (declared k d) d.type.classes v' ∧ Stops [","] v'.rest
  | .varName _ k type, v, v' => ∃ x, Declares v [.name x] [(x, type, k)] [] v'
  | .moreNames k type, v, v' =>
    ∃ xs, Declares v (Syntax.moreNames xs) (xs.map (·, type, k)) [] v' ∧ Stops [","] v'.rest
  | .declare name type k, v, v' => Declares v [] [(name.text, type, k)] [] v'
  | .subroutines, v, v' =>
    ∃ ss, SubroutinesMean c v ss v' ∧ Stops ["constructor", "function", "method"] v'.rest
  | .returnType, v, v' =>
    ∃ t : Option TypeName,
      Declares v [returnLexeme t] [] (t.toList.flatMap TypeName.classes) v'
  | .subroutineName kind, v, v' =>
    ∃ x ls, v.rest = .name x :: ls ∧ v.subroutines.lookup x = none ∧ v' = (v.at ls).begin kind x
  | .beginSubroutine kind name, v, v' =>
    v.subroutines.lookup name.text = none ∧ v' = v.begin kind name.text
  | .parameters, v, v' =>
    ∃ ps, Declares v (parametersSpelling ps) (ps.map declaredParameter)
      (ps.flatMap (·.type.classes)) v' ∧
      (ps = [] → v.rest.head? = some (.word ")")) ∧ (ps ≠ [] → Stops [","] v'.rest)
  | .parameter, v, v' =>
    ∃ p : Variable, Declares v p.spelling [declaredParameter p] p.type.classes v'
  | .moreParameters, v, v' =>
    ∃ ps, Declares v (Syntax.moreParameters ps) (ps.map declaredParameter)
      (ps.flatMap (·.type.classes)) v' ∧ Stops [","] v'.rest
  | .localVars, v, v' =>
    ∃ ds, Declares v (localsSpelling ds) (ds.flatMap (declared .localVar))
      (ds.flatMap (·.type.classes)) v' ∧ Stops ["var"] v'.rest
  | .header, v, v' => Reads v [] v.header 0 [] v'
  | .endOfInput, v, v' => v.rest = [] ∧ v' = v
  | .verifyCalls, v, v' => (∀ f ∈ v.calls, v.subroutines.lookup f = some .method) ∧ v' = v
  -- Statements.
  | .statements, v, v' | .statementList, v, v' =>
    ∃ b : Block, b.Obeys (v.rules c) ∧
      Reads v b.spelling (b.code v.env v.labels) b.labels b.calls v' ∧ b.Ends false v'.rest
  | .letTarget, v, v' => StatementBehind c [.word "let"] v v'
  | .assign name, v, v' => StatementBehind c [.word "let", .name name.text] v v'
  | .assignTail d, v, v' =>
    (∃ e : Expression, e.Obeys (v.rules c) ∧
      Reads v (.word "=" :: e.spelling ++ [Lexeme.word ";"])
        (e.code v.env ++ [d.binding.cell.pop]) 0 e.calls v') ∨
    (∃ i e : Expression, i.Obeys (v.rules c) ∧ e.Obeys (v.rules c) ∧
      Reads v (.word "[" :: i.spelling ++ .word "]" :: .word "=" :: e.spelling ++ [Lexeme.word ";"])
        (d.binding.cell.push :: i.code v.env ++ .arithmetic .add :: e.code v.env ++
          [Instruction.pop .temp 0, .pop .pointer 1, .push .temp 0, .pop .that 0]) 0
        (i.calls ++ e.calls) v')
  | .ifBody, v, v' => StatementBehind c [.word "if"] v v'
  | .elsePart, v, v' =>
    ∃ a : Alternative, a.Obeys (v.rules c) ∧
      Reads v a.spelling (a.code v.env v.labels) a.labels a.calls v' ∧
      (a = .absent → Stops ["else"] v'.rest)
  | .whileBody, v, v' => StatementBehind c [.word "while"] v v'
  | .doTarget, v, v' => CallBehind c [] v v'
  | .returnValue, v, v' =>
    (v.rest.head? = some (.word ";") ∧ v' = v) ∨
    (∃ e : Expression, e.Obeys (v.rules c) ∧ Reads v e.spelling (e.code v.env) 0 e.calls v' ∧
      e.Ends v'.rest)
  -- Expressions.
  | .expression, v, v' =>
    ∃ e : Expression, e.Obeys (v.rules c) ∧ Reads v e.spelling (e.code v.env) 0 e.calls v' ∧
      e.Ends v'.rest
  | .term, v, v' | .termBody, v, v' =>
    ∃ t : Term, t.Obeys (v.rules c) ∧ Reads v t.spelling (t.code v.env) 0 t.calls v' ∧
      t.Ends v'.rest
  | .operators, v, v' =>
    ∃ o : Operations, o.Obeys (v.rules c) ∧ Reads v o.spelling (o.code v.env) 0 o.calls v' ∧
      o.Ends false v'.rest
  | .integer t, v, v' =>
    ∃ n : Nat, Text.readInteger t.text = .ok (n : Int) ∧ n ≤ largestInteger ∧
      Reads v [] [.push .constant n] 0 [] v'
  | .this _, v, v' => ∃ cell, v.env.self = some cell ∧ Reads v [] [cell.push] 0 [] v'
  | .identifierTail name, v, v' =>
    ∃ (t : Term) (ls : List Lexeme), t.spelling = .name name.text :: ls ∧ t.Obeys (v.rules c) ∧
      Reads v ls (t.code v.env) 0 t.calls v' ∧ t.Ends v'.rest
  | .load name, v, v' =>
    (v.rules c).Accessible name.text ∧ Reads v [] (v.env.read name.text) 0 [] v'
  | .callSign name, v, v' => CallBehind c [.name name.text] v v'
  | .localCall name, v, v' => CallBehind c [.name name.text, .word "("] v v'
  | .qualifiedCall q, v, v' => CallBehind c [.name q.text, .word "."] v v'
  | .dispatch q callee, v, v' =>
    CallBehind c [.name q.text, .word ".", .name callee.text, .word "("] v v'
  | .firstArgument target count, v, v' =>
    ∃ a : Arguments, a.Obeys (v.rules c) ∧
      Reads v (a.spelling ++ [Lexeme.word ")"])
        (a.code v.env ++ [Instruction.call target (.number (count + a.length))]) 0 a.calls v'
  | .moreArguments target count, v, v' =>
    ∃ a : Arguments, a.Obeys (v.rules c) ∧
      Reads v (a.moreSpelling ++ [Lexeme.word ")"])
        (a.code v.env ++ [Instruction.call target (.number (count + a.length))]) 0 a.calls v'

/-- What a list of goals stands for. -/
def MeansAll (c : Setting) : List Goal → View → View → Prop
  | [], v, v' => v' = v
  | g :: gs, v, v' => ∃ u, Means c g v u ∧ MeansAll c gs u v'

@[simp] theorem meansAll_nil {c : Setting} {v v' : View} : MeansAll c [] v v' ↔ v' = v := Iff.rfl

@[simp] theorem meansAll_cons {c : Setting} {g : Goal} {gs : List Goal} {v v' : View} :
    MeansAll c (g :: gs) v v' ↔ ∃ u, Means c g v u ∧ MeansAll c gs u v' := Iff.rfl

theorem meansAll_append {c : Setting} {gs hs : List Goal} {v v' : View} :
    MeansAll c (gs ++ hs) v v' ↔ ∃ u, MeansAll c gs v u ∧ MeansAll c hs u v' := by
  induction gs generalizing v with
  | nil => simp
  | cons g gs ih =>
      simp only [List.cons_append, meansAll_cons, ih]
      constructor
      · intro h
        rcases h with ⟨u, hg, w, hgs, hhs⟩
        exact ⟨w, ⟨u, hg, hgs⟩, hhs⟩
      · intro h
        rcases h with ⟨w, ⟨u, hg, hgs⟩, hhs⟩
        exact ⟨u, hg, w, hgs, hhs⟩

/-- Instructions in a row. -/
theorem meansAll_emits {c : Setting} {i : List Instruction} {v v' : View} :
    MeansAll c (i.map Goal.emit) v v' ↔ Reads v [] i 0 [] v' := by
  induction i generalizing v with
  | nil => exact Reads.nil_iff.symm
  | cons x i ih =>
      simp only [List.map_cons, meansAll_cons, ih]
      constructor
      · intro h
        rcases h with ⟨u, hx, hi⟩
        exact hx.append hi
      · exact fun h => h.split

/-! ## Selection by the token in view -/

/-- On valid tokens `select` is a table from fixed words to what they select. -/
def Selects {β : Type} (select : Token → Option β) (table : List (String × β)) : Prop :=
  ∀ t : Token, t.lexeme.valid = true →
    ∀ b, select t = some b ↔ ∃ w, (w, b) ∈ table ∧ t.lexeme = .word w

/-- The token in view is selected. -/
theorem Selects.some_iff {β : Type} {select : Token → Option β} {table : List (String × β)}
    (h : Selects select table) {s : State} (hs : s.Sound) {P : β → List Lexeme → Prop} :
    (∃ t ts b, s.rest = t :: ts ∧ select t = some b ∧ P b (ts.map Token.lexeme)) ↔
      ∃ w b ls, (w, b) ∈ table ∧ s.view.rest = .word w :: ls ∧ P b ls := by
  constructor
  · intro h
    rcases h with ⟨t, ts, b, hts, hb, hP⟩
    have hvalid := hs.valid t (hts ▸ List.mem_cons_self ..)
    obtain ⟨w, hw, ht⟩ := (h t hvalid b).mp hb
    exact ⟨w, b, ts.map Token.lexeme, hw, by rw [view_rest, hts, List.map_cons, ht], hP⟩
  · intro h
    rcases h with ⟨w, b, ls, hw, hrest, hP⟩
    rw [view_rest] at hrest
    obtain ⟨t, ts, hts, ht, rfl⟩ := List.map_eq_cons_iff.mp hrest
    have hvalid := hs.valid t (hts ▸ List.mem_cons_self ..)
    exact ⟨t, ts, b, hts, (h t hvalid b).mpr ⟨w, hw, ht⟩, hP⟩

/-- The token in view, if there is one, is not selected. -/
theorem Selects.none_iff {β : Type} {select : Token → Option β} {table : List (String × β)}
    (h : Selects select table) {s : State} (hs : s.Sound) :
    (∀ t ts, s.rest = t :: ts → select t = none) ↔ Stops (table.map Prod.fst) s.view.rest := by
  constructor
  · intro hnone w hw hhead
    obtain ⟨⟨w, b⟩, hb, rfl⟩ := List.mem_map.mp hw
    rw [view_rest, List.head?_map] at hhead
    obtain ⟨t, ht, htw⟩ := Option.map_eq_some_iff.mp hhead
    obtain ⟨ts, hts⟩ := List.head?_eq_some_iff.mp ht
    have hvalid := hs.valid t (hts ▸ List.mem_cons_self ..)
    have hsome := (h t hvalid b).mpr ⟨w, hb, htw⟩
    rw [hnone t ts hts] at hsome
    cases hsome
  · intro hstops t ts hts
    have hvalid := hs.valid t (hts ▸ List.mem_cons_self ..)
    cases hb : select t with
    | none => rfl
    | some b =>
        obtain ⟨w, hw, htw⟩ := (h t hvalid b).mp hb
        refine absurd ?_ (hstops w (List.mem_map.mpr ⟨(w, b), hw, rfl⟩))
        rw [view_rest, hts, List.map_cons, List.head?_cons, htw]

theorem Selects.nil {β : Type} : Selects (fun _ => (none : Option β)) [] := by
  intro t _ b
  simp

theorem Selects.cons {β : Type} {select : Token → Option β} {table : List (String × β)}
    (h : Selects select table) {test : Token → Bool} {w : String} (b : β)
    (htest : ∀ t : Token, t.lexeme.valid = true → (test t = true ↔ t.lexeme = .word w))
    (hw : w ∉ table.map Prod.fst) :
    Selects (fun t => if test t = true then some b else select t) ((w, b) :: table) := by
  intro t ht b'
  show (if test t = true then some b else select t) = some b' ↔ _
  by_cases hb : test t = true
  · have hlex := (htest t ht).mp hb
    rw [if_pos hb]
    constructor
    · intro heq
      obtain rfl := Option.some.inj heq
      exact ⟨w, List.mem_cons_self .., hlex⟩
    · intro h
      rcases h with ⟨x, hx, hlex'⟩
      obtain rfl : w = x := word_injective (hlex.symm.trans hlex')
      rcases List.mem_cons.mp hx with heq | hmem
      · rw [(Prod.mk.injEq .. |>.mp heq).2]
      · exact absurd (List.mem_map.mpr ⟨_, hmem, rfl⟩) hw
  · rw [if_neg hb, h t ht b']
    constructor
    · intro h
      rcases h with ⟨x, hx, hlex⟩
      exact ⟨x, List.mem_cons_of_mem _ hx, hlex⟩
    · intro h
      rcases h with ⟨x, hx, hlex⟩
      rcases List.mem_cons.mp hx with heq | hmem
      · obtain ⟨rfl, rfl⟩ := Prod.mk.injEq .. |>.mp heq
        exact absurd ((htest t ht).mpr hlex) hb
      · exact ⟨x, hmem, hlex⟩

theorem selects_onWord (w : String) (next : List Goal) :
    Selects (Goal.onWord w next) [(w, next)] :=
  Selects.nil.cons next (fun _ ht => isWord_iff ht w) (List.not_mem_nil)

/-- The first entry of a list whose word is in view. -/
theorem selects_find {α β : Type} (word : α → String) (f : α → β) :
    ∀ {xs : List α}, (xs.map word).Nodup →
      Selects (fun t => (xs.find? fun x => t.isWord (word x)).map f)
        (xs.map fun x => (word x, f x))
  | [], _ => Selects.nil
  | x :: xs, hnodup => by
      rw [List.map_cons, List.nodup_cons] at hnodup
      have hw : word x ∉ (xs.map fun x => (word x, f x)).map Prod.fst := by
        simpa using hnodup.1
      have hcons := (selects_find word f hnodup.2).cons (f x)
        (fun _ ht => isWord_iff ht (word x)) hw
      intro t ht b
      rw [List.map_cons, ← hcons t ht b]
      simp only [List.find?_cons]
      cases t.isWord (word x) <;> rfl

/-! ## One step -/

/-- A step from `s` yields goals that mean `v'`. -/
def Leads (c : Setting) (s : State) (g : Goal) (v' : View) : Prop :=
  ∃ next s', step c s g = .ok (next, s') ∧ MeansAll c next s'.view v'

theorem leads_ok {c : Setting} {s : State} {g : Goal} {v' : View} {r : List Goal × State}
    (h : step c s g = .ok r) : Leads c s g v' ↔ MeansAll c r.1 r.2.view v' := by
  constructor
  · intro h
    rcases h with ⟨next, s', hstep, hmeans⟩
    rw [h] at hstep
    obtain rfl := Except.ok.inj hstep
    exact hmeans
  · exact fun hmeans => ⟨r.1, r.2, h, hmeans⟩

theorem not_leads {c : Setting} {s : State} {g : Goal} {v' : View} {f : Fault}
    (h : step c s g = .error f) : ¬Leads c s g v' := by
  intro h
  rcases h with ⟨next, s', hstep, -⟩
  rw [h] at hstep
  cases hstep

theorem leads_expect {c : Setting} {s : State} {g : Goal} {v' : View} {expected : String}
    {select : Token → Option (List Goal)} (h : step c s g = c.expect s expected select) :
    Leads c s g v' ↔ ∃ t ts next, s.rest = t :: ts ∧ select t = some next ∧
      MeansAll c next (s.view.at (ts.map Token.lexeme)) v' := by
  unfold Leads
  rw [h, Setting.expect]
  constructor
  · intro h
    rcases h with ⟨next, s', hstep, hmeans⟩
    split at hstep
    · cases hstep
    · next t ts hts =>
        split at hstep
        · next next' hsel =>
            cases hstep
            exact ⟨t, ts, next, hts, hsel, hmeans⟩
        · cases hstep
  · intro h
    rcases h with ⟨t, ts, next, hts, hsel, hmeans⟩
    refine ⟨next, s.read t ts, ?_, hmeans⟩
    split
    · next hnil =>
        rw [hnil] at hts
        cases hts
    · next t' ts' hts' =>
        obtain ⟨rfl, rfl⟩ := List.cons.inj (hts.symm.trans hts')
        rw [hsel]

/-- A name is expected; what follows depends on its text alone. -/
theorem leads_onName {c : Setting} {s : State} {g : Goal} {v' : View} {expected : String}
    {next : Token → List Goal} {P : String → View → Prop}
    (h : step c s g = c.expect s expected (Goal.onName next))
    (hP : ∀ t v, MeansAll c (next t) v v' ↔ P t.text v) :
    Leads c s g v' ↔ ∃ x ls, s.view.rest = .name x :: ls ∧ P x (s.view.at ls) := by
  rw [leads_expect h]
  constructor
  · intro h
    rcases h with ⟨t, ts, gs, hts, hsel, hmeans⟩
    unfold Goal.onName at hsel
    split at hsel
    · next hid =>
        cases hsel
        refine ⟨t.text, ts.map Token.lexeme, ?_, (hP t _).mp hmeans⟩
        rw [view_rest, hts, List.map_cons, isIdentifier_iff.mp hid]
    · cases hsel
  · intro h
    rcases h with ⟨x, ls, hrest, hx⟩
    rw [view_rest] at hrest
    obtain ⟨t, ts, hts, ht, rfl⟩ := List.map_eq_cons_iff.mp hrest
    obtain rfl : t.text = x := congrArg Lexeme.text ht
    exact ⟨t, ts, next t, hts, by rw [Goal.onName, if_pos (isIdentifier_iff.mpr ht)],
      (hP t _).mpr hx⟩

theorem meansAll_choose {c : Setting} {s : State} (hs : s.Sound) {v' : View}
    {select : Token → Option (List Goal)} {table : List (String × List Goal)}
    (h : Selects select table) {otherwise : List Goal} :
    MeansAll c (s.choose select otherwise).1 (s.choose select otherwise).2.view v' ↔
      (∃ w next ls, (w, next) ∈ table ∧ s.view.rest = .word w :: ls ∧
        MeansAll c next (s.view.at ls) v') ∨
      (Stops (table.map Prod.fst) s.view.rest ∧ MeansAll c otherwise s.view v') := by
  rw [← h.some_iff hs, ← h.none_iff hs, State.choose]
  constructor
  · intro hmeans
    split at hmeans
    · next hnil => exact .inr ⟨fun t ts hts => by simp [hnil] at hts, hmeans⟩
    · next t ts hts =>
        split at hmeans
        · next next hsel => exact .inl ⟨t, ts, next, hts, hsel, hmeans⟩
        · next hsel =>
            refine .inr ⟨fun t' ts' hts' => ?_, hmeans⟩
            obtain ⟨rfl, -⟩ := List.cons.inj (hts.symm.trans hts')
            exact hsel
  · intro h
    rcases h with ⟨t, ts, next, hts, hsel, hmeans⟩ | ⟨hnone, hmeans⟩
    · simp only [hts, hsel]
      exact hmeans
    · cases hts : s.rest with
      | nil => exact hmeans
      | cons t ts =>
          simp only [hnone t ts hts]
          exact hmeans

theorem meansAll_openElement {c : Setting} {s : State} (hs : s.Sound) {v' : View}
    {select : Token → Option (Element × List Goal)} {table : List (String × Element × List Goal)}
    (h : Selects select table) :
    MeansAll c (s.openElement select).1 (s.openElement select).2.view v' ↔
      (∃ w e next ls, (w, e, next) ∈ table ∧ s.view.rest = .word w :: ls ∧
        MeansAll c next (s.view.at ls) v') ∨
      (Stops (table.map Prod.fst) s.view.rest ∧ v' = s.view) := by
  have hsome := h.some_iff hs (P := fun b ls => MeansAll c b.2 (s.view.at ls) v')
  simp only [Prod.exists] at hsome
  rw [← hsome, ← h.none_iff hs, State.openElement]
  constructor
  · intro hmeans
    split at hmeans
    · next hnil => exact .inr ⟨fun t ts hts => by simp [hnil] at hts, hmeans⟩
    · next t ts hts =>
        split at hmeans
        · next e next hsel => exact .inl ⟨t, ts, e, next, hts, hsel, hmeans⟩
        · next hsel =>
            refine .inr ⟨fun t' ts' hts' => ?_, hmeans⟩
            obtain ⟨rfl, -⟩ := List.cons.inj (hts.symm.trans hts')
            exact hsel
  · intro h
    rcases h with ⟨t, ts, e, next, hts, hsel, hmeans⟩ | ⟨hnone, rfl⟩
    · simp only [hts, hsel]
      exact hmeans
    · cases hts : s.rest with
      | nil => rfl
      | cons t ts =>
          simp only [hnone t ts hts]
          rfl

/-! ## Whole runs -/

/-- A run succeeds exactly with what its goals mean, if every step leads to what its goal means. -/
theorem run_iff_of_leads_iff {c : Setting}
    (hstep : ∀ (s : State) (g : Goal) (v' : View), s.Sound →
      (Leads c s g v' ↔ Means c g s.view v'))
    (gs : List Goal) (s : State) (hs : s.Sound) (v' : View) :
    (∃ s', run c s gs = ⟨s', none⟩ ∧ s'.view = v') ↔ MeansAll c gs s.view v' := by
  fun_induction run c s gs with
  | case1 s =>
      simp only [Outcome.mk.injEq, and_true, exists_eq_left', meansAll_nil]
      exact eq_comm
  | case2 s g gs f hf =>
      constructor
      · intro h
        rcases h with ⟨s', h, -⟩
        cases h
      · intro h
        rcases h with ⟨u, hu, -⟩
        exact absurd ((hstep s g u hs).mpr hu) (not_leads hf)
  | case3 s g gs next s' hok ih =>
      rw [ih ((step_forward hok).sound hs), meansAll_append, meansAll_cons]
      constructor
      · intro h
        rcases h with ⟨u, hnext, hgs⟩
        exact ⟨u, (hstep s g u hs).mp ((leads_ok hok).mpr hnext), hgs⟩
      · intro h
        rcases h with ⟨u, hg, hgs⟩
        exact ⟨u, (leads_ok hok).mp ((hstep s g u hs).mpr hg), hgs⟩

end Jack.Compile
