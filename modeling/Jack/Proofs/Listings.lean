import Jack.Proofs.Acceptance
import Jack.Proofs.Derivation
import Jack.Proofs.Unambiguity

/-!
# Listings of compilations

The listing that a compilation makes is the derivation of the class that its tokens spell, as it is
written; and however a compilation ends, its listing notes exactly the tokens that it has read
(`compileTokens_listing`).

Every goal says what it will leave in the record (`Goal.Writes`): the parts of a phrase, or one tag.
A step notes some marks and leaves the rest to the goals that take its place (`step_records`), so a
run that succeeds has written what its goals say (`run_records`). For the goals of a class that is
the derivation of a class, and the grammar being unambiguous, of no other.
-/

namespace Jack.Compile

open Syntax
open Jack.Derivation (leaf node marksOf)
open Goal (openBrace closeBrace)

/-- What a goal leaves in the record, all tokens being at `l`. Behind a name that has been read, the
parts that are still to come fit any name. -/
def Goal.Writes (l : Location) : Goal → List Mark → Prop
  | word w, ms => ms = marksOf l [leaf (.word w)]
  | enter e, ms => ms = [.opened e.tag]
  | leave e, ms => ms = [.closed e.tag]
  | className, ms | varName _ _ _, ms | subroutineName _, ms => ∃ x, ms = marksOf l [leaf (.name x)]
  | classVars, ms => ∃ ds : List ClassVarDec, ms = marksOf l (ds.map ClassVarDec.derivation)
  | varType _, ms => ∃ d : VarDec, ms = marksOf l (d.phrase.map leaf)
  | moreNames _ _, ms => ∃ xs, ms = marksOf l ((Syntax.moreNames xs).map leaf)
  | subroutines, ms => ∃ ss : List Subroutine, ms = marksOf l (ss.map Subroutine.derivation)
  | returnType, ms => ∃ t, ms = marksOf l [leaf (returnLexeme t)]
  | parameters, ms => ∃ ps, ms = marksOf l ((parametersSpelling ps).map leaf)
  | parameter, ms => ∃ p : Variable, ms = marksOf l (p.spelling.map leaf)
  | moreParameters, ms => ∃ ps, ms = marksOf l ((Syntax.moreParameters ps).map leaf)
  | localVars, ms => ∃ ds : List VarDec, ms = marksOf l (ds.map VarDec.derivation)
  | statements, ms => ∃ b : Block, ms = marksOf l [node .statements b.parts]
  | statementList, ms => ∃ b : Block, ms = marksOf l b.parts
  | letTarget, ms => ∃ (s : Statement) (parts : List Derivation),
      s.derivation = node .letStatement (leaf (.word "let") :: parts) ∧ ms = marksOf l parts
  | assign _, ms | assignTail _, ms => ∃ parts : List Derivation,
      (∀ x, ∃ s : Statement,
        s.derivation = node .letStatement (leaf (.word "let") :: leaf (.name x) :: parts)) ∧
      ms = marksOf l parts
  | ifBody, ms => ∃ (e : Expression) (b : Block) (a : Alternative),
      ms = marksOf l ([leaf (.word "("), e.derivation, leaf (.word ")"), leaf (.word openBrace),
        node .statements b.parts, leaf (.word closeBrace)] ++ a.parts)
  | elsePart, ms => ∃ a : Alternative, ms = marksOf l a.parts
  | whileBody, ms => ∃ (e : Expression) (b : Block),
      ms = marksOf l [leaf (.word "("), e.derivation, leaf (.word ")"), leaf (.word openBrace),
        node .statements b.parts, leaf (.word closeBrace)]
  | doTarget, ms => ∃ c : Call, ms = marksOf l c.parts
  | returnValue, ms => ∃ value : Option Expression,
      ms = marksOf l (value.toList.map Expression.derivation)
  | expression, ms => ∃ e : Expression, ms = marksOf l [e.derivation]
  | term, ms => ∃ t : Term, ms = marksOf l [node .term t.parts]
  | termBody, ms => ∃ t : Term, ms = marksOf l t.parts
  | operators, ms => ∃ o : Operations, ms = marksOf l o.parts
  | identifierTail _, ms => ∃ parts : List Derivation,
      (∀ x, ∃ t : Term, t.parts = leaf (.name x) :: parts) ∧ ms = marksOf l parts
  | callSign _, ms => ∃ parts : List Derivation,
      (∀ x, ∃ c : Call, c.parts = leaf (.name x) :: parts) ∧ ms = marksOf l parts
  | qualifiedCall _, ms => ∃ x, ∃ a : Arguments,
      ms = marksOf l [leaf (.name x), leaf (.word "("), node .expressionList a.parts,
        leaf (.word ")")]
  | localCall _, ms | dispatch _ _, ms => ∃ a : Arguments,
      ms = marksOf l [node .expressionList a.parts, leaf (.word ")")]
  | firstArgument _ _, ms => ∃ a : Arguments,
      ms = marksOf l a.parts ++ .closed Element.expressionList.tag :: marksOf l [leaf (.word ")")]
  | moreArguments _ _, ms => ∃ a : Arguments,
      ms = marksOf l a.moreParts ++
        .closed Element.expressionList.tag :: marksOf l [leaf (.word ")")]
  | emit _, ms | nameClass _, ms | noteClass _, ms | declare _ _ _, ms | beginSubroutine _ _, ms
  | header, ms | endOfInput, ms | verifyCalls, ms | integer _, ms | this _, ms | load _, ms => ms = []

/-- What goals leave in the record, one behind the other. -/
def WritesAll (l : Location) : List Goal → List Mark → Prop
  | [], ms => ms = []
  | g :: gs, ms => ∃ m, g.Writes l m ∧ ∃ k, WritesAll l gs k ∧ ms = m ++ k

variable {l : Location} {c : Setting} {s : State} {g : Goal}

theorem writesAll_append {gs hs : List Goal} {ms : List Mark} :
    WritesAll l (gs ++ hs) ms ↔ ∃ m, WritesAll l gs m ∧ ∃ k, WritesAll l hs k ∧ ms = m ++ k := by
  induction gs generalizing ms with
  | nil => simp [WritesAll]
  | cons g gs ih =>
      simp only [List.cons_append, WritesAll, ih]
      constructor
      · rintro ⟨m, hm, _, ⟨k, hk, n, hn, rfl⟩, rfl⟩
        exact ⟨m ++ k, ⟨m, hm, k, hk, rfl⟩, n, hn, (List.append_assoc ..).symm⟩
      · rintro ⟨_, ⟨m, hm, k, hk, rfl⟩, n, hn, rfl⟩
        exact ⟨m, hm, k ++ n, ⟨k, hk, n, hn, rfl⟩, List.append_assoc ..⟩

/-- Instructions leave nothing in the record. -/
theorem writesAll_emits {i : List Instruction} {ms : List Mark}
    (h : WritesAll l (i.map Goal.emit) ms) : ms = [] := by
  induction i generalizing ms with
  | nil => exact h
  | cons j i ih =>
      obtain ⟨_, rfl, k, hk, rfl⟩ := h
      exact ih hk

/-! ## Steps -/

/-- The marks that a step notes, together with what the goals in its place will leave, are what the
goal at hand leaves; and they note the tokens that have been read. -/
def Records (l : Location) (s : State) (g : Goal) : StepResult → Prop
  | .error _ => True
  | .ok (next, s') => ∃ ms, s'.marks = s.marks.map (· ++ ms) ∧
      s.rest = Listing.tokens ms ++ s'.rest ∧
      ∀ k, WritesAll l next k → g.Writes l (ms.map (Mark.at l) ++ k)

theorem records_stay {next : List Goal} {s' : State} (hr : s'.rest = s.rest)
    (hm : s'.marks = s.marks) (h : ∀ k, WritesAll l next k → g.Writes l k) :
    Records l s g (.ok (next, s')) := by
  refine ⟨[], ?_, hr.symm, h⟩
  rw [hm]
  cases s.marks <;> simp

theorem records_read {t : Token} {ts : List Token} (hts : s.rest = t :: ts) {next : List Goal}
    (h : ∀ k, WritesAll l next k → g.Writes l (marksOf l [leaf t.lexeme] ++ k)) :
    Records l s g (.ok (next, s.read t ts)) :=
  ⟨[.token t], State.marks_read s t ts, hts, h⟩

theorem records_expect (hs : s.Sound) {expected : String} {select : Token → Option (List Goal)}
    (h : ∀ t : Token, t.lexeme.valid = true → ∀ next, select t = some next →
      ∀ k, WritesAll l next k → g.Writes l (marksOf l [leaf t.lexeme] ++ k)) :
    Records l s g (c.expect s expected select) := by
  unfold Setting.expect
  split
  · trivial
  · next t ts hts =>
      split
      · next next hsel =>
          exact records_read hts (h t (hs.valid t (hts ▸ List.mem_cons_self ..)) next hsel)
      · trivial

theorem records_choose (hs : s.Sound) {select : Token → Option (List Goal)}
    {otherwise : List Goal}
    (h : ∀ t : Token, t.lexeme.valid = true → ∀ next, select t = some next →
      ∀ k, WritesAll l next k → g.Writes l (marksOf l [leaf t.lexeme] ++ k))
    (hotherwise : ∀ k, WritesAll l otherwise k → g.Writes l k) :
    Records l s g (.ok (s.choose select otherwise)) := by
  unfold State.choose
  split
  · exact records_stay rfl rfl hotherwise
  · next t ts hts =>
      split
      · next next hsel =>
          exact records_read hts (h t (hs.valid t (hts ▸ List.mem_cons_self ..)) next hsel)
      · exact records_stay rfl rfl hotherwise

theorem onWord_eq_some {w : String} {next gs : List Goal} {t : Token}
    (ht : t.lexeme.valid = true) (h : Goal.onWord w next t = some gs) :
    t.lexeme = .word w ∧ gs = next := by
  obtain ⟨x, hmem, hlex⟩ := (selects_onWord w next t ht gs).mp h
  obtain ⟨rfl, rfl⟩ := Prod.mk.inj (List.mem_singleton.mp hmem)
  exact ⟨hlex, rfl⟩

/-- One word is read if it is in view. -/
theorem records_chooseWord (hs : s.Sound) {w : String} {next otherwise : List Goal}
    (h : ∀ k, WritesAll l next k → g.Writes l (marksOf l [leaf (.word w)] ++ k))
    (hotherwise : ∀ k, WritesAll l otherwise k → g.Writes l k) :
    Records l s g (.ok (s.choose (Goal.onWord w next) otherwise)) := by
  refine records_choose hs (fun t ht gs hsel k hk => ?_) hotherwise
  obtain ⟨hlex, rfl⟩ := onWord_eq_some ht hsel
  rw [hlex]
  exact h k hk

theorem records_openElement (hs : s.Sound) {select : Token → Option (Element × List Goal)}
    (h : ∀ t : Token, t.lexeme.valid = true → ∀ e next, select t = some (e, next) →
      ∀ k, WritesAll l next k → g.Writes l (.opened e.tag :: marksOf l [leaf t.lexeme] ++ k))
    (hnothing : g.Writes l []) : Records l s g (.ok (s.openElement select)) := by
  have hstay : ∀ k, WritesAll l [] k → g.Writes l k := by
    rintro k rfl
    exact hnothing
  unfold State.openElement
  split
  · exact records_stay rfl rfl hstay
  · next t ts hts =>
      split
      · next e next hsel =>
          refine ⟨[.opened e.tag, .token t], ?_, hts,
            h t (hs.valid t (hts ▸ List.mem_cons_self ..)) e next hsel⟩
          rw [State.marks_read, State.marks_mark]
          cases s.marks <;> simp
      · exact records_stay rfl rfl hstay

/-! ## Declarations -/

theorem records_onName (hs : s.Sound) {expected : String} {next : Token → List Goal}
    (h : ∀ t x k, WritesAll l (next t) k → g.Writes l (marksOf l [leaf (.name x)] ++ k)) :
    Records l s g (c.expect s expected (Goal.onName next)) := by
  refine records_expect hs fun t _ gs hsel k hk => ?_
  unfold Goal.onName at hsel
  split at hsel
  · next hid =>
      obtain rfl := Option.some.inj hsel
      rw [isIdentifier_iff.mp hid]
      exact h t t.text k hk
  · cases hsel

theorem records_onType (hs : s.Sound) {expected w : String} {ws : List String}
    (hws : ∀ x ∈ w :: ws, Token.keywords.contains x = true) {next : String → List Goal}
    (hword : ∀ x ∈ w :: ws, ∀ y k, WritesAll l (next y) k →
      g.Writes l (marksOf l [leaf (.word x)] ++ k))
    (hname : ∀ x y k, WritesAll l (next y) k → g.Writes l (marksOf l [leaf (.name x)] ++ k)) :
    Records l s g (c.expect s expected (Goal.onType (w :: ws) next)) := by
  refine records_expect hs fun t _ gs hsel k hk => ?_
  unfold Goal.onType at hsel
  split at hsel
  · next hkeyword =>
      obtain rfl := Option.some.inj hsel
      obtain ⟨x, hx, hlex⟩ := (isKeyword_iff hws).mp hkeyword
      rw [hlex]
      exact hword x hx t.text k hk
  · split at hsel
    · next hid =>
        obtain rfl := Option.some.inj hsel
        obtain ⟨_, rfl, k, hk, rfl⟩ := hk
        rw [isIdentifier_iff.mp hid]
        exact hname t.text t.text k hk
    · cases hsel

/-- The primitive types as lexemes. -/
theorem exists_primitive {x : String} (hx : x ∈ Token.primitiveTypes) :
    ∃ t : TypeName, t.lexeme = .word x := by
  simp only [Token.primitiveTypes, List.mem_cons, List.not_mem_nil, or_false] at hx
  rcases hx with rfl | rfl | rfl
  · exact ⟨.int, rfl⟩
  · exact ⟨.char, rfl⟩
  · exact ⟨.boolean, rfl⟩

theorem records_returnType (hs : s.Sound) : Records l s .returnType (step c s .returnType) := by
  refine records_onType hs (by decide) ?_ ?_
  · rintro x hx _ _ rfl
    have hx : x ∈ Token.primitiveTypes ++ ["void"] := hx
    rcases List.mem_append.mp hx with hx | hx
    · obtain ⟨t, ht⟩ := exists_primitive hx
      exact ⟨some t, by rw [returnLexeme, ht]; rfl⟩
    · obtain rfl := List.mem_singleton.mp hx
      exact ⟨none, rfl⟩
  · rintro x _ _ rfl
    exact ⟨some (.named x), rfl⟩

/-- A type and the rest of a declaration. -/
theorem records_type (hs : s.Sound) {expected : String} {next : String → List Goal}
    (h : ∀ (t : TypeName) y k, WritesAll l (next y) k →
      g.Writes l (marksOf l [leaf t.lexeme] ++ k)) :
    Records l s g (c.expect s expected (Goal.onType Token.primitiveTypes next)) := by
  refine records_onType hs (by decide) ?_ ?_
  · intro x hx y k hk
    obtain ⟨t, ht⟩ := exists_primitive hx
    rw [← ht]
    exact h t y k hk
  · exact fun x => h (.named x)

theorem writesAll_names {k : Storage} {type : String} {ms : List Mark}
    (h : WritesAll l (Goal.names k type) ms) :
    ∃ x xs, ms = marksOf l ((Lexeme.name x :: moreNames xs).map leaf) := by
  obtain ⟨_, ⟨x, rfl⟩, _, ⟨_, ⟨xs, rfl⟩, _, rfl, rfl⟩, rfl⟩ := h
  exact ⟨x, xs, by simp⟩

theorem records_classVars (hs : s.Sound) : Records l s .classVars (step c s .classVars) := by
  refine records_openElement hs ?_ ⟨[], rfl⟩
  intro t ht e next hsel k hk
  obtain ⟨w, hmem, hlex⟩ := (selects_onClassVar t ht (e, next)).mp hsel
  have hkind : ∃ kind : ClassVarKind, w = kind.word ∧ e = .classVarDec ∧
      next = [.varType kind.storage, .word ";", .leave .classVarDec, .classVars] := by
    simp only [List.mem_cons, List.not_mem_nil, or_false, Prod.mk.injEq] at hmem
    rcases hmem with h | h
    · exact ⟨.static, h⟩
    · exact ⟨.field, h⟩
  obtain ⟨kind, rfl, rfl, rfl⟩ := hkind
  obtain ⟨_, ⟨d, rfl⟩, _, ⟨_, rfl, _, ⟨_, rfl, _, ⟨_, ⟨ds, rfl⟩, _, rfl, rfl⟩, rfl⟩, rfl⟩, rfl⟩ := hk
  refine ⟨⟨kind, d⟩ :: ds, ?_⟩
  simp [hlex, ClassVarDec.derivation, ClassVarDec.spelling, VarDec.spelling]

theorem records_localVars (hs : s.Sound) : Records l s .localVars (step c s .localVars) := by
  refine records_openElement hs ?_ ⟨[], rfl⟩
  intro t ht e next hsel k hk
  obtain ⟨w, hmem, hlex⟩ := (selects_onLocalVar t ht (e, next)).mp hsel
  simp only [List.mem_cons, List.not_mem_nil, or_false, Prod.mk.injEq] at hmem
  obtain ⟨rfl, rfl, rfl⟩ := hmem
  obtain ⟨_, ⟨d, rfl⟩, _, ⟨_, rfl, _, ⟨_, rfl, _, ⟨_, ⟨ds, rfl⟩, _, rfl, rfl⟩, rfl⟩, rfl⟩, rfl⟩ := hk
  refine ⟨d :: ds, ?_⟩
  simp [hlex, VarDec.derivation, VarDec.spelling]

theorem records_subroutines (hs : s.Sound) : Records l s .subroutines (step c s .subroutines) := by
  refine records_openElement hs ?_ ⟨[], rfl⟩
  intro t ht e next hsel k hk
  obtain ⟨w, hmem, hlex⟩ := (selects_onSubroutine t ht (e, next)).mp hsel
  obtain ⟨kind, -, heq⟩ := List.mem_map.mp hmem
  simp only [Prod.mk.injEq] at heq
  obtain ⟨rfl, rfl, rfl⟩ := heq
  -- The signature, the body up to its statements, the statements, and the other subroutines.
  obtain ⟨_, ⟨type, rfl⟩, _, ⟨_, ⟨x, rfl⟩, _, ⟨_, rfl, _, ⟨_, rfl, _, ⟨_, ⟨ps, rfl⟩, _, hk, rfl⟩,
    rfl⟩, rfl⟩, rfl⟩, rfl⟩ := hk
  obtain ⟨_, rfl, _, ⟨_, rfl, _, ⟨_, rfl, _, ⟨_, rfl, _, ⟨_, ⟨ds, rfl⟩, _, ⟨_, rfl, _, hk, rfl⟩,
    rfl⟩, rfl⟩, rfl⟩, rfl⟩, rfl⟩ := hk
  obtain ⟨_, ⟨b, rfl⟩, _, ⟨_, rfl, _, ⟨_, rfl, _, ⟨_, rfl, _, ⟨_, ⟨ss, rfl⟩, _, rfl, rfl⟩, rfl⟩,
    rfl⟩, rfl⟩, rfl⟩ := hk
  refine ⟨⟨kind, type, x, ps, ds, b⟩ :: ss, ?_⟩
  simp [hlex, Subroutine.derivation]

/-! ## Statements -/

theorem records_statementList (hs : s.Sound) :
    Records l s .statementList (step c s .statementList) := by
  refine records_openElement hs ?_ ⟨.nil, rfl⟩
  intro t ht e next hsel k hk
  obtain ⟨w, hmem, hlex⟩ := (selects_onStatement t ht (e, next)).mp hsel
  simp only [statementTable, List.mem_cons, List.not_mem_nil, or_false, Prod.mk.injEq] at hmem
  rcases hmem with ⟨rfl, rfl, rfl⟩ | ⟨rfl, rfl, rfl⟩ | ⟨rfl, rfl, rfl⟩ | ⟨rfl, rfl, rfl⟩ |
    ⟨rfl, rfl, rfl⟩
  · obtain ⟨_, ⟨x, parts, hx, rfl⟩, _, ⟨_, rfl, _, ⟨_, ⟨b, rfl⟩, _, rfl, rfl⟩, rfl⟩, rfl⟩ := hk
    exact ⟨.cons x b, by simp [hlex, Block.parts, hx]⟩
  · obtain ⟨_, ⟨i, b, a, rfl⟩, _, ⟨_, rfl, _, ⟨_, ⟨b', rfl⟩, _, rfl, rfl⟩, rfl⟩, rfl⟩ := hk
    exact ⟨.cons (.conditional i b a) b', by simp [hlex, Block.parts, Statement.derivation]⟩
  · obtain ⟨_, ⟨i, b, rfl⟩, _, ⟨_, rfl, _, ⟨_, ⟨b', rfl⟩, _, rfl, rfl⟩, rfl⟩, rfl⟩ := hk
    exact ⟨.cons (.loop i b) b', by simp [hlex, Block.parts, Statement.derivation]⟩
  · obtain ⟨_, ⟨i, rfl⟩, _, ⟨_, rfl, _, ⟨_, rfl, _, ⟨_, rfl, _, ⟨_, ⟨b, rfl⟩, _, rfl, rfl⟩, rfl⟩,
      rfl⟩, rfl⟩, rfl⟩ := hk
    exact ⟨.cons (.perform i) b, by simp [hlex, Block.parts, Statement.derivation]⟩
  · obtain ⟨_, ⟨value, rfl⟩, _, ⟨_, rfl, _, ⟨_, rfl, _, ⟨_, rfl, _, ⟨_, ⟨b, rfl⟩, _, rfl, rfl⟩,
      rfl⟩, rfl⟩, rfl⟩, rfl⟩ := hk
    refine ⟨.cons (.yield value) b, ?_⟩
    cases value <;> simp [hlex, Block.parts, Statement.derivation]

theorem writesAll_block {ms : List Mark} (h : WritesAll l Goal.block ms) :
    ∃ b : Block, ms = marksOf l [leaf (.word openBrace), node .statements b.parts,
      leaf (.word closeBrace)] := by
  obtain ⟨_, rfl, _, ⟨_, ⟨b, rfl⟩, _, ⟨_, rfl, _, rfl, rfl⟩, rfl⟩, rfl⟩ := h
  exact ⟨b, by simp⟩

theorem records_assignTail (hs : s.Sound) (d : Declaration) :
    Records l s (.assignTail d) (step c s (.assignTail d)) := by
  refine records_chooseWord hs ?_ ?_
  · intro k hk
    obtain ⟨_, rfl, _, ⟨_, ⟨i, rfl⟩, _, ⟨_, rfl, _, ⟨_, rfl, _, ⟨_, rfl, _, ⟨_, ⟨e, rfl⟩, _,
      ⟨_, rfl, _, hk, rfl⟩, rfl⟩, rfl⟩, rfl⟩, rfl⟩, rfl⟩, rfl⟩ := hk
    obtain rfl := writesAll_emits (i := [.pop .temp 0, .pop .pointer 1, .push .temp 0,
      .pop .that 0]) hk
    refine ⟨[leaf (.word "["), i.derivation, leaf (.word "]"), leaf (.word "="), e.derivation,
      leaf (.word ";")], fun x => ⟨.assignElement x i e, rfl⟩, ?_⟩
    simp
  · rintro k ⟨_, rfl, _, ⟨_, ⟨e, rfl⟩, _, ⟨_, rfl, _, ⟨_, rfl, _, rfl, rfl⟩, rfl⟩, rfl⟩, rfl⟩
    refine ⟨[leaf (.word "="), e.derivation, leaf (.word ";")], fun x => ⟨.assign x e, rfl⟩, ?_⟩
    simp

theorem records_elsePart (hs : s.Sound) : Records l s .elsePart (step c s .elsePart) := by
  refine records_chooseWord hs ?_ ?_
  · intro k hk
    obtain ⟨b, rfl⟩ := writesAll_block hk
    exact ⟨.present b, by simp [Alternative.parts]⟩
  · rintro k rfl
    exact ⟨.absent, rfl⟩

theorem records_ifBody : Records l s .ifBody (step c s .ifBody) := by
  refine records_stay rfl rfl ?_
  rintro k ⟨_, rfl, _, ⟨_, ⟨e, rfl⟩, _, ⟨_, rfl, _, ⟨_, rfl, _, ⟨_, rfl, _, hk, rfl⟩, rfl⟩, rfl⟩,
    rfl⟩, rfl⟩
  obtain ⟨_, hblock, _, ⟨_, rfl, _, ⟨_, rfl, _, ⟨_, ⟨a, rfl⟩, _, ⟨_, rfl, _, rfl, rfl⟩, rfl⟩, rfl⟩,
    rfl⟩, rfl⟩ := writesAll_append.mp hk
  obtain ⟨b, rfl⟩ := writesAll_block hblock
  exact ⟨e, b, a, by simp⟩

theorem records_whileBody : Records l s .whileBody (step c s .whileBody) := by
  refine records_stay rfl rfl ?_
  rintro k ⟨_, rfl, _, ⟨_, rfl, _, ⟨_, ⟨e, rfl⟩, _, ⟨_, rfl, _, ⟨_, rfl, _, ⟨_, rfl, _, hk, rfl⟩,
    rfl⟩, rfl⟩, rfl⟩, rfl⟩, rfl⟩
  obtain ⟨_, hblock, _, ⟨_, rfl, _, ⟨_, rfl, _, rfl, rfl⟩, rfl⟩, rfl⟩ := writesAll_append.mp hk
  obtain ⟨b, rfl⟩ := writesAll_block hblock
  exact ⟨e, b, by simp⟩

/-! ## Expressions -/

theorem records_operators (hs : s.Sound) : Records l s .operators (step c s .operators) := by
  refine records_choose hs ?_ ?_
  · intro t ht next hsel k hk
    obtain ⟨w, hmem, hlex⟩ := (selects_onOperator t ht next).mp hsel
    obtain ⟨⟨x, i⟩, hentry, heq⟩ := List.mem_map.mp hmem
    obtain ⟨rfl, rfl⟩ := Prod.mk.inj heq
    obtain ⟨op, rfl, rfl⟩ := mem_operatorTable.mp hentry
    obtain ⟨_, ⟨x, rfl⟩, _, ⟨_, rfl, _, ⟨_, ⟨o, rfl⟩, _, rfl, rfl⟩, rfl⟩, rfl⟩ := hk
    exact ⟨.cons op x o, by simp [hlex, Operations.parts]⟩
  · rintro k rfl
    exact ⟨.nil, rfl⟩

theorem records_termBody (hs : s.Sound) : Records l s .termBody (step c s .termBody) := by
  refine records_expect hs fun t _ next hsel k hk => ?_
  unfold Goal.onTerm at hsel
  split at hsel
  · next hkind =>
      obtain rfl := Option.some.inj hsel
      obtain ⟨_, rfl, _, rfl, rfl⟩ := hk
      exact ⟨.integer t.text, by simp [Token.lexeme, hkind, Term.parts]⟩
  · next hkind =>
      obtain rfl := Option.some.inj hsel
      rw [stringLiteral_eq] at hk
      obtain rfl := writesAll_emits hk
      exact ⟨.string t.text, by simp [Token.lexeme, hkind, Term.parts]⟩
  · next hkind =>
      obtain rfl := Option.some.inj hsel
      obtain ⟨_, ⟨parts, hparts, rfl⟩, _, rfl, rfl⟩ := hk
      obtain ⟨x, hx⟩ := hparts t.text
      exact ⟨x, by simp [Token.lexeme, hkind, hx, Lexeme.name]⟩
  · next hkind =>
      have hlex : t.lexeme = ⟨.keyword, t.text⟩ := by rw [Token.lexeme, hkind]
      split at hsel
      · next htrue =>
          obtain rfl := Option.some.inj hsel
          obtain rfl := writesAll_emits (i := [.push .constant 1, .arithmetic .neg]) hk
          exact ⟨.constant .true, by rw [hlex, htrue]; rfl⟩
      · split at hsel
        · next hfalse =>
            obtain rfl := Option.some.inj hsel
            obtain ⟨_, rfl, _, rfl, rfl⟩ := hk
            rcases hfalse with hfalse | hnull
            · exact ⟨.constant .false, by rw [hlex, hfalse]; rfl⟩
            · exact ⟨.constant .null, by rw [hlex, hnull]; rfl⟩
        · split at hsel
          · next hthis =>
              obtain rfl := Option.some.inj hsel
              obtain ⟨_, rfl, _, rfl, rfl⟩ := hk
              exact ⟨.this, by rw [hlex, hthis]; rfl⟩
          · cases hsel
  · next hkind =>
      have hlex : t.lexeme = ⟨.symbol, t.text⟩ := by rw [Token.lexeme, hkind]
      split at hsel
      · next hminus =>
          obtain rfl := Option.some.inj hsel
          obtain ⟨_, ⟨x, rfl⟩, _, ⟨_, rfl, _, rfl, rfl⟩, rfl⟩ := hk
          have hsign : t.lexeme = .word UnaryOperator.negate.sign := by rw [hlex, hminus]; rfl
          exact ⟨.unary .negate x, by simp [hsign, Term.parts]⟩
      · split at hsel
        · next htilde =>
            obtain rfl := Option.some.inj hsel
            obtain ⟨_, ⟨x, rfl⟩, _, ⟨_, rfl, _, rfl, rfl⟩, rfl⟩ := hk
            have hsign : t.lexeme = .word UnaryOperator.complement.sign := by
              rw [hlex, htilde]; rfl
            exact ⟨.unary .complement x, by simp [hsign, Term.parts]⟩
        · split at hsel
          · next hparen =>
              obtain rfl := Option.some.inj hsel
              obtain ⟨_, ⟨e, rfl⟩, _, ⟨_, rfl, _, rfl, rfl⟩, rfl⟩ := hk
              have hsign : t.lexeme = .word "(" := by rw [hlex, hparen]; rfl
              exact ⟨.parens e, by simp [hsign, Term.parts]⟩
          · cases hsel

theorem records_identifierTail (hs : s.Sound) (name : Token) :
    Records l s (.identifierTail name) (step c s (.identifierTail name)) := by
  refine records_chooseWord hs ?_ ?_
  · intro k hk
    obtain ⟨_, rfl, _, ⟨_, ⟨i, rfl⟩, _, ⟨_, rfl, _, hk, rfl⟩, rfl⟩, rfl⟩ := hk
    obtain rfl := writesAll_emits (i := [.arithmetic .add, .pop .pointer 1, .push .that 0]) hk
    refine ⟨[leaf (.word "["), i.derivation, leaf (.word "]")], fun x => ⟨.element x i, rfl⟩, ?_⟩
    simp
  · intro k hk
    split at hk
    · obtain ⟨_, ⟨parts, hparts, rfl⟩, _, rfl, rfl⟩ := hk
      refine ⟨parts, fun x => ?_, List.append_nil _⟩
      obtain ⟨f, hf⟩ := hparts x
      exact ⟨.call f, hf⟩
    · obtain ⟨_, rfl, _, rfl, rfl⟩ := hk
      exact ⟨[], fun x => ⟨.var x, rfl⟩, rfl⟩

theorem records_callSign (hs : s.Sound) (name : Token) :
    Records l s (.callSign name) (step c s (.callSign name)) := by
  refine records_expect hs fun t ht next hsel k hk => ?_
  obtain ⟨w, hmem, hlex⟩ := (selects_onCallSign name t ht next).mp hsel
  simp only [List.mem_cons, List.not_mem_nil, or_false, Prod.mk.injEq] at hmem
  rcases hmem with ⟨rfl, rfl⟩ | ⟨rfl, rfl⟩
  · obtain ⟨_, ⟨a, rfl⟩, _, rfl, rfl⟩ := hk
    exact ⟨_, fun x => ⟨.unqualified x a, rfl⟩, by simp [hlex]⟩
  · obtain ⟨_, ⟨f, a, rfl⟩, _, rfl, rfl⟩ := hk
    exact ⟨_, fun x => ⟨.qualified x f a, rfl⟩, by simp [hlex]⟩

theorem writesAll_arguments {target : String} {count : Nat} {ms : List Mark}
    (h : WritesAll l (Goal.arguments target count) ms) :
    ∃ a : Arguments, ms = marksOf l [node .expressionList a.parts, leaf (.word ")")] := by
  obtain ⟨_, rfl, _, ⟨_, ⟨a, rfl⟩, _, rfl, rfl⟩, rfl⟩ := h
  exact ⟨a, by simp⟩

theorem writesAll_callEnd {target : String} {count : Nat} {ms : List Mark}
    (h : WritesAll l (Goal.callEnd target count) ms) :
    ms = .closed Element.expressionList.tag :: marksOf l [leaf (.word ")")] := by
  obtain ⟨_, rfl, _, ⟨_, rfl, _, ⟨_, rfl, _, rfl, rfl⟩, rfl⟩, rfl⟩ := h
  rfl

/-- An expression and the arguments behind it. -/
theorem writesAll_argument {target : String} {count : Nat} {ms : List Mark}
    (h : WritesAll l [.expression, .moreArguments target count] ms) :
    ∃ (e : Expression) (a : Arguments), ms = marksOf l (e.derivation :: a.moreParts) ++
      .closed Element.expressionList.tag :: marksOf l [leaf (.word ")")] := by
  obtain ⟨_, ⟨e, rfl⟩, _, ⟨_, ⟨a, rfl⟩, _, rfl, rfl⟩, rfl⟩ := h
  exact ⟨e, a, by simp⟩

theorem records_firstArgument (target : String) (count : Nat) :
    Records l s (.firstArgument target count) (step c s (.firstArgument target count)) := by
  refine records_stay rfl rfl fun k hk => ?_
  split at hk
  · exact ⟨.nil, writesAll_callEnd hk⟩
  · obtain ⟨e, a, rfl⟩ := writesAll_argument hk
    exact ⟨.cons e a, rfl⟩

theorem records_moreArguments (hs : s.Sound) (target : String) (count : Nat) :
    Records l s (.moreArguments target count) (step c s (.moreArguments target count)) := by
  refine records_chooseWord hs ?_ ?_
  · intro k hk
    obtain ⟨e, a, rfl⟩ := writesAll_argument hk
    exact ⟨.cons e a, by simp [Arguments.moreParts]⟩
  · exact fun k hk => ⟨.nil, writesAll_callEnd hk⟩

/-! ## Every step -/

theorem step_records (hs : s.Sound) (g : Goal) : Records l s g (step c s g) := by
  cases g with
  | word w =>
      refine records_expect hs fun t ht next hsel k hk => ?_
      obtain ⟨hlex, rfl⟩ := onWord_eq_some ht hsel
      obtain rfl : k = [] := hk
      rw [hlex]
      exact List.append_nil _
  | enter e =>
      refine ⟨[.opened e.tag], State.marks_mark .., rfl, ?_⟩
      rintro k rfl
      rfl
  | leave e =>
      refine ⟨[.closed e.tag], State.marks_mark .., rfl, ?_⟩
      rintro k rfl
      rfl
  | className | varName | subroutineName =>
      refine records_onName hs ?_
      rintro t x k ⟨_, rfl, _, rfl, rfl⟩
      exact ⟨x, rfl⟩
  | letTarget =>
      refine records_onName hs ?_
      rintro t x k ⟨_, ⟨parts, hparts, rfl⟩, _, rfl, rfl⟩
      obtain ⟨a, ha⟩ := hparts x
      exact ⟨a, _, ha, by simp⟩
  | doTarget =>
      refine records_onName hs ?_
      rintro t x k ⟨_, ⟨parts, hparts, rfl⟩, _, rfl, rfl⟩
      obtain ⟨f, hf⟩ := hparts x
      exact ⟨f, by simp [hf]⟩
  | qualifiedCall =>
      refine records_onName hs ?_
      rintro t x k ⟨_, rfl, _, ⟨_, ⟨a, rfl⟩, _, rfl, rfl⟩, rfl⟩
      exact ⟨x, a, by simp⟩
  | varType k =>
      refine records_type hs fun t y k hk => ?_
      obtain ⟨x, xs, rfl⟩ := writesAll_names hk
      exact ⟨⟨t, x, xs⟩, by simp [VarDec.phrase]⟩
  | parameter =>
      refine records_type hs ?_
      rintro t y k ⟨_, ⟨x, rfl⟩, _, rfl, rfl⟩
      exact ⟨⟨t, x⟩, by simp [Variable.spelling]⟩
  | returnType => exact records_returnType hs
  | classVars => exact records_classVars hs
  | subroutines => exact records_subroutines hs
  | localVars => exact records_localVars hs
  | statementList => exact records_statementList hs
  | moreNames k type =>
      refine records_chooseWord hs ?_ ?_
      · intro k hk
        obtain ⟨x, xs, rfl⟩ := writesAll_names hk
        exact ⟨x :: xs, by simp [moreNames]⟩
      · rintro k rfl
        exact ⟨[], rfl⟩
  | moreParameters =>
      refine records_chooseWord hs ?_ ?_
      · intro k hk
        obtain ⟨_, ⟨p, rfl⟩, _, ⟨_, ⟨ps, rfl⟩, _, rfl, rfl⟩, rfl⟩ := hk
        exact ⟨p :: ps, by simp [moreParameters]⟩
      · rintro k rfl
        exact ⟨[], rfl⟩
  | elsePart => exact records_elsePart hs
  | operators => exact records_operators hs
  | assignTail d => exact records_assignTail hs d
  | identifierTail name => exact records_identifierTail hs name
  | callSign name => exact records_callSign hs name
  | termBody => exact records_termBody hs
  | moreArguments target count => exact records_moreArguments hs target count
  | firstArgument target count => exact records_firstArgument target count
  | ifBody => exact records_ifBody
  | whileBody => exact records_whileBody
  | parameters =>
      refine records_stay rfl rfl fun k hk => ?_
      split at hk
      · exact ⟨[], hk⟩
      · obtain ⟨_, ⟨p, rfl⟩, _, ⟨_, ⟨ps, rfl⟩, _, rfl, rfl⟩, rfl⟩ := hk
        exact ⟨p :: ps, by simp [parametersSpelling]⟩
  | returnValue =>
      refine records_stay rfl rfl fun k hk => ?_
      split at hk
      · exact ⟨none, hk⟩
      · obtain ⟨_, ⟨e, rfl⟩, _, rfl, rfl⟩ := hk
        exact ⟨some e, by simp⟩
  | statements =>
      refine records_stay rfl rfl ?_
      rintro k ⟨_, rfl, _, ⟨_, ⟨b, rfl⟩, _, ⟨_, rfl, _, rfl, rfl⟩, rfl⟩, rfl⟩
      exact ⟨b, by simp⟩
  | expression =>
      refine records_stay rfl rfl ?_
      rintro k ⟨_, rfl, _, ⟨_, ⟨t, rfl⟩, _, ⟨_, ⟨o, rfl⟩, _, ⟨_, rfl, _, rfl, rfl⟩, rfl⟩, rfl⟩, rfl⟩
      exact ⟨.mk t o, by simp [Expression.derivation]⟩
  | term =>
      simp only [step]
      split
      · trivial
      · refine records_stay rfl rfl ?_
        rintro k ⟨_, rfl, _, ⟨_, ⟨t, rfl⟩, _, ⟨_, rfl, _, rfl, rfl⟩, rfl⟩, rfl⟩
        exact ⟨t, by simp⟩
  | header =>
      refine records_stay rfl rfl fun k hk => ?_
      rw [header_eq] at hk
      exact writesAll_emits hk
  | nameClass | noteClass => exact records_stay rfl rfl fun k hk => hk
  | emit i =>
      simp only [step]
      split
      · trivial
      · exact records_stay rfl rfl fun k hk => hk
  | declare name type k =>
      simp only [step, Setting.declare]
      split
      · exact records_stay rfl rfl fun k hk => hk
      · trivial
  | beginSubroutine kind name =>
      simp only [step, Setting.beginSubroutine_eq]
      split
      · trivial
      · exact records_stay rfl rfl fun k hk => hk
  | endOfInput =>
      simp only [step]
      split
      · exact records_stay rfl rfl fun k hk => hk
      · trivial
  | verifyCalls =>
      simp only [step]
      split
      · trivial
      · exact records_stay rfl rfl fun k hk => hk
  | assign name =>
      simp only [step]
      split
      · trivial
      · refine records_stay rfl rfl ?_
        rintro k ⟨_, hassign, _, rfl, rfl⟩
        rw [List.append_nil]
        exact hassign
  | load name =>
      simp only [step]
      split
      · trivial
      · exact records_stay rfl rfl fun k hk => writesAll_emits (i := [_]) hk
  | integer t =>
      simp only [step, Setting.integer]
      split
      · trivial
      · split
        · trivial
        · split
          · trivial
          · exact records_stay rfl rfl fun k hk => writesAll_emits (i := [_]) hk
  | this t =>
      simp only [step, Setting.this]
      split
      · exact records_stay rfl rfl fun k hk => writesAll_emits (i := [_]) hk
      · split
        · exact records_stay rfl rfl fun k hk => writesAll_emits (i := [_]) hk
        · trivial
  | localCall name =>
      simp only [step, Setting.localCall]
      split
      · trivial
      · refine records_stay rfl rfl ?_
        rintro k ⟨_, rfl, _, hk, rfl⟩
        exact writesAll_arguments hk
  | dispatch q callee =>
      simp only [step, Setting.dispatch]
      split
      · split
        · trivial
        · split
          · trivial
          · refine records_stay rfl rfl ?_
            rintro k ⟨_, rfl, _, hk, rfl⟩
            exact writesAll_arguments hk
      · split
        · exact records_stay rfl rfl fun k hk => writesAll_arguments hk
        · trivial

/-! ## Whole runs -/

/-- A run notes the tokens that it reads; if it succeeds, it has left what its goals leave. -/
theorem run_records (gs : List Goal) (s : State) (hs : s.Sound) :
    ∃ ms, (run c s gs).state.marks = s.marks.map (· ++ ms) ∧
      s.rest = Listing.tokens ms ++ (run c s gs).state.rest ∧
      ((run c s gs).fault = none → WritesAll l gs (ms.map (Mark.at l))) := by
  have hnothing : s.marks = s.marks.map (· ++ []) := by cases s.marks <;> simp
  fun_induction run c s gs with
  | case1 s => exact ⟨[], hnothing, rfl, fun _ => rfl⟩
  | case2 s g gs f hf => exact ⟨[], hnothing, rfl, fun hfault => by cases hfault⟩
  | case3 s g gs next s' hok ih =>
      have hstep := step_records (l := l) (c := c) hs g
      rw [hok] at hstep
      obtain ⟨ms, hmarks, hrest, hwrites⟩ := hstep
      obtain ⟨ns, hmarks', hrest', hwrites'⟩ :=
        ih ((step_forward hok).sound hs) (by cases s'.marks <;> simp)
      refine ⟨ms ++ ns, ?_, ?_, fun hfault => ?_⟩
      · rw [hmarks', hmarks]
        cases s.marks <;> simp
      · rw [hrest, hrest', Listing.tokens_append, List.append_assoc]
      · obtain ⟨m, hm, k, hk, heq⟩ := writesAll_append.mp (hwrites' hfault)
        exact ⟨_, hwrites m hm, k, hk, by rw [List.map_append, heq, List.append_assoc]⟩

/-- The goals of a class leave the derivation of a class. -/
theorem writesAll_wholeClass {ms : List Mark} (h : WritesAll l Goal.wholeClass ms) :
    ∃ cd : ClassDecl, ms = cd.derivation.marks l := by
  obtain ⟨_, rfl, _, ⟨_, rfl, _, ⟨_, ⟨x, rfl⟩, _, ⟨_, rfl, _, ⟨_, ⟨ds, rfl⟩, _, ⟨_, ⟨ss, rfl⟩, _,
    h, rfl⟩, rfl⟩, rfl⟩, rfl⟩, rfl⟩, rfl⟩ := h
  obtain ⟨_, rfl, _, ⟨_, rfl, _, ⟨_, rfl, _, ⟨_, rfl, _, rfl, rfl⟩, rfl⟩, rfl⟩, rfl⟩ := h
  exact ⟨⟨x, ds, ss⟩, by simp [ClassDecl.derivation]⟩

/-- Marks that are the derivation of a class, apart from where the tokens stand, note its spelling
and are rendered like it. -/
theorem listing_of_derivation {ms : List Mark} {cd : ClassDecl}
    (h : ms.map (Mark.at l) = cd.derivation.marks l) :
    (Listing.tokens ms).map Token.lexeme = cd.spelling ∧
      Listing.render ms = cd.derivation.render ∧ Listing.openTags [] ms = some [] := by
  refine ⟨?_, ?_, ?_⟩
  · rw [← cd.lexemes_marks l, ← h, Listing.lexemes_at]
    rfl
  · rw [← Derivation.render_marks (l := l), ← h, Listing.render, Listing.render, Listing.lines_at]
  · have hopen := Derivation.openTags_marks (l := l) cd.derivation [] []
    rwa [List.append_nil, ← h, Listing.openTags_at] at hopen

/-- A compilation that succeeds has read all tokens. -/
theorem compileTokens_rest {o : Options} {file : String} {lines : List String}
    {tokens : List Token} (hvalid : ∀ t ∈ tokens, t.lexeme.valid = true)
    (hfault : (compileTokens o file lines tokens).fault = none) :
    (compileTokens o file lines tokens).state.rest = [] := by
  let setting : Setting := { Token.Setting.ofTokens file lines tokens with strict := o.strict }
  let start : State :=
    { rest := tokens, known := o.knownClasses, recorded := if o.listTree then some [] else none }
  have hsound : start.Sound := ⟨hvalid, Int.le_refl 0⟩
  have hrun : run setting start Goal.wholeClass =
      ⟨(compileTokens o file lines tokens).state, none⟩ :=
    congrArg (Outcome.mk (compileTokens o file lines tokens).state) hfault
  obtain ⟨cd, u, ks, -, -, -, -, -, hview⟩ :=
    meansAll_wholeClass.mp ((run_iff Goal.wholeClass start hsound _).mp ⟨_, hrun, rfl⟩)
  exact List.map_eq_nil_iff.mp (congrArg View.rest hview)

/-- The listing of a compilation notes the tokens that have been read, each by its markup and in
order. If the compilation succeeds, it is the derivation of the one class that the tokens spell;
its tags nest and are all closed. -/
theorem compileTokens_listing (o : Options) (hlist : o.listTree = true) (file : String)
    (lines : List String) (tokens : List Token) (hvalid : ∀ t ∈ tokens, t.lexeme.valid = true) :
    let r := compileTokens o file lines tokens
    ∃ marks, r.state.marks = some marks ∧
      (∃ consumed, tokens = consumed ++ r.state.rest ∧
        List.Forall₂ (fun line t => ∃ d, line = Listing.indent d ++ t.markup)
          (Listing.tokenLines 0 marks) consumed) ∧
      (r.fault = none → r.state.rest = [] ∧
        ∃ cd : ClassDecl, tokens.map Token.lexeme = cd.spelling ∧
          (∀ cd' : ClassDecl, tokens.map Token.lexeme = cd'.spelling → cd' = cd) ∧
          Listing.render marks = cd.derivation.render ∧
          Listing.openTags [] marks = some [] ∧ (marks.map Mark.shift).sum = 0) := by
  intro r
  let setting : Setting := { Token.Setting.ofTokens file lines tokens with strict := o.strict }
  let start : State :=
    { rest := tokens, known := o.knownClasses, recorded := if o.listTree then some [] else none }
  let l : Location := ⟨file, 1, 1⟩
  have hsound : start.Sound := ⟨hvalid, Int.le_refl 0⟩
  have hstart : start.marks = some [] := by simp [start, State.marks, hlist]
  obtain ⟨ms, hmarks, hrest, hwrites⟩ :=
    run_records (l := l) (c := setting) Goal.wholeClass start hsound
  rw [hstart] at hmarks
  refine ⟨ms, hmarks, ⟨Listing.tokens ms, hrest, Listing.tokenLines_eq 0 ms⟩, fun hfault => ?_⟩
  have hend : r.state.rest = [] := compileTokens_rest hvalid hfault
  obtain ⟨cd, hcd⟩ := writesAll_wholeClass (hwrites hfault)
  obtain ⟨hlexemes, hrender, hnest⟩ := listing_of_derivation hcd
  have hspells : tokens.map Token.lexeme = cd.spelling := by
    have htokens : tokens = Listing.tokens ms ++ r.state.rest := hrest
    rw [htokens, hend, List.append_nil, hlexemes]
  refine ⟨hend, cd, hspells, fun cd' h => ?_, hrender, hnest, ?_⟩
  · exact ClassDecl.spelling_injective (h.symm.trans hspells)
  · have hdepth := Listing.sum_shift_of_openTags hnest
    simpa using hdepth

/-- A call that is performed stands in its statement without an element of its own, and has its
list of arguments even if that is empty. -/
example : (Statement.perform (.unqualified "draw" .nil)).derivation.lines =
    ["<doStatement>", "  <keyword> do </keyword>", "  <identifier> draw </identifier>",
      "  <symbol> ( </symbol>", "  <expressionList>", "  </expressionList>",
      "  <symbol> ) </symbol>", "  <symbol> ; </symbol>", "</doStatement>"] := by
  decide

theorem counter_listing :
    ∃ marks, (compileTokens { strict := true, listTree := true } "Counter.jack" []
        (tokensAt ⟨"Counter.jack", 1, 1⟩ counter.spelling)).state.marks = some marks ∧
      Listing.render marks = counter.derivation.render := by
  obtain ⟨marks, hmarks, -, hsuccess⟩ := compileTokens_listing
    { strict := true, listTree := true } rfl "Counter.jack" []
    (tokensAt ⟨"Counter.jack", 1, 1⟩ counter.spelling) (by decide)
  have hfault : (compileTokens { strict := true, listTree := true } "Counter.jack" []
      (tokensAt ⟨"Counter.jack", 1, 1⟩ counter.spelling)).fault = none :=
    ((compileTokens_iff { strict := true, listTree := true } "Counter.jack" [] (by decide)).mpr
      ⟨counter, by decide, counter_obeys [], rfl⟩).1
  obtain ⟨-, cd, -, hunique, hrender, -⟩ := hsuccess hfault
  obtain rfl := hunique counter (by decide)
  exact ⟨marks, hmarks, hrender⟩

end Jack.Compile
