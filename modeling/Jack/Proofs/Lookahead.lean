import Jack.Proofs.Phrases

/-!
# Lookahead

One lexeme is enough to choose the move. If the lexemes ahead spell the phrases that are due, the
first phrase does not refuse the lexeme in view, and behind its move the lexemes that are left
spell what is due then (`Yields.advances`).

That an optional phrase is absent shows only in the lexeme behind it, so it matters which lexemes
can stand there. `allows` lists them, and `Spans` is the way to spell phrases that keeps to the
lists: within a class the lists are kept of themselves (`spans_class`).

`Moves` chains moves. A chain depends on the lexemes that it reads and on the one in view at its
end, and on nothing behind that one.
-/

namespace Jack.Syntax

open Compile (SubroutineKind)
open Compile.Goal (openBrace closeBrace)

namespace Phrase

/-! ## What stands behind a phrase -/

def words (ws : List String) : List (Option Lexeme) := ws.map fun w => some (.word w)

/-- Whether a lexeme can stand behind a phrase. It is asked only of phrases with an optional end;
the others end with a lexeme of their own. -/
def allows (l : Option Lexeme) : Phrase → Bool
  | classVars => (words (closeBrace :: SubroutineKind.all.map SubroutineKind.name)).contains l
  | subroutines | statements => (words [closeBrace]).contains l
  | moreNames | returnValue => (words [";"]).contains l
  | parameters | moreParameters => (words [")"]).contains l
  | localVars | elsePart => (words (closeBrace :: statementWords)).contains l
  | expression | operators => (words closers).contains l
  | term | nameTail => (words (operatorSigns ++ closers)).contains l
  | finish => l = none
  | _ => true

/-- The lexemes from `ls` up to `ks` spell the phrases, each one with a lexeme behind it that can
stand there. -/
def Spans : List Phrase → List Lexeme → List Lexeme → Prop
  | [], ls, ks => ls = ks
  | p :: ps, ls, ks =>
    ∃ l m, ls = l ++ m ∧ p.Yields l ∧ allows m.head? p = true ∧ Spans ps m ks

theorem Spans.append {ps qs : List Phrase} {ls ms ks : List Lexeme} (h : Spans ps ls ms)
    (h' : Spans qs ms ks) : Spans (ps ++ qs) ls ks := by
  induction ps generalizing ls with
  | nil =>
      obtain rfl : ls = ms := h
      exact h'
  | cons p ps ih =>
      obtain ⟨l, m, rfl, hp, hallows, hps⟩ := h
      exact ⟨l, m, rfl, hp, hallows, ih hps⟩

theorem Spans.refl (ls : List Lexeme) : Spans [] ls ls := rfl

theorem Spans.cons {p : Phrase} {ps : List Phrase} {l ls ks : List Lexeme} (hp : p.Yields l)
    (hallows : allows ls.head? p = true) (h : Spans ps ls ks) : Spans (p :: ps) (l ++ ls) ks :=
  ⟨l, ls, rfl, hp, hallows, h⟩

/-- A phrase that ends with a lexeme of its own, here its only one. -/
theorem Spans.lexeme {p : Phrase} {ps : List Phrase} {x : Lexeme} {ls ks : List Lexeme}
    (hp : p.Yields [x]) (hallows : ∀ l, allows l p = true) (h : Spans ps ls ks) :
    Spans (p :: ps) (x :: ls) ks :=
  ⟨[x], ls, rfl, hp, hallows _, h⟩

theorem Spans.word {w : String} {ps : List Phrase} {ls ks : List Lexeme} (h : Spans ps ls ks) :
    Spans (.word w :: ps) (.word w :: ls) ks :=
  .lexeme rfl (fun _ => rfl) h

theorem Spans.name {x : String} {ps : List Phrase} {ls ks : List Lexeme} (h : Spans ps ls ks) :
    Spans (.name :: ps) (.name x :: ls) ks :=
  .lexeme ⟨x, rfl⟩ (fun _ => rfl) h

/-- An expression and the sign that closes it. -/
theorem Spans.expression {w : String} (hw : w ∈ closers) (e : Expression) {ps : List Phrase}
    {ls ks : List Lexeme} (h : Spans ps ls ks) :
    Spans (.expression :: .word w :: ps) (e.spelling ++ .word w :: ls) ks := by
  have hallows : ∀ x ∈ closers, allows (some (.word x)) .expression = true := by decide
  exact .cons ⟨e, rfl⟩ (hallows w hw) (.word h)

/-! ## The move of a phrase -/

/-- The move of the phrase on `ls` is not a refusal, and the lexemes up to `ks` spell what is due
behind it. -/
def Advances (p : Phrase) (ls ks : List Lexeme) : Prop :=
  match predict ls.head? p with
  | .read next => ∃ x k, ls = x :: k ∧ Spans next k ks
  | .become next => Spans next ls ks
  | .refuse => False

theorem Advances.read {p : Phrase} (next : List Phrase) {x : Lexeme} {ls ks : List Lexeme}
    (hp : predict (some x) p = .read next) (h : Spans next ls ks) : p.Advances (x :: ls) ks := by
  simp only [Advances, List.head?_cons, hp]
  exact ⟨x, ls, rfl, h⟩

theorem Advances.become {p : Phrase} (next : List Phrase) {ls ks : List Lexeme}
    (hp : predict ls.head? p = .become next) (h : Spans next ls ks) : p.Advances ls ks := by
  simp only [Advances, hp]
  exact h

/-- The phrases that may have no lexemes. -/
def optional : List Phrase :=
  [classVars, moreNames, subroutines, parameters, moreParameters, localVars, statements, elsePart,
    returnValue, operators, nameTail, finish]

/-- A lexeme that can stand behind an optional phrase is no part of it. -/
theorem predict_of_allows {l : Option Lexeme} {p : Phrase} (hp : p ∈ optional)
    (h : allows l p = true) : predict l p = .become [] := by
  have hlisted : ∀ {ls : List (Option Lexeme)}, ls.contains l = true →
      (∀ k ∈ ls, predict k p = .become []) → predict l p = .become [] :=
    fun hl hall => hall l (List.contains_iff_mem.mp hl)
  cases p with
  | finish => exact if_pos (of_decide_eq_true h)
  | word | name | type | returnType | assignTail | expression | term | callTail | arguments
  | moreArguments => simp [optional] at hp
  | _ => exact hlisted h (by decide)

theorem Advances.nothing {p : Phrase} (hp : p ∈ optional) {ks : List Lexeme}
    (h : allows ks.head? p = true) : p.Advances ks ks :=
  .become [] (predict_of_allows hp h) (.refl ks)

variable {ks : List Lexeme}

/-! ## Declarations -/

theorem advances_type (t : TypeName) : type.Advances (t.lexeme :: ks) ks := by
  refine .read [] ?_ (.refl ks)
  cases t <;> rfl

theorem advances_returnType (t : Option TypeName) :
    returnType.Advances (returnLexeme t :: ks) ks := by
  refine .read [] ?_ (.refl ks)
  cases t with
  | none => rfl
  | some t => cases t <;> rfl

theorem advances_moreNames (xs : List String) (hk : allows ks.head? moreNames = true) :
    moreNames.Advances (Syntax.moreNames xs ++ ks) ks := by
  cases xs with
  | nil => exact .nothing (by decide) hk
  | cons x xs => exact .read [name, moreNames] (by decide) (.name (.cons ⟨xs, rfl⟩ hk (.refl ks)))

theorem spans_declaration (d : VarDec) {ps : List Phrase} {ls : List Lexeme}
    (h : Spans ps ls ks) :
    Spans (declaration ++ .word ";" :: ps) (d.spelling ++ ls) ks := by
  simp only [VarDec.spelling, VarDec.phrase, List.cons_append, List.append_assoc, List.nil_append]
  exact .lexeme ⟨d.type, rfl⟩ (fun _ => rfl) (.name (.cons ⟨d.more, rfl⟩ rfl (.word h)))

theorem advances_classVars (ds : List ClassVarDec) (hk : allows ks.head? classVars = true) :
    classVars.Advances (ds.flatMap ClassVarDec.spelling ++ ks) ks := by
  cases ds with
  | nil => exact .nothing (by decide) hk
  | cons d ds =>
      simp only [List.flatMap_cons, ClassVarDec.spelling, List.cons_append, List.append_assoc]
      have hread : predict (some (.word d.kind.word)) classVars =
          .read (declaration ++ [.word ";", classVars]) := by
        cases d.kind <;> decide
      exact .read _ hread (spans_declaration d.dec (.cons ⟨ds, rfl⟩ hk (.refl ks)))

theorem advances_localVars (ds : List VarDec) (hk : allows ks.head? localVars = true) :
    localVars.Advances (localsSpelling ds ++ ks) ks := by
  cases ds with
  | nil => exact .nothing (by decide) hk
  | cons d ds =>
      simp only [localsSpelling, List.flatMap_cons, List.cons_append, List.append_assoc]
      exact .read (declaration ++ [.word ";", localVars]) (by decide)
        (spans_declaration d (.cons ⟨ds, rfl⟩ hk (.refl ks)))

theorem advances_parameters (ps : List Variable) (hk : allows ks.head? parameters = true) :
    parameters.Advances (parametersSpelling ps ++ ks) ks := by
  cases ps with
  | nil => exact .nothing (by decide) hk
  | cons p ps =>
      simp only [parametersSpelling, Variable.spelling, List.cons_append, List.nil_append]
      refine .become [type, name, moreParameters] (onWords_of_ne ?_)
        (.lexeme ⟨p.type, rfl⟩ (fun _ => rfl) (.name (.cons ⟨ps, rfl⟩ hk (.refl ks))))
      intro e he heq
      obtain rfl := List.mem_singleton.mp he
      exact Compile.type_ne_close p.type (Option.some.inj heq)

theorem advances_moreParameters (ps : List Variable) (hk : allows ks.head? moreParameters = true) :
    moreParameters.Advances (Syntax.moreParameters ps ++ ks) ks := by
  cases ps with
  | nil => exact .nothing (by decide) hk
  | cons p ps =>
      have hspans : Spans [type, name, moreParameters]
          (p.type.lexeme :: .name p.name :: (Syntax.moreParameters ps ++ ks)) ks :=
        .lexeme ⟨p.type, rfl⟩ (fun _ => rfl) (.name (.cons ⟨ps, rfl⟩ hk (.refl ks)))
      simp only [Syntax.moreParameters, List.flatMap_cons, Variable.spelling, List.cons_append,
        List.nil_append]
      exact .read [type, name, moreParameters] (by decide) hspans

/-- Behind a statement, or behind local variables, stands a statement or the end of the block. -/
theorem contains_statement (b : Block) (hk : allows ks.head? statements = true) :
    (words (closeBrace :: statementWords)).contains (b.spelling ++ ks).head? = true := by
  cases b with
  | nil =>
      have hall : ∀ l ∈ words [closeBrace],
          (words (closeBrace :: statementWords)).contains l = true := by decide
      exact hall _ (List.contains_iff_mem.mp hk)
  | cons s b =>
      obtain ⟨w, hw, ls, hs⟩ := statement_starts s
      have hall : ∀ x ∈ statementWords,
          (words (closeBrace :: statementWords)).contains (some (.word x)) = true := by decide
      simp only [Block.spelling, hs, List.cons_append, List.head?_cons]
      exact hall w hw

theorem advances_subroutines (ss : List Subroutine) (hk : allows ks.head? subroutines = true) :
    subroutines.Advances (ss.flatMap Subroutine.spelling ++ ks) ks := by
  cases ss with
  | nil => exact .nothing (by decide) hk
  | cons s ss =>
      simp only [List.flatMap_cons, Subroutine.spelling, List.cons_append, List.append_assoc,
        List.nil_append]
      have hread : predict (some (.word s.kind.name)) subroutines =
          .read (subroutine ++ [subroutines]) := by
        cases s.kind <;> decide
      refine .read _ hread (.lexeme ⟨s.returnType, rfl⟩ (fun _ => rfl) (.name (.word ?_)))
      refine .cons ⟨s.parameters, rfl⟩ rfl (.word (.word ?_))
      refine .cons ⟨s.locals, rfl⟩ (contains_statement s.body rfl) ?_
      exact .cons ⟨s.body, rfl⟩ rfl (.word (.cons ⟨ss, rfl⟩ hk (.refl ks)))

/-! ## Statements -/

theorem advances_assignTail {ls : List Lexeme} (h : AssignTail ls) :
    assignTail.Advances (ls ++ ks) ks := by
  rcases h with ⟨e, rfl⟩ | ⟨i, e, rfl⟩
  · have hspans : Spans [.word "=", expression, .word ";"] _ ks :=
      .word (.expression (by decide) e (.refl ks))
    exact .become [.word "=", expression, .word ";"] rfl (by simpa using hspans)
  · have hspans : Spans [expression, .word "]", .word "=", expression, .word ";"] _ ks :=
      .expression (by decide) i (.word (.expression (by decide) e (.refl ks)))
    exact .read [expression, .word "]", .word "=", expression, .word ";"] (by decide)
      (by simpa using hspans)

theorem spans_block (b : Block) {ps : List Phrase} {ls : List Lexeme} (h : Spans ps ls ks) :
    Spans (block ++ ps) (.word openBrace :: b.spelling ++ .word closeBrace :: ls) ks :=
  .word (.cons ⟨b, rfl⟩ rfl (.word h))

theorem spans_condition (e : Expression) {ps : List Phrase} {ls : List Lexeme}
    (h : Spans ps ls ks) :
    Spans (condition ++ ps) (.word "(" :: e.spelling ++ .word ")" :: ls) ks :=
  .word (.expression (by decide) e h)

theorem spans_call (c : Call) {ps : List Phrase} {ls : List Lexeme} (h : Spans ps ls ks) :
    Spans (name :: callTail :: ps) (c.spelling ++ ls) ks := by
  cases c with
  | unqualified x a =>
      have htail : CallTail _ := .inl ⟨a, rfl⟩
      have hspans : Spans (callTail :: ps) _ ks := .cons htail rfl h
      exact .name (by simpa using hspans)
  | qualified q x a =>
      have htail : CallTail _ := .inr ⟨x, a, rfl⟩
      have hspans : Spans (callTail :: ps) _ ks := .cons htail rfl h
      exact .name (by simpa using hspans)

theorem advances_statements (b : Block) (hk : allows ks.head? statements = true) :
    statements.Advances (b.spelling ++ ks) ks := by
  cases b with
  | nil => exact .nothing (by decide) hk
  | cons s b =>
      have hrest : Spans [statements] (b.spelling ++ ks) ks := .cons ⟨b, rfl⟩ hk (.refl ks)
      simp only [Block.spelling, List.append_assoc]
      cases s with
      | assign x e =>
          have htail : AssignTail _ := .inl ⟨e, rfl⟩
          have hspans : Spans [assignTail, statements] _ ks := .cons htail rfl hrest
          exact .read [name, assignTail, statements] (by decide)
            (.name (by simpa using hspans))
      | assignElement x i e =>
          have htail : AssignTail _ := .inr ⟨i, e, rfl⟩
          have hspans : Spans [assignTail, statements] _ ks := .cons htail rfl hrest
          exact .read [name, assignTail, statements] (by decide)
            (.name (by simpa using hspans))
      | conditional e c a =>
          have helse : Spans [elsePart, statements] (a.spelling ++ (b.spelling ++ ks)) ks :=
            .cons ⟨a, rfl⟩ (contains_statement b hk) hrest
          simp only [Statement.spelling, List.cons_append, List.append_assoc]
          exact .read (condition ++ block ++ [elsePart, statements]) (by decide)
            (spans_condition e (spans_block c helse))
      | loop e c =>
          simp only [Statement.spelling, List.cons_append, List.append_assoc, List.nil_append]
          exact .read (condition ++ block ++ [statements]) (by decide)
            (spans_condition e (spans_block c hrest))
      | perform c =>
          simp only [Statement.spelling, List.cons_append, List.append_assoc, List.nil_append]
          exact .read [name, callTail, .word ";", statements] (by decide)
            (spans_call c (.word hrest))
      | yield value =>
          cases value with
          | none =>
              have hspans : Spans [returnValue, .word ";", statements] _ ks :=
                .cons (l := []) (Or.inl rfl) rfl (.word hrest)
              exact .read [returnValue, .word ";", statements] (by decide) hspans
          | some e =>
              have hspans : Spans [returnValue, .word ";", statements] _ ks :=
                .cons (Or.inr ⟨e, rfl⟩) rfl (.word hrest)
              exact .read [returnValue, .word ";", statements] (by decide) (by simpa using hspans)

/-! ## Expressions -/

/-- Behind a term stands an operator or whatever can stand behind the expression. -/
theorem allows_term (o : Operations) (hk : allows ks.head? operators = true) :
    allows (o.spelling ++ ks).head? term = true := by
  cases o with
  | nil =>
      have hall : ∀ l ∈ words closers, allows l term = true := by decide
      exact hall _ (List.contains_iff_mem.mp hk)
  | cons op t o => cases op <;> rfl

theorem advances_operators (o : Operations) (hk : allows ks.head? operators = true) :
    operators.Advances (o.spelling ++ ks) ks := by
  cases o with
  | nil => exact .nothing (by decide) hk
  | cons op t o =>
      simp only [Operations.spelling, List.cons_append, List.append_assoc]
      refine .read [term, operators] (by cases op <;> decide) ?_
      exact .cons ⟨t, rfl⟩ (allows_term o hk) (.cons ⟨o, rfl⟩ hk (.refl ks))

theorem advances_term (t : Term) (hk : allows ks.head? term = true) :
    term.Advances (t.spelling ++ ks) ks := by
  cases t with
  | integer digits => exact .read [] rfl (.refl ks)
  | string text => exact .read [] rfl (.refl ks)
  | constant k => exact .read [] (by cases k <;> decide) (.refl ks)
  | this => exact .read [] (by decide) (.refl ks)
  | unary op t => exact .read [term] (by cases op <;> decide) (.cons ⟨t, rfl⟩ hk (.refl ks))
  | parens e =>
      have hspans : Spans [expression, .word ")"] _ ks := .expression (by decide) e (.refl ks)
      exact .read [expression, .word ")"] (by decide) (by simpa using hspans)
  | var x => exact .read [nameTail] rfl (.cons (Or.inl rfl) hk (.refl ks))
  | element x e =>
      have htail : nameTail.Yields _ := .inr (.inl ⟨e, rfl⟩)
      exact .read [nameTail] rfl (.cons htail hk (.refl ks))
  | call c =>
      cases c with
      | unqualified x a =>
          have htail : nameTail.Yields _ := .inr (.inr (.inl ⟨a, rfl⟩))
          exact .read [nameTail] rfl (.cons htail hk (.refl ks))
      | qualified q x a =>
          have htail : nameTail.Yields _ := .inr (.inr (.inr ⟨x, a, rfl⟩))
          exact .read [nameTail] rfl (.cons htail hk (.refl ks))

theorem advances_nameTail {ls : List Lexeme} (h : nameTail.Yields ls)
    (hk : allows ks.head? nameTail = true) : nameTail.Advances (ls ++ ks) ks := by
  rcases h with rfl | ⟨e, rfl⟩ | hcall
  · exact .nothing (by decide) hk
  · have hspans : Spans [expression, .word "]"] _ ks := .expression (by decide) e (.refl ks)
    exact .read [expression, .word "]"] (by decide) (by simpa using hspans)
  · have hspans : Spans [callTail] (ls ++ ks) ks := .cons hcall rfl (.refl ks)
    refine .become [callTail] ?_ hspans
    rcases hcall with ⟨a, rfl⟩ | ⟨x, a, rfl⟩ <;> rfl

theorem advances_callTail {ls : List Lexeme} (h : CallTail ls) :
    callTail.Advances (ls ++ ks) ks := by
  rcases h with ⟨a, rfl⟩ | ⟨x, a, rfl⟩
  · exact .read [arguments] (by decide) (.cons ⟨a, rfl⟩ rfl (.refl ks))
  · have hspans : Spans [arguments] _ ks := .cons ⟨a, rfl⟩ rfl (.refl ks)
    exact .read [name, .word "(", arguments] (by decide) (.name (.word (by simpa using hspans)))

/-- An expression starts with neither of the signs that tell of its absence. -/
theorem predict_before_expression {p : Phrase} {w : String} {move otherwise : Move}
    (hp : ∀ l, predict l p = onWords [(w, move)] otherwise l) (hw : w = ")" ∨ w = ";")
    (e : Expression) (ls : List Lexeme) :
    predict (e.spelling ++ ls).head? p = otherwise := by
  obtain ⟨l, k, he, hclose, hend⟩ := Compile.expression_starts e
  rw [hp, he, List.cons_append, List.head?_cons]
  refine onWords_of_ne fun entry hentry heq => ?_
  obtain rfl := List.mem_singleton.mp hentry
  rcases hw with rfl | rfl
  · exact hclose (Option.some.inj heq)
  · exact hend (Option.some.inj heq)

/-- Arguments up to the closing parenthesis. -/
theorem spans_arguments (e : Expression) (a : Arguments) :
    Spans [expression, moreArguments]
      (e.spelling ++ (a.moreSpelling ++ [Lexeme.word ")"] ++ ks)) ks := by
  refine .cons ⟨e, rfl⟩ ?_ (.cons ⟨a, rfl⟩ rfl (.refl ks))
  cases a <;> rfl

theorem advances_arguments (a : Arguments) :
    arguments.Advances (a.spelling ++ [Lexeme.word ")"] ++ ks) ks := by
  cases a with
  | nil => exact .become [.word ")"] rfl (.word (.refl ks))
  | cons e a =>
      simp only [Arguments.spelling, List.append_assoc]
      refine .become [expression, moreArguments] ?_ (by simpa using spans_arguments e a)
      exact predict_before_expression (fun _ => rfl) (.inl rfl) e _

theorem advances_moreArguments (a : Arguments) :
    moreArguments.Advances (a.moreSpelling ++ [Lexeme.word ")"] ++ ks) ks := by
  cases a with
  | nil => exact .become [.word ")"] rfl (.word (.refl ks))
  | cons e a =>
      exact .read [expression, moreArguments] (by decide)
        (by simpa using spans_arguments e a)

/-! ## Every phrase -/

/-- If the lexemes ahead spell a phrase and go on with one that can stand behind it, the phrase
makes a move, and they spell what is due behind the move. -/
theorem Yields.advances {p : Phrase} {ls : List Lexeme} (h : p.Yields ls)
    (hk : allows ks.head? p = true) : p.Advances (ls ++ ks) ks := by
  cases p with
  | word w =>
      obtain rfl : ls = [.word w] := h
      exact .read [] (by simp [predict, onWords]) (.refl ks)
  | name =>
      obtain ⟨x, rfl⟩ := h
      exact .read [] rfl (.refl ks)
  | type =>
      obtain ⟨t, rfl⟩ := h
      exact advances_type t
  | returnType =>
      obtain ⟨t, rfl⟩ := h
      exact advances_returnType t
  | classVars =>
      obtain ⟨ds, rfl⟩ := h
      exact advances_classVars ds hk
  | moreNames =>
      obtain ⟨xs, rfl⟩ := h
      exact advances_moreNames xs hk
  | subroutines =>
      obtain ⟨ss, rfl⟩ := h
      exact advances_subroutines ss hk
  | parameters =>
      obtain ⟨ps, rfl⟩ := h
      exact advances_parameters ps hk
  | moreParameters =>
      obtain ⟨ps, rfl⟩ := h
      exact advances_moreParameters ps hk
  | localVars =>
      obtain ⟨ds, rfl⟩ := h
      exact advances_localVars ds hk
  | statements =>
      obtain ⟨b, rfl⟩ := h
      exact advances_statements b hk
  | assignTail => exact advances_assignTail h
  | elsePart =>
      obtain ⟨a, rfl⟩ := h
      cases a with
      | absent => exact .nothing (by decide) hk
      | present b =>
          have hspans : Spans block _ ks := spans_block b (.refl ks)
          exact .read block (by decide) (by simpa using hspans)
  | returnValue =>
      rcases h with rfl | ⟨e, rfl⟩
      · exact .nothing (by decide) hk
      · refine .become [expression] ?_ (.cons ⟨e, rfl⟩ ?_ (.refl ks))
        · exact predict_before_expression (fun _ => rfl) (.inr rfl) e _
        · have hall : ∀ l ∈ words [";"], allows l expression = true := by decide
          exact hall _ (List.contains_iff_mem.mp hk)
  | expression =>
      obtain ⟨⟨t, o⟩, rfl⟩ := h
      simp only [Expression.spelling, List.append_assoc]
      exact .become [term, operators] rfl
        (.cons ⟨t, rfl⟩ (allows_term o hk) (.cons ⟨o, rfl⟩ hk (.refl ks)))
  | term =>
      obtain ⟨t, rfl⟩ := h
      exact advances_term t hk
  | operators =>
      obtain ⟨o, rfl⟩ := h
      exact advances_operators o hk
  | nameTail => exact advances_nameTail h hk
  | callTail => exact advances_callTail h
  | arguments =>
      obtain ⟨a, rfl⟩ := h
      exact advances_arguments a
  | moreArguments =>
      obtain ⟨a, rfl⟩ := h
      exact advances_moreArguments a
  | finish =>
      obtain rfl : ls = [] := h
      exact .nothing (by decide) hk

/-! ## Chains of moves -/

/-- From the phrases `ps` to `qs` while the lexemes `front` are read, with `l` in view at the
end. -/
inductive Moves (l : Option Lexeme) : List Phrase → List Lexeme → List Phrase → Prop where
  | refl (ps : List Phrase) : Moves l ps [] ps
  | read {p : Phrase} {next ps qs : List Phrase} {x : Lexeme} {front : List Lexeme}
    (h : predict (some x) p = .read next) (rest : Moves l (next ++ ps) front qs) :
    Moves l (p :: ps) (x :: front) qs
  | become {p : Phrase} {next ps qs : List Phrase} {front : List Lexeme}
    (h : predict (front.head?.or l) p = .become next) (rest : Moves l (next ++ ps) front qs) :
    Moves l (p :: ps) front qs

namespace Moves

variable {l : Option Lexeme} {ps qs rs : List Phrase} {front more : List Lexeme}

theorem trans (h : Moves (more.head?.or l) ps front qs) (h' : Moves l qs more rs) :
    Moves l ps (front ++ more) rs := by
  induction h with
  | refl => exact h'
  | read h _ ih => exact .read h (ih h')
  | become h _ ih => exact .become (by rwa [List.head?_append, Option.or_assoc]) (ih h')

/-- Further phrases that are due stay as they are. -/
theorem append (h : Moves l ps front qs) (rs : List Phrase) :
    Moves l (ps ++ rs) front (qs ++ rs) := by
  induction h with
  | refl => exact .refl _
  | read h _ ih => exact .read h (by rwa [List.append_assoc] at ih)
  | become h _ ih => exact .become h (by rwa [List.append_assoc] at ih)

theorem sayable (h : Moves l ps front qs) (hps : ps.all Phrase.sayable = true) :
    qs.all Phrase.sayable = true := by
  induction h with
  | refl => exact hps
  | @read p next ps qs x front h rest ih =>
      have hnext := predict_sayable (some x) p
      rw [h] at hnext
      rw [List.all_cons, Bool.and_eq_true] at hps
      exact ih (by rw [List.all_append, hps.2, Bool.and_true]; exact hnext)
  | @become p next ps qs front h rest ih =>
      have hnext := predict_sayable (front.head?.or l) p
      rw [h] at hnext
      rw [List.all_cons, Bool.and_eq_true] at hps
      exact ih (by rw [List.all_append, hps.2, Bool.and_true]; exact hnext)

/-- What can be spelled at the end of a chain completes what the chain has read. -/
theorem yieldsAll (h : Moves l ps front qs) {ls : List Lexeme} (hls : YieldsAll qs ls) :
    YieldsAll ps (front ++ ls) := by
  induction h with
  | refl => exact hls
  | @read p next ps qs x front h rest ih =>
      obtain ⟨k, m, hk, hnext, hps⟩ := yieldsAll_append.mp (ih hls)
      refine ⟨x :: k, m, by rw [List.cons_append, hk, List.cons_append], ?_, hps⟩
      refine predict_yields (l := some x) p ?_
      rw [h]
      exact ⟨k, rfl, hnext⟩
  | @become p next ps qs front h rest ih =>
      obtain ⟨k, m, hk, hnext, hps⟩ := yieldsAll_append.mp (ih hls)
      refine ⟨k, m, hk, ?_, hps⟩
      refine predict_yields (l := front.head?.or l) p ?_
      rw [h]
      exact hnext

/-- A chain that starts in front of a spelling ends in front of one. -/
theorem spans (h : Moves l ps front qs) {ls ks : List Lexeme} (hl : ls.head? = l)
    (hspans : Spans ps (front ++ ls) ks) : Spans qs ls ks := by
  -- The lexeme in view at a move is the first of those still to be read, or `l` if there is none.
  induction h with
  | refl => exact hspans
  | @read p next ps qs x front h rest ih =>
      obtain ⟨k, m, hk, hp, hallows, hps⟩ := hspans
      have hadvances := hp.advances hallows
      rw [← hk] at hadvances
      simp only [Advances, List.cons_append, List.head?_cons, h] at hadvances
      obtain ⟨y, j, heq, hnext⟩ := hadvances
      obtain ⟨rfl, rfl⟩ := List.cons.inj heq
      exact ih (hnext.append hps)
  | @become p next ps qs front h rest ih =>
      obtain ⟨k, m, hk, hp, hallows, hps⟩ := hspans
      have hadvances := hp.advances hallows
      rw [← hk] at hadvances
      simp only [Advances, List.head?_append, hl, h] at hadvances
      exact ih (hadvances.append hps)

/-- What a chain has read can be completed. -/
theorem completable (h : Moves l ps front qs) (hps : ps.all Phrase.sayable = true) :
    ∃ ls, Valid ls ∧ YieldsAll ps (front ++ ls) := by
  have hfiller : ∀ rs : List Phrase, rs.all Phrase.sayable = true →
      Valid (rs.flatMap filler) ∧ YieldsAll rs (rs.flatMap filler) := by
    intro rs hrs
    induction rs with
    | nil => exact ⟨valid_nil, rfl⟩
    | cons r rs ih =>
        rw [List.all_cons, Bool.and_eq_true] at hrs
        obtain ⟨hvalid, hyields⟩ := ih hrs.2
        exact ⟨valid_append.mpr ⟨filler_valid hrs.1, hvalid⟩, _, _, rfl, filler_yields r, hyields⟩
  -- The shortest spelling of all that is due at the end will do.
  obtain ⟨hvalid, hyields⟩ := hfiller qs (h.sayable hps)
  exact ⟨_, hvalid, h.yieldsAll hyields⟩

/-- Where a chain ends in a refusal, the lexeme in view has no place. -/
theorem not_spans {q : Phrase} (h : Moves l ps front (q :: qs)) (hq : predict l q = .refuse)
    (ls ks : List Lexeme) (hl : ls.head? = l) : ¬Spans ps (front ++ ls) ks := by
  intro hspans
  obtain ⟨k, m, rfl, hp, hallows, -⟩ := h.spans hl hspans
  have hadvances := hp.advances hallows
  simp only [Advances, hl, hq] at hadvances

end Moves

/-! ## The phrases of a class -/

/-- A class and nothing behind it. -/
def wholeClass : List Phrase :=
  [.word "class", name, .word openBrace, classVars, subroutines, .word closeBrace, finish]

theorem yieldsAll_class {ls : List Lexeme} (h : YieldsAll wholeClass ls) :
    ∃ cd : ClassDecl, ls = cd.spelling := by
  obtain ⟨_, _, rfl, rfl, _, _, rfl, ⟨x, rfl⟩, _, _, rfl, rfl, _, _, rfl, ⟨ds, rfl⟩, _, _, rfl,
    ⟨ss, rfl⟩, _, _, rfl, rfl, _, _, rfl, rfl, rfl⟩ := h
  exact ⟨⟨x, ds, ss⟩, by simp [ClassDecl.spelling]⟩

theorem allows_classVars (ss : List Subroutine) (ls : List Lexeme) :
    allows (ss.flatMap Subroutine.spelling ++ .word closeBrace :: ls).head? classVars = true := by
  cases ss with
  | nil => rfl
  | cons s ss =>
      have hall : ∀ k : SubroutineKind, allows (some (.word k.name)) classVars = true := by
        intro k
        cases k <;> rfl
      exact hall s.kind

theorem spans_class (cd : ClassDecl) : Spans wholeClass cd.spelling [] := by
  simp only [ClassDecl.spelling, List.cons_append, List.append_assoc]
  refine .word (.name (.word ?_))
  refine .cons ⟨cd.vars, rfl⟩ (allows_classVars cd.subroutines []) ?_
  refine .cons ⟨cd.subroutines, rfl⟩ rfl (.word ?_)
  exact ⟨[], [], rfl, rfl, rfl, rfl⟩

end Phrase

end Jack.Syntax
