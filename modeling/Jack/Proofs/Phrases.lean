import Jack.Proofs.Statements
import Jack.Proofs.Writable

/-!
# Phrases

The grammar of a class as it looks from inside a derivation: some phrases are still due, and one
lexeme is in view. `predict` is the table that tells what a phrase does with that lexeme: it reads
the lexeme and other phrases take its place, or they take its place at once, or it refuses the
lexeme.

The table never leaves the grammar: if what is due behind a move can be spelled, so can the phrase
that made it (`predict_yields`), whatever the lexeme in view was. And nothing that is due is out of
reach: every phrase has a spelling (`filler_yields`) of lexemes that a source can hold
(`filler_valid`). So whatever has been read by such moves can be completed.
-/

namespace Jack.Syntax

open Compile (SubroutineKind)
open Compile.Goal (openBrace closeBrace)

/-- Something that the lexemes still have to spell. -/
inductive Phrase where
  | word (w : String)
  | name
  | type
  | returnType
  | classVars
  | moreNames
  | subroutines
  | parameters
  | moreParameters
  | localVars
  | statements
  /-- An assignment behind the name of its target. -/
  | assignTail
  | elsePart
  | returnValue
  | expression
  | term
  | operators
  /-- A term behind the name that it starts with. -/
  | nameTail
  /-- A call behind its first name. -/
  | callTail
  /-- Arguments up to the closing parenthesis, which belongs to them. -/
  | arguments
  | moreArguments
  /-- The end of the input. -/
  | finish
  deriving Repr, DecidableEq

/-- What a phrase does with the lexeme in view. -/
inductive Move where
  | read (next : List Phrase)
  | become (next : List Phrase)
  | refuse
  deriving Repr, DecidableEq

namespace Phrase

/-! ## The table -/

/-- The move of the word in view, if the table has it. -/
def onWords (table : List (String × Move)) (otherwise : Move) (l : Option Lexeme) : Move :=
  match table.find? fun e => l = some (.word e.1) with
  | some e => e.2
  | none => otherwise

/-- The move of a name in view. -/
def onName (move otherwise : Move) (l : Option Lexeme) : Move :=
  if l.map Lexeme.kind = some .identifier then move else otherwise

/-- The move of a type in view. -/
def onType (keywords : List String) (l : Option Lexeme) : Move :=
  onName (.read []) (onWords (keywords.map (·, .read [])) .refuse l) l

def block : List Phrase := [word openBrace, statements, word closeBrace]

def condition : List Phrase := [word "(", expression, word ")"]

def declaration : List Phrase := [type, name, moreNames]

/-- A subroutine behind its keyword, up to its closing brace. -/
def subroutine : List Phrase :=
  [returnType, name, word "(", parameters, word ")", word openBrace, localVars, statements,
    word closeBrace]

def statementMoves : List (String × Move) :=
  [("let", .read [name, assignTail, statements]),
    ("if", .read (condition ++ block ++ [elsePart, statements])),
    ("while", .read (condition ++ block ++ [statements])),
    ("do", .read [name, callTail, word ";", statements]),
    ("return", .read [returnValue, word ";", statements])]

def termMoves : List (String × Move) :=
  [("true", .read []), ("false", .read []), ("null", .read []), ("this", .read []),
    ("-", .read [term]), ("~", .read [term]), ("(", .read [expression, word ")"])]

/-- What a phrase does with the lexeme in view. -/
def predict (l : Option Lexeme) : Phrase → Move
  | word w => onWords [(w, .read [])] .refuse l
  | name => onName (.read []) .refuse l
  | type => onType Token.primitiveTypes l
  | returnType => onType (Token.primitiveTypes ++ ["void"]) l
  | classVars =>
    onWords [("static", .read (declaration ++ [word ";", classVars])),
      ("field", .read (declaration ++ [word ";", classVars]))] (.become []) l
  | moreNames => onWords [(",", .read [name, moreNames])] (.become []) l
  | subroutines =>
    onWords (SubroutineKind.all.map fun k => (k.name, .read (subroutine ++ [subroutines])))
      (.become []) l
  | parameters => onWords [(")", .become [])] (.become [type, name, moreParameters]) l
  | moreParameters => onWords [(",", .read [type, name, moreParameters])] (.become []) l
  | localVars => onWords [("var", .read (declaration ++ [word ";", localVars]))] (.become []) l
  | statements => onWords statementMoves (.become []) l
  | assignTail =>
    onWords [("[", .read [expression, word "]", word "=", expression, word ";"])]
      (.become [word "=", expression, word ";"]) l
  | elsePart => onWords [("else", .read block)] (.become []) l
  | returnValue => onWords [(";", .become [])] (.become [expression]) l
  | expression => .become [term, operators]
  | term =>
    match l.map Lexeme.kind with
    | some .integer | some .string => .read []
    | some .identifier => .read [nameTail]
    | _ => onWords termMoves .refuse l
  | operators => onWords (operatorSigns.map (·, .read [term, operators])) (.become []) l
  | nameTail =>
    onWords [("[", .read [expression, word "]"]), ("(", .become [callTail]),
      (".", .become [callTail])] (.become []) l
  | callTail =>
    onWords [("(", .read [arguments]), (".", .read [name, word "(", arguments])] .refuse l
  | arguments => onWords [(")", .become [word ")"])] (.become [expression, moreArguments]) l
  | moreArguments => onWords [(",", .read [expression, moreArguments])] (.become [word ")"]) l
  | finish => if l = none then .become [] else .refuse

/-! ## What phrases spell -/

/-- The lexemes are an assignment behind the name of its target. -/
def AssignTail (ls : List Lexeme) : Prop :=
  (∃ e : Expression, ls = .word "=" :: e.spelling ++ [Lexeme.word ";"]) ∨
  ∃ i e : Expression,
    ls = .word "[" :: i.spelling ++ .word "]" :: .word "=" :: e.spelling ++ [Lexeme.word ";"]

/-- The lexemes are a call behind its first name. -/
def CallTail (ls : List Lexeme) : Prop :=
  (∃ a : Arguments, ls = .word "(" :: a.spelling ++ [Lexeme.word ")"]) ∨
  ∃ (x : String) (a : Arguments),
    ls = .word "." :: .name x :: .word "(" :: a.spelling ++ [Lexeme.word ")"]

/-- The lexemes spell the phrase. -/
def Yields : Phrase → List Lexeme → Prop
  | word w, ls => ls = [.word w]
  | name, ls => ∃ x, ls = [.name x]
  | type, ls => ∃ t : TypeName, ls = [t.lexeme]
  | returnType, ls => ∃ t, ls = [returnLexeme t]
  | classVars, ls => ∃ ds : List ClassVarDec, ls = ds.flatMap ClassVarDec.spelling
  | moreNames, ls => ∃ xs, ls = Syntax.moreNames xs
  | subroutines, ls => ∃ ss : List Subroutine, ls = ss.flatMap Subroutine.spelling
  | parameters, ls => ∃ ps, ls = parametersSpelling ps
  | moreParameters, ls => ∃ ps, ls = Syntax.moreParameters ps
  | localVars, ls => ∃ ds, ls = localsSpelling ds
  | statements, ls => ∃ b : Block, ls = b.spelling
  | assignTail, ls => AssignTail ls
  | elsePart, ls => ∃ a : Alternative, ls = a.spelling
  | returnValue, ls => ls = [] ∨ ∃ e : Expression, ls = e.spelling
  | expression, ls => ∃ e : Expression, ls = e.spelling
  | term, ls => ∃ t : Term, ls = t.spelling
  | operators, ls => ∃ o : Operations, ls = o.spelling
  | nameTail, ls =>
    ls = [] ∨ (∃ e : Expression, ls = .word "[" :: e.spelling ++ [Lexeme.word "]"]) ∨ CallTail ls
  | callTail, ls => CallTail ls
  | arguments, ls => ∃ a : Arguments, ls = a.spelling ++ [Lexeme.word ")"]
  | moreArguments, ls => ∃ a : Arguments, ls = a.moreSpelling ++ [Lexeme.word ")"]
  | finish, ls => ls = []

/-- The lexemes spell the phrases, one behind the other. -/
def YieldsAll : List Phrase → List Lexeme → Prop
  | [], ls => ls = []
  | p :: ps, ls => ∃ l k, ls = l ++ k ∧ p.Yields l ∧ YieldsAll ps k

theorem yieldsAll_singleton {p : Phrase} {ls : List Lexeme} :
    YieldsAll [p] ls ↔ p.Yields ls := by
  constructor
  · intro h
    rcases h with ⟨l, _, rfl, hl, rfl⟩
    rwa [List.append_nil]
  · exact fun h => ⟨ls, [], (List.append_nil ls).symm, h, rfl⟩

theorem yieldsAll_append {ps qs : List Phrase} {ls : List Lexeme} :
    YieldsAll (ps ++ qs) ls ↔ ∃ l k, ls = l ++ k ∧ YieldsAll ps l ∧ YieldsAll qs k := by
  induction ps generalizing ls with
  | nil =>
      simp only [List.nil_append, YieldsAll]
      constructor
      · exact fun h => ⟨[], ls, rfl, rfl, h⟩
      · intro h
        rcases h with ⟨l, k, rfl, rfl, h⟩
        exact h
  | cons p ps ih =>
      simp only [List.cons_append, YieldsAll, ih]
      constructor
      · intro h
        rcases h with ⟨l, m, rfl, hp, k, n, rfl, hps, hqs⟩
        exact ⟨l ++ k, n, (List.append_assoc ..).symm, ⟨l, k, rfl, hp, hps⟩, hqs⟩
      · intro h
        rcases h with ⟨m, n, rfl, ⟨l, k, rfl, hp, hps⟩, hqs⟩
        exact ⟨l, k ++ n, List.append_assoc .., hp, k, n, rfl, hps, hqs⟩

end Phrase

/-! ## Backwards: what can be spelled behind a move can be spelled before it -/

/-- The lexemes spell what is due behind a move, together with the lexeme that the move reads. -/
def Move.Yields (l : Option Lexeme) : Move → List Lexeme → Prop
  | read next, ls =>
    match l with
    | none => False
    | some x => ∃ k, ls = x :: k ∧ Phrase.YieldsAll next k
  | become next, ls => Phrase.YieldsAll next ls
  | refuse, _ => False

namespace Phrase

variable {l : Option Lexeme} {ls : List Lexeme}

/-- A move of a table is that of the word in view, or the move for all other lexemes. -/
theorem onWords_cases {table : List (String × Move)} {otherwise : Move} {P : Move → Prop}
    (hword : ∀ e ∈ table, l = some (.word e.1) → P e.2)
    (hother : (∀ e ∈ table, l ≠ some (.word e.1)) → P otherwise) :
    P (onWords table otherwise l) := by
  unfold onWords
  split
  · next e he =>
      have hl := List.find?_some he
      exact hword e (List.mem_of_find?_eq_some he) (of_decide_eq_true hl)
  · next hnone =>
      refine hother fun e he heq => List.find?_eq_none.mp hnone e he ?_
      exact decide_eq_true heq

theorem onWords_of_ne {table : List (String × Move)} {otherwise : Move}
    (h : ∀ e ∈ table, l ≠ some (.word e.1)) : onWords table otherwise l = otherwise :=
  onWords_cases (P := (· = otherwise)) (fun e he heq => absurd heq (h e he)) fun _ => rfl

theorem onWords_yields {table : List (String × Move)} {otherwise : Move}
    (h : (onWords table otherwise l).Yields l ls) :
    (∃ e ∈ table, e.2.Yields (some (.word e.1)) ls) ∨ otherwise.Yields l ls := by
  revert h
  refine onWords_cases (P := fun m => m.Yields l ls → _) ?_ fun _ => .inr
  rintro e he rfl h
  exact .inl ⟨e, he, h⟩

theorem onName_yields {move otherwise : Move} (h : (onName move otherwise l).Yields l ls) :
    (∃ x, move.Yields (some (.name x)) ls) ∨ otherwise.Yields l ls := by
  unfold onName at h
  split at h
  · next hl =>
      obtain ⟨⟨kind, x⟩, rfl, rfl⟩ := Option.map_eq_some_iff.mp hl
      exact .inl ⟨x, h⟩
  · exact .inr h

theorem onType_yields {keywords : List String} (h : (onType keywords l).Yields l ls) :
    (∃ x, ls = [.name x]) ∨ ∃ w ∈ keywords, ls = [.word w] := by
  rcases onName_yields h with ⟨x, _, rfl, rfl⟩ | h
  · exact .inl ⟨x, rfl⟩
  · rcases onWords_yields h with ⟨e, he, h⟩ | h
    · obtain ⟨w, hw, rfl⟩ := List.mem_map.mp he
      obtain ⟨_, rfl, rfl⟩ := h
      exact .inr ⟨w, hw, rfl⟩
    · exact h.elim

theorem yields_type (h : (predict l type).Yields l ls) : type.Yields ls := by
  rcases onType_yields h with ⟨x, rfl⟩ | ⟨w, hw, rfl⟩
  · exact ⟨.named x, rfl⟩
  · simp only [Token.primitiveTypes, List.mem_cons, List.not_mem_nil, or_false] at hw
    rcases hw with rfl | rfl | rfl
    · exact ⟨.int, rfl⟩
    · exact ⟨.char, rfl⟩
    · exact ⟨.boolean, rfl⟩

theorem yields_returnType (h : (predict l returnType).Yields l ls) : returnType.Yields ls := by
  rcases onType_yields h with ⟨x, rfl⟩ | ⟨w, hw, rfl⟩
  · exact ⟨some (.named x), rfl⟩
  · simp only [Token.primitiveTypes, List.cons_append, List.nil_append, List.mem_cons,
      List.not_mem_nil, or_false] at hw
    rcases hw with rfl | rfl | rfl | rfl
    · exact ⟨some .int, rfl⟩
    · exact ⟨some .char, rfl⟩
    · exact ⟨some .boolean, rfl⟩
    · exact ⟨none, rfl⟩

theorem yieldsAll_declaration {ps : List Phrase} (h : YieldsAll (declaration ++ ps) ls) :
    ∃ (d : VarDec) (k : List Lexeme), ls = d.phrase ++ k ∧ YieldsAll ps k := by
  obtain ⟨_, _, rfl, ⟨t, rfl⟩, _, _, rfl, ⟨x, rfl⟩, _, k, rfl, ⟨xs, rfl⟩, h⟩ := h
  exact ⟨⟨t, x, xs⟩, k, by simp [VarDec.phrase], h⟩

theorem yields_classVars (h : (predict l classVars).Yields l ls) : classVars.Yields ls := by
  rcases onWords_yields h with ⟨e, he, h⟩ | rfl
  · have hkind : ∃ kind : ClassVarKind,
        e = (kind.word, .read (declaration ++ [word ";", classVars])) := by
      simp only [List.mem_cons, List.not_mem_nil, or_false] at he
      rcases he with rfl | rfl
      · exact ⟨.static, rfl⟩
      · exact ⟨.field, rfl⟩
    obtain ⟨kind, rfl⟩ := hkind
    obtain ⟨_, rfl, hnext⟩ := h
    obtain ⟨d, _, rfl, _, _, rfl, rfl, _, _, rfl, ⟨ds, rfl⟩, rfl⟩ := yieldsAll_declaration hnext
    exact ⟨⟨kind, d⟩ :: ds, by simp [ClassVarDec.spelling, VarDec.spelling]⟩
  · exact ⟨[], rfl⟩

theorem yields_subroutines (h : (predict l subroutines).Yields l ls) : subroutines.Yields ls := by
  rcases onWords_yields h with ⟨e, he, h⟩ | rfl
  · obtain ⟨kind, -, rfl⟩ := List.mem_map.mp he
    obtain ⟨_, rfl, _, _, rfl, ⟨t, rfl⟩, _, _, rfl, ⟨x, rfl⟩, _, _, rfl, rfl, _, _, rfl,
      ⟨ps, rfl⟩, _, _, rfl, rfl, _, _, rfl, rfl, _, _, rfl, ⟨ds, rfl⟩, _, _, rfl, ⟨b, rfl⟩, _, _,
      rfl, rfl, _, _, rfl, ⟨ss, rfl⟩, rfl⟩ := h
    exact ⟨⟨kind, t, x, ps, ds, b⟩ :: ss, by simp [Subroutine.spelling]⟩
  · exact ⟨[], rfl⟩

theorem yieldsAll_condition {ps : List Phrase} (h : YieldsAll (condition ++ ps) ls) :
    ∃ (e : Expression) (k : List Lexeme),
      ls = .word "(" :: e.spelling ++ .word ")" :: k ∧ YieldsAll ps k := by
  obtain ⟨_, _, rfl, rfl, _, _, rfl, ⟨e, rfl⟩, _, k, rfl, rfl, h⟩ := h
  exact ⟨e, k, by simp, h⟩

theorem yieldsAll_block {ps : List Phrase} (h : YieldsAll (block ++ ps) ls) :
    ∃ (b : Block) (k : List Lexeme),
      ls = .word openBrace :: b.spelling ++ .word closeBrace :: k ∧ YieldsAll ps k := by
  obtain ⟨_, _, rfl, rfl, _, _, rfl, ⟨b, rfl⟩, _, k, rfl, rfl, h⟩ := h
  exact ⟨b, k, by simp, h⟩

theorem yieldsAll_call {ps : List Phrase} (h : YieldsAll (name :: callTail :: ps) ls) :
    ∃ (c : Call) (k : List Lexeme), ls = c.spelling ++ k ∧ YieldsAll ps k := by
  obtain ⟨_, _, rfl, ⟨x, rfl⟩, _, k, rfl, htail, h⟩ := h
  rcases htail with ⟨a, rfl⟩ | ⟨y, a, rfl⟩
  · exact ⟨.unqualified x a, k, by simp [Call.spelling], h⟩
  · exact ⟨.qualified x y a, k, by simp [Call.spelling], h⟩

theorem yields_statements (h : (predict l statements).Yields l ls) : statements.Yields ls := by
  rcases onWords_yields h with ⟨e, he, h⟩ | rfl
  · simp only [statementMoves, List.mem_cons, List.not_mem_nil, or_false] at he
    rcases he with rfl | rfl | rfl | rfl | rfl
    · obtain ⟨_, rfl, _, _, rfl, ⟨x, rfl⟩, _, _, rfl, htail, _, _, rfl, ⟨b, rfl⟩, rfl⟩ := h
      rcases htail with ⟨e, rfl⟩ | ⟨i, e, rfl⟩
      · exact ⟨.cons (.assign x e) b, by simp [Block.spelling, Statement.spelling]⟩
      · exact ⟨.cons (.assignElement x i e) b, by simp [Block.spelling, Statement.spelling]⟩
    · obtain ⟨_, rfl, hnext⟩ := h
      obtain ⟨e, _, rfl, hbody⟩ := yieldsAll_condition hnext
      obtain ⟨b, _, rfl, _, _, rfl, ⟨a, rfl⟩, _, _, rfl, ⟨c, rfl⟩, rfl⟩ := yieldsAll_block hbody
      exact ⟨.cons (.conditional e b a) c, by simp [Block.spelling, Statement.spelling]⟩
    · obtain ⟨_, rfl, hnext⟩ := h
      obtain ⟨e, _, rfl, hbody⟩ := yieldsAll_condition hnext
      obtain ⟨b, _, rfl, _, _, rfl, ⟨c, rfl⟩, rfl⟩ := yieldsAll_block hbody
      exact ⟨.cons (.loop e b) c, by simp [Block.spelling, Statement.spelling]⟩
    · obtain ⟨_, rfl, hnext⟩ := h
      obtain ⟨c, _, rfl, _, _, rfl, rfl, _, _, rfl, ⟨b, rfl⟩, rfl⟩ := yieldsAll_call hnext
      exact ⟨.cons (.perform c) b, by simp [Block.spelling, Statement.spelling]⟩
    · obtain ⟨_, rfl, _, _, rfl, hvalue, _, _, rfl, rfl, _, _, rfl, ⟨b, rfl⟩, rfl⟩ := h
      rcases hvalue with rfl | ⟨e, rfl⟩
      · exact ⟨.cons (.yield none) b, by simp [Block.spelling, Statement.spelling]⟩
      · exact ⟨.cons (.yield (some e)) b, by simp [Block.spelling, Statement.spelling]⟩
  · exact ⟨.nil, rfl⟩

theorem yields_term (h : (predict l term).Yields l ls) : term.Yields ls := by
  simp only [predict] at h
  split at h
  · next hl =>
      obtain ⟨⟨kind, x⟩, rfl, rfl⟩ := Option.map_eq_some_iff.mp hl
      obtain ⟨_, rfl, rfl⟩ := h
      exact ⟨.integer x, rfl⟩
  · next hl =>
      obtain ⟨⟨kind, x⟩, rfl, rfl⟩ := Option.map_eq_some_iff.mp hl
      obtain ⟨_, rfl, rfl⟩ := h
      exact ⟨.string x, rfl⟩
  · next hl =>
      obtain ⟨⟨kind, x⟩, rfl, rfl⟩ := Option.map_eq_some_iff.mp hl
      obtain ⟨_, rfl, _, _, rfl, htail, rfl⟩ := h
      rcases htail with rfl | ⟨e, rfl⟩ | ⟨a, rfl⟩ | ⟨y, a, rfl⟩
      · exact ⟨.var x, rfl⟩
      · exact ⟨.element x e, by simp [Term.spelling, Lexeme.name]⟩
      · exact ⟨.call (.unqualified x a), by simp [Term.spelling, Call.spelling, Lexeme.name]⟩
      · exact ⟨.call (.qualified x y a), by simp [Term.spelling, Call.spelling, Lexeme.name]⟩
  · rcases onWords_yields h with ⟨e, he, h⟩ | h
    · simp only [termMoves, List.mem_cons, List.not_mem_nil, or_false] at he
      rcases he with rfl | rfl | rfl | rfl | rfl | rfl | rfl
      · obtain ⟨_, rfl, rfl⟩ := h
        exact ⟨.constant .true, rfl⟩
      · obtain ⟨_, rfl, rfl⟩ := h
        exact ⟨.constant .false, rfl⟩
      · obtain ⟨_, rfl, rfl⟩ := h
        exact ⟨.constant .null, rfl⟩
      · obtain ⟨_, rfl, rfl⟩ := h
        exact ⟨.this, rfl⟩
      · obtain ⟨_, rfl, _, _, rfl, ⟨t, rfl⟩, rfl⟩ := h
        exact ⟨.unary .negate t, by simp [Term.spelling, UnaryOperator.sign]⟩
      · obtain ⟨_, rfl, _, _, rfl, ⟨t, rfl⟩, rfl⟩ := h
        exact ⟨.unary .complement t, by simp [Term.spelling, UnaryOperator.sign]⟩
      · obtain ⟨_, rfl, _, _, rfl, ⟨e, rfl⟩, _, _, rfl, rfl, rfl⟩ := h
        exact ⟨.parens e, by simp [Term.spelling]⟩
    · exact h.elim

theorem yields_operators (h : (predict l operators).Yields l ls) : operators.Yields ls := by
  rcases onWords_yields h with ⟨e, he, h⟩ | rfl
  · obtain ⟨w, hw, rfl⟩ := List.mem_map.mp he
    obtain ⟨op, rfl⟩ : ∃ op : Operator, w = op.sign := by
      obtain ⟨⟨x, i⟩, hmem, rfl⟩ : ∃ e ∈ Compile.Goal.operatorTable, e.1 = w := List.mem_map.mp hw
      obtain ⟨op, rfl, -⟩ := Compile.mem_operatorTable.mp hmem
      exact ⟨op, rfl⟩
    obtain ⟨_, rfl, _, _, rfl, ⟨t, rfl⟩, _, _, rfl, ⟨o, rfl⟩, rfl⟩ := h
    exact ⟨.cons op t o, by simp [Operations.spelling]⟩
  · exact ⟨.nil, rfl⟩

theorem yields_callTail (h : (predict l callTail).Yields l ls) : CallTail ls := by
  rcases onWords_yields h with ⟨e, he, h⟩ | h
  · simp only [List.mem_cons, List.not_mem_nil, or_false] at he
    rcases he with rfl | rfl
    · obtain ⟨_, rfl, _, _, rfl, ⟨a, rfl⟩, rfl⟩ := h
      exact .inl ⟨a, by simp⟩
    · obtain ⟨_, rfl, _, _, rfl, ⟨x, rfl⟩, _, _, rfl, rfl, _, _, rfl, ⟨a, rfl⟩, rfl⟩ := h
      exact .inr ⟨x, a, by simp⟩
  · exact h.elim

/-- If what is due behind a move can be spelled, so can the phrase that made it. -/
theorem predict_yields (p : Phrase) (h : (predict l p).Yields l ls) : p.Yields ls := by
  cases p with
  | type => exact yields_type h
  | returnType => exact yields_returnType h
  | classVars => exact yields_classVars h
  | subroutines => exact yields_subroutines h
  | statements => exact yields_statements h
  | term => exact yields_term h
  | operators => exact yields_operators h
  | callTail => exact yields_callTail h
  | word w =>
      rcases onWords_yields h with ⟨e, he, h⟩ | h
      · obtain rfl := List.mem_singleton.mp he
        obtain ⟨_, rfl, rfl⟩ := h
        rfl
      · exact h.elim
  | name =>
      rcases onName_yields h with ⟨x, _, rfl, rfl⟩ | h
      · exact ⟨x, rfl⟩
      · exact h.elim
  | moreNames =>
      rcases onWords_yields h with ⟨e, he, h⟩ | rfl
      · obtain rfl := List.mem_singleton.mp he
        obtain ⟨_, rfl, _, _, rfl, ⟨x, rfl⟩, _, _, rfl, ⟨xs, rfl⟩, rfl⟩ := h
        exact ⟨x :: xs, by simp [Syntax.moreNames]⟩
      · exact ⟨[], rfl⟩
  | parameters =>
      rcases onWords_yields h with ⟨e, he, h⟩ | h
      · obtain rfl := List.mem_singleton.mp he
        obtain rfl := h
        exact ⟨[], rfl⟩
      · obtain ⟨_, _, rfl, ⟨t, rfl⟩, _, _, rfl, ⟨x, rfl⟩, _, _, rfl, ⟨ps, rfl⟩, rfl⟩ := h
        exact ⟨⟨t, x⟩ :: ps, by simp [parametersSpelling, Variable.spelling]⟩
  | moreParameters =>
      rcases onWords_yields h with ⟨e, he, h⟩ | rfl
      · obtain rfl := List.mem_singleton.mp he
        obtain ⟨_, rfl, _, _, rfl, ⟨t, rfl⟩, _, _, rfl, ⟨x, rfl⟩, _, _, rfl, ⟨ps, rfl⟩, rfl⟩ := h
        exact ⟨⟨t, x⟩ :: ps, by simp [Syntax.moreParameters, Variable.spelling]⟩
      · exact ⟨[], rfl⟩
  | localVars =>
      rcases onWords_yields h with ⟨e, he, h⟩ | rfl
      · obtain rfl := List.mem_singleton.mp he
        obtain ⟨_, rfl, hnext⟩ := h
        obtain ⟨d, _, rfl, _, _, rfl, rfl, _, _, rfl, ⟨ds, rfl⟩, rfl⟩ := yieldsAll_declaration hnext
        exact ⟨d :: ds, by simp [localsSpelling, VarDec.spelling]⟩
      · exact ⟨[], rfl⟩
  | assignTail =>
      rcases onWords_yields h with ⟨e, he, h⟩ | h
      · obtain rfl := List.mem_singleton.mp he
        obtain ⟨_, rfl, _, _, rfl, ⟨i, rfl⟩, _, _, rfl, rfl, _, _, rfl, rfl, _, _, rfl, ⟨e, rfl⟩,
          _, _, rfl, rfl, rfl⟩ := h
        exact .inr ⟨i, e, by simp⟩
      · obtain ⟨_, _, rfl, rfl, _, _, rfl, ⟨e, rfl⟩, _, _, rfl, rfl, rfl⟩ := h
        exact .inl ⟨e, by simp⟩
  | elsePart =>
      rcases onWords_yields h with ⟨e, he, h⟩ | rfl
      · obtain rfl := List.mem_singleton.mp he
        obtain ⟨_, rfl, hnext⟩ := h
        obtain ⟨b, _, rfl, rfl⟩ := yieldsAll_block hnext
        exact ⟨.present b, rfl⟩
      · exact ⟨.absent, rfl⟩
  | returnValue =>
      rcases onWords_yields h with ⟨e, he, h⟩ | h
      · obtain rfl := List.mem_singleton.mp he
        exact .inl h
      · exact .inr (yieldsAll_singleton.mp h)
  | expression =>
      obtain ⟨_, _, rfl, ⟨t, rfl⟩, _, _, rfl, ⟨o, rfl⟩, rfl⟩ := h
      exact ⟨.mk t o, by simp [Expression.spelling]⟩
  | nameTail =>
      rcases onWords_yields h with ⟨e, he, h⟩ | h
      · simp only [List.mem_cons, List.not_mem_nil, or_false] at he
        rcases he with rfl | rfl | rfl
        · obtain ⟨_, rfl, _, _, rfl, ⟨e, rfl⟩, _, _, rfl, rfl, rfl⟩ := h
          exact .inr (.inl ⟨e, by simp⟩)
        · exact .inr (.inr (yieldsAll_singleton.mp h))
        · exact .inr (.inr (yieldsAll_singleton.mp h))
      · exact .inl h
  | arguments =>
      rcases onWords_yields h with ⟨e, he, h⟩ | h
      · obtain rfl := List.mem_singleton.mp he
        obtain ⟨_, _, rfl, rfl, rfl⟩ := h
        exact ⟨.nil, rfl⟩
      · obtain ⟨_, _, rfl, ⟨e, rfl⟩, _, _, rfl, ⟨a, rfl⟩, rfl⟩ := h
        exact ⟨.cons e a, by simp [Arguments.spelling]⟩
  | moreArguments =>
      rcases onWords_yields h with ⟨e, he, h⟩ | h
      · obtain rfl := List.mem_singleton.mp he
        obtain ⟨_, rfl, _, _, rfl, ⟨e, rfl⟩, _, _, rfl, ⟨a, rfl⟩, rfl⟩ := h
        exact ⟨.cons e a, by simp [Arguments.moreSpelling]⟩
      · obtain ⟨_, _, rfl, rfl, rfl⟩ := h
        exact ⟨.nil, rfl⟩
  | finish =>
      simp only [predict] at h
      split at h
      · exact h
      · exact h.elim

/-! ## Every phrase can be spelled -/

/-- A shortest spelling. -/
def filler : Phrase → List Lexeme
  | word w => [.word w]
  | name => [.name "x"]
  | type | returnType => [.word "int"]
  | assignTail => [.word "=", ⟨.integer, "0"⟩, .word ";"]
  | expression | term => [⟨.integer, "0"⟩]
  | callTail => [.word "(", .word ")"]
  | arguments | moreArguments => [.word ")"]
  | _ => []

theorem filler_yields (p : Phrase) : p.Yields p.filler := by
  cases p with
  | word | finish => rfl
  | name => exact ⟨"x", rfl⟩
  | type => exact ⟨.int, rfl⟩
  | returnType => exact ⟨some .int, rfl⟩
  | classVars | moreNames | subroutines | parameters | moreParameters | localVars => exact ⟨[], rfl⟩
  | statements => exact ⟨.nil, rfl⟩
  | assignTail => exact .inl ⟨.mk (.integer "0") .nil, rfl⟩
  | elsePart => exact ⟨.absent, rfl⟩
  | returnValue | nameTail => exact .inl rfl
  | expression => exact ⟨.mk (.integer "0") .nil, rfl⟩
  | term => exact ⟨.integer "0", rfl⟩
  | operators => exact ⟨.nil, rfl⟩
  | callTail => exact .inl ⟨.nil, rfl⟩
  | arguments | moreArguments => exact ⟨.nil, rfl⟩

/-- The phrase is not a word that no source can hold. -/
def sayable : Phrase → Bool
  | word w => (Lexeme.word w).valid
  | _ => true

theorem filler_valid {p : Phrase} (h : p.sayable = true) : Valid p.filler := by
  cases p with
  | word w => simpa [filler, sayable] using h
  | _ => simp only [filler, Valid]; decide

end Phrase

/-- The phrases that take the place of the one that made the move. -/
def Move.next : Move → List Phrase
  | read next | become next => next
  | refuse => []

namespace Phrase

/-- The table holds no words that no source can hold. -/
theorem predict_sayable (l : Option Lexeme) (p : Phrase) :
    (predict l p).next.all sayable = true := by
  have htable : ∀ {table : List (String × Move)} {otherwise : Move},
      (∀ e ∈ table, e.2.next.all sayable = true) → otherwise.next.all sayable = true →
        (onWords table otherwise l).next.all sayable = true := by
    intro table otherwise hwords hother
    refine onWords_cases (P := fun m => m.next.all sayable = true) ?_ fun _ => hother
    exact fun e he _ => hwords e he
  cases p with
  | word w => exact htable (by simp [Move.next]) rfl
  | name =>
      simp only [predict, onName]
      split <;> rfl
  | type | returnType =>
      simp only [predict, onType, onName]
      split
      · rfl
      · exact htable (by decide) rfl
  | expression => rfl
  | term =>
      simp only [predict]
      split
      · rfl
      · rfl
      · rfl
      · exact htable (by decide) rfl
  | finish =>
      simp only [predict]
      split <;> rfl
  | _ => exact htable (by decide) (by decide)

end Phrase

end Jack.Syntax
