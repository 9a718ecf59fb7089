import Jack.Proofs.Acceptance
import Jack.Proofs.Lexing

/-!
# Constants

An integer in a source is checked against the largest constant of the machine. The other constants
of the code are not: a string pushes its length and the codes of its characters, and a constructor
pushes the number of fields. So the constants of a class are in range exactly if no string is too
long or holds too large a character, and no object that is made has too many fields
(`ClassDecl.inRange`). The last section has a class with a string that is too long.
-/

namespace Jack

open Syntax (largestInteger)

/-- A constant that is pushed is one of the machine. -/
def Instruction.InRange (x : Instruction) : Prop :=
  ∀ i, x = .push .constant i → ∃ n ≤ largestInteger, i = .number n

/-- A string has a length and characters within the range of constants. -/
def Lexeme.Small (l : Lexeme) : Prop :=
  l.kind = .string →
    l.text.length ≤ largestInteger ∧ ∀ c ∈ l.text.toList, c.toNat ≤ largestInteger

instance (l : Lexeme) : Decidable l.Small :=
  letI : Decidable (∀ c ∈ l.text.toList, c.toNat ≤ largestInteger) := List.decidableBAll _ _
  inferInstanceAs (Decidable (_ → _ ∧ _))

namespace Syntax

open Instruction (InRange)

def AllInRange (code : List Instruction) : Prop := ∀ x ∈ code, x.InRange

def AllSmall (ls : List Lexeme) : Prop := ∀ l ∈ ls, l.Small

@[simp] theorem allInRange_nil : AllInRange [] := fun _ hx => (List.not_mem_nil hx).elim

@[simp] theorem allInRange_cons {x : Instruction} {code : List Instruction} :
    AllInRange (x :: code) ↔ InRange x ∧ AllInRange code :=
  List.forall_mem_cons

@[simp] theorem allInRange_append {i j : List Instruction} :
    AllInRange (i ++ j) ↔ AllInRange i ∧ AllInRange j :=
  List.forall_mem_append

@[simp] theorem allSmall_nil : AllSmall [] := fun _ hl => (List.not_mem_nil hl).elim

@[simp] theorem allSmall_cons {l : Lexeme} {ls : List Lexeme} :
    AllSmall (l :: ls) ↔ Lexeme.Small l ∧ AllSmall ls :=
  List.forall_mem_cons

@[simp] theorem allSmall_append {l k : List Lexeme} : AllSmall (l ++ k) ↔ AllSmall l ∧ AllSmall k :=
  List.forall_mem_append

@[simp] theorem small_name (x : String) : Lexeme.Small (.name x) := fun h => by cases h

@[simp] theorem small_word (w : String) : Lexeme.Small (.word w) := by
  intro h
  unfold Lexeme.word at h
  split at h <;> cases h

@[simp] theorem small_integer (digits : String) : Lexeme.Small ⟨.integer, digits⟩ :=
  fun h => by cases h

/-! ## Expressions -/

/-- Variables and the current object have cells in memory. -/
structure Env.InMemory (env : Env) : Prop where
  self : ∀ cell, env.self = some cell → cell.segment ≠ .constant
  resolve : ∀ x b, env.resolve x = some b → b.cell.segment ≠ .constant

theorem inRange_push {segment : Segment} (h : segment ≠ .constant) (i : Count) :
    InRange (.push segment i) := by
  intro j hj
  exact absurd (Instruction.push.inj hj).1 h

theorem inRange_number {n : Nat} (h : n ≤ largestInteger) :
    InRange (.push .constant (.number n)) :=
  fun _ hi => ⟨n, h, (Instruction.push.inj hi).2.symm⟩

theorem allInRange_constant (k : Constant) : AllInRange k.code := by
  have hone : InRange (.push .constant 1) := inRange_number (n := 1) (by decide)
  have hzero : InRange (.push .constant 0) := inRange_number (n := 0) (by decide)
  have hneg : InRange (.arithmetic .neg) := by simp [InRange]
  cases k with
  | true => simp [Constant.code, hone, hneg]
  | false | null => simp [Constant.code, hzero]

theorem allInRange_read {env : Env} (henv : env.InMemory) (x : String) :
    AllInRange (env.read x) := by
  unfold Env.read
  split
  · next b hb => simp [Cell.push, inRange_push (henv.resolve x b hb)]
  · exact allInRange_nil

theorem allInRange_write (env : Env) (x : String) : AllInRange (env.write x) := by
  unfold Env.write
  split <;> simp [Cell.pop, InRange]

/-- Both sources of constants in the code of a string. -/
theorem allInRange_stringCode (text : String) :
    AllInRange (stringCode text) ↔ Lexeme.Small ⟨.string, text⟩ := by
  have hchars : ∀ cs : List Char,
      AllInRange (cs.flatMap fun c =>
        [Instruction.push .constant c.toNat, .call "String.appendChar" 2]) ↔
      ∀ c ∈ cs, c.toNat ≤ largestInteger := by
    intro cs
    induction cs with
    | nil => simp
    | cons c cs ih =>
        rw [List.flatMap_cons, allInRange_append, ih]
        simp [InRange]
  simp [stringCode, Lexeme.Small, hchars, InRange]

theorem inRange_operator (op : Operator) : InRange op.instruction := by
  cases op <;> simp [Operator.instruction, InRange]

theorem inRange_unaryOperator (op : UnaryOperator) : InRange op.instruction := by
  cases op <;> simp [UnaryOperator.instruction, InRange]

variable {r : Rules}

mutual

theorem Expression.inRange (henv : r.env.InMemory) :
    ∀ e : Expression, e.Obeys r → (AllInRange (e.code r.env) ↔ AllSmall e.spelling)
  | .mk first rest, h => by
      simp only [Expression.code, Expression.spelling, allInRange_append, allSmall_append,
        first.inRange henv h.1, rest.inRange henv h.2]

theorem Operations.inRange (henv : r.env.InMemory) :
    ∀ o : Operations, o.Obeys r → (AllInRange (o.code r.env) ↔ AllSmall o.spelling)
  | .nil, _ => by simp [Operations.code, Operations.spelling]
  | .cons op operand rest, h => by
      simp [Operations.code, Operations.spelling, inRange_operator, operand.inRange henv h.1,
        rest.inRange henv h.2]

theorem Term.inRange (henv : r.env.InMemory) :
    ∀ t : Term, t.Obeys r → (AllInRange (t.code r.env) ↔ AllSmall t.spelling)
  | .integer digits, h => by
      have hvalue : numeralValue digits ≤ largestInteger := h.2
      simp [Term.code, Term.spelling, InRange, hvalue]
  | .string text, _ => by simp [Term.code, Term.spelling, allInRange_stringCode]
  | .constant k, _ => by simp [Term.code, Term.spelling, allInRange_constant]
  | .this, _ => by
      rw [Term.code]
      cases hself : r.env.self with
      | none => simp [Term.spelling]
      | some cell => simp [Term.spelling, Cell.push, inRange_push (henv.self cell hself)]
  | .unary op operand, h => by
      simp [Term.code, Term.spelling, inRange_unaryOperator, operand.inRange henv h]
  | .parens e, h => by simp [Term.code, Term.spelling, e.inRange henv h]
  | .var x, _ => by simp [Term.code, Term.spelling, allInRange_read henv]
  | .element x index, h => by
      simp [Term.code, Term.spelling, allInRange_read henv, index.inRange henv h.2, InRange]
  | .call k, h => by simpa [Term.code, Term.spelling] using k.inRange henv h

theorem Call.inRange (henv : r.env.InMemory) :
    ∀ k : Call, k.Obeys r → (AllInRange (k.code r.env) ↔ AllSmall k.spelling)
  | .unqualified callee arguments, h => by
      simp [Call.code, Call.spelling, arguments.inRange henv h.2, InRange]
  | .qualified qualifier callee arguments, h => by
      rw [Call.code]
      split
      · next b hb =>
          simp [Call.spelling, Cell.push, henv.resolve qualifier b hb, arguments.inRange henv h.2,
            InRange]
      · simp [Call.spelling, arguments.inRange henv h.2, InRange]

theorem Arguments.inRange (henv : r.env.InMemory) :
    ∀ a : Arguments, a.Obeys r → (AllInRange (a.code r.env) ↔ AllSmall a.spelling)
  | .nil, _ => by simp [Arguments.code, Arguments.spelling]
  | .cons e rest, h => by
      simp [Arguments.code, Arguments.spelling, e.inRange henv h.1, rest.inRange_more henv h.2]

theorem Arguments.inRange_more (henv : r.env.InMemory) :
    ∀ a : Arguments, a.Obeys r → (AllInRange (a.code r.env) ↔ AllSmall a.moreSpelling)
  | .nil, _ => by simp [Arguments.code, Arguments.moreSpelling]
  | .cons e rest, h => by
      simp [Arguments.code, Arguments.moreSpelling, e.inRange henv h.1, rest.inRange_more henv h.2]

end

/-! ## Statements -/

mutual

theorem Statement.inRange (henv : r.env.InMemory) :
    ∀ (s : Statement) (n : Nat), s.Obeys r →
      (AllInRange (s.code r.env n) ↔ AllSmall s.spelling)
  | .assign x value, n, h => by
      simp [Statement.code, Statement.spelling, value.inRange henv h.2, allInRange_write]
  | .assignElement x index value, n, h => by
      simp [Statement.code, Statement.spelling, allInRange_read henv, index.inRange henv h.2.1,
        value.inRange henv h.2.2, InRange]
  | .conditional condition body alternative, n, h => by
      simp [Statement.code, Statement.spelling, condition.inRange henv h.1,
        body.inRange henv (n + 2) h.2.1, alternative.inRange henv (n + 2 + body.labels) h.2.2,
        InRange]
  | .loop condition body, n, h => by
      simp [Statement.code, Statement.spelling, condition.inRange henv h.1,
        body.inRange henv (n + 2) h.2, InRange]
  | .perform k, n, h => by
      simp [Statement.code, Statement.spelling, k.inRange henv h, InRange]
  | .yield none, n, _ => by simp [Statement.code, Statement.spelling, InRange]
  | .yield (some value), n, h => by
      have hvalue : value.Obeys r := h
      simp [Statement.code, Statement.spelling, value.inRange henv hvalue, InRange]

theorem Alternative.inRange (henv : r.env.InMemory) :
    ∀ (a : Alternative) (n : Nat), a.Obeys r →
      (AllInRange (a.code r.env n) ↔ AllSmall a.spelling)
  | .absent, n, _ => by simp [Alternative.code, Alternative.spelling]
  | .present body, n, h => by
      have hbody : body.Obeys r := h
      simp [Alternative.code, Alternative.spelling, body.inRange henv n hbody]

theorem Block.inRange (henv : r.env.InMemory) :
    ∀ (b : Block) (n : Nat), b.Obeys r →
      (AllInRange (b.code r.env n) ↔ AllSmall b.spelling)
  | .nil, n, _ => by simp [Block.code, Block.spelling]
  | .cons s rest, n, h => by
      simp [Block.code, Block.spelling, s.inRange henv n h.1,
        rest.inRange henv (n + s.labels) h.2]

end

/-! ## Classes -/

theorem small_type (t : TypeName) : Lexeme.Small t.lexeme := by
  cases t <;> simp [TypeName.lexeme]

theorem small_returnType (t : Option TypeName) : Lexeme.Small (returnLexeme t) := by
  cases t with
  | none => exact small_word _
  | some t => exact small_type t

theorem allSmall_varDec (d : VarDec) : AllSmall d.spelling := by
  have hmore : AllSmall (moreNames d.more) := by
    intro l hl
    obtain ⟨x, -, hx⟩ := List.mem_flatMap.mp hl
    rcases List.mem_cons.mp hx with rfl | hx
    · exact small_word _
    · exact List.mem_singleton.mp hx ▸ small_name x
  simp [VarDec.spelling, VarDec.phrase, small_type, hmore]

theorem allSmall_parameters (ps : List Variable) : AllSmall (parametersSpelling ps) := by
  have hparameter : ∀ p : Variable, AllSmall p.spelling := by
    intro p
    simp [Variable.spelling, small_type]
  cases ps with
  | nil => exact allSmall_nil
  | cons p ps =>
      refine allSmall_append.mpr ⟨hparameter p, fun l hl => ?_⟩
      obtain ⟨q, -, hq⟩ := List.mem_flatMap.mp hl
      exact allSmall_cons.mpr ⟨small_word _, hparameter q⟩ l hq

namespace Subroutine

variable {c : ClassDecl} {s : Subroutine}

/-- Strings occur in the statements alone. -/
theorem allSmall_spelling (s : Subroutine) : AllSmall s.spelling ↔ AllSmall s.body.spelling := by
  have hlocals : AllSmall (localsSpelling s.locals) := by
    intro l hl
    obtain ⟨d, -, hd⟩ := List.mem_flatMap.mp hl
    exact allSmall_cons.mpr ⟨small_word _, allSmall_varDec d⟩ l hd
  simp [Subroutine.spelling, small_returnType, allSmall_parameters, hlocals]

theorem segment_of_place {segment : Segment} {vars : List Variable} {x : String} {b : Binding}
    (h : place segment vars x = some b) : b.cell.segment = segment := by
  obtain ⟨v, -, rfl⟩ := Option.map_eq_some_iff.mp h
  rfl

theorem inMemory (c : ClassDecl) (s : Subroutine) : (s.env c).InMemory where
  self cell h := by
    simp only [env] at h
    split at h <;> cases h <;> decide
  resolve x b h := by
    simp only [env, Option.or_eq_some_iff] at h
    rcases h with (h | ⟨-, h⟩) | ⟨-, h | ⟨-, h⟩⟩ <;> rw [segment_of_place h] <;> decide

/-- A block is in range if its strings are small and the fields of an object it makes are few. -/
theorem inRange (hr : r.env = s.env c) (hbody : s.body.Obeys r) (n : Nat) :
    AllInRange (s.code c n) ↔
      AllSmall s.spelling ∧ (s.kind = .constructor → c.fields.length ≤ largestInteger) := by
  have hmemory : r.env.InMemory := hr ▸ s.inMemory c
  have hcode := s.body.inRange hmemory n hbody
  rw [hr] at hcode
  have hprologue : AllInRange (s.prologue c) ↔
      (s.kind = .constructor → c.fields.length ≤ largestInteger) := by
    unfold Subroutine.prologue
    split <;> simp [InRange, *]
  rw [Subroutine.code, List.cons_append, allInRange_cons, allInRange_append, bodyCode, hcode,
    hprologue, allSmall_spelling]
  have hheader : InRange (s.header c) := by simp [Subroutine.header, InRange]
  exact ⟨fun h => ⟨h.2.2, h.2.1⟩, fun h => ⟨hheader, h.2, h.1⟩⟩

end Subroutine

theorem allInRange_subroutinesCode {c : ClassDecl} {ss : List Subroutine}
    (hss : ∀ s ∈ ss, ∃ r : Rules, r.env = s.env c ∧ s.body.Obeys r) (n : Nat) :
    AllInRange (subroutinesCode c n ss) ↔ ∀ s ∈ ss, AllSmall s.spelling ∧
      (s.kind = .constructor → c.fields.length ≤ largestInteger) := by
  induction ss generalizing n with
  | nil => simp [subroutinesCode]
  | cons s ss ih =>
      obtain ⟨⟨r, hr, hbody⟩, hss⟩ := List.forall_mem_cons.mp hss
      rw [subroutinesCode, allInRange_append, Subroutine.inRange hr hbody, ih hss,
        List.forall_mem_cons]

theorem ClassDecl.allSmall_spelling (c : ClassDecl) :
    AllSmall c.spelling ↔ ∀ s ∈ c.subroutines, AllSmall s.spelling := by
  have hvars : AllSmall (c.vars.flatMap ClassVarDec.spelling) := by
    intro l hl
    obtain ⟨d, -, hd⟩ := List.mem_flatMap.mp hl
    exact allSmall_cons.mpr ⟨small_word _, allSmall_varDec d.dec⟩ l hd
  have hsubroutines : AllSmall (c.subroutines.flatMap Subroutine.spelling) ↔
      ∀ s ∈ c.subroutines, AllSmall s.spelling := by
    simp only [AllSmall, List.mem_flatMap, forall_exists_index, and_imp]
    exact ⟨fun h s hs l hl => h l s hs hl, fun h l s hs hl => h s hs l hl⟩
  simp [ClassDecl.spelling, hvars, hsubroutines]

theorem ClassDecl.inRange {c : ClassDecl} {known : List String} {strict : Bool}
    (h : c.Obeys known strict) :
    AllInRange c.code ↔ AllSmall c.spelling ∧
      ((∃ s ∈ c.subroutines, s.kind = .constructor) → c.fields.length ≤ largestInteger) := by
  have hss : ∀ s ∈ c.subroutines, ∃ r : Rules, r.env = s.env c ∧ s.body.Obeys r := by
    intro s hs
    obtain ⟨earlier, later, hsplit⟩ := List.append_of_mem hs
    exact ⟨_, rfl, (h.bodies earlier s later hsplit).body⟩
  rw [ClassDecl.code, allInRange_subroutinesCode hss, c.allSmall_spelling]
  constructor
  · intro hall
    refine ⟨fun s hs => (hall s hs).1, ?_⟩
    rintro ⟨s, hs, hkind⟩
    exact (hall s hs).2 hkind
  · rintro ⟨hsmall, hfields⟩ s hs
    exact ⟨hsmall s hs, fun hkind => hfields ⟨s, hs, hkind⟩⟩

end Syntax

open Compile Syntax

/-- When the constants of a compiled source are constants of the machine. -/
theorem compileSource_constants (o : Options) (source file : String) (compiled : Compiled)
    (h : (compileSource o source file).result = .ok compiled) :
    ∃ cd : ClassDecl, (Token.scan source file).tokens.map Token.lexeme = cd.spelling ∧
      (AllInRange compiled.code ↔
        (∀ t ∈ (Token.scan source file).tokens, t.lexeme.Small) ∧
          ((∃ s ∈ cd.subroutines, s.kind = .constructor) →
            cd.fields.length ≤ largestInteger)) := by
  obtain ⟨-, cd, hspells, hobeys, hcode⟩ := compileSource_iff.mp ⟨compiled, h, rfl⟩
  refine ⟨cd, hspells, ?_⟩
  rw [hcode, ClassDecl.inRange hobeys, ← hspells]
  simp only [AllSmall, List.forall_mem_map]

/-! ## A string of any length -/

namespace Token

theorem cut_plain {c : Char} {cs : List Char} (hslash : c ≠ '/') (hquote : c ≠ '"') :
    cut c cs =
      if isSpace c then .ok (.gap [c], cs)
      else if isRun c then
        .ok (.lexeme (classify (c :: cs.takeWhile isRun)) (c :: cs.takeWhile isRun),
          cs.dropWhile isRun)
      else .ok (.lexeme .symbol [c], cs) := by
  simp only [cut, hslash, hquote, false_and, if_false]

/-- Without comments and strings, a quote that follows ends the last piece and changes no other. -/
theorem cut_append_quote {c : Char} {cs rest : List Char} {p : Piece} (hslash : c ≠ '/')
    (hquote : c ≠ '"') (h : cut c cs = .ok (p, rest)) (ds : List Char) :
    cut c (cs ++ '"' :: ds) = .ok (p, rest ++ '"' :: ds) := by
  have hrun : isRun '"' = false := by decide
  have htake : (cs ++ '"' :: ds).takeWhile isRun = cs.takeWhile isRun := by
    rw [List.takeWhile_append, List.takeWhile_cons_of_neg (by simp [hrun]), List.append_nil]
    split
    · next hlength => exact ((List.takeWhile_prefix isRun).eq_of_length hlength).symm
    · rfl
  have hdrop : (cs ++ '"' :: ds).dropWhile isRun = cs.dropWhile isRun ++ '"' :: ds := by
    rw [List.dropWhile_append, List.dropWhile_cons_of_neg (by simp [hrun])]
    split
    · next hempty => rw [List.isEmpty_iff.mp hempty, List.nil_append]
    · rfl
  rw [cut_plain hslash hquote] at h ⊢
  rw [htake, hdrop]
  by_cases hspace : isSpace c = true
  · rw [if_pos hspace] at h ⊢
    cases h
    rfl
  · rw [if_neg hspace] at h ⊢
    by_cases hword : isRun c = true
    · rw [if_pos hword] at h ⊢
      cases h
      rfl
    · rw [if_neg hword] at h ⊢
      cases h
      rfl

theorem cutAll_append_quote {cs : List Char} (hslash : '/' ∉ cs) (hquote : '"' ∉ cs)
    (ds : List Char) :
    cutAll (cs ++ '"' :: ds) =
      ⟨(cutAll cs).pieces ++ (cutAll ('"' :: ds)).pieces, (cutAll ('"' :: ds)).unclosed⟩ := by
  fun_induction cutAll cs with
  | case1 => rfl
  | case2 c cs u h =>
      rw [List.mem_cons, not_or] at hslash hquote
      rw [cut_plain (Ne.symm hslash.1) (Ne.symm hquote.1)] at h
      split at h
      · cases h
      · split at h <;> cases h
  | case3 c cs p rest h later ih =>
      obtain ⟨more, -, hmore⟩ := cut_source h
      rw [List.mem_cons, not_or] at hslash hquote
      have hrest : ∀ x, x ∈ rest → x ∈ cs := fun x hx => hmore ▸ List.mem_append_right more hx
      rw [List.cons_append,
        cutAll_cons (cut_append_quote (Ne.symm hslash.1) (Ne.symm hquote.1) h ds),
        ih (fun hx => hslash.2 (hrest _ hx)) (fun hx => hquote.2 (hrest _ hx))]
      rfl

end Token

/-- A class with a function that returns a text. -/
def quotation (text : String) : ClassDecl where
  name := "Main"
  vars := []
  subroutines := [{
    kind := .function
    returnType := some (.named "String")
    name := "text"
    parameters := []
    locals := []
    body := .cons (.yield (some (.mk (.string text) .nil))) .nil }]

def quotationStart : String := "class Main \x7b function String text() \x7b return "

def quotationEnd : String := "; \x7d \x7d"

def quotationSource (text : String) : String :=
  quotationStart ++ "\"" ++ text ++ "\"" ++ quotationEnd

theorem quotation_obeys (text : String) (known : List String) :
    (quotation text).Obeys known false where
  vars := List.nodup_nil
  subroutines := List.pairwise_singleton _ _
  bodies earlier s later h := by
    obtain ⟨rfl, hs⟩ : earlier = [] ∧ s :: later = (quotation text).subroutines := by
      cases earlier with
      | nil => exact ⟨rfl, h.symm⟩
      | cons e earlier =>
          have hlength := congrArg List.length h
          simp [quotation] at hlength
    obtain ⟨rfl, rfl⟩ := List.cons.inj hs
    exact {
      distinct := List.nodup_nil
      body := ⟨⟨trivial, trivial⟩, trivial⟩
      calls := fun f hf => (List.not_mem_nil hf).elim }

theorem scan_quotation {text : String} (h : ∀ c ∈ text.toList, Token.isLiteral c = true)
    (file : String) :
    (Token.scan (quotationSource text) file).fault = none ∧
      (Token.scan (quotationSource text) file).tokens.map Token.lexeme =
        (quotation text).spelling := by
  have hsource : (quotationSource text).toList = quotationStart.toList ++
      '"' :: (text.toList ++ '"' :: quotationEnd.toList) := by
    simp [quotationSource]
  have hslash : '/' ∉ quotationStart.toList := by decide
  have hquote : '"' ∉ quotationStart.toList := by decide
  have hcut := Token.cutAll_append_quote hslash hquote (text.toList ++ '"' :: quotationEnd.toList)
  rw [Token.cutAll_cons (Token.cut_string h _)] at hcut
  have hstart : (Token.cutAll quotationStart.toList).pieces.filterMap Token.Piece.lexeme? =
      [.word "class", .name "Main", .word Goal.openBrace, .word "function", .name "String",
        .name "text", .word "(", .word ")", .word Goal.openBrace, .word "return"] := by
    decide +kernel
  have hend : Token.cutAll quotationEnd.toList = ⟨(Token.cutAll quotationEnd.toList).pieces, none⟩ ∧
      (Token.cutAll quotationEnd.toList).pieces.filterMap Token.Piece.lexeme? =
        [.word ";", .word Goal.closeBrace, .word Goal.closeBrace] := by
    decide +kernel
  have hstring : Token.Piece.lexeme? (.lexeme .string text.toList) = some ⟨.string, text⟩ := by
    simp [Token.Piece.lexeme?]
  rw [← hsource] at hcut
  unfold Token.scan
  dsimp only
  rw [Token.lexemes_place, hcut]
  refine ⟨?_, ?_⟩
  · rw [hend.1]
    rfl
  · rw [List.filterMap_append, List.filterMap_cons_some hstring, hstart, hend.2]
    rfl

/-- Whatever the text in quotes, the class compiles, and its code pushes the length of the text. -/
theorem quotationSource_compiles {text : String} (h : ∀ c ∈ text.toList, Token.isLiteral c = true) :
    ∃ compiled, (compileSource {} (quotationSource text) "Main.jack").result = .ok compiled ∧
      compiled.code = (quotation text).code := by
  obtain ⟨hfault, hspells⟩ := scan_quotation h "Main.jack"
  exact compileSource_iff.mpr ⟨hfault, quotation text, hspells, quotation_obeys text _, rfl⟩

theorem quotationSource_constants :
    ∃ compiled, (compileSource {} (quotationSource "hello") "Main.jack").result = .ok compiled ∧
      AllInRange compiled.code := by
  have hliteral : ∀ c ∈ "hello".toList, Token.isLiteral c = true :=
    List.all_eq_true.mp (by decide)
  obtain ⟨compiled, h, -⟩ := quotationSource_compiles hliteral
  obtain ⟨-, hspells⟩ := scan_quotation hliteral "Main.jack"
  obtain ⟨cd, hcd, hrange⟩ := compileSource_constants _ _ _ compiled h
  refine ⟨compiled, h, hrange.mpr ⟨by decide +kernel, ?_⟩⟩
  rintro ⟨s, hs, hkind⟩
  have hword : Lexeme.word "constructor" ∈ s.spelling := by
    rw [Subroutine.spelling, hkind]
    exact List.mem_cons_self ..
  have hmem : Lexeme.word "constructor" ∈ cd.spelling :=
    List.mem_append_left _ (List.mem_append_right _ (List.mem_flatMap.mpr ⟨s, hs, hword⟩))
  rw [← hcd, hspells] at hmem
  exact absurd hmem (by decide)

/-- A text of letters that is one too long for a constant. -/
def longText : String := String.ofList (List.replicate (largestInteger + 1) 'a')

theorem longText_literal : ∀ c ∈ longText.toList, Token.isLiteral c = true := by
  intro c hc
  rw [longText, String.toList_ofList] at hc
  rw [List.eq_of_mem_replicate hc]
  decide

theorem longText_length : longText.length = largestInteger + 1 := by
  rw [longText, String.length_ofList, List.length_replicate]

/-- The length of the text is pushed behind the header of the function. -/
theorem length_mem_quotation (text : String) :
    .push .constant (.number text.length) ∈ (quotation text).code :=
  List.mem_cons_of_mem _ (List.mem_cons_self ..)

/-- The source has ASCII characters only, and its code a constant that the machine does not have. -/
theorem longText_outOfRange :
    ∃ compiled, (compileSource {} (quotationSource longText) "Main.jack").result = .ok compiled ∧
      .push .constant (.number 32768) ∈ compiled.code ∧ ¬AllInRange compiled.code := by
  obtain ⟨compiled, h, hcode⟩ := quotationSource_compiles longText_literal
  have hmem : .push .constant (.number 32768) ∈ compiled.code := by
    have hlength := length_mem_quotation longText
    rw [longText_length] at hlength
    rw [hcode]
    exact hlength
  refine ⟨compiled, h, hmem, fun hall => ?_⟩
  obtain ⟨n, hn, heq⟩ := hall _ hmem _ rfl
  cases heq
  exact absurd hn (by decide)

end Jack
