import Jack.Proofs.Lookahead

/-!
# The grammar is unambiguous

A list of lexemes has at most one derivation: trees with the same spelling are equal
(`ClassDecl.spelling_injective`). So what is said of the tree that a list of tokens spells is said
of the list.

A phrase inside a class is followed by further lexemes, so the statement for a phrase is that its
spelling can be cut off: if two phrases, each with lexemes behind it that can stand there, spell the
same list, they are equal and so are the lexemes behind them (`Term.cut`, `Block.cut` and so on).
What can stand behind a phrase is what `Phrase.allows` lists. The proofs follow the trees; of two
trees of different form, the first lexeme or the one behind a leading name tells them apart.
-/

namespace Jack.Syntax

open Compile (SubroutineKind name_ne_word)
open Compile.Goal (openBrace closeBrace)
open Phrase (allows words)

/-! ## Words and names -/

theorem word_eq_word {w x : String} : Lexeme.word w = .word x ↔ w = x :=
  ⟨word_injective, congrArg Lexeme.word⟩

theorem name_eq_name {x y : String} : Lexeme.name x = .name y ↔ x = y :=
  ⟨Compile.name_injective, congrArg Lexeme.name⟩

theorem word_ne_name (w x : String) : Lexeme.word w ≠ .name x :=
  (name_ne_word x w).symm

theorem Operator.sign_injective {op op' : Operator} (h : op.sign = op'.sign) : op = op' := by
  revert h
  cases op <;> cases op' <;> decide

theorem UnaryOperator.sign_injective {op op' : UnaryOperator} (h : op.sign = op'.sign) :
    op = op' := by
  revert h
  cases op <;> cases op' <;> decide

theorem Constant.word_injective {k k' : Constant} (h : k.word = k'.word) : k = k' := by
  revert h
  cases k <;> cases k' <;> decide

/-! ## Expressions -/

/-- The forms of terms. -/
inductive Form where
  | integer
  | string
  | constant
  | this
  | unary
  | parens
  | var
  | element
  | call
  deriving DecidableEq

def Term.form : Term → Form
  | .integer _ => .integer
  | .string _ => .string
  | .constant _ => .constant
  | .this => .this
  | .unary _ _ => .unary
  | .parens _ => .parens
  | .var _ => .var
  | .element _ _ => .element
  | .call _ => .call

/-- The form of a term that starts with a name, by the lexeme behind the name. -/
def formBehind (l : Option Lexeme) : Form :=
  if l = some (.word "[") then .element
  else if l = some (.word "(") ∨ l = some (.word ".") then .call
  else .var

/-- The form of the term that a list of lexemes starts with. -/
def formOf : List Lexeme → Form
  | [] => .this
  | l :: ls =>
    match l.kind with
    | .integer => .integer
    | .string => .string
    | .keyword => if l.text = "this" then .this else .constant
    | .symbol => if l.text = "(" then .parens else .unary
    | .identifier => formBehind ls.head?

theorem formOf_spelling (t : Term) {ks : List Lexeme} (hk : allows ks.head? .term = true) :
    formOf (t.spelling ++ ks) = t.form := by
  cases t with
  | integer | string | this | parens | element => rfl
  | constant k => cases k <;> rfl
  | unary op t => cases op <;> rfl
  | call c => cases c <;> rfl
  | var x =>
      have hvar : ∀ l ∈ words (operatorSigns ++ closers), formBehind l = .var := by decide
      exact hvar _ (List.contains_iff_mem.mp hk)

/-- What is no operator ends the operations. -/
theorem allows_operators_sign (op : Operator) : allows (some (.word op.sign)) .operators = false := by
  cases op <;> decide

mutual

theorem Expression.cut : ∀ (e e' : Expression) {ks ks' : List Lexeme},
    allows ks.head? .expression = true → allows ks'.head? .expression = true →
    e.spelling ++ ks = e'.spelling ++ ks' → e = e' ∧ ks = ks'
  | .mk t o, .mk t' o', ks, ks', hk, hk', h => by
      simp only [Expression.spelling, List.append_assoc] at h
      obtain ⟨rfl, hrest⟩ := t.cut t' (Phrase.allows_term o hk) (Phrase.allows_term o' hk') h
      obtain ⟨rfl, hend⟩ := o.cut o' hk hk' hrest
      exact ⟨rfl, hend⟩

theorem Operations.cut : ∀ (o o' : Operations) {ks ks' : List Lexeme},
    allows ks.head? .operators = true → allows ks'.head? .operators = true →
    o.spelling ++ ks = o'.spelling ++ ks' → o = o' ∧ ks = ks'
  | .nil, .nil, ks, ks', _, _, h => ⟨rfl, h⟩
  | .nil, .cons op t o, ks, ks', hk, _, h => by
      obtain rfl : ks = _ := h
      exact absurd hk (Bool.eq_false_iff.mp (allows_operators_sign op))
  | .cons op t o, .nil, ks, ks', _, hk', h => by
      obtain rfl : _ = ks' := h
      exact absurd hk' (Bool.eq_false_iff.mp (allows_operators_sign op))
  | .cons op t o, .cons op' t' o', ks, ks', hk, hk', h => by
      simp only [Operations.spelling, List.cons_append, List.append_assoc, List.cons.injEq,
        word_eq_word] at h
      obtain rfl := Operator.sign_injective h.1
      obtain ⟨rfl, hrest⟩ := t.cut t' (Phrase.allows_term o hk) (Phrase.allows_term o' hk') h.2
      obtain ⟨rfl, hend⟩ := o.cut o' hk hk' hrest
      exact ⟨rfl, hend⟩

theorem Term.cut (t t' : Term) {ks ks' : List Lexeme} (hk : allows ks.head? .term = true)
    (hk' : allows ks'.head? .term = true) (h : t.spelling ++ ks = t'.spelling ++ ks') :
    t = t' ∧ ks = ks' := by
  have hform : t.form = t'.form := by
    rw [← formOf_spelling t hk, ← formOf_spelling t' hk', h]
  match t with
  | .integer d =>
      cases t' with
      | integer d' => simpa [Term.spelling] using h
      | _ => cases hform
  | .string x =>
      cases t' with
      | string x' => simpa [Term.spelling] using h
      | _ => cases hform
  | .constant k =>
      cases t' with
      | constant k' =>
          obtain ⟨hword, hend⟩ := List.cons.inj h
          obtain rfl := Constant.word_injective (word_injective hword)
          exact ⟨rfl, hend⟩
      | _ => cases hform
  | .this =>
      cases t' with
      | this => exact ⟨rfl, (List.cons.inj h).2⟩
      | _ => cases hform
  | .unary op t =>
      cases t' with
      | unary op' t' =>
          obtain ⟨hword, hrest⟩ := List.cons.inj h
          obtain rfl := UnaryOperator.sign_injective (word_injective hword)
          obtain ⟨rfl, hend⟩ := t.cut t' hk hk' hrest
          exact ⟨rfl, hend⟩
      | _ => cases hform
  | .parens e =>
      cases t' with
      | parens e' =>
          simp only [Term.spelling, List.cons_append, List.append_assoc, List.cons.injEq,
            true_and] at h
          obtain ⟨rfl, hend⟩ := e.cut e' (by rfl) (by rfl) h
          exact ⟨rfl, (List.cons.inj hend).2⟩
      | _ => cases hform
  | .var x =>
      cases t' with
      | var x' =>
          obtain ⟨hname, hend⟩ := List.cons.inj h
          obtain rfl := Compile.name_injective hname
          exact ⟨rfl, hend⟩
      | _ => cases hform
  | .element x i =>
      cases t' with
      | element x' i' =>
          simp only [Term.spelling, List.cons_append, List.append_assoc, List.cons.injEq,
            name_eq_name, true_and] at h
          obtain ⟨rfl, hrest⟩ := h
          obtain ⟨rfl, hend⟩ := i.cut i' (by rfl) (by rfl) hrest
          exact ⟨rfl, (List.cons.inj hend).2⟩
      | _ => cases hform
  | .call c =>
      cases t' with
      | call c' =>
          obtain ⟨rfl, hend⟩ := c.cut c' h
          exact ⟨rfl, hend⟩
      | _ => cases hform

theorem Call.cut : ∀ (c c' : Call) {ks ks' : List Lexeme},
    c.spelling ++ ks = c'.spelling ++ ks' → c = c' ∧ ks = ks'
  | .unqualified x a, .unqualified x' a', ks, ks', h => by
      simp only [Call.spelling, List.cons_append, List.append_assoc, List.cons.injEq,
        name_eq_name, true_and] at h
      obtain ⟨rfl, hrest⟩ := h
      obtain ⟨rfl, hend⟩ := a.cut a' hrest
      exact ⟨rfl, hend⟩
  | .qualified q x a, .qualified q' x' a', ks, ks', h => by
      simp only [Call.spelling, List.cons_append, List.append_assoc, List.cons.injEq,
        name_eq_name, true_and] at h
      obtain ⟨rfl, rfl, hrest⟩ := h
      obtain ⟨rfl, hend⟩ := a.cut a' hrest
      exact ⟨rfl, hend⟩
  | .unqualified x a, .qualified q' x' a', ks, ks', h => by
      simp [Call.spelling, word_eq_word] at h
  | .qualified q x a, .unqualified x' a', ks, ks', h => by
      simp [Call.spelling, word_eq_word] at h

/-- Arguments are cut off together with the parenthesis that closes them. -/
theorem Arguments.cut : ∀ (a a' : Arguments) {ks ks' : List Lexeme},
    a.spelling ++ ([Lexeme.word ")"] ++ ks) = a'.spelling ++ ([Lexeme.word ")"] ++ ks') →
      a = a' ∧ ks = ks'
  | .nil, .nil, ks, ks', h => ⟨rfl, (List.cons.inj h).2⟩
  | .nil, .cons e a, ks, ks', h => by
      obtain ⟨l, ls, he, hclose, -⟩ := Compile.expression_starts e
      simp only [Arguments.spelling, he, List.cons_append, List.nil_append] at h
      exact absurd (List.cons.inj h).1.symm hclose
  | .cons e a, .nil, ks, ks', h => by
      obtain ⟨l, ls, he, hclose, -⟩ := Compile.expression_starts e
      simp only [Arguments.spelling, he, List.cons_append, List.nil_append] at h
      exact absurd (List.cons.inj h).1 hclose
  | .cons e a, .cons e' a', ks, ks', h => by
      simp only [Arguments.spelling, List.append_assoc] at h
      obtain ⟨rfl, hrest⟩ := e.cut e' (by cases a <;> rfl) (by cases a' <;> rfl) h
      obtain ⟨rfl, hend⟩ := a.cutMore a' hrest
      exact ⟨rfl, hend⟩

theorem Arguments.cutMore : ∀ (a a' : Arguments) {ks ks' : List Lexeme},
    a.moreSpelling ++ ([Lexeme.word ")"] ++ ks) = a'.moreSpelling ++ ([Lexeme.word ")"] ++ ks') →
      a = a' ∧ ks = ks'
  | .nil, .nil, ks, ks', h => ⟨rfl, (List.cons.inj h).2⟩
  | .nil, .cons e a, ks, ks', h => by
      simp [Arguments.moreSpelling, word_eq_word] at h
  | .cons e a, .nil, ks, ks', h => by
      simp [Arguments.moreSpelling, word_eq_word] at h
  | .cons e a, .cons e' a', ks, ks', h => by
      simp only [Arguments.moreSpelling, List.cons_append, List.append_assoc, List.cons.injEq,
        true_and] at h
      obtain ⟨rfl, hrest⟩ := e.cut e' (by cases a <;> rfl) (by cases a' <;> rfl) h
      obtain ⟨rfl, hend⟩ := a.cutMore a' hrest
      exact ⟨rfl, hend⟩

end

/-! ## Statements -/

/-- A value that is yielded, up to the semicolon. -/
theorem yield_cut (value value' : Option Expression) {ks ks' : List Lexeme}
    (h : (Statement.yield value).spelling ++ ks = (Statement.yield value').spelling ++ ks') :
    value = value' ∧ ks = ks' := by
  cases value with
  | none =>
      cases value' with
      | none => simpa [Statement.spelling] using h
      | some e =>
          obtain ⟨l, ls, he, -, hend⟩ := Compile.expression_starts e
          simp only [Statement.spelling, he, List.cons_append, List.nil_append, List.cons.injEq,
            true_and] at h
          exact absurd h.1.symm hend
  | some e =>
      cases value' with
      | none =>
          obtain ⟨l, ls, he, -, hend⟩ := Compile.expression_starts e
          simp only [Statement.spelling, he, List.cons_append, List.nil_append, List.cons.injEq,
            true_and] at h
          exact absurd h.1 hend
      | some e' =>
          simp only [Statement.spelling, List.cons_append, List.append_assoc, List.cons.injEq,
            true_and] at h
          obtain ⟨rfl, hend⟩ := e.cut e' (by rfl) (by rfl) h
          exact ⟨rfl, (List.cons.inj hend).2⟩

theorem allows_elsePart_else : allows (some (.word "else")) .elsePart = false := by
  decide

theorem allows_statements_word {w : String} (hw : w ∈ statementWords) :
    allows (some (.word w)) .statements = false := by
  have hall : ∀ x ∈ statementWords, allows (some (.word x)) .statements = false := by decide
  exact hall w hw

mutual

theorem Statement.cut (s s' : Statement) {ks ks' : List Lexeme}
    (hk : allows ks.head? .elsePart = true) (hk' : allows ks'.head? .elsePart = true)
    (h : s.spelling ++ ks = s'.spelling ++ ks') : s = s' ∧ ks = ks' := by
  match s with
  | .assign x e =>
      cases s' with
      | assign x' e' =>
          simp only [Statement.spelling, List.cons_append, List.append_assoc, List.cons.injEq,
            name_eq_name, true_and] at h
          obtain ⟨rfl, hrest⟩ := h
          obtain ⟨rfl, hend⟩ := e.cut e' (by rfl) (by rfl) hrest
          exact ⟨rfl, (List.cons.inj hend).2⟩
      | yield value => cases value <;> simp [Statement.spelling, word_eq_word] at h
      | _ => simp [Statement.spelling, word_eq_word] at h
  | .assignElement x i e =>
      cases s' with
      | assignElement x' i' e' =>
          simp only [Statement.spelling, List.cons_append, List.append_assoc, List.cons.injEq,
            name_eq_name, true_and] at h
          obtain ⟨rfl, hrest⟩ := h
          obtain ⟨rfl, hvalue⟩ := i.cut i' (by rfl) (by rfl) hrest
          obtain ⟨rfl, hend⟩ :=
            e.cut e' (by rfl) (by rfl) (List.cons.inj (List.cons.inj hvalue).2).2
          exact ⟨rfl, (List.cons.inj hend).2⟩
      | yield value => cases value <;> simp [Statement.spelling, word_eq_word] at h
      | _ => simp [Statement.spelling, word_eq_word] at h
  | .conditional e b a =>
      cases s' with
      | conditional e' b' a' =>
          simp only [Statement.spelling, List.cons_append, List.append_assoc, List.cons.injEq,
            true_and] at h
          obtain ⟨rfl, hbody⟩ := e.cut e' (by rfl) (by rfl) h
          obtain ⟨rfl, helse⟩ :=
            b.cut b' (by rfl) (by rfl) (List.cons.inj (List.cons.inj hbody).2).2
          obtain ⟨rfl, hend⟩ := a.cut a' hk hk' (List.cons.inj helse).2
          exact ⟨rfl, hend⟩
      | yield value => cases value <;> simp [Statement.spelling, word_eq_word] at h
      | _ => simp [Statement.spelling, word_eq_word] at h
  | .loop e b =>
      cases s' with
      | loop e' b' =>
          simp only [Statement.spelling, List.cons_append, List.append_assoc, List.cons.injEq,
            true_and] at h
          obtain ⟨rfl, hbody⟩ := e.cut e' (by rfl) (by rfl) h
          obtain ⟨rfl, hend⟩ :=
            b.cut b' (by rfl) (by rfl) (List.cons.inj (List.cons.inj hbody).2).2
          exact ⟨rfl, (List.cons.inj hend).2⟩
      | yield value => cases value <;> simp [Statement.spelling, word_eq_word] at h
      | _ => simp [Statement.spelling, word_eq_word] at h
  | .perform c =>
      cases s' with
      | perform c' =>
          simp only [Statement.spelling, List.cons_append, List.append_assoc, List.cons.injEq,
            true_and] at h
          obtain ⟨rfl, hend⟩ := c.cut c' h
          exact ⟨rfl, (List.cons.inj hend).2⟩
      | yield value => cases value <;> simp [Statement.spelling, word_eq_word] at h
      | _ => simp [Statement.spelling, word_eq_word] at h
  | .yield value =>
      cases s' with
      | yield value' =>
          obtain ⟨rfl, hend⟩ := yield_cut value value' h
          exact ⟨rfl, hend⟩
      | _ => cases value <;> simp [Statement.spelling, word_eq_word] at h

theorem Alternative.cut : ∀ (a a' : Alternative) {ks ks' : List Lexeme},
    allows ks.head? .elsePart = true → allows ks'.head? .elsePart = true →
    a.spelling ++ ks = a'.spelling ++ ks' → a = a' ∧ ks = ks'
  | .absent, .absent, ks, ks', _, _, h => ⟨rfl, h⟩
  | .absent, .present b, ks, ks', hk, _, h => by
      obtain rfl : ks = _ := h
      exact absurd hk (Bool.eq_false_iff.mp allows_elsePart_else)
  | .present b, .absent, ks, ks', _, hk', h => by
      obtain rfl : _ = ks' := h
      exact absurd hk' (Bool.eq_false_iff.mp allows_elsePart_else)
  | .present b, .present b', ks, ks', _, _, h => by
      simp only [Alternative.spelling, List.cons_append, List.append_assoc, List.cons.injEq,
        true_and] at h
      obtain ⟨rfl, hend⟩ := b.cut b' (by rfl) (by rfl) h
      exact ⟨rfl, (List.cons.inj hend).2⟩

theorem Block.cut : ∀ (b b' : Block) {ks ks' : List Lexeme},
    allows ks.head? .statements = true → allows ks'.head? .statements = true →
    b.spelling ++ ks = b'.spelling ++ ks' → b = b' ∧ ks = ks'
  | .nil, .nil, ks, ks', _, _, h => ⟨rfl, h⟩
  | .nil, .cons s b, ks, ks', hk, _, h => by
      obtain ⟨w, hw, ls, hs⟩ := statement_starts s
      obtain rfl : ks = _ := h
      simp only [Block.spelling, hs, List.cons_append, List.head?_cons,
        allows_statements_word hw] at hk
      cases hk
  | .cons s b, .nil, ks, ks', _, hk', h => by
      obtain ⟨w, hw, ls, hs⟩ := statement_starts s
      obtain rfl : _ = ks' := h
      simp only [Block.spelling, hs, List.cons_append, List.head?_cons,
        allows_statements_word hw] at hk'
      cases hk'
  | .cons s b, .cons s' b', ks, ks', hk, hk', h => by
      simp only [Block.spelling, List.append_assoc] at h
      obtain ⟨rfl, hrest⟩ :=
        s.cut s' (Phrase.contains_statement b hk) (Phrase.contains_statement b' hk') h
      obtain ⟨rfl, hend⟩ := b.cut b' hk hk' hrest
      exact ⟨rfl, hend⟩

end

/-! ## Declarations -/

theorem TypeName.lexeme_injective {t t' : TypeName} (h : t.lexeme = t'.lexeme) : t = t' := by
  have hnamed : ∀ (x : String) (p : TypeName), p.lexeme = .name x → p = .named x := by
    intro x p hp
    cases p with
    | named y => rw [Compile.name_injective hp]
    | _ => exact absurd hp (word_ne_name _ x)
  cases t' with
  | named x => exact hnamed x t h
  | _ =>
      cases t with
      | named x => exact absurd h (name_ne_word x _)
      | _ => first | rfl | exact absurd (word_injective h) (by decide)

theorem returnLexeme_injective {t t' : Option TypeName} (h : returnLexeme t = returnLexeme t') :
    t = t' := by
  have hvoid : ∀ p : TypeName, p.lexeme ≠ .word "void" := by
    intro p
    cases p with
    | named x => exact name_ne_word x _
    | _ => decide
  cases t with
  | none =>
      cases t' with
      | none => rfl
      | some p => exact absurd h.symm (hvoid p)
  | some p =>
      cases t' with
      | none => exact absurd h (hvoid p)
      | some p' => rw [TypeName.lexeme_injective h]

/-- Further names are cut off together with the semicolon behind them. -/
theorem moreNames_cut (xs xs' : List String) {ks ks' : List Lexeme}
    (h : moreNames xs ++ ([Lexeme.word ";"] ++ ks) = moreNames xs' ++ ([Lexeme.word ";"] ++ ks')) :
    xs = xs' ∧ ks = ks' := by
  induction xs generalizing xs' with
  | nil =>
      cases xs' with
      | nil => exact ⟨rfl, (List.cons.inj h).2⟩
      | cons x' xs' => simp [moreNames, word_eq_word] at h
  | cons x xs ih =>
      cases xs' with
      | nil => simp [moreNames, word_eq_word] at h
      | cons x' xs' =>
          simp only [moreNames, List.flatMap_cons, List.cons_append, List.nil_append,
            List.cons.injEq, name_eq_name, true_and] at h
          obtain ⟨rfl, hrest⟩ := h
          obtain ⟨rfl, hend⟩ := ih xs' hrest
          exact ⟨rfl, hend⟩

theorem VarDec.cut (d d' : VarDec) {ks ks' : List Lexeme}
    (h : d.spelling ++ ks = d'.spelling ++ ks') : d = d' ∧ ks = ks' := by
  obtain ⟨type, first, more⟩ := d
  obtain ⟨type', first', more'⟩ := d'
  simp only [VarDec.spelling, VarDec.phrase, List.cons_append, List.append_assoc, List.cons.injEq,
    name_eq_name] at h
  obtain ⟨htype, rfl, hrest⟩ := h
  obtain rfl := TypeName.lexeme_injective htype
  obtain ⟨rfl, hend⟩ := moreNames_cut more more' hrest
  exact ⟨rfl, hend⟩

/-- Repetitions of one kind of phrase: each starts with one of the words `ws`, which do not stand
behind the last, and can be cut off. -/
theorem flatMap_cut {α : Type} {f : α → List Lexeme} (ws : List String)
    (hstart : ∀ x, ∃ w ∈ ws, ∃ ls, f x = .word w :: ls)
    (hcut : ∀ (x x' : α) {ks ks' : List Lexeme}, f x ++ ks = f x' ++ ks' → x = x' ∧ ks = ks')
    (xs xs' : List α) {ks ks' : List Lexeme} (hk : Stops ws ks) (hk' : Stops ws ks')
    (h : xs.flatMap f ++ ks = xs'.flatMap f ++ ks') : xs = xs' ∧ ks = ks' := by
  have hmore : ∀ (x : α) (ls : List Lexeme), ¬Stops ws (f x ++ ls) := by
    intro x ls hstops
    obtain ⟨w, hw, ms, hx⟩ := hstart x
    exact hstops w hw (by rw [hx]; rfl)
  induction xs generalizing xs' with
  | nil =>
      cases xs' with
      | nil => exact ⟨rfl, h⟩
      | cons x' xs' =>
          obtain rfl : ks = _ := h
          rw [List.flatMap_cons, List.append_assoc] at hk
          exact absurd hk (hmore x' _)
  | cons x xs ih =>
      cases xs' with
      | nil =>
          obtain rfl : _ = ks' := h
          rw [List.flatMap_cons, List.append_assoc] at hk'
          exact absurd hk' (hmore x _)
      | cons x' xs' =>
          rw [List.flatMap_cons, List.flatMap_cons, List.append_assoc, List.append_assoc] at h
          obtain ⟨rfl, hrest⟩ := hcut x x' h
          obtain ⟨rfl, hend⟩ := ih xs' hrest
          exact ⟨rfl, hend⟩

theorem Variable.cut (p p' : Variable) {ks ks' : List Lexeme}
    (h : p.spelling ++ ks = p'.spelling ++ ks') : p = p' ∧ ks = ks' := by
  obtain ⟨type, x⟩ := p
  obtain ⟨type', x'⟩ := p'
  simp only [Variable.spelling, List.cons_append, List.nil_append, List.cons.injEq,
    name_eq_name] at h
  obtain ⟨htype, rfl, hend⟩ := h
  obtain rfl := TypeName.lexeme_injective htype
  exact ⟨rfl, hend⟩

theorem moreParameters_cut (ps ps' : List Variable) {ks ks' : List Lexeme}
    (h : moreParameters ps ++ (.word ")" :: ks) = moreParameters ps' ++ (.word ")" :: ks')) :
    ps = ps' ∧ ks = ks' := by
  have hcut : ∀ (p p' : Variable) {ks ks' : List Lexeme},
      .word "," :: p.spelling ++ ks = .word "," :: p'.spelling ++ ks' → p = p' ∧ ks = ks' :=
    fun p p' _ _ h => p.cut p' (List.cons.inj h).2
  obtain ⟨rfl, hend⟩ := flatMap_cut [","] (fun p => ⟨",", by decide, _, rfl⟩) hcut ps ps'
    (stops_word (by decide) _) (stops_word (by decide) _) h
  exact ⟨rfl, (List.cons.inj hend).2⟩

/-- Parameters are cut off together with the parenthesis that closes them. -/
theorem parameters_cut (ps ps' : List Variable) {ks ks' : List Lexeme}
    (h : parametersSpelling ps ++ (.word ")" :: ks) =
      parametersSpelling ps' ++ (.word ")" :: ks')) : ps = ps' ∧ ks = ks' := by
  cases ps with
  | nil =>
      cases ps' with
      | nil => exact ⟨rfl, (List.cons.inj h).2⟩
      | cons p' ps' => exact absurd (List.cons.inj h).1.symm (Compile.type_ne_close p'.type)
  | cons p ps =>
      cases ps' with
      | nil => exact absurd (List.cons.inj h).1 (Compile.type_ne_close p.type)
      | cons p' ps' =>
          simp only [parametersSpelling, List.append_assoc] at h
          obtain ⟨rfl, hrest⟩ := p.cut p' h
          obtain ⟨rfl, hend⟩ := moreParameters_cut ps ps' hrest
          exact ⟨rfl, hend⟩

theorem locals_cut (ds ds' : List VarDec) {ks ks' : List Lexeme} (hk : Stops ["var"] ks)
    (hk' : Stops ["var"] ks') (h : localsSpelling ds ++ ks = localsSpelling ds' ++ ks') :
    ds = ds' ∧ ks = ks' := by
  refine flatMap_cut ["var"] (fun d => ⟨"var", by decide, _, rfl⟩) ?_ ds ds' hk hk' h
  intro d d' ks ks' h
  exact d.cut d' (List.cons.inj h).2

theorem ClassVarDec.cut (d d' : ClassVarDec) {ks ks' : List Lexeme}
    (h : d.spelling ++ ks = d'.spelling ++ ks') : d = d' ∧ ks = ks' := by
  obtain ⟨kind, dec⟩ := d
  obtain ⟨kind', dec'⟩ := d'
  obtain ⟨hkind, hrest⟩ := List.cons.inj h
  have hword : ∀ k k' : ClassVarKind, k.word = k'.word → k = k' := by
    intro k k'
    cases k <;> cases k' <;> decide
  obtain rfl := hword kind kind' (word_injective hkind)
  obtain ⟨rfl, hend⟩ := dec.cut dec' hrest
  exact ⟨rfl, hend⟩

theorem Subroutine.cut (s s' : Subroutine) {ks ks' : List Lexeme}
    (h : s.spelling ++ ks = s'.spelling ++ ks') : s = s' ∧ ks = ks' := by
  obtain ⟨kind, type, x, ps, ds, b⟩ := s
  obtain ⟨kind', type', x', ps', ds', b'⟩ := s'
  have hname : ∀ k k' : SubroutineKind, k.name = k'.name → k = k' := by
    intro k k'
    cases k <;> cases k' <;> decide
  simp only [Subroutine.spelling, List.cons_append, List.append_assoc, List.nil_append,
    List.cons.injEq, word_eq_word, name_eq_name, true_and] at h
  obtain ⟨hkind, htype, rfl, hrest⟩ := h
  obtain rfl := hname kind kind' hkind
  obtain rfl := returnLexeme_injective htype
  obtain ⟨rfl, hlocals⟩ := parameters_cut ps ps' hrest
  obtain ⟨rfl, hbody⟩ := locals_cut ds ds' (Compile.stops_var b _) (Compile.stops_var b' _)
    (List.cons.inj hlocals).2
  obtain ⟨rfl, hend⟩ := b.cut b' (by rfl) (by rfl) hbody
  exact ⟨rfl, (List.cons.inj hend).2⟩

/-- Trees with the same spelling are equal. -/
theorem ClassDecl.spelling_injective {cd cd' : ClassDecl} (h : cd.spelling = cd'.spelling) :
    cd = cd' := by
  obtain ⟨x, ds, ss⟩ := cd
  obtain ⟨x', ds', ss'⟩ := cd'
  have hkind : ∀ s : Subroutine, s.kind.name ∈ SubroutineKind.all.map SubroutineKind.name := by
    intro s
    cases s.kind <;> decide
  have hvar : ∀ d : ClassVarDec, d.kind.word ∈ ["static", "field"] := by
    intro d
    cases d.kind <;> decide
  -- Behind the class variables comes a subroutine or the end of the class.
  have hstops : ∀ ss : List Subroutine, Stops ["static", "field"]
      (ss.flatMap Subroutine.spelling ++ [Lexeme.word closeBrace]) := by
    intro ss
    cases ss with
    | nil => exact stops_word (by decide) _
    | cons s ss =>
        have hs : s.kind.name ∉ ["static", "field"] := by cases s.kind <;> decide
        exact stops_word hs _
  simp only [ClassDecl.spelling, List.cons_append, List.append_assoc, List.cons.injEq,
    name_eq_name, true_and] at h
  obtain ⟨rfl, hrest⟩ := h
  obtain ⟨rfl, hsubroutines⟩ := flatMap_cut _ (fun d => ⟨_, hvar d, _, rfl⟩) ClassVarDec.cut ds ds'
    (hstops ss) (hstops ss') hrest
  obtain ⟨rfl, -⟩ := flatMap_cut _ (fun s => ⟨_, hkind s, _, rfl⟩) Subroutine.cut ss ss'
    (stops_word (by decide) []) (stops_word (by decide) []) hsubroutines
  rfl

end Jack.Syntax
