import Jack.Compile.Goal
import Jack.Text.Numeral
import Jack.Token.Scan

/-!
# Lexemes

What the grammar sees of a token: its kind and its text. A fixed word of the grammar has exactly
one lexeme (`Lexeme.word`), and for a lexically valid token the tests that select a production
are equations between lexemes (`isWord_iff`, `isIdentifier_iff`).

`Lexeme.valid` says which kinds and texts can come out of a source. Every token cut from a source
is valid (`scan_valid`), so a statement about lists of valid tokens covers every source; the
places where validity matters are the reading of an integer (`readInteger_of_valid`) and the
names in instructions (`isLineName_of_valid`).
-/

namespace Jack

/-- Kind and text of a token. -/
structure Lexeme where
  kind : Token.Kind
  text : String
  deriving Repr, DecidableEq

/-- What the grammar sees of a token. -/
def Token.lexeme (t : Token) : Lexeme := ⟨t.kind, t.text⟩

namespace Lexeme

/-- The fixed word or sign `w`: a keyword if it is reserved, else a symbol. -/
def word (w : String) : Lexeme :=
  ⟨if Token.keywords.contains w then .keyword else .symbol, w⟩

/-- The name `x`. -/
def name (x : String) : Lexeme := ⟨.identifier, x⟩

/-- What can be cut from a source: a reserved word, a symbol that is neither blank nor part of a
run nor a quote, a run that is neither reserved nor a number, a run of digits, and a text that
does not end its literal. -/
def valid (l : Lexeme) : Bool :=
  match l.kind with
  | .keyword => Token.keywords.contains l.text
  | .symbol =>
    match l.text.toList with
    | [c] => !Token.isSpace c && !Token.isRun c && c != '"'
    | _ => false
  | .identifier =>
    l.text.toList.all Token.isRun && !l.text.toList.all Char.isDigit
      && !Token.keywords.contains l.text
  | .integer => !l.text.toList.isEmpty && l.text.toList.all Char.isDigit
  | .string => l.text.toList.all Token.isLiteral

end Lexeme

/-! ## Tests on tokens as equations between lexemes -/

theorem keywords_all_isRun {w : String} (h : Token.keywords.contains w = true) :
    w.toList.all Token.isRun = true := by
  have hall : ∀ k ∈ Token.keywords, k.toList.all Token.isRun = true := by decide
  exact hall w (List.contains_iff_mem.mp h)

/-- A symbol is no run of letters and digits, hence never spelled like a reserved word. -/
theorem not_keyword_of_valid_symbol {w : String} (h : Lexeme.valid ⟨.symbol, w⟩ = true) :
    Token.keywords.contains w = false := by
  cases hk : Token.keywords.contains w with
  | false => rfl
  | true =>
      have hrun := keywords_all_isRun hk
      simp only [Lexeme.valid] at h
      split at h
      · next c hc =>
          rw [hc] at hrun
          simp_all
      · cases h

/-- On valid tokens the test for a fixed word is an equation. -/
theorem isWord_iff {t : Token} (h : t.lexeme.valid = true) (w : String) :
    t.isWord w = true ↔ t.lexeme = .word w := by
  obtain ⟨kind, text, location⟩ := t
  simp only [Token.isWord, Token.lexeme, Lexeme.word, Lexeme.mk.injEq, Bool.and_eq_true,
    Bool.or_eq_true, beq_iff_eq]
  constructor
  · intro h
    rcases h with ⟨hkind, rfl⟩
    refine ⟨?_, rfl⟩
    rcases hkind with rfl | rfl
    · exact (if_pos (show Token.keywords.contains text = true from h)).symm
    · rw [not_keyword_of_valid_symbol h]
      rfl
  · intro h
    rcases h with ⟨hkind, rfl⟩
    refine ⟨?_, rfl⟩
    rw [hkind]
    split
    · exact .inl rfl
    · exact .inr rfl

/-- A keyword test for reserved words is an equation, whatever the token. -/
theorem isKeyword_iff {t : Token} {w : String} {ws : List String}
    (hws : ∀ x ∈ w :: ws, Token.keywords.contains x = true) :
    t.isKeyword (w :: ws) = true ↔ ∃ x ∈ w :: ws, t.lexeme = .word x := by
  simp only [Token.isKeyword, Token.lexeme, Lexeme.word, Lexeme.mk.injEq, Bool.and_eq_true,
    beq_iff_eq, List.isEmpty_cons, Bool.false_or]
  constructor
  · intro h
    rcases h with ⟨hkind, hmem⟩
    have hmem := List.contains_iff_mem.mp hmem
    exact ⟨t.text, hmem, by rw [if_pos (hws _ hmem), hkind], rfl⟩
  · intro h
    rcases h with ⟨x, hmem, hkind, rfl⟩
    rw [if_pos (hws _ hmem)] at hkind
    exact ⟨hkind, List.contains_iff_mem.mpr hmem⟩

theorem isKeyword_singleton_iff {t : Token} {w : String}
    (hw : Token.keywords.contains w = true) : t.isKeyword [w] = true ↔ t.lexeme = .word w := by
  rw [isKeyword_iff (by simpa using hw)]
  simp

/-- A name is known by its kind alone. -/
theorem isIdentifier_iff {t : Token} : t.isIdentifier = true ↔ t.lexeme = .name t.text := by
  simp only [Token.isIdentifier, Token.lexeme, Lexeme.name, Lexeme.mk.injEq, beq_iff_eq, and_true]

/-! ## Reading integers -/

theorem digitValue?_of_isDigit {c : Char} (h : c.isDigit = true) :
    Text.digitValue? c = some (c.toNat - '0'.toNat) := by
  simp only [Char.isDigit, ge_iff_le, Bool.and_eq_true, decide_eq_true_eq] at h
  have hlo : 48 ≤ c.toNat := UInt32.le_iff_toNat_le.mp h.1
  have hhi : c.toNat ≤ 57 := UInt32.le_iff_toNat_le.mp h.2
  simp [Text.digitValue?, Text.digitZeros, hlo, hhi]

theorem isMargin_eq_false_of_isDigit {c : Char} (h : c.isDigit = true) :
    Text.isMargin c = false := by
  simp only [Char.isDigit, ge_iff_le, Bool.and_eq_true, decide_eq_true_eq] at h
  have hlo : 48 ≤ c.toNat := UInt32.le_iff_toNat_le.mp h.1
  have hhi : c.toNat ≤ 57 := UInt32.le_iff_toNat_le.mp h.2
  have hne : c ≠ ' ' := by
    intro heq
    subst heq
    exact absurd hlo (by decide)
  simp [Text.isMargin, hne]
  omega

/-- Digits have no blanks around them to drop. -/
theorem trimMargins_of_digits {cs : List Char} (h : cs.all Char.isDigit = true) :
    Text.trimMargins cs = cs := by
  have hdrop : ∀ l : List Char, l.all Char.isDigit = true → l.dropWhile Text.isMargin = l := by
    intro l hl
    cases l with
    | nil => rfl
    | cons c l =>
        have hc : c.isDigit = true := List.all_eq_true.mp hl c (List.mem_cons_self ..)
        rw [List.dropWhile_cons, isMargin_eq_false_of_isDigit hc]
        rfl
  rw [Text.trimMargins, hdrop cs h, hdrop cs.reverse (by rwa [List.all_reverse]),
    List.reverse_reverse]

/-- A run of digits is taken as a whole. -/
theorem takeDigits_of_digits {cs : List Char} (h : cs.all Char.isDigit = true) :
    Text.takeDigits cs = some (cs.map fun c => c.toNat - '0'.toNat, []) := by
  induction cs with
  | nil => rfl
  | cons c cs ih =>
      rw [List.all_cons, Bool.and_eq_true] at h
      have hc : c ≠ '_' := by
        intro heq
        subst heq
        exact absurd h.1 (by decide)
      have hvalue := digitValue?_of_isDigit h.1
      rw [List.map_cons]
      cases cs with
      | nil => simp [Text.takeDigits, hc, hvalue]
      | cons d cs => simp [Text.takeDigits, hc, hvalue, ih h.2]

/-- Digits alone are read as their decimal value, unless there are too many of them. -/
theorem readNatural_of_digits (limit : Option Nat) {cs : List Char} (hne : cs ≠ [])
    (h : cs.all Char.isDigit = true) :
    Text.readNatural limit cs =
      if Text.beyond limit cs.length then .error (.tooLong cs.length)
      else .ok (Nat.ofDigitChars 10 cs 0) := by
  have hhead : cs.head? ≠ some '_' := by
    intro heq
    have hmem := List.all_eq_true.mp h '_' (List.mem_of_head? heq)
    exact absurd hmem (by decide)
  have hdigits : (cs.map fun c => c.toNat - '0'.toNat).isEmpty = false := by simpa using hne
  rw [Text.readNatural, if_neg hhead, takeDigits_of_digits h]
  simp only [List.length_map, hdigits, List.isEmpty_nil, Bool.not_true, Bool.or_self,
    Bool.false_eq_true, if_false, List.foldl_map]
  rfl

/-- The integer of a valid lexeme is the decimal value of its digits, unless there are too many of
them. -/
theorem readInteger_of_valid {text : String} (h : Lexeme.valid ⟨.integer, text⟩ = true)
    (limit : Option Nat) :
    Text.readInteger text limit =
      if Text.beyond limit text.length then .error (.tooLong text.length)
      else .ok (Int.ofNat (Nat.ofDigitChars 10 text.toList 0)) := by
  simp only [Lexeme.valid, Bool.and_eq_true, Bool.not_eq_true', List.isEmpty_eq_false_iff] at h
  obtain ⟨hne, hall⟩ := h
  have hread := readNatural_of_digits limit hne hall
  rw [Text.readInteger, trimMargins_of_digits hall]
  split
  · next heq =>
      rw [heq] at hall
      simp at hall
  · next heq =>
      rw [heq] at hall
      simp at hall
  · rw [hread, String.length_toList]
    split <;> rfl

theorem readInteger_of_short {text : String} (h : Lexeme.valid ⟨.integer, text⟩ = true)
    (hshort : text.length ≤ Text.maxDigits) :
    Text.readInteger text = .ok (Int.ofNat (Nat.ofDigitChars 10 text.toList 0)) := by
  rw [readInteger_of_valid h, Text.beyond_some, decide_eq_false (by omega)]
  rfl

theorem readInteger_of_long {text : String} (h : Lexeme.valid ⟨.integer, text⟩ = true)
    (hlong : Text.maxDigits < text.length) :
    Text.readInteger text = .error (.tooLong text.length) := by
  rw [readInteger_of_valid h, Text.beyond_some, decide_eq_true hlong]
  rfl

/-! ## Names in instructions -/

theorem isBlank_eq_false_of_isRun {c : Char} (h : Token.isRun c = true) :
    Text.isBlank c = false := by
  have hn : (65 ≤ c.toNat ∧ c.toNat ≤ 90) ∨ (97 ≤ c.toNat ∧ c.toNat ≤ 122)
      ∨ (48 ≤ c.toNat ∧ c.toNat ≤ 57) := by
    have hrun : ((c.isUpper || c.isLower) || c.isDigit) = true := h
    simp only [Bool.or_eq_true] at hrun
    rcases hrun with (hupper | hlower) | hdigit
    · have hrange := of_decide_eq_true hupper
      exact .inl ⟨UInt32.le_iff_toNat_le.mp hrange.1, UInt32.le_iff_toNat_le.mp hrange.2⟩
    · have hrange := Bool.and_eq_true_iff.mp hlower
      exact .inr (.inl ⟨UInt32.le_iff_toNat_le.mp (of_decide_eq_true hrange.1),
        UInt32.le_iff_toNat_le.mp (of_decide_eq_true hrange.2)⟩)
    · have hrange := Bool.and_eq_true_iff.mp hdigit
      exact .inr (.inr ⟨UInt32.le_iff_toNat_le.mp (of_decide_eq_true hrange.1),
        UInt32.le_iff_toNat_le.mp (of_decide_eq_true hrange.2)⟩)
  simp [Text.isBlank]
  omega

/-- A name that was cut from a source keeps its place in an instruction line. -/
theorem isLineName_of_valid {x : String} (h : Lexeme.valid (.name x) = true) :
    isLineName x = true := by
  simp only [Lexeme.valid, Lexeme.name, Bool.and_eq_true] at h
  obtain ⟨⟨hrun, hdigit⟩, -⟩ := h
  have hne : x ≠ "" := by
    intro heq
    subst heq
    exact absurd hdigit (by decide)
  have hblank : x.toList.any Text.isBlank = false := by
    rw [List.any_eq_false]
    intro c hc
    rw [isBlank_eq_false_of_isRun (List.all_eq_true.mp hrun c hc)]
    exact Bool.false_ne_true
  simp [isLineName, hne, hblank]

/-- A text without blanks. -/
def Unbroken (x : String) : Prop := x.toList.any Text.isBlank = false

theorem unbroken_of_isLineName {x : String} (h : isLineName x = true) : Unbroken x := by
  simp only [isLineName, Bool.and_eq_true, Bool.not_eq_true'] at h
  exact h.2

/-- The dot alone would keep its place, so only blanks could spoil a qualified name. -/
theorem isLineName_of_unbroken {x y : String} (hx : Unbroken x) (hy : Unbroken y) :
    isLineName s!"{x}.{y}" = true := by
  show isLineName (x ++ "." ++ y) = true
  simp only [isLineName, Unbroken, Bool.and_eq_true, Bool.not_eq_true',
    String.isEmpty_eq_false_iff] at *
  have hdot : Text.isBlank '.' = false := by decide
  refine ⟨by simp, ?_⟩
  simp [hx, hy, hdot]

/-- A qualified name keeps its place if both of its parts do. -/
theorem isLineName_qualified {x y : String} (hx : isLineName x = true)
    (hy : isLineName y = true) : isLineName s!"{x}.{y}" = true :=
  isLineName_of_unbroken (unbroken_of_isLineName hx) (unbroken_of_isLineName hy)

/-! ## Tokens cut from a source -/

namespace Token

/-- The token that a piece stands for, if any, is valid. -/
def Piece.Valid : Piece → Prop
  | .gap _ => True
  | .lexeme kind text => Lexeme.valid ⟨kind, String.ofList text⟩ = true

theorem valid_classify {c : Char} {cs : List Char} (h : (c :: cs).all isRun = true) :
    Piece.Valid (.lexeme (classify (c :: cs)) (c :: cs)) := by
  simp only [Piece.Valid, classify]
  split
  · next hk => exact hk
  · next hk =>
      split
      · next hd => simp [Lexeme.valid, hd]
      · next hd =>
          rw [Bool.not_eq_true] at hk hd
          simp only [Lexeme.valid, String.toList_ofList, h, hk, hd, Bool.not_false, Bool.and_self]

theorem cut_valid {c : Char} {cs rest : List Char} {p : Piece} (h : cut c cs = .ok (p, rest)) :
    p.Valid := by
  unfold cut at h
  split at h
  · obtain ⟨rfl, -⟩ := Prod.mk.injEq .. |>.mp (Except.ok.inj h)
    trivial
  · next hspace =>
      split at h
      · obtain ⟨rfl, -⟩ := Prod.mk.injEq .. |>.mp (Except.ok.inj h)
        trivial
      · split at h
        · split at h
          · obtain ⟨rfl, -⟩ := Prod.mk.injEq .. |>.mp (Except.ok.inj h)
            trivial
          · cases h
        · split at h
          · next hrun =>
              obtain ⟨rfl, -⟩ := Prod.mk.injEq .. |>.mp (Except.ok.inj h)
              exact valid_classify (by simp [hrun])
          · next hrun =>
              split at h
              · split at h
                · obtain ⟨rfl, -⟩ := Prod.mk.injEq .. |>.mp (Except.ok.inj h)
                  simp [Piece.Valid, Lexeme.valid]
                · cases h
              · next hquote =>
                  obtain ⟨rfl, -⟩ := Prod.mk.injEq .. |>.mp (Except.ok.inj h)
                  simp [Piece.Valid, Lexeme.valid, hspace, hrun, hquote]

theorem cutAll_valid (cs : List Char) : ∀ p ∈ (cutAll cs).pieces, p.Valid := by
  fun_induction cutAll cs with
  | case1 => exact fun p hp => (List.not_mem_nil hp).elim
  | case2 => exact fun p hp => (List.not_mem_nil hp).elim
  | case3 c cs p rest h later ih =>
      intro q hq
      rcases List.mem_cons.mp hq with rfl | hq
      · exact cut_valid h
      · exact ih q hq

theorem place_valid (file : String) :
    ∀ (ps : List Piece) (pos : Position), (∀ p ∈ ps, p.Valid) →
      ∀ t ∈ (place file pos ps).1, t.lexeme.valid = true
  | [], _, _, _, ht => (List.not_mem_nil ht).elim
  | p :: ps, pos, hps, t, ht => by
      have ih := place_valid file ps (pos.afterAll p.source)
        (fun q hq => hps q (List.mem_cons_of_mem _ hq))
      cases p with
      | gap cs => exact ih t ht
      | lexeme kind text =>
          rcases List.mem_cons.mp ht with rfl | ht
          · exact hps _ (List.mem_cons_self ..)
          · exact ih t ht

/-- Every token that is cut from a source is valid. -/
theorem scan_valid (source file : String) :
    ∀ t ∈ (scan source file).tokens, t.lexeme.valid = true :=
  place_valid file _ _ (cutAll_valid source.toList)

end Token

end Jack
