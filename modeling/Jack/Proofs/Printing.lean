import Jack.Proofs.Lexing

/-!
# Printing and cutting

What a source is cut into determines how it is cut: if a source splits into gaps and lexemes, these
lexemes are the ones that are found (`Splits.cutsInto`). So `Splits` describes the tokens of a
source completely (`splits_iff`).

Hence valid lexemes can be printed and read back. They are printed with a separator between any two
neighbours, which starts with a blank (`Printed`). The blank is what keeps neighbours apart: two
runs do not fuse, and a slash does not open a comment. What follows the blank is free, as long as
each comment in it is closed; what a string or a comment holds is never looked into.
-/

namespace Jack

open Token

namespace Token

/-! ## Cutting what stands there -/

theorem closeComment_of_body {body : List Char} (h : ¬['*', '/'] <:+: body ++ ['*'])
    (rest : List Char) :
    closeComment (body ++ '*' :: '/' :: rest) = some (body ++ ['*', '/'], rest) := by
  induction body with
  | nil => rfl
  | cons c body ih =>
      rw [List.cons_append] at h
      have hbody := ih fun hin => h (List.infix_cons hin)
      have hopen : ∀ ds, c = '*' → body ++ '*' :: '/' :: rest = '/' :: ds → False := by
        rintro ds rfl heq
        cases body with
        | nil => cases heq
        | cons d body =>
            obtain rfl : d = '/' := (List.cons.inj heq).1
            exact h ⟨[], body ++ ['*'], rfl⟩
      rw [List.cons_append, closeComment, hbody]
      · rfl
      · exact hopen

/-- What separates is cut as a gap. -/
theorem cut_of_separates {p rest : List Char} (h : Separates p rest) :
    ∃ c more, p = c :: more ∧ cut c (more ++ rest) = .ok (.gap p, rest) := by
  cases h with
  | @blank c _ hc =>
      refine ⟨c, [], rfl, ?_⟩
      rw [cut, if_pos (isSpace_iff.mpr hc)]
      rfl
  | @line body _ hbody hrest =>
      refine ⟨'/', '/' :: body, rfl, ?_⟩
      have hin : ∀ c ∈ '/' :: body, (c != '\n') = true := by
        refine List.forall_mem_cons.mpr ⟨by decide, fun c hc => ?_⟩
        simpa using fun heq : c = '\n' => hbody (heq ▸ hc)
      have hend : ∀ c, rest.head? = some c → (c != '\n') = false := by
        intro c hc
        simpa using hrest c hc
      obtain ⟨htake, hdrop⟩ := while_append hin hend
      rw [cut, if_neg (by decide), if_pos ⟨rfl, rfl⟩, htake, hdrop]
  | @block body rest hbody =>
      refine ⟨'/', '*' :: (body ++ ['*', '/']), rfl, ?_⟩
      have hclose := closeComment_of_body hbody rest
      simp only [cut, List.cons_append, List.append_assoc, List.nil_append, List.head?_cons,
        List.tail_cons, hclose]
      rfl

theorem cut_run {before after more : List Char} {c : Char}
    (h : MaximalRun before (c :: more) after) :
    cut c (more ++ after) = .ok (.lexeme (classify (c :: more)) (c :: more), after) := by
  obtain ⟨hc, hmore⟩ := List.forall_mem_cons.mp h.alphanumeric
  have hrun : isRun c = true := hc
  have hspace : isSpace c = false := by
    rw [← Bool.not_eq_true, isSpace_iff]
    intro hblank
    rw [isAlphanum_of_mem_blanks hblank] at hc
    cases hc
  have hslash : c ≠ '/' := by
    rintro rfl
    cases hc
  obtain ⟨htake, hdrop⟩ := while_append (p := isRun) hmore h.right
  simp [cut, hspace, hslash, hrun, htake, hdrop]

/-- A lexeme is cut where it can stand. -/
theorem cut_of_stands {before after : List Char} {l : Lexeme} (h : l.Stands before after) :
    ∃ c more p, l.source = c :: more ∧ p.lexeme? = some l ∧
      cut c (more ++ after) = .ok (p, after) := by
  obtain ⟨kind, text⟩ := l
  have hrun : kind = runKind text → MaximalRun before text.toList after →
      ∃ c more p, text.toList = c :: more ∧ Piece.lexeme? p = some ⟨kind, text⟩ ∧
        cut c (more ++ after) = .ok (p, after) := by
    intro hkind hmaximal
    obtain ⟨c, more, hcs⟩ := List.exists_cons_of_ne_nil hmaximal.nonempty
    refine ⟨c, more, .lexeme kind text.toList, hcs, by simp [Piece.lexeme?], ?_⟩
    have hclass := classify_eq text.toList
    rw [String.ofList_toList, ← hkind] at hclass
    rw [hcs] at hmaximal hclass ⊢
    rw [cut_run hmaximal, hclass]
  cases kind with
  | keyword | identifier | integer => exact hrun h.2 h.1
  | string =>
      have hliteral : ∀ c ∈ text.toList, isLiteral c = true := by
        intro c hc
        simp only [isLiteral, Bool.and_eq_true, bne_iff_ne]
        exact ⟨fun heq => h.1 (heq ▸ hc), fun heq => h.2 (heq ▸ hc)⟩
      refine ⟨'"', text.toList ++ ['"'], .lexeme .string text.toList, rfl, by simp [Piece.lexeme?],
        ?_⟩
      rw [List.append_assoc]
      exact cut_string hliteral after
  | symbol =>
      obtain ⟨c, hcs, hblank, hword, hquote, hcomment⟩ := h
      have hspace : isSpace c = false := by
        rw [← Bool.not_eq_true, isSpace_iff]
        exact hblank
      have htext : String.ofList [c] = text := by rw [← hcs, String.ofList_toList]
      refine ⟨c, [], .lexeme .symbol [c], hcs, by rw [← htext]; rfl, ?_⟩
      have hword : isRun c = false := hword
      have hline : ¬(c = '/' ∧ after.head? = some '/') := fun hc => (hcomment hc.1).1 hc.2
      have hblock : ¬(c = '/' ∧ after.head? = some '*') := fun hc => (hcomment hc.1).2 hc.2
      simp [cut, hspace, hword, hquote, hline, hblock]

theorem closeComment_of_notMem {cs : List Char} (h : ¬['*', '/'] <:+: cs) :
    closeComment cs = none := by
  rw [Option.eq_none_iff_forall_ne_some]
  rintro ⟨body, rest⟩ hclose
  obtain ⟨text, rfl, -⟩ := closeComment_eq_some hclose
  exact h ⟨text, rest, closeComment_append hclose⟩

theorem dropWhile_isLiteral_ne {cs : List Char} (h : '"' ∉ cs.takeWhile (· != '\n'))
    (rest : List Char) : cs.dropWhile isLiteral ≠ '"' :: rest := by
  intro hrest
  have hcs := List.takeWhile_append_dropWhile (p := isLiteral) (l := cs)
  have hline : ∀ c ∈ cs.takeWhile isLiteral, (c != '\n') = true := by
    intro c hc
    have hliteral : isLiteral c = true := List.mem_takeWhile_imp hc
    exact (Bool.and_eq_true_iff.mp hliteral).2
  rw [← hcs, hrest, List.takeWhile_append_of_pos hline] at h
  exact h (List.mem_append_right _ (List.mem_cons_self ..))

/-- Nothing is cut where an open piece starts. -/
theorem cut_of_starts {u : Unclosed} {rest : List Char} (h : u.Starts rest) :
    ∃ c cs, rest = c :: cs ∧ cut c cs = .error u := by
  cases u with
  | comment =>
      obtain ⟨body, rfl, hbody⟩ := h
      refine ⟨'/', '*' :: body, rfl, ?_⟩
      simp only [cut, List.head?_cons, List.tail_cons, closeComment_of_notMem hbody]
      rfl
  | string =>
      obtain ⟨cs, rfl, hquote⟩ := h
      refine ⟨'"', cs, rfl, ?_⟩
      have hform := cut_form '"' cs
      generalize cut '"' cs = result at hform ⊢
      cases hform with
      | blank hc | line hc | block hc | openComment hc | run hc => cases hc
      | string _ hcs => exact absurd hcs (dropWhile_isLiteral_ne hquote _)
      | openString => rfl
      | symbol _ _ hne => exact absurd rfl hne

theorem cutAll_of_starts {u : Unclosed} {rest : List Char} (h : u.Starts rest) :
    cutAll rest = ⟨[], some (u, rest)⟩ := by
  obtain ⟨c, cs, rfl, hcut⟩ := cut_of_starts h
  rw [cutAll]
  split <;> simp_all

/-! ## Cutting what is split -/

/-- Gaps are cut into pieces without a lexeme. -/
theorem CutsInto.gap {g cs rest : List Char} {qs : List Piece} (hg : Gap g cs)
    (h : CutsInto cs qs rest) :
    ∃ gs, gs.filterMap Piece.lexeme? = [] ∧ CutsInto (g ++ cs) (gs ++ qs) rest := by
  induction hg with
  | nil => exact ⟨[], rfl, h⟩
  | @cons p g cs hp hg ih =>
      obtain ⟨gs, hgs, hcuts⟩ := ih h
      obtain ⟨c, more, rfl, hcut⟩ := cut_of_separates hp
      rw [List.append_assoc, List.cons_append]
      exact ⟨.gap (c :: more) :: gs, hgs, hcuts.cons hcut⟩

/-- The lexemes that a source splits into are cut off it first. -/
theorem Splits.cutsInto {before cs rest : List Char} {ls : List Lexeme}
    (h : Splits before cs ls rest) :
    ∃ qs, qs.filterMap Piece.lexeme? = ls ∧ CutsInto cs qs rest := by
  induction h with
  | last hg =>
      obtain ⟨gs, hgs, hcuts⟩ := CutsInto.gap hg (.nil _)
      rw [List.append_nil] at hcuts
      exact ⟨gs, hgs, hcuts⟩
  | @next before g after rest l ls hg hl hrest ih =>
      obtain ⟨qs, hqs, hcuts⟩ := ih
      obtain ⟨c, more, p, hsource, hp, hcut⟩ := cut_of_stands hl
      have hlexeme : CutsInto (l.source ++ after) (p :: qs) rest := by
        rw [hsource, List.cons_append]
        exact hcuts.cons hcut
      obtain ⟨gs, hgs, hall⟩ := hlexeme.gap hg
      refine ⟨gs ++ p :: qs, ?_, hall⟩
      rw [List.filterMap_append, hgs, List.nil_append, List.filterMap_cons_some hp, hqs]

/-- A source splits into lexemes to its end exactly if these are its tokens. -/
theorem splits_iff {source : String} {ls : List Lexeme} (file : String) :
    Splits [] source.toList ls [] ↔
      (scan source file).fault = none ∧ (scan source file).tokens.map Token.lexeme = ls := by
  unfold scan
  dsimp only
  rw [lexemes_place, Option.map_eq_none_iff]
  constructor
  · intro h
    have hnil : cutAll [] = ⟨[], none⟩ := by rw [cutAll]
    obtain ⟨qs, hqs, hcuts⟩ := h.cutsInto
    rw [hcuts.unclosed, hcuts.pieces, hnil, List.append_nil]
    exact ⟨rfl, hqs⟩
  · rintro ⟨hunclosed, rfl⟩
    have hsplits := cutAll_splits source.toList [] fun _ _ h => by cases h
    rw [rest_eq_nil_iff.mpr hunclosed] at hsplits
    exact hsplits

/-! ## Printed lexemes -/

/-- Blanks and comments that are closed, a line comment by its newline. -/
inductive Filler : List Char → Prop where
  | nil : Filler []
  | blank {c : Char} {g : List Char} (hc : c ∈ blanks) (hg : Filler g) : Filler (c :: g)
  | line {body g : List Char} (hbody : '\n' ∉ body) (hg : Filler g) :
      Filler ('/' :: '/' :: body ++ '\n' :: g)
  | block {body g : List Char} (hbody : ¬['*', '/'] <:+: body ++ ['*']) (hg : Filler g) :
      Filler ('/' :: '*' :: (body ++ ['*', '/']) ++ g)

/-- What may stand between two printed lexemes. -/
inductive Separator : List Char → Prop where
  | mk {c : Char} {g : List Char} (hc : c ∈ blanks) (hg : Filler g) : Separator (c :: g)

/-- The characters are the lexemes one after the other, with a separator between neighbours. -/
inductive Printed : List Lexeme → List Char → Prop where
  | nil : Printed [] []
  | single (l : Lexeme) : Printed [l] l.source
  | cons {l l' : Lexeme} {ls : List Lexeme} {g cs : List Char} (hg : Separator g)
      (hrest : Printed (l' :: ls) cs) : Printed (l :: l' :: ls) (l.source ++ (g ++ cs))

theorem Filler.gap {g : List Char} (h : Filler g) (rest : List Char) : Gap g rest := by
  induction h with
  | nil => exact .nil
  | @blank c g hc hg ih => exact .cons (p := [c]) (.blank hc) ih
  | @line body g hbody hg ih =>
      have hend : Gap ('\n' :: g) rest := .cons (p := ['\n']) (.blank (by decide)) ih
      refine .cons (.line hbody fun c hc => ?_) hend
      exact (Option.some.inj hc).symm
  | @block body g hbody hg ih => exact .cons (.block hbody) ih

/-- Behind these characters a run can start. -/
def Free (before : List Char) : Prop :=
  ∀ c, before.getLast? = some c → c.isAlphanum = false

theorem free_nil : Free [] := fun c hc => by cases hc

theorem free_concat {c : Char} (hc : c.isAlphanum = false) (before : List Char) :
    Free (before ++ [c]) := by
  intro d hd
  rw [List.getLast?_concat] at hd
  exact Option.some.inj hd ▸ hc

theorem Free.append {before g : List Char} (hbefore : Free before) (hg : Free g) :
    Free (before ++ g) := by
  intro c hc
  rw [List.getLast?_append] at hc
  cases hlast : g.getLast? with
  | none =>
      rw [hlast] at hc
      exact hbefore c hc
  | some d =>
      rw [hlast] at hc
      exact hg c (hlast.trans hc)

theorem Filler.free {g : List Char} (h : Filler g) : Free g := by
  induction h with
  | nil => exact free_nil
  | @blank c g hc hg ih => exact (free_concat (isAlphanum_of_mem_blanks hc) []).append ih
  | @line body g hbody hg ih =>
      have hend := free_concat (c := '\n') (by decide) ('/' :: '/' :: body)
      simpa using hend.append ih
  | @block body g hbody hg ih =>
      have hend := free_concat (c := '/') (by decide) ('/' :: '*' :: body ++ ['*'])
      simpa using hend.append ih

theorem Separator.gap {g : List Char} (h : Separator g) (rest : List Char) : Gap g rest := by
  obtain ⟨hc, hg⟩ := h
  exact (Filler.blank hc hg).gap rest

theorem Separator.free {g : List Char} (h : Separator g) (before : List Char) :
    Free (before ++ g) := by
  obtain @⟨c, g, hc, hg⟩ := h
  have hblank := free_concat (isAlphanum_of_mem_blanks hc) before
  simpa using hblank.append hg.free

theorem Separator.head_mem {g : List Char} (h : Separator g) (cs : List Char) :
    ∀ c, (g ++ cs).head? = some c → c ∈ blanks := by
  obtain ⟨hc, hg⟩ := h
  intro d hd
  exact Option.some.inj hd ▸ hc

/-- A valid lexeme can stand where a run can start, in front of a blank or at the end. -/
theorem stands_of_valid {before after : List Char} {l : Lexeme} (h : l.valid = true)
    (hbefore : Free before) (hafter : ∀ c, after.head? = some c → c ∈ blanks) :
    l.Stands before after := by
  have hright : ∀ c, after.head? = some c → c.isAlphanum = false :=
    fun c hc => isAlphanum_of_mem_blanks (hafter c hc)
  obtain ⟨kind, text⟩ := l
  cases kind with
  | keyword =>
      have hword : text ∈ keywords := List.contains_iff_mem.mp h
      have hne : text.toList ≠ [] := by
        have hall : ∀ k ∈ keywords, k.toList ≠ [] := by decide
        exact hall text hword
      have hrun := List.all_eq_true.mp (keywords_all_isRun h)
      exact ⟨⟨hne, hrun, hbefore, hright⟩, by simp [runKind, hword]⟩
  | symbol =>
      simp only [Lexeme.valid] at h
      split at h
      · next c hc =>
          simp only [Bool.and_eq_true, Bool.not_eq_true', bne_iff_ne] at h
          refine ⟨c, hc, fun hblank => ?_, h.1.2, h.2, fun _ => ?_⟩
          · rw [isSpace_iff.mpr hblank] at h
            cases h.1.1
          · constructor <;> intro hnext <;> exact absurd (hafter _ hnext) (by decide)
      · cases h
  | identifier =>
      simp only [Lexeme.valid, Bool.and_eq_true, Bool.not_eq_true'] at h
      obtain ⟨⟨hrun, hdigit⟩, hword⟩ := h
      have hne : text.toList ≠ [] := by
        intro hnil
        rw [hnil] at hdigit
        cases hdigit
      have hnot : text ∉ keywords := by
        intro hmem
        rw [List.contains_iff_mem.mpr hmem] at hword
        cases hword
      exact ⟨⟨hne, List.all_eq_true.mp hrun, hbefore, hright⟩, by simp [runKind, hnot, hdigit]⟩
  | integer =>
      simp only [Lexeme.valid, Bool.and_eq_true, Bool.not_eq_true'] at h
      obtain ⟨hne, hdigit⟩ := h
      have hne : text.toList ≠ [] := by simpa using hne
      have hrun : ∀ c ∈ text.toList, c.isAlphanum = true := by
        intro c hc
        simp [Char.isAlphanum, List.all_eq_true.mp hdigit c hc]
      have hnot : text ∉ keywords := by
        have hall : ∀ k ∈ keywords, k.toList.all Char.isDigit = false := by decide
        intro hmem
        rw [hall text hmem] at hdigit
        cases hdigit
      exact ⟨⟨hne, hrun, hbefore, hright⟩, by simp [runKind, hnot, hdigit]⟩
  | string =>
      have hliteral : ∀ c ∈ text.toList, c ≠ '"' ∧ c ≠ '\n' := by
        intro c hc
        simpa [isLiteral] using List.all_eq_true.mp h c hc
      exact ⟨fun hc => (hliteral _ hc).1 rfl, fun hc => (hliteral _ hc).2 rfl⟩

/-- Gaps may stand in front of what is split. -/
theorem Splits.behind {before g cs rest : List Char} {ls : List Lexeme} (hg : Gap g cs)
    (h : Splits (before ++ g) cs ls rest) : Splits before (g ++ cs) ls rest := by
  induction hg generalizing before with
  | nil => simpa using h
  | @cons p g cs hp hg ih =>
      rw [List.append_assoc]
      exact (ih (by simpa using h)).separate hp

/-- What is printed behind a free place splits into the lexemes that were printed. -/
theorem Printed.splits {ls : List Lexeme} {cs before : List Char} (h : Printed ls cs)
    (hvalid : ∀ l ∈ ls, l.valid = true) (hbefore : Free before) : Splits before cs ls [] := by
  induction h generalizing before with
  | nil => exact .last (g := []) .nil
  | single l =>
      have hstands : l.Stands (before ++ []) [] := by
        rw [List.append_nil]
        exact stands_of_valid (hvalid l (List.mem_singleton_self l)) hbefore fun c hc => by cases hc
      have hend : Splits (before ++ [] ++ l.source) [] [] [] := .last (g := []) .nil
      simpa using Splits.next (g := []) .nil hstands hend
  | @cons l l' ls g cs hg hrest ih =>
      obtain ⟨hl, hls⟩ := List.forall_mem_cons.mp hvalid
      have hstands : l.Stands (before ++ []) (g ++ cs) := by
        rw [List.append_nil]
        exact stands_of_valid hl hbefore (hg.head_mem cs)
      have hbehind := ih hls (hg.free (before ++ [] ++ l.source))
      exact .next (g := []) .nil hstands (hbehind.behind (hg.gap cs))

/-- Lexing undoes printing: whatever separates them, valid lexemes that are printed are read back,
and nothing else is. -/
theorem scan_printed {ls : List Lexeme} {source : String} (h : Printed ls source.toList)
    (hvalid : ∀ l ∈ ls, l.valid = true) (file : String) :
    (scan source file).fault = none ∧ (scan source file).tokens.map Token.lexeme = ls :=
  (splits_iff file).mp (h.splits hvalid free_nil)

/-- Lexemes with a blank between neighbours. -/
def spaced : List Lexeme → List Char
  | [] => []
  | [l] => l.source
  | l :: ls => l.source ++ ' ' :: spaced ls

/-- Only blanks are added to what lexemes consist of. -/
theorem all_spaced {p : Char → Bool} (hblank : p ' ' = true) :
    ∀ {ls : List Lexeme}, (ls.all fun l => l.source.all p) = true → (spaced ls).all p = true
  | [], _ => rfl
  | [l], h => by simpa [spaced] using h
  | l :: l' :: ls, h => by
      rw [List.all_cons, Bool.and_eq_true] at h
      simp [spaced, h.1, hblank, all_spaced hblank h.2]

theorem printed_spaced : ∀ ls : List Lexeme, Printed ls (spaced ls)
  | [] => .nil
  | [l] => .single l
  | l :: l' :: ls => .cons (g := [' ']) (.mk (by decide) .nil) (printed_spaced (l' :: ls))

/-- A slash, a text and a reserved word. -/
def slashTextLet : List Lexeme := [⟨.symbol, "/"⟩, ⟨.string, "// text"⟩, ⟨.keyword, "let"⟩]

/-- The comments hold quotes, and the text looks like a comment. -/
theorem printed_slashTextLet :
    Printed slashTextLet "/ /* \" */\"// text\"\t// \"\nlet".toList := by
  have hbody : ¬['*', '/'] <:+: [' ', '"', ' '] ++ ['*'] := by decide
  have hblock : Separator " /* \" */".toList := .mk (by decide) (.block hbody .nil)
  have hrest : '\n' ∉ [' ', '"'] := by decide
  have hline : Separator "\t// \"\n".toList := .mk (by decide) (.line hrest .nil)
  exact .cons hblock (.cons hline (.single ⟨.keyword, "let"⟩))

theorem scan_slashTextLet :
    (scan "/ /* \" */\"// text\"\t// \"\nlet" "Main.jack").fault = none ∧
      (scan "/ /* \" */\"// text\"\t// \"\nlet" "Main.jack").tokens.map Token.lexeme =
        slashTextLet :=
  scan_printed printed_slashTextLet (by decide) "Main.jack"

end Token

end Jack
