import Jack.Proofs.Positions
import Jack.Proofs.Subjects
import Jack.Source

/-!
# Lines that are shown

The line of a place is counted by newlines alone, but the lines to show are cut at every line end. A
text with a newline in place of every line end (`newlined`) has its shown lines between newlines
(`splitOn_newlined`), so that both can be counted in the same way.

A form feed, say, ends a line that is shown and none that is counted (`IsUncounted`). If there is
no such line end in front of a token, a complaint about the token shows its line. Otherwise the
numbers differ from there on, and a line is shown that ends in front of the token (`shown_line`).
-/

namespace Jack

open Compile (Options)
open Token (Position)

namespace Text

/-- The text with one newline in place of every line end. -/
def newlined : List Char → List Char
  | [] => []
  | '\r' :: '\n' :: cs => '\n' :: newlined cs
  | c :: cs => (if isLineBreak c then '\n' else c) :: newlined cs

/-- How many lines end in a text, as lines are quoted. -/
def lineEnds (cs : List Char) : Nat := (newlined cs).count '\n'

theorem newline_isLineBreak : isLineBreak '\n' = true := by decide

theorem ne_newline {c : Char} (h : ¬isLineBreak c = true) : c ≠ '\n' :=
  fun hc => h (hc ▸ newline_isLineBreak)

/-! ## From line end to line end -/

/-- A line ends at two characters, at one, or further on. -/
@[elab_as_elim]
theorem lines_induction {motive : List Char → Prop} (nil : motive [])
    (pair : ∀ cs, motive cs → motive ('\r' :: '\n' :: cs))
    (single : ∀ c cs, isLineBreak c = true → (c = '\r' → cs.head? ≠ some '\n') → motive cs →
      motive (c :: cs))
    (other : ∀ c cs, ¬isLineBreak c = true → motive cs → motive (c :: cs)) (cs : List Char) :
    motive cs := by
  fun_induction newlined cs with
  | case1 => exact nil
  | case2 cs ih => exact pair cs ih
  | case3 c cs hcr ih =>
      by_cases hc : isLineBreak c = true
      · refine single c cs hc (fun hreturn hhead => ?_) ih
        obtain ⟨ds, rfl⟩ := List.head?_eq_some_iff.mp hhead
        exact hcr ds hreturn rfl
      · exact other c cs hc ih

section

variable {c : Char} {cs : List Char}

theorem newlined_single (hc : isLineBreak c = true) (hcr : c = '\r' → cs.head? ≠ some '\n') :
    newlined (c :: cs) = '\n' :: newlined cs := by
  rw [newlined, if_pos hc]
  rintro ds hreturn rfl
  exact hcr hreturn rfl

theorem newlined_other (hc : ¬isLineBreak c = true) : newlined (c :: cs) = c :: newlined cs := by
  rw [newlined, if_neg hc]
  rintro ds rfl rfl
  exact hc (by decide)

theorem splitLines_single (hc : isLineBreak c = true) (hcr : c = '\r' → cs.head? ≠ some '\n') :
    splitLines (c :: cs) = [] :: splitLines cs := by
  rw [splitLines, if_pos hc]
  rintro ds hreturn rfl
  exact hcr hreturn rfl

theorem splitLines_other (hc : ¬isLineBreak c = true) :
    splitLines (c :: cs) = consLine c (splitLines cs) := by
  rw [splitLines, if_neg hc]
  rintro ds rfl rfl
  exact hc (by decide)

theorem lineEnds_pair (cs : List Char) : lineEnds ('\r' :: '\n' :: cs) = lineEnds cs + 1 :=
  List.count_cons_self

theorem lineEnds_single (hc : isLineBreak c = true) (hcr : c = '\r' → cs.head? ≠ some '\n') :
    lineEnds (c :: cs) = lineEnds cs + 1 := by
  rw [lineEnds, newlined_single hc hcr, List.count_cons_self, lineEnds]

theorem lineEnds_other (hc : ¬isLineBreak c = true) : lineEnds (c :: cs) = lineEnds cs := by
  rw [lineEnds, newlined_other hc, List.count_cons_of_ne (ne_newline hc), lineEnds]

theorem splitOn_newline (cs : List Char) : ('\n' :: cs).splitOn '\n' = [] :: cs.splitOn '\n' := by
  rw [List.splitOn_cons_eq_if_modifyHead, if_pos (by rfl)]

theorem splitOn_other (hc : ¬isLineBreak c = true) (cs : List Char) :
    (c :: cs).splitOn '\n' = (cs.splitOn '\n').modifyHead (c :: ·) := by
  rw [List.splitOn_cons_eq_if_modifyHead, if_neg (by simpa using ne_newline hc)]

end

/-- The quoted lines of a text are its fields between line ends, except that an empty field behind
the last line end is no line. -/
theorem splitOn_newlined (cs : List Char) :
    (newlined cs).splitOn '\n' = splitLines cs ∨
      (newlined cs).splitOn '\n' = splitLines cs ++ [[]] := by
  induction cs using lines_induction with
  | nil => exact .inr rfl
  | pair cs ih =>
      rw [newlined, splitLines, splitOn_newline]
      exact ih.imp (congrArg ([] :: ·)) (congrArg ([] :: ·))
  | single c cs hc hcr ih =>
      rw [newlined_single hc hcr, splitLines_single hc hcr, splitOn_newline]
      exact ih.imp (congrArg ([] :: ·)) (congrArg ([] :: ·))
  | other c cs hc ih =>
      rw [newlined_other hc, splitLines_other hc, splitOn_other hc]
      cases hlines : splitLines cs with
      | nil =>
          rw [hlines] at ih
          rw [ih.resolve_left (List.splitOn_ne_nil _ _)]
          exact .inl rfl
      | cons l ls =>
          rw [hlines] at ih
          refine ih.imp (fun h => ?_) fun h => ?_
          · rw [h]
            rfl
          · rw [h]
            rfl

/-- A text can be cut anywhere but in the middle of a line end. -/
theorem newlined_append {cs ds : List Char} (h : ds.head? ≠ some '\n') :
    newlined (cs ++ ds) = newlined cs ++ newlined ds := by
  induction cs using lines_induction with
  | nil => rfl
  | pair cs ih => exact congrArg ('\n' :: ·) ih
  | single c cs hc hcr ih =>
      have hcr' : c = '\r' → (cs ++ ds).head? ≠ some '\n' := by
        cases cs with
        | nil => exact fun _ => h
        | cons d cs => exact hcr
      rw [List.cons_append, newlined_single hc hcr', newlined_single hc hcr, ih, List.cons_append]
  | other c cs hc ih =>
      rw [List.cons_append, newlined_other hc, newlined_other hc, ih, List.cons_append]

/-- Up to the first line end nothing is replaced. -/
theorem takeWhile_newlined (cs : List Char) :
    (newlined cs).takeWhile (· != '\n') = cs.takeWhile (!isLineBreak ·) := by
  induction cs using lines_induction with
  | nil => rfl
  | pair cs ih => rfl
  | single c cs hc hcr ih => simp [newlined_single hc hcr, hc]
  | other c cs hc ih => simp [newlined_other hc, hc, ne_newline hc, ih]

/-! ## Counted lines and quoted lines -/

/-- A newline ends a quoted line, too. -/
theorem count_le_lineEnds (cs : List Char) : cs.count '\n' ≤ lineEnds cs := by
  induction cs using lines_induction with
  | nil => exact Nat.le_refl _
  | pair cs ih =>
      rw [lineEnds_pair, List.count_cons_of_ne (by decide), List.count_cons_self]
      exact Nat.succ_le_succ ih
  | single c cs hc hcr ih =>
      rw [lineEnds_single hc hcr, List.count_cons]
      split <;> omega
  | other c cs hc ih =>
      rw [lineEnds_other hc, List.count_cons_of_ne (ne_newline hc)]
      exact ih

/-- A character belongs to the last line of a text if no newline is behind it. -/
theorem rtakeWhile_cons (c : Char) (cs : List Char) :
    (c :: cs).rtakeWhile (· != '\n') =
      if '\n' ∈ c :: cs then cs.rtakeWhile (· != '\n') else c :: cs.rtakeWhile (· != '\n') := by
  split
  · next h =>
      induction cs using List.reverseRecOn with
      | nil => simp [List.rtakeWhile, ← List.mem_singleton.mp h]
      | append_singleton cs d ih =>
          rw [← List.cons_append, List.rtakeWhile_concat, List.rtakeWhile_concat]
          split
          · next hd =>
              have hmem : '\n' ∈ c :: cs := by
                rw [← List.cons_append] at h
                refine (List.mem_append.mp h).resolve_right fun hmem => ?_
                simp [← List.mem_singleton.mp hmem] at hd
              rw [ih hmem]
          · rfl
  · next h =>
      have hself : ∀ ds : List Char, '\n' ∉ ds → ds.rtakeWhile (· != '\n') = ds := by
        intro ds hds
        refine List.rtakeWhile_eq_self_iff.mpr fun d hd => ?_
        simpa using fun hnewline : d = '\n' => hds (hnewline ▸ hd)
      rw [hself _ h, hself _ fun hmem => h (List.mem_cons_of_mem c hmem)]

/-- The character ends a shown line and no counted one: it is no newline, and no carriage return in
front of one. -/
def IsUncounted (b : Char) (behind : List Char) : Prop :=
  isLineBreak b = true ∧ b ≠ '\n' ∧ (b = '\r' → behind.head? ≠ some '\n')

/-- A line of the text ends that is not counted. -/
def HasUncounted (cs : List Char) : Prop :=
  ∃ front b behind, cs = front ++ b :: behind ∧ IsUncounted b behind

@[simp] theorem hasUncounted_cons {c : Char} {cs : List Char} :
    HasUncounted (c :: cs) ↔ IsUncounted c cs ∨ HasUncounted cs := by
  constructor
  · rintro ⟨front, b, behind, hcs, hb⟩
    cases front with
    | nil =>
        obtain ⟨rfl, rfl⟩ := List.cons.inj hcs
        exact .inl hb
    | cons d front =>
        obtain ⟨-, rfl⟩ := List.cons.inj hcs
        exact .inr ⟨front, b, behind, rfl, hb⟩
  · rintro (hc | ⟨front, b, behind, rfl, hb⟩)
    · exact ⟨[], c, cs, rfl, hc⟩
    · exact ⟨c :: front, b, behind, rfl, hb⟩

/-- More lines are shown to end than are counted. -/
theorem hasUncounted_iff (cs : List Char) : HasUncounted cs ↔ cs.count '\n' < lineEnds cs := by
  induction cs using lines_induction with
  | nil => simp [HasUncounted, lineEnds, newlined]
  | pair cs ih => simp [ih, IsUncounted, lineEnds_pair]
  | single c cs hc hcr ih =>
      have hle := count_le_lineEnds cs
      rw [hasUncounted_cons, ih, lineEnds_single hc hcr]
      by_cases hnewline : c = '\n'
      · simp [hnewline, IsUncounted]
      · have huncounted : IsUncounted c cs := ⟨hc, hnewline, hcr⟩
        rw [List.count_cons_of_ne hnewline]
        exact iff_of_true (.inl huncounted) (Nat.lt_succ_of_le hle)
  | other c cs hc ih =>
      rw [hasUncounted_cons, ih, lineEnds_other hc, List.count_cons_of_ne (ne_newline hc)]
      exact or_iff_right fun huncounted => hc huncounted.1

/-- If all line ends of a text are counted, its last line is as it was. -/
theorem rtakeWhile_newlined {cs : List Char} (h : lineEnds cs = cs.count '\n') :
    (newlined cs).rtakeWhile (· != '\n') = cs.rtakeWhile (· != '\n') := by
  induction cs using lines_induction with
  | nil => rfl
  | pair cs ih =>
      rw [lineEnds_pair, List.count_cons_of_ne (by decide), List.count_cons_self] at h
      simp [newlined, rtakeWhile_cons, ih (Nat.succ.inj h)]
  | single c cs hc hcr ih =>
      have hle := count_le_lineEnds cs
      rw [lineEnds_single hc hcr, List.count_cons] at h
      split at h
      · next hnewline =>
          obtain rfl := beq_iff_eq.mp hnewline
          simp [newlined_single hc hcr, rtakeWhile_cons, ih (Nat.succ.inj h)]
      · omega
  | other c cs hc ih =>
      rw [lineEnds_other hc, List.count_cons_of_ne (ne_newline hc)] at h
      rw [newlined_other hc, rtakeWhile_cons, rtakeWhile_cons, ih h]
      have hmem : '\n' ∈ newlined cs ↔ '\n' ∈ cs := by
        rw [← List.count_pos_iff, ← List.count_pos_iff, ← h, lineEnds]
      simp only [List.mem_cons, hmem]

/-- A line with a line end behind it lies in the text as it stands. -/
theorem ended_line {cs more line : List Char} {k : Nat} (hk : k < lineEnds cs)
    (hline : ((newlined cs ++ more).splitOn '\n')[k]? = some line) :
    ∃ front b behind, cs = front ++ (line ++ b :: behind) ∧ isLineBreak b = true ∧
      (k = 0 → front = []) := by
  induction cs using lines_induction generalizing k line with
  | nil => cases hk
  | pair cs ih =>
      rw [newlined, List.cons_append, splitOn_newline] at hline
      rw [lineEnds_pair] at hk
      cases k with
      | zero =>
          obtain rfl := Option.some.inj hline
          exact ⟨[], '\r', '\n' :: cs, rfl, by decide, fun _ => rfl⟩
      | succ k =>
          obtain ⟨front, b, behind, rfl, hb, -⟩ := ih (Nat.lt_of_succ_lt_succ hk) hline
          exact ⟨'\r' :: '\n' :: front, b, behind, rfl, hb, fun h => by cases h⟩
  | single c cs hc hcr ih =>
      rw [newlined_single hc hcr, List.cons_append, splitOn_newline] at hline
      rw [lineEnds_single hc hcr] at hk
      cases k with
      | zero =>
          obtain rfl := Option.some.inj hline
          exact ⟨[], c, cs, rfl, hc, fun _ => rfl⟩
      | succ k =>
          obtain ⟨front, b, behind, rfl, hb, -⟩ := ih (Nat.lt_of_succ_lt_succ hk) hline
          exact ⟨c :: front, b, behind, rfl, hb, fun h => by cases h⟩
  | other c cs hc ih =>
      rw [newlined_other hc, List.cons_append, splitOn_other hc, List.getElem?_modifyHead] at hline
      rw [lineEnds_other hc] at hk
      cases k with
      | zero =>
          obtain ⟨l, hl, rfl⟩ := Option.map_eq_some_iff.mp hline
          obtain ⟨front, b, behind, rfl, hb, hfront⟩ := ih hk hl
          obtain rfl := hfront rfl
          exact ⟨[], b, behind, rfl, hb, fun _ => rfl⟩
      | succ k =>
          obtain ⟨front, b, behind, rfl, hb, -⟩ := ih hk hline
          exact ⟨c :: front, b, behind, rfl, hb, fun h => by cases h⟩

/-- A line is that of the place between `before` and `rest`: up to the column of the place it has
what is in front since the last newline, and from there on what is ahead, up to a line end. -/
structure IsLineOf (line before rest : List Char) : Prop where
  front : line.take ((Position.behind before).column - 1) = before.rtakeWhile (· != '\n')
  ahead : line.drop ((Position.behind before).column - 1) = rest.takeWhile (!isLineBreak ·)

theorem newlined_ne_nil {cs : List Char} (h : cs ≠ []) : newlined cs ≠ [] := by
  fun_cases newlined cs with
  | case1 => exact absurd rfl h
  | case2 cs => exact List.cons_ne_nil _ _
  | case3 c cs hcr => exact List.cons_ne_nil _ _

/-- For every place in front of a character there is a line to show. -/
theorem count_lt_length_splitLines (before : List Char) {rest : List Char} (hne : rest ≠ [])
    (hrest : rest.head? ≠ some '\n') :
    before.count '\n' < (splitLines (before ++ rest)).length := by
  have hle := count_le_lineEnds before
  have hlength := Token.length_splitOn (newlined (before ++ rest))
  have hcount : (newlined (before ++ rest)).count '\n' = lineEnds before + lineEnds rest := by
    rw [newlined_append hrest, List.count_append, lineEnds, lineEnds]
  rw [hcount] at hlength
  rcases splitOn_newlined (before ++ rest) with h | h
  · rw [← h]
    omega
  · -- The empty field that is left out is behind the place, which has a character of its line ahead.
    rw [h, List.length_append, List.length_singleton] at hlength
    by_contra hge
    have hends : (newlined rest).count '\n' = 0 := show lineEnds rest = 0 by omega
    have hlast := Token.splitOn_getElem?_count (newlined before) (newlined rest)
    rw [← newlined_append hrest, h, show (newlined before).count '\n' =
      (splitLines (before ++ rest)).length from show lineEnds before = _ by omega,
      List.getElem?_append_right (Nat.le_refl _), Nat.sub_self] at hlast
    obtain ⟨d, ds, hd⟩ := List.exists_cons_of_ne_nil (newlined_ne_nil hne)
    have hnewline : d ≠ '\n' := fun heq =>
      List.count_eq_zero.mp hends (hd ▸ heq ▸ List.mem_cons_self ..)
    simp [hd, hnewline] at hlast

/-- A line is shown for every place in front of a character, the one with the number of the counted
line. It is the line of the place if all line ends in front of the place are counted, and otherwise
it ends there. -/
theorem shown_line (before : List Char) {rest : List Char} (hne : rest ≠ [])
    (hrest : rest.head? ≠ some '\n') :
    ∃ line, (splitLines (before ++ rest))[before.count '\n']? = some line ∧
      (¬HasUncounted before → IsLineOf line before rest) ∧
      (HasUncounted before →
        ∃ front b behind, before = front ++ (line ++ b :: behind) ∧ isLineBreak b = true) := by
  have hlength := count_lt_length_splitLines before hne hrest
  have hline := List.getElem?_eq_getElem hlength
  have hfields : ((newlined before ++ newlined rest).splitOn '\n')[before.count '\n']? =
      some (splitLines (before ++ rest))[before.count '\n'] := by
    rw [← newlined_append hrest]
    rcases splitOn_newlined (before ++ rest) with h | h
    · rw [h, hline]
    · rw [h, List.getElem?_append_left hlength, hline]
  have hle := count_le_lineEnds before
  rw [hasUncounted_iff]
  refine ⟨_, hline, fun hall => ?_, fun huncounted => ?_⟩
  · have hsame : lineEnds before = before.count '\n' := by omega
    have hplace := Token.splitOn_getElem?_count (newlined before) (newlined rest)
    rw [show (newlined before).count '\n' = before.count '\n' from hsame, hfields,
      rtakeWhile_newlined hsame, takeWhile_newlined] at hplace
    rw [Option.some.inj hplace]
    have hcolumn : (Position.behind before).column - 1 =
        (before.rtakeWhile (· != '\n')).length := Nat.add_sub_cancel_left ..
    exact ⟨hcolumn ▸ List.take_left, hcolumn ▸ List.drop_left⟩
  · obtain ⟨front, b, behind, hbefore, hb, -⟩ := ended_line huncounted hfields
    exact ⟨front, b, behind, hbefore, hb⟩

end Text

/-! ## The lines of tokens -/

/-- The line that is quoted for a place has the number of its counted line. -/
theorem Token.Setting.sourceLine_behind (c : Setting) (before : List Char) (file : String) :
    c.sourceLine ((Position.behind before).inFile file).line = c.lines[before.count '\n']? := by
  have hline : ((Position.behind before).inFile file).line = (1 + before.count '\n' : Nat) := rfl
  have hpos : 0 < ((Position.behind before).inFile file).line := by omega
  have hindex : ((Position.behind before).inFile file).line.toNat - 1 = before.count '\n' := by
    omega
  rw [sourceLine, if_pos hpos, hindex]

/-- The parser shows a line with every complaint, unless this is about the end of the input. The
complaint is about a token of the source, of which it gives the place. The line is that of the token
if all line ends in front of the token are counted; otherwise the line ends in front of the token.
-/
theorem compileSource_shown {o : Options} {source file : String} {d : Diagnostic}
    (hscan : (Token.scan source file).fault = none)
    (herror : (compileSource o source file).result = .error (.diagnostic d)) :
    (∃ expected, d.problem = .unexpectedToken "end of input" expected ∧ d.sourceLine = none) ∨
      ∃ t ∈ (Token.scan source file).tokens, d.problem.Names t ∧ d.location = some t.location ∧
        ∃ shown before after, d.sourceLine = some shown ∧
          source.toList = before ++ (t.lexeme.source ++ after) ∧
          t.location = (Position.behind before).inFile file ∧
          (¬Text.HasUncounted before →
            Text.IsLineOf shown.toList before (t.lexeme.source ++ after)) ∧
          (Text.HasUncounted before → ∃ front b behind,
            before = front ++ (shown.toList ++ b :: behind) ∧ Text.isLineBreak b = true) := by
  rcases compileSource_about hscan herror with ⟨t, ht, habout⟩ | ⟨expected, rfl⟩
  · obtain ⟨before, after, hsource, hstands, hplace⟩ := Token.scan_place ht
    obtain ⟨c, more, -, hc, -⟩ := Token.cut_of_stands hstands
    have hne : t.lexeme.source ++ after ≠ [] := by
      rw [hc]
      exact List.cons_ne_nil _ _
    have hhead : (t.lexeme.source ++ after).head? ≠ some '\n' := by
      rw [hc]
      intro hnewline
      obtain rfl := Option.some.inj hnewline
      exact Token.newline_notMem_source hstands (hc ▸ List.mem_cons_self ..)
    obtain ⟨line, hline, hplain, huncounted⟩ := Text.shown_line before hne hhead
    have hshown : d.sourceLine = some (String.ofList line) := by
      rw [habout.sourceLine, hplace, Token.Setting.sourceLine_behind]
      show ((Text.splitLines source.toList).map String.ofList)[before.count '\n']? = _
      rw [List.getElem?_map, hsource, hline, Option.map_some]
    refine .inr ⟨t, ht, habout.names, habout.location, String.ofList line, before, after, hshown,
      hsource, hplace, ?_⟩
    rw [String.toList_ofList]
    exact ⟨hplain, huncounted⟩
  · exact .inl ⟨expected, rfl, rfl⟩

/-! ## A class without its opening brace -/

def unopened (l m n : Location) : List Token :=
  [⟨.keyword, "class", l⟩, ⟨.identifier, "Main", m⟩, ⟨.integer, "5", n⟩]

theorem compileSource_unopened {source file : String} {l m n : Location}
    (h : Token.scan source file = ⟨unopened l m n, none⟩) :
    (compileSource {} source file).result = .error (.diagnostic
      { problem := .unexpectedToken "'5'" "'\x7b'"
        location := some n
        sourceLine := (Token.Setting.ofTokens file (Text.linesOf source) (unopened l m n)).sourceLine
          n.line }) := by
  rw [compileSource_eq_error_iff (congrArg Token.Lexed.fault h), h]
  -- Four steps read the name of the class; the fifth wants the brace.
  iterate 4 refine (congrArg Compile.Outcome.fault (Compile.run_cons_ok _ rfl)).trans ?_
  exact congrArg Compile.Outcome.fault (Compile.run_cons_error _ rfl)

theorem unopened_shown :
    ∃ d, (compileSource {} "class Main\n  5" "Main.jack").result = .error (.diagnostic d) ∧
      ∃ t ∈ unopened ⟨"Main.jack", 1, 1⟩ ⟨"Main.jack", 1, 7⟩ ⟨"Main.jack", 2, 3⟩,
        d.problem.Names t ∧ d.location = some t.location ∧
        ∃ shown before after, d.sourceLine = some shown ∧
          "class Main\n  5".toList = before ++ (t.lexeme.source ++ after) ∧
          t.location = (Position.behind before).inFile "Main.jack" ∧
          (¬Text.HasUncounted before →
            Text.IsLineOf shown.toList before (t.lexeme.source ++ after)) ∧
          (Text.HasUncounted before → ∃ front b behind,
            before = front ++ (shown.toList ++ b :: behind) ∧ Text.isLineBreak b = true) := by
  have hscan : Token.scan "class Main\n  5" "Main.jack" =
      ⟨unopened ⟨"Main.jack", 1, 1⟩ ⟨"Main.jack", 1, 7⟩ ⟨"Main.jack", 2, 3⟩, none⟩ := by
    decide +kernel
  have herror := compileSource_unopened hscan
  have hshows := compileSource_shown (congrArg Token.Lexed.fault hscan) herror
  rw [hscan] at hshows
  refine ⟨_, herror, hshows.resolve_left ?_⟩
  rintro ⟨expected, hend, -⟩
  exact absurd (Problem.unexpectedToken.inj hend).1 (by decide)

/-- The form feed ends a line that is shown, but no line that is counted. -/
theorem formFeed_shown :
    ∃ d, (compileSource {} "class\x0cMain\n5" "Main.jack").result = .error (.diagnostic d) ∧
      d.problem.message = "expected '\x7b', got '5'" ∧
      d.location = some ⟨"Main.jack", 2, 1⟩ ∧ d.sourceLine = some "Main" ∧
      (Text.newlineFields "class\x0cMain\n5".toList)[1]? = some ['5'] := by
  have hscan : Token.scan "class\x0cMain\n5" "Main.jack" =
      ⟨unopened ⟨"Main.jack", 1, 1⟩ ⟨"Main.jack", 1, 7⟩ ⟨"Main.jack", 2, 1⟩, none⟩ := by
    decide +kernel
  exact ⟨_, compileSource_unopened hscan, by decide, rfl, by decide +kernel, by decide +kernel⟩

end Jack
