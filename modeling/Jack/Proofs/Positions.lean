import Jack.Proofs.Printing
import Mathlib.Data.List.DropRight

/-!
# Lines and columns

A position is counted while the source is cut, piece by piece and over every kind of piece. Here it
is given by the characters in front of it alone (`Position.behind`): the line counts the newlines
among them, and the column counts the characters behind the last of these. No other character
starts a line.

The place of a token is that of its first character (`CutAt`), and a complaint has the place where
the open piece starts (`OpenAt`). Both places are determined by the source. The line that is shown
with an open string is the line of that place (`Shows`), so the quote is found in it at the column
of the complaint.
-/

namespace Jack

open Token

namespace Token

/-! ## The position behind some characters -/

/-- The position behind the characters `before` of a source. -/
def Position.behind (before : List Char) : Position :=
  ⟨1 + before.count '\n', 1 + (before.rtakeWhile (· != '\n')).length⟩

/-- One more character moves the position on. -/
theorem Position.behind_concat (before : List Char) (c : Char) :
    Position.behind (before ++ [c]) = (Position.behind before).after c := by
  unfold Position.behind Position.after
  rw [List.count_append, List.rtakeWhile_concat]
  by_cases hc : c = '\n'
  · subst hc
    simp [Nat.add_assoc]
  · simp [hc, Nat.add_assoc]

/-- Characters without a newline move a position on in its line. -/
theorem Position.behind_append (before : List Char) {cs : List Char} (h : '\n' ∉ cs) :
    Position.behind (before ++ cs) =
      ⟨(Position.behind before).line, (Position.behind before).column + cs.length⟩ := by
  induction cs using List.reverseRecOn with
  | nil => rw [List.append_nil, List.length_nil, Nat.add_zero]
  | append_singleton cs c ih =>
      have hcs : '\n' ∉ cs := fun hmem => h (List.mem_append_left _ hmem)
      have hc : c ≠ '\n' := fun heq => h (List.mem_append_right _ (heq ▸ List.mem_singleton_self c))
      rw [← List.append_assoc, Position.behind_concat, ih hcs, Position.after, if_neg hc,
        List.length_append, List.length_singleton, Nat.add_assoc]

theorem Position.afterAll_eq (before : List Char) :
    Position.afterAll {} before = Position.behind before := by
  induction before using List.reverseRecOn with
  | nil => rfl
  | append_singleton before c ih =>
      rw [Position.behind_concat, ← ih]
      exact List.foldl_concat ..

theorem Position.afterAll_append (pos : Position) (cs ds : List Char) :
    pos.afterAll (cs ++ ds) = (pos.afterAll cs).afterAll ds :=
  List.foldl_append ..

/-! ## The line of a place -/

theorem newlineFields_eq (cs : List Char) : Text.newlineFields cs = cs.splitOn '\n' := by
  induction cs with
  | nil => rfl
  | cons c cs ih =>
      rw [Text.newlineFields, List.splitOn_cons_eq_if_modifyHead, ih]
      by_cases hc : c = '\n'
      · simp [hc]
      · have hne := List.splitOn_ne_nil '\n' cs
        simp only [hc, beq_iff_eq, if_false]
        cases hfields : cs.splitOn '\n' with
        | nil => exact absurd hfields hne
        | cons l ls => rfl

theorem length_splitOn (cs : List Char) : (cs.splitOn '\n').length = cs.count '\n' + 1 := by
  induction cs with
  | nil => rfl
  | cons c cs ih =>
      rw [List.splitOn_cons_eq_if_modifyHead]
      by_cases hc : c = '\n'
      · simp [hc, ih]
      · simp [hc, ih]

/-- A line that nothing is in front of ends at the first newline. -/
theorem splitOn_getElem?_zero {line : List Char} (h : '\n' ∉ line) (rest : List Char) :
    ((line ++ rest).splitOn '\n')[0]? = some (line ++ rest.takeWhile (· != '\n')) := by
  have hfront : '\n' ∉ line ++ rest.takeWhile (· != '\n') := by
    intro hmem
    rcases List.mem_append.mp hmem with hmem | hmem
    · exact h hmem
    · simpa using List.mem_takeWhile_imp hmem
  have hsplit := List.takeWhile_append_dropWhile (p := (· != '\n')) (l := rest)
  cases hdrop : rest.dropWhile (· != '\n') with
  | nil =>
      rw [hdrop, List.append_nil] at hsplit
      rw [hsplit] at hfront ⊢
      rw [List.splitOn_eq_singleton hfront]
      rfl
  | cons c more =>
      have hc : c = '\n' := by
        simpa using head?_dropWhile_eq (p := (· != '\n')) (by rw [hdrop]; rfl)
      subst hc
      rw [hdrop] at hsplit
      conv_lhs => rw [← hsplit, ← List.append_assoc]
      rw [List.splitOn_append_cons_self_of_not_mem hfront]
      rfl

/-- The line of the place behind `before`. -/
theorem splitOn_getElem?_count (before rest : List Char) :
    ((before ++ rest).splitOn '\n')[before.count '\n']? =
      some (before.rtakeWhile (· != '\n') ++ rest.takeWhile (· != '\n')) := by
  have hline : '\n' ∉ before.rtakeWhile (· != '\n') := by
    intro hmem
    simpa using List.mem_rtakeWhile_imp hmem
  have hcut := List.rdropWhile_append_rtakeWhile (p := (· != '\n')) (l := before)
  rcases List.eq_nil_or_concat (before.rdropWhile (· != '\n')) with hnil | ⟨front, c, hfront⟩
  · rw [hnil, List.nil_append] at hcut
    rw [hcut] at hline ⊢
    rw [List.count_eq_zero.mpr hline]
    exact splitOn_getElem?_zero hline rest
  · have hc : c = '\n' := by
      have hlast := List.rdropWhile_last_not (· != '\n') before (by simp [hfront])
      simpa [hfront] using hlast
    subst hc
    rw [hfront, List.concat_eq_append, List.append_assoc] at hcut
    have hcount : before.count '\n' = (front.splitOn '\n').length := by
      rw [length_splitOn, ← hcut, List.count_append, List.singleton_append, List.count_cons_self,
        List.count_eq_zero.mpr hline]
    have hsource : before ++ rest =
        front ++ '\n' :: (before.rtakeWhile (· != '\n') ++ rest) := by
      conv_lhs => rw [← hcut]
      simp
    rw [hcount, hsource, List.splitOn_append_cons_self,
      List.getElem?_append_right (Nat.le_refl _), Nat.sub_self]
    exact splitOn_getElem?_zero hline rest

/-! ## The current line -/

theorem Reading.afterAll_concat (r : Reading) (before : List Char) (c : Char) :
    r.afterAll (before ++ [c]) = (r.afterAll before).after c :=
  List.foldl_concat ..

theorem Reading.offset_afterAll (before : List Char) :
    (Reading.afterAll {} before).offset = before.length := by
  induction before using List.reverseRecOn with
  | nil => rfl
  | append_singleton before c ih =>
      rw [Reading.afterAll_concat, Reading.after, List.length_append, List.length_singleton, ← ih]
      split <;> rfl

/-- The line start that is kept while a source is read is the place behind the last newline. -/
theorem Reading.drop_lineStart (before : List Char) :
    (Reading.afterAll {} before).lineStart ≤ before.length ∧
      before.drop (Reading.afterAll {} before).lineStart = before.rtakeWhile (· != '\n') := by
  induction before using List.reverseRecOn with
  | nil => exact ⟨Nat.le_refl 0, rfl⟩
  | append_singleton before c ih =>
      obtain ⟨hle, hdrop⟩ := ih
      rw [Reading.afterAll_concat, Reading.after, List.rtakeWhile_concat, List.length_append,
        List.length_singleton]
      by_cases hc : c = '\n'
      · simp [hc, Reading.offset_afterAll]
      · rw [if_neg hc]
        refine ⟨Nat.le_succ_of_le hle, ?_⟩
        rw [List.drop_append_of_le_length hle, hdrop]
        simp [hc]

/-- Reading on in a line keeps its start. -/
theorem Reading.lineStart_append (r : Reading) (before : List Char) {cs : List Char}
    (h : '\n' ∉ cs) : (r.afterAll (before ++ cs)).lineStart = (r.afterAll before).lineStart := by
  induction cs using List.reverseRecOn with
  | nil => rw [List.append_nil]
  | append_singleton cs c ih =>
      have hcs : '\n' ∉ cs := fun hmem => h (List.mem_append_left _ hmem)
      have hc : c ≠ '\n' := fun heq => h (List.mem_append_right _ (heq ▸ List.mem_singleton_self c))
      rw [← List.append_assoc, Reading.afterAll_concat, Reading.after, if_neg hc]
      exact ih hcs

/-- The current line is the line with the number that the position has. -/
theorem Reading.getElem?_line (before rest : List Char) {cs : List Char} (h : '\n' ∉ cs) :
    (Text.newlineFields (before ++ rest))[(Position.behind before).line - 1]? =
      some ((Reading.afterAll {} (before ++ cs)).line (before ++ rest)) := by
  obtain ⟨hle, hdrop⟩ := Reading.drop_lineStart before
  have hline : ∀ c ∈ before.rtakeWhile (· != '\n'), (c != '\n') = true := by
    intro c hc
    simpa using List.mem_rtakeWhile_imp hc
  have hnumber : (Position.behind before).line - 1 = before.count '\n' := Nat.add_sub_cancel_left ..
  rw [hnumber, newlineFields_eq, splitOn_getElem?_count, Reading.line,
    Reading.lineStart_append _ before h, List.drop_append_of_le_length hle, hdrop,
    List.takeWhile_append_of_pos hline]

/-! ## Places of tokens -/

/-- Behind lexemes `before`, the lexeme `l` is cut from a source at the offset `p`: the earlier
ones and a gap fill the source up to there, and there it can stand. -/
structure CutAt (chars : List Char) (before : List Lexeme) (l : Lexeme) (p : Nat) : Prop where
  splits : Splits [] chars before (chars.drop p)
  stands : ∃ after, chars.drop p = l.source ++ after ∧ l.Stands (chars.take p) after

theorem length_of_append_drop {cs chars : List Char} {p : Nat} (h : cs ++ chars.drop p = chars)
    (hne : chars.drop p ≠ []) : cs.length = p := by
  have hlength := congrArg List.length h
  have hpos := List.length_pos_of_ne_nil hne
  rw [List.length_append, List.length_drop] at hlength
  rw [List.length_drop] at hpos
  omega

theorem CutAt.pieces {chars : List Char} {before : List Lexeme} {l : Lexeme} {p : Nat}
    (h : CutAt chars before l p) :
    ∃ qs q rs, (cutAll chars).pieces = qs ++ q :: rs ∧ qs.filterMap Piece.lexeme? = before ∧
      Piece.lexeme? q = some l ∧ (qs.flatMap Piece.source).length = p := by
  obtain ⟨qs, hqs, hcuts⟩ := h.splits.cutsInto
  obtain ⟨after, hdrop, hstands⟩ := h.stands
  obtain ⟨c, more, q, hsource, hq, hcut⟩ := cut_of_stands hstands
  have hlength := length_of_append_drop hcuts.source (by simp [hdrop, hsource])
  have hpieces := hcuts.pieces
  rw [hdrop, hsource, List.cons_append, cutAll_cons hcut] at hpieces
  exact ⟨qs, q, _, hpieces, hqs, hq, hlength⟩

/-- A piece with a lexeme is found by the lexemes in front of it. -/
theorem front_unique {qs qs' rs rs' : List Piece} {q q' : Piece} {l l' : Lexeme}
    (h : qs ++ q :: rs = qs' ++ q' :: rs') (hq : Piece.lexeme? q = some l)
    (hq' : Piece.lexeme? q' = some l')
    (hfront : qs.filterMap Piece.lexeme? = qs'.filterMap Piece.lexeme?) : qs = qs' := by
  induction qs generalizing qs' with
  | nil =>
      cases qs' with
      | nil => rfl
      | cons p' qs' =>
          obtain ⟨rfl, -⟩ := List.cons.inj h
          rw [List.filterMap_cons_some hq] at hfront
          cases hfront
  | cons p qs ih =>
      cases qs' with
      | nil =>
          obtain ⟨rfl, -⟩ := List.cons.inj h
          rw [List.filterMap_cons_some hq'] at hfront
          cases hfront
      | cons p' qs' =>
          obtain ⟨rfl, htail⟩ := List.cons.inj h
          refine congrArg (p :: ·) (ih htail ?_)
          cases hp : Piece.lexeme? p with
          | none =>
              rw [List.filterMap_cons_none hp, List.filterMap_cons_none hp] at hfront
              exact hfront
          | some k =>
              rw [List.filterMap_cons_some hp, List.filterMap_cons_some hp] at hfront
              exact (List.cons.inj hfront).2

theorem CutAt.unique {chars : List Char} {before : List Lexeme} {l : Lexeme} {p q : Nat}
    (hp : CutAt chars before l p) (hq : CutAt chars before l q) : p = q := by
  obtain ⟨qs, x, rs, hpieces, hqs, hx, rfl⟩ := hp.pieces
  obtain ⟨qs', y, rs', hpieces', hqs', hy, rfl⟩ := hq.pieces
  rw [front_unique (hpieces.symm.trans hpieces') hx hy (hqs.trans hqs'.symm)]

/-- A token is placed behind the pieces in front of it. -/
theorem place_getElem? {file : String} {pos : Position} {ps : List Piece} {i : Nat} {t : Token}
    (h : (place file pos ps).1[i]? = some t) :
    ∃ qs rs kind text, ps = qs ++ .lexeme kind text :: rs ∧
      qs.filterMap Piece.lexeme? = ((place file pos ps).1.take i).map Token.lexeme ∧
      t = ⟨kind, String.ofList text, (pos.afterAll (qs.flatMap Piece.source)).inFile file⟩ := by
  induction ps generalizing pos i with
  | nil => cases h
  | cons p ps ih =>
      have hbehind : ∀ qs : List Piece,
          (pos.afterAll p.source).afterAll (qs.flatMap Piece.source) =
            pos.afterAll ((p :: qs).flatMap Piece.source) :=
        fun qs => (Position.afterAll_append ..).symm
      cases p with
      | gap cs =>
          obtain ⟨qs, rs, kind, text, rfl, hqs, ht⟩ := ih h
          exact ⟨.gap cs :: qs, rs, kind, text, rfl, hqs, hbehind qs ▸ ht⟩
      | lexeme kind text =>
          cases i with
          | zero =>
              obtain rfl := Option.some.inj h
              exact ⟨[], ps, kind, text, rfl, rfl, rfl⟩
          | succ i =>
              obtain ⟨qs, rs, kind', text', rfl, hqs, ht⟩ := ih h
              refine ⟨.lexeme kind text :: qs, rs, kind', text', rfl, ?_, hbehind qs ▸ ht⟩
              exact congrArg (_ :: ·) hqs

theorem place_end (file : String) (pos : Position) (ps : List Piece) :
    (place file pos ps).2 = pos.afterAll (ps.flatMap Piece.source) := by
  induction ps generalizing pos with
  | nil => rfl
  | cons p ps ih =>
      rw [List.flatMap_cons, Position.afterAll_append, ← ih]
      cases p <;> rfl

/-- A piece that is a lexeme is cut at the offset where the pieces in front of it end. -/
theorem cutAt_of_pieces {chars text : List Char} {kind : Kind} {qs rs : List Piece}
    (h : (cutAll chars).pieces = qs ++ .lexeme kind text :: rs) :
    CutAt chars (qs.filterMap Piece.lexeme?) ⟨kind, String.ofList text⟩
      (qs.flatMap Piece.source).length ∧
      chars.take (qs.flatMap Piece.source).length = qs.flatMap Piece.source := by
  have hstart : Apart [] chars := fun _ _ h => by cases h
  obtain ⟨rest, hdivides, hpieces⟩ := cutAll_divides hstart h
  obtain ⟨c, ds, after, hrest, hcut, -⟩ := cutAll_pieces_cons hpieces
  have hapart := hdivides.apart
  rw [hrest] at hapart
  obtain ⟨hstands, -⟩ := cut_lexeme hcut hapart
  obtain ⟨more, hsource, hmore⟩ := cut_source hcut
  have htake : chars.take (qs.flatMap Piece.source).length = qs.flatMap Piece.source := by
    conv_lhs => rw [← hdivides.source]
    exact List.take_left
  have hdrop : chars.drop (qs.flatMap Piece.source).length = rest := by
    conv_lhs => rw [← hdivides.source]
    exact List.drop_left
  refine ⟨⟨?_, after, ?_, ?_⟩, htake⟩
  · rw [hdrop]
    exact hdivides.splits
  · rw [hdrop, hrest, source_lexeme, hsource, List.cons_append, hmore]
  · rw [htake]
    exact hstands

/-- No lexeme goes over the end of a counted line. -/
theorem newline_notMem_source {before after : List Char} {l : Lexeme}
    (h : l.Stands before after) : '\n' ∉ l.source := by
  have hrun : MaximalRun before l.text.toList after → '\n' ∉ l.text.toList :=
    fun hmaximal hmem => absurd (hmaximal.alphanumeric '\n' hmem) (by decide)
  unfold Lexeme.Stands at h
  unfold Lexeme.source
  cases hkind : l.kind with
  | keyword | identifier | integer =>
      rw [hkind] at h
      exact hrun h.1
  | symbol =>
      rw [hkind] at h
      obtain ⟨c, hc, hblank, -⟩ := h
      simp only [hc, List.mem_singleton]
      rintro rfl
      exact hblank (by decide)
  | string =>
      rw [hkind] at h
      simpa using h.2

/-- A token stands in its source at the place that it gives. -/
theorem scan_place {source file : String} {t : Token} (ht : t ∈ (scan source file).tokens) :
    ∃ before after, source.toList = before ++ (t.lexeme.source ++ after) ∧
      t.lexeme.Stands before after ∧ t.location = (Position.behind before).inFile file := by
  obtain ⟨i, hi⟩ := List.getElem?_of_mem ht
  obtain ⟨qs, rs, kind, text, hpieces, -, rfl⟩ := place_getElem? hi
  obtain ⟨hcut, htake⟩ := cutAt_of_pieces hpieces
  obtain ⟨after, hdrop, hstands⟩ := hcut.stands
  rw [htake] at hstands
  refine ⟨qs.flatMap Piece.source, after, ?_, hstands, ?_⟩
  · conv_lhs => rw [← List.take_append_drop (qs.flatMap Piece.source).length source.toList,
      htake, hdrop]
    rfl
  · rw [Position.afterAll_eq]

/-! ## Places of complaints -/

/-- Behind lexemes `before`, an open piece starts at the offset `p`. -/
structure OpenAt (chars : List Char) (before : List Lexeme) (u : Unclosed) (p : Nat) : Prop where
  splits : Splits [] chars before (chars.drop p)
  starts : u.Starts (chars.drop p)

theorem OpenAt.unclosed {chars : List Char} {before : List Lexeme} {u : Unclosed} {p : Nat}
    (h : OpenAt chars before u p) : (cutAll chars).unclosed = some (u, chars.drop p) := by
  obtain ⟨qs, -, hcuts⟩ := h.splits.cutsInto
  rw [hcuts.unclosed, cutAll_of_starts h.starts]

theorem OpenAt.unique {chars : List Char} {before : List Lexeme} {u : Unclosed} {p q : Nat}
    (hp : OpenAt chars before u p) (hq : OpenAt chars before u q) : p = q := by
  have hdrop : chars.drop p = chars.drop q :=
    congrArg Prod.snd (Option.some.inj (hp.unclosed.symm.trans hq.unclosed))
  have hfront := List.take_append_drop q chars
  rw [← hdrop] at hfront
  have hlength := length_of_append_drop hfront hp.starts.ne_nil
  have hlength' := length_of_append_drop (List.take_append_drop q chars) hq.starts.ne_nil
  exact hlength.symm.trans hlength'

/-- The line that a complaint shows is line `pos.line` of the source, and `pos.column` is the place
of a quote in it. -/
def Shows (chars : List Char) (pos : Position) (shown : Option String) : Prop :=
  ∃ text, shown = some (String.ofList text) ∧
    (chars.splitOn '\n')[pos.line - 1]? = some text ∧ text[pos.column - 1]? = some '"'

/-- The line of the quote is shown with an open string. -/
theorem shows_quote (file : String) (before cs : List Char) :
    let source := before ++ '"' :: cs
    let pos := Position.behind before
    let read := Reading.afterAll {} (before ++ Unclosed.string.covered ('"' :: cs))
    Shows source pos (Unclosed.string.diagnostic file source pos read).sourceLine := by
  intro source pos read
  have hcovered : '\n' ∉ Unclosed.string.covered ('"' :: cs) := by
    intro hmem
    rcases List.mem_cons.mp hmem with hquote | hmem
    · exact absurd hquote (by decide)
    · exact absurd (List.mem_takeWhile_imp hmem) (by decide)
  have hcurrent := Reading.getElem?_line before ('"' :: cs) hcovered
  rw [newlineFields_eq] at hcurrent
  refine ⟨_, rfl, hcurrent, ?_⟩
  have hline := splitOn_getElem?_count before ('"' :: cs)
  have hnumber : pos.line - 1 = before.count '\n' := Nat.add_sub_cancel_left ..
  have hcolumn : pos.column - 1 = (before.rtakeWhile (· != '\n')).length :=
    Nat.add_sub_cancel_left ..
  rw [hnumber, hline] at hcurrent
  rw [← Option.some.inj hcurrent, hcolumn, List.getElem?_append_right (Nat.le_refl _), Nat.sub_self]
  rfl

/-- Every token has the position of its first character. A complaint has the position where the
piece starts that is left open, and with an open string the line of its quote is shown. -/
theorem scan_positions (source file : String) :
    (∀ i t, (scan source file).tokens[i]? = some t → ∃ p,
      (∀ q, CutAt source.toList (((scan source file).tokens.take i).map Token.lexeme) t.lexeme q ↔
        q = p) ∧
      t.location = (Position.behind (source.toList.take p)).inFile file) ∧
    ∀ d, (scan source file).fault = some d → ∃ p, ∃ u : Unclosed,
      (∀ q, OpenAt source.toList ((scan source file).tokens.map Token.lexeme) u q ↔ q = p) ∧
      d.problem = u.problem ∧
      d.location = some ((Position.behind (source.toList.take p)).inFile file) ∧
      (u = .string →
        Shows source.toList (Position.behind (source.toList.take p)) d.sourceLine) := by
  unfold scan
  dsimp only
  refine ⟨fun i t ht => ?_, fun d hd => ?_⟩
  · obtain ⟨qs, rs, kind, text, hpieces, hqs, rfl⟩ := place_getElem? ht
    obtain ⟨hcut, htake⟩ := cutAt_of_pieces hpieces
    rw [hqs] at hcut
    refine ⟨(qs.flatMap Piece.source).length, fun q => ⟨fun hq => hq.unique hcut, ?_⟩, ?_⟩
    · rintro rfl
      exact hcut
    · rw [htake, Position.afterAll_eq]
  · obtain ⟨⟨u, rest⟩, hunclosed, rfl⟩ := Option.map_eq_some_iff.mp hd
    have hsplits := cutAll_splits source.toList [] fun _ _ h => by cases h
    have hsource := cutAll_source source.toList
    have hrest : (cutAll source.toList).rest = rest := by
      rw [Cutting.rest, hunclosed]
    have hstarts := cutAll_unclosed hunclosed
    rw [hrest] at hsplits hsource
    rw [lexemes_place, place_end, Position.afterAll_eq]
    generalize hlexemes : (cutAll source.toList).pieces.filterMap Piece.lexeme? = ls at *
    generalize (cutAll source.toList).pieces.flatMap Piece.source = before at *
    have hopen : OpenAt source.toList ls u before.length := by
      rw [← hsource] at hsplits ⊢
      exact ⟨by rwa [List.drop_left], by rwa [List.drop_left]⟩
    refine ⟨before.length, u, fun q => ⟨fun hq => hq.unique hopen, ?_⟩, problem_diagnostic .., ?_⟩
    · rintro rfl
      exact hopen
    rw [← hsource, List.take_left]
    refine ⟨by cases u <;> rfl, ?_⟩
    rintro rfl
    obtain ⟨cs, rfl, -⟩ := hstarts
    exact shows_quote file before cs

end Token

end Jack
