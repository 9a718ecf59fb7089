import Jack.Proofs.Lexeme
import Mathlib.Data.List.TakeWhile

/-!
# What a source is cut into

The other side of `scan`, said without the scanner: a source is a gap, a lexeme, a gap, and so on,
and in the end a rest that cannot be cut (`Splits`). A gap is a sequence of blanks and comments
(`Gap`), and a lexeme stands where it does for a reason (`Lexeme.Stands`): a run of letters and
digits is maximal, a string holds what a string can hold, and a symbol starts nothing longer.

Both are judged with the characters behind them in view, because a line comment ends where the line
does and a slash is a symbol only if no comment starts there. That a run is maximal on its left as
well is not seen by looking ahead; it is the invariant `Apart` of the way the source is cut.
-/

namespace Jack

open Token

/-! ## Gaps -/

namespace Token

/-- The blanks. -/
def blanks : List Char := [' ', '\t', '\n', '\r', '\x0c', '\x0b']

/-- One blank or one comment in front of `rest`. A line comment goes on to the end of its line, a
block comment to the first closing sign behind its opening. -/
inductive Separates : List Char → List Char → Prop where
  | blank {c : Char} {rest : List Char} (hc : c ∈ blanks) : Separates [c] rest
  | line {body rest : List Char} (hbody : '\n' ∉ body)
      (hrest : ∀ c, rest.head? = some c → c = '\n') : Separates ('/' :: '/' :: body) rest
  | block {body rest : List Char} (hbody : ¬['*', '/'] <:+: body ++ ['*']) :
      Separates ('/' :: '*' :: (body ++ ['*', '/'])) rest

/-- Blanks and comments in front of `rest`. -/
inductive Gap : List Char → List Char → Prop where
  | nil {rest : List Char} : Gap [] rest
  | cons {p g rest : List Char} (hp : Separates p (g ++ rest)) (hg : Gap g rest) :
      Gap (p ++ g) rest

/-! ## Lexemes in their places -/

/-- A run of letters and digits, with none in front of it and none behind it. -/
structure MaximalRun (before run after : List Char) : Prop where
  nonempty : run ≠ []
  alphanumeric : ∀ c ∈ run, c.isAlphanum = true
  left : ∀ c, before.getLast? = some c → c.isAlphanum = false
  right : ∀ c, after.head? = some c → c.isAlphanum = false

/-- A reserved word, else a number if it has nothing but digits, else a name. -/
def runKind (text : String) : Kind :=
  if text ∈ keywords then .keyword
  else if text.toList.all Char.isDigit then .integer
  else .identifier

end Token

namespace Lexeme

/-- The characters of a source that spell a lexeme. -/
def source (l : Lexeme) : List Char :=
  match l.kind with
  | .string => '"' :: l.text.toList ++ ['"']
  | .keyword | .symbol | .identifier | .integer => l.text.toList

/-- The lexeme can stand between `before` and `after`. -/
def Stands (before : List Char) (l : Lexeme) (after : List Char) : Prop :=
  match l.kind with
  | .keyword | .identifier | .integer =>
    MaximalRun before l.text.toList after ∧ l.kind = runKind l.text
  | .string => '"' ∉ l.text.toList ∧ '\n' ∉ l.text.toList
  | .symbol =>
    ∃ c, l.text.toList = [c] ∧ c ∉ blanks ∧ c.isAlphanum = false ∧ c ≠ '"' ∧
      (c = '/' → after.head? ≠ some '/' ∧ after.head? ≠ some '*')

end Lexeme

namespace Token

/-- Behind `before`, the source is a gap and a lexeme in turn for each of `ls`, then a last gap, and
then `rest`. -/
inductive Splits : List Char → List Char → List Lexeme → List Char → Prop where
  | last {before g rest : List Char} (hg : Gap g rest) : Splits before (g ++ rest) [] rest
  | next {before g after rest : List Char} {l : Lexeme} {ls : List Lexeme}
      (hg : Gap g (l.source ++ after)) (hl : l.Stands (before ++ g) after)
      (hrest : Splits (before ++ g ++ l.source) after ls rest) :
      Splits before (g ++ (l.source ++ after)) (l :: ls) rest

/-- A gap may be longer at its front. -/
theorem Splits.separate {before p cs rest : List Char} {ls : List Lexeme} (hp : Separates p cs)
    (h : Splits (before ++ p) cs ls rest) : Splits before (p ++ cs) ls rest := by
  cases h with
  | @last _ g _ hg =>
      rw [← List.append_assoc]
      exact .last (.cons hp hg)
  | @next _ g after _ l ls hg hl hrest =>
      rw [← List.append_assoc]
      rw [List.append_assoc before p g] at hl hrest
      exact .next (.cons hp hg) hl hrest

/-! ## The forms of a cut -/

/-- What `cut c cs` can be, and when. -/
inductive CutForm (c : Char) (cs : List Char) : Except Unclosed (Piece × List Char) → Prop where
  | blank (hc : isSpace c = true) : CutForm c cs (.ok (.gap [c], cs))
  | line {ds : List Char} (hc : c = '/') (hcs : cs = '/' :: ds) :
      CutForm c cs (.ok (.gap ('/' :: cs.takeWhile (· != '\n')), cs.dropWhile (· != '\n')))
  | block {ds body rest : List Char} (hc : c = '/') (hcs : cs = '*' :: ds)
      (hclose : closeComment ds = some (body, rest)) :
      CutForm c cs (.ok (.gap ('/' :: '*' :: body), rest))
  | openComment {ds : List Char} (hc : c = '/') (hcs : cs = '*' :: ds)
      (hclose : closeComment ds = none) : CutForm c cs (.error .comment)
  | run (hc : isRun c = true) :
      CutForm c cs (.ok (.lexeme (classify (c :: cs.takeWhile isRun)) (c :: cs.takeWhile isRun),
        cs.dropWhile isRun))
  | string {rest : List Char} (hc : c = '"') (hcs : cs.dropWhile isLiteral = '"' :: rest) :
      CutForm c cs (.ok (.lexeme .string (cs.takeWhile isLiteral), rest))
  | openString (hc : c = '"') (hcs : ∀ rest, cs.dropWhile isLiteral ≠ '"' :: rest) :
      CutForm c cs (.error .string)
  | symbol (hspace : isSpace c = false) (hrun : isRun c = false) (hquote : c ≠ '"')
      (hcomment : c = '/' → cs.head? ≠ some '/' ∧ cs.head? ≠ some '*') :
      CutForm c cs (.ok (.lexeme .symbol [c], cs))

theorem cut_form (c : Char) (cs : List Char) : CutForm c cs (cut c cs) := by
  unfold cut
  split
  · next hspace => exact .blank hspace
  · next hspace =>
      split
      · next hline =>
          obtain ⟨rfl, hslash⟩ := hline
          obtain ⟨ds, hds⟩ := List.head?_eq_some_iff.mp hslash
          exact .line rfl hds
      · next hline =>
          split
          · next hblock =>
              obtain ⟨rfl, hstar⟩ := hblock
              obtain ⟨ds, rfl⟩ := List.head?_eq_some_iff.mp hstar
              split
              · next hclose => exact .block rfl rfl hclose
              · next hclose => exact .openComment rfl rfl hclose
          · next hblock =>
              split
              · next hrun => exact .run hrun
              · next hrun =>
                  split
                  · next hquote =>
                      split
                      · next hcs => exact .string hquote hcs
                      · next hcs => exact .openString hquote hcs
                  · next hquote =>
                      refine .symbol (by simpa using hspace) (by simpa using hrun) hquote ?_
                      exact fun hc => ⟨fun h => hline ⟨hc, h⟩, fun h => hblock ⟨hc, h⟩⟩

/-! ## Cutting one piece -/

/-- The closing sign stands in `c :: cs` only if it starts there or stands in `cs`. -/
theorem closes_cons {c : Char} {cs : List Char} (h : ['*', '/'] <:+: c :: cs) :
    (c = '*' ∧ ∃ ds, cs = '/' :: ds) ∨ ['*', '/'] <:+: cs := by
  rcases List.infix_cons_iff.mp h with h | h
  · obtain ⟨ds, hds⟩ := h
    obtain ⟨rfl, rfl⟩ := List.cons.inj hds
    exact .inl ⟨rfl, ds, rfl⟩
  · exact .inr h

/-- The first closing sign ends a comment. -/
theorem closeComment_eq_some {cs body rest : List Char} (h : closeComment cs = some (body, rest)) :
    ∃ text, body = text ++ ['*', '/'] ∧ ¬['*', '/'] <:+: text ++ ['*'] := by
  fun_induction closeComment cs generalizing body rest with
  | case1 => cases h
  | case2 cs =>
      obtain ⟨rfl, rfl⟩ := Prod.mk.injEq .. |>.mp (Option.some.inj h)
      exact ⟨[], rfl, by decide⟩
  | case3 c cs hclose ih =>
      obtain ⟨⟨body, rest⟩, hr, he⟩ := Option.map_eq_some_iff.mp h
      obtain ⟨rfl, rfl⟩ := Prod.mk.injEq .. |>.mp he
      obtain ⟨text, hbody, htext⟩ := ih hr
      refine ⟨c :: text, by rw [hbody, List.cons_append], fun hin => ?_⟩
      rcases closes_cons hin with ⟨rfl, ds, hds⟩ | hin
      · -- Then `cs` starts with the second character of the sign.
        have hcs := closeComment_append hr
        cases text with
        | nil => cases hds
        | cons d text =>
            obtain rfl : d = '/' := (List.cons.inj hds).1
            exact hclose _ rfl (by rw [← hcs, hbody]; rfl)
      · exact htext hin

theorem closeComment_eq_none {cs : List Char} (h : closeComment cs = none) :
    ¬['*', '/'] <:+: cs := by
  fun_induction closeComment cs with
  | case1 => decide
  | case2 cs => cases h
  | case3 c cs hclose ih =>
      intro hin
      rcases closes_cons hin with ⟨rfl, ds, hds⟩ | hin
      · exact hclose ds rfl hds
      · exact ih (Option.map_eq_none_iff.mp h) hin

/-- The last character of `before` and the first of `after` are not parts of one run. -/
def Apart (before after : List Char) : Prop :=
  ∀ c d, before.getLast? = some c → after.head? = some d → c.isAlphanum = true →
    d.isAlphanum = false

theorem apart_append {before p after : List Char} {c : Char} (hc : c.isAlphanum = false)
    (hp : p.getLast? = some c) : Apart (before ++ p) after := by
  intro d e hd _ hrun
  rw [List.getLast?_append, hp] at hd
  obtain rfl := Option.some.inj hd
  rw [hc] at hrun
  cases hrun

theorem isAlphanum_of_mem_blanks {c : Char} (h : c ∈ blanks) : c.isAlphanum = false := by
  simp only [blanks, List.mem_cons, List.not_mem_nil, or_false] at h
  rcases h with rfl | rfl | rfl | rfl | rfl | rfl <;> rfl

theorem isSpace_iff {c : Char} : isSpace c = true ↔ c ∈ blanks := by
  simp [isSpace, blanks, or_assoc]

theorem head?_dropWhile_eq {p : Char → Bool} {cs : List Char} {c : Char}
    (h : (cs.dropWhile p).head? = some c) : p c = false := by
  have hnot := List.head?_dropWhile_not p cs
  rw [h] at hnot
  exact hnot

/-- A test that holds up to some point and fails there finds that point. -/
theorem while_append {p : Char → Bool} {body rest : List Char} (hbody : ∀ c ∈ body, p c = true)
    (hrest : ∀ c, rest.head? = some c → p c = false) :
    (body ++ rest).takeWhile p = body ∧ (body ++ rest).dropWhile p = rest := by
  rw [List.takeWhile_append_of_pos hbody, List.dropWhile_append_of_pos hbody]
  cases rest with
  | nil => exact ⟨List.append_nil body, rfl⟩
  | cons c rest =>
      have hc : ¬p c = true := by simp [hrest c rfl]
      rw [List.takeWhile_cons_of_neg hc, List.dropWhile_cons_of_neg hc]
      exact ⟨List.append_nil body, rfl⟩

theorem lineComment_separates (ds : List Char) :
    Separates ('/' :: ('/' :: ds).takeWhile (· != '\n')) (('/' :: ds).dropWhile (· != '\n')) ∧
      ∀ before, Apart (before ++ '/' :: ('/' :: ds).takeWhile (· != '\n'))
        (('/' :: ds).dropWhile (· != '\n')) := by
  have hend : ∀ c, (('/' :: ds).dropWhile (· != '\n')).head? = some c → c = '\n' := by
    intro c hc
    simpa using head?_dropWhile_eq hc
  refine ⟨?_, fun before c d _ hd _ => by rw [hend d hd]; decide⟩
  have hbody : '\n' ∉ ds.takeWhile (· != '\n') := by
    intro hmem
    simpa using List.mem_takeWhile_imp hmem
  exact .line hbody hend

/-- What is cut as a gap separates. -/
theorem cut_gap {c : Char} {cs p rest : List Char} (h : cut c cs = .ok (.gap p, rest)) :
    Separates p rest ∧ ∀ before, Apart (before ++ p) rest := by
  have hform := cut_form c cs
  rw [h] at hform
  cases hform with
  | blank hc =>
      have hc := isSpace_iff.mp hc
      exact ⟨.blank hc, fun _ => apart_append (isAlphanum_of_mem_blanks hc) rfl⟩
  | line hc hcs =>
      subst hcs
      exact lineComment_separates _
  | block hc hcs hclose =>
      obtain ⟨text, rfl, htext⟩ := closeComment_eq_some hclose
      refine ⟨.block htext, fun _ => apart_append (c := '/') (by decide) ?_⟩
      simp [List.getLast?_cons, List.getLast?_append]

/-- The lexeme of a piece, if it is one. -/
def Piece.lexeme? : Piece → Option Lexeme
  | .gap _ => none
  | .lexeme kind text => some ⟨kind, String.ofList text⟩

theorem source_lexeme (kind : Kind) (text : List Char) :
    (Lexeme.mk kind (String.ofList text)).source = (Piece.lexeme kind text).source := by
  cases kind <;> simp [Lexeme.source, Piece.source]

theorem classify_eq (run : List Char) : classify run = runKind (String.ofList run) := by
  simp only [classify, runKind, List.contains_iff_mem, String.toList_ofList]

theorem stands_run {before after : List Char} {run : List Char} (h : MaximalRun before run after) :
    (Lexeme.mk (classify run) (String.ofList run)).Stands before after := by
  have hkind := classify_eq run
  have hrun : MaximalRun before (String.ofList run).toList after := by
    rw [String.toList_ofList]
    exact h
  unfold Lexeme.Stands
  cases hk : classify run with
  | keyword => exact ⟨hrun, hk ▸ hkind⟩
  | identifier => exact ⟨hrun, hk ▸ hkind⟩
  | integer => exact ⟨hrun, hk ▸ hkind⟩
  | symbol | string =>
      rw [classify] at hk
      repeat' (split at hk)
      all_goals cases hk

/-- What is cut as a lexeme can stand there. -/
theorem cut_lexeme {c : Char} {cs text rest before : List Char} {kind : Kind}
    (h : cut c cs = .ok (.lexeme kind text, rest)) (hbefore : Apart before (c :: cs)) :
    (Lexeme.mk kind (String.ofList text)).Stands before rest ∧
      Apart (before ++ (Piece.lexeme kind text).source) rest := by
  have hform := cut_form c cs
  rw [h] at hform
  cases hform with
  | run hc =>
      have hleft : ∀ d, before.getLast? = some d → d.isAlphanum = false := by
        intro d hd
        cases hrun : d.isAlphanum with
        | false => rfl
        | true => exact hc.symm.trans (hbefore d c hd rfl hrun)
      have halphanumeric : ∀ d ∈ c :: cs.takeWhile isRun, d.isAlphanum = true := by
        refine List.forall_mem_cons.mpr ⟨hc, fun d hd => List.mem_takeWhile_imp hd⟩
      have hright : ∀ d, (cs.dropWhile isRun).head? = some d → d.isAlphanum = false :=
        fun d hd => head?_dropWhile_eq hd
      exact ⟨stands_run ⟨by simp, halphanumeric, hleft, hright⟩, fun _ d _ hd _ => hright d hd⟩
  | string hc hcs =>
      refine ⟨?_, apart_append (c := '"') (by decide) ?_⟩
      · have hliteral : ∀ d ∈ cs.takeWhile isLiteral, d ≠ '"' ∧ d ≠ '\n' := by
          intro d hd
          simpa [isLiteral] using List.mem_takeWhile_imp hd
        simp only [Lexeme.Stands, String.toList_ofList]
        exact ⟨fun hd => (hliteral _ hd).1 rfl, fun hd => (hliteral _ hd).2 rfl⟩
      · simp [Piece.source, List.getLast?_cons, List.getLast?_append]
  | symbol hspace hrun hquote hcomment =>
      have hblank : c ∉ blanks := by
        intro hc
        rw [isSpace_iff.mpr hc] at hspace
        cases hspace
      refine ⟨⟨c, by simp, hblank, hrun, hquote, hcomment⟩, apart_append hrun ?_⟩
      rfl

theorem quote_notMem {cs : List Char} (h : ∀ rest, cs.dropWhile isLiteral ≠ '"' :: rest) :
    '"' ∉ cs.takeWhile (· != '\n') := by
  induction cs with
  | nil => exact List.not_mem_nil
  | cons d ds ih =>
      by_cases hquote : d = '"'
      · subst hquote
        exact absurd rfl (h ds)
      · by_cases hline : d = '\n'
        · simp [hline]
        · have hliteral : isLiteral d = true := by simp [isLiteral, hquote, hline]
          rw [List.dropWhile_cons_of_pos hliteral] at h
          rw [List.takeWhile_cons_of_pos (by simpa using hline), List.mem_cons, not_or]
          exact ⟨Ne.symm hquote, ih h⟩

/-- How a piece starts that is never closed: a comment has no closing sign behind its opening, a
string no quote on its line. -/
def Unclosed.Starts : Unclosed → List Char → Prop
  | .comment, rest => ∃ body, rest = '/' :: '*' :: body ∧ ¬['*', '/'] <:+: body
  | .string, rest => ∃ cs, rest = '"' :: cs ∧ '"' ∉ cs.takeWhile (· != '\n')

theorem cut_error {c : Char} {cs : List Char} {u : Unclosed} (h : cut c cs = .error u) :
    u.Starts (c :: cs) := by
  have hform := cut_form c cs
  rw [h] at hform
  cases hform with
  | openComment hc hcs hclose =>
      subst hc hcs
      exact ⟨_, rfl, closeComment_eq_none hclose⟩
  | openString hc hcs =>
      subst hc
      exact ⟨cs, rfl, quote_notMem hcs⟩

theorem cut_string {text : List Char} (h : ∀ c ∈ text, isLiteral c = true) (ds : List Char) :
    cut '"' (text ++ '"' :: ds) = .ok (.lexeme .string text, ds) := by
  have hquote : ∀ c, ('"' :: ds).head? = some c → isLiteral c = false := by
    intro c hc
    obtain rfl := Option.some.inj hc
    decide
  obtain ⟨htake, hdrop⟩ := while_append h hquote
  unfold cut
  simp only [htake, hdrop]
  rfl

/-! ## Cutting a whole source -/

theorem cutAll_cons {c : Char} {cs rest : List Char} {p : Piece} (h : cut c cs = .ok (p, rest)) :
    cutAll (c :: cs) = ⟨p :: (cutAll rest).pieces, (cutAll rest).unclosed⟩ := by
  rw [cutAll]
  split <;> simp_all

theorem cutAll_pieces_cons {cs : List Char} {p : Piece} {ps : List Piece}
    (h : (cutAll cs).pieces = p :: ps) :
    ∃ c ds rest, cs = c :: ds ∧ cut c ds = .ok (p, rest) ∧ (cutAll rest).pieces = ps := by
  cases cs with
  | nil =>
      rw [cutAll] at h
      cases h
  | cons c ds =>
      cases hcut : cut c ds with
      | error u =>
          rw [cutAll] at h
          split at h <;> simp_all
      | ok r =>
          obtain ⟨q, rest⟩ := r
          rw [cutAll_cons hcut] at h
          obtain ⟨rfl, rfl⟩ := List.cons.inj h
          exact ⟨c, ds, rest, rfl, hcut, rfl⟩

/-- A piece that is cut off adds its lexeme, if it is one, to those of the rest. -/
theorem cut_splits {c : Char} {cs rest before : List Char} {p : Piece}
    (h : cut c cs = .ok (p, rest)) (hbefore : Apart before (c :: cs)) :
    Apart (before ++ p.source) rest ∧ ∀ {ps : List Piece} {last : List Char},
      Splits (before ++ p.source) rest (ps.filterMap Piece.lexeme?) last →
        Splits before (c :: cs) ((p :: ps).filterMap Piece.lexeme?) last := by
  obtain ⟨more, hp, hmore⟩ := cut_source h
  have hsource : c :: cs = p.source ++ rest := by rw [hp, List.cons_append, hmore]
  rw [hsource]
  cases p with
  | gap p =>
      obtain ⟨hseparates, hapart⟩ := cut_gap h
      exact ⟨hapart before, fun hrest => hrest.separate hseparates⟩
  | lexeme kind text =>
      obtain ⟨hstands, hapart⟩ := cut_lexeme h hbefore
      refine ⟨hapart, fun hrest => ?_⟩
      rw [← source_lexeme] at hrest ⊢
      rw [← List.append_nil before] at hstands hrest
      exact .next (g := []) .nil hstands hrest

/-- A source that is cut into the pieces `qs` and then as `rest` is. -/
structure CutsInto (cs : List Char) (qs : List Piece) (rest : List Char) : Prop where
  source : qs.flatMap Piece.source ++ rest = cs
  pieces : (cutAll cs).pieces = qs ++ (cutAll rest).pieces
  unclosed : (cutAll cs).unclosed = (cutAll rest).unclosed

theorem CutsInto.nil (cs : List Char) : CutsInto cs [] cs := ⟨rfl, rfl, rfl⟩

theorem CutsInto.cons {c : Char} {cs mid rest : List Char} {p : Piece} {qs : List Piece}
    (hcut : cut c cs = .ok (p, mid)) (h : CutsInto mid qs rest) :
    CutsInto (c :: cs) (p :: qs) rest where
  source := by
    obtain ⟨more, hp, hmore⟩ := cut_source hcut
    rw [List.flatMap_cons, List.append_assoc, h.source, hp, List.cons_append, hmore]
  pieces := by rw [cutAll_cons hcut, h.pieces, List.cons_append]
  unclosed := by rw [cutAll_cons hcut, h.unclosed]

/-- A source divided between two of its pieces, behind the characters `before`. -/
structure Divides (before cs : List Char) (qs : List Piece) (rest : List Char) : Prop
    extends CutsInto cs qs rest where
  apart : Apart (before ++ qs.flatMap Piece.source) rest
  splits : Splits before cs (qs.filterMap Piece.lexeme?) rest

/-- Every place between two pieces divides the source. -/
theorem cutAll_divides {qs rs : List Piece} {cs before : List Char} (h : Apart before cs)
    (hpieces : (cutAll cs).pieces = qs ++ rs) :
    ∃ rest, Divides before cs qs rest ∧ (cutAll rest).pieces = rs := by
  induction qs generalizing cs before with
  | nil => exact ⟨cs, ⟨.nil cs, by simpa using h, .last (g := []) .nil⟩, hpieces⟩
  | cons p qs ih =>
      obtain ⟨c, ds, mid, rfl, hcut, hmid⟩ := cutAll_pieces_cons hpieces
      obtain ⟨hapart, hsplits⟩ := cut_splits hcut h
      obtain ⟨rest, hdivides, hrs⟩ := ih hapart hmid
      refine ⟨rest, ⟨hdivides.toCutsInto.cons hcut, ?_, hsplits hdivides.splits⟩, hrs⟩
      rw [List.flatMap_cons, ← List.append_assoc]
      exact hdivides.apart

theorem cutAll_splits (cs before : List Char) (h : Apart before cs) :
    Splits before cs ((cutAll cs).pieces.filterMap Piece.lexeme?) (cutAll cs).rest := by
  obtain ⟨rest, hdivides, hnil⟩ := cutAll_divides h (List.append_nil _).symm
  have hrest := cutAll_source rest
  rw [hnil, List.flatMap_nil, List.nil_append, Cutting.rest, ← hdivides.unclosed] at hrest
  have hend : (cutAll cs).rest = rest := hrest
  rw [hend]
  exact hdivides.splits

/-- A source that is not cut to its end stops in front of a piece that cannot be cut. -/
theorem cutAll_unclosed {cs rest : List Char} {u : Unclosed}
    (h : (cutAll cs).unclosed = some (u, rest)) : u.Starts rest := by
  fun_induction cutAll cs with
  | case1 => cases h
  | case2 c cs u' hcut =>
      obtain ⟨rfl, rfl⟩ := Prod.mk.injEq .. |>.mp (Option.some.inj h)
      exact cut_error hcut
  | case3 c cs p rest hcut later ih => exact ih h

theorem lexemes_place (file : String) (pos : Position) (ps : List Piece) :
    (place file pos ps).1.map Token.lexeme = ps.filterMap Piece.lexeme? := by
  induction ps generalizing pos with
  | nil => rfl
  | cons p ps ih =>
      cases p with
      | gap cs => exact ih _
      | lexeme kind text => exact congrArg (_ :: ·) (ih _)

/-- A source that is cut to its end is scanned to its end, whatever file it is in. -/
theorem scan_of_cutAll {source : String} {ls : List Lexeme}
    (h : (cutAll source.toList).unclosed = none ∧
      (cutAll source.toList).pieces.filterMap Piece.lexeme? = ls) (file : String) :
    (scan source file).fault = none ∧ (scan source file).tokens.map Token.lexeme = ls := by
  unfold scan
  dsimp only
  rw [lexemes_place, h.1, h.2]
  exact ⟨rfl, rfl⟩

/-- The problem with an open piece. -/
def Unclosed.problem : Unclosed → Problem
  | .comment => .unterminatedComment
  | .string => .unterminatedString

theorem problem_diagnostic (file : String) (source : List Char) (pos : Position) (read : Reading)
    (u : Unclosed) : (u.diagnostic file source pos read).problem = u.problem := by
  cases u <;> rfl

theorem problem_injective {u u' : Unclosed} (h : u.problem = u'.problem) : u = u' := by
  cases u with
  | comment =>
      cases u' with
      | comment => rfl
      | string => cases h
  | string =>
      cases u' with
      | comment => cases h
      | string => rfl

/-- An open piece is seen at its first character. -/
theorem starts_unique {u u' : Unclosed} {rest : List Char} (h : u.Starts rest)
    (h' : u'.Starts rest) : u = u' := by
  cases u with
  | comment =>
      obtain ⟨body, rfl, -⟩ := h
      cases u' with
      | comment => rfl
      | string => obtain ⟨cs, heq, -⟩ := h'; cases heq
  | string =>
      obtain ⟨cs, rfl, -⟩ := h
      cases u' with
      | comment => obtain ⟨body, heq, -⟩ := h'; cases heq
      | string => rfl

theorem Unclosed.Starts.ne_nil {u : Unclosed} {rest : List Char} (h : u.Starts rest) :
    rest ≠ [] := by
  rintro rfl
  cases u <;> obtain ⟨_, hnil, -⟩ := h <;> cases hnil

theorem rest_eq_nil_iff {cs : List Char} :
    (cutAll cs).rest = [] ↔ (cutAll cs).unclosed = none := by
  unfold Cutting.rest
  cases hopen : (cutAll cs).unclosed with
  | none => simp
  | some r => simp [(cutAll_unclosed hopen).ne_nil]

theorem starts_rest_iff {cs : List Char} {u : Unclosed} :
    u.Starts (cutAll cs).rest ↔ ∃ rest, (cutAll cs).unclosed = some (u, rest) := by
  unfold Cutting.rest
  cases hopen : (cutAll cs).unclosed with
  | none => simpa using fun h : u.Starts [] => h.ne_nil rfl
  | some r =>
      have hstarts := cutAll_unclosed hopen
      constructor
      · intro h
        exact ⟨r.2, by rw [starts_unique h hstarts]⟩
      · rintro ⟨rest, hrest⟩
        obtain rfl := Option.some.inj hrest
        exact hstarts

/-- A source is cut exactly: into gaps and the lexemes of its tokens, and a rest. The rest is empty
if there is no complaint; else the complaint is about the open piece that the rest starts. -/
structure Exact (source : List Char) (lexed : Lexed) (rest : List Char) : Prop where
  splits : Splits [] source (lexed.tokens.map Token.lexeme) rest
  complete : rest = [] ↔ lexed.fault = none
  opened : ∀ u : Unclosed, u.Starts rest ↔ ∃ d, lexed.fault = some d ∧ d.problem = u.problem
  causes : ∀ d, lexed.fault = some d → ∃ u : Unclosed, d.problem = u.problem

/-- Every source is cut exactly. -/
theorem scan_exact (source file : String) :
    ∃ rest, Exact source.toList (scan source file) rest := by
  let pos := (place file {} (cutAll source.toList).pieces).2
  let before := (cutAll source.toList).pieces.flatMap Piece.source
  have hfault : (scan source file).fault = (cutAll source.toList).unclosed.map fun u =>
      u.1.diagnostic file source.toList pos (Reading.afterAll {} (before ++ u.1.covered u.2)) := rfl
  refine ⟨(cutAll source.toList).rest, ?_, ?_, fun u => ?_, fun d hd => ?_⟩
  · have hsplits := cutAll_splits source.toList [] (fun _ _ h => by cases h)
    rw [← lexemes_place file {}] at hsplits
    exact hsplits
  · rw [rest_eq_nil_iff, hfault, Option.map_eq_none_iff]
  · rw [starts_rest_iff, hfault]
    simp only [Option.map_eq_some_iff]
    constructor
    · rintro ⟨rest, hrest⟩
      exact ⟨_, ⟨_, hrest, rfl⟩, problem_diagnostic ..⟩
    · rintro ⟨d, ⟨⟨u', rest⟩, hrest, rfl⟩, hproblem⟩
      rw [problem_diagnostic] at hproblem
      obtain rfl := problem_injective hproblem
      exact ⟨rest, hrest⟩
  · rw [hfault] at hd
    obtain ⟨⟨u, rest⟩, -, rfl⟩ := Option.map_eq_some_iff.mp hd
    exact ⟨u, problem_diagnostic ..⟩

end Token

end Jack
