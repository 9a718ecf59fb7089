import Jack.Proofs.Confinement
import Jack.Proofs.Recording
import Jack.Proofs.Values

/-!
# Expressions in parentheses

An expression compiles like the one with its first operations in parentheses
(`run_expression_grouped`): operations are applied strictly from left to right, so parentheses
around the first of them change nothing.

The terms and the operations of an expression are confined to their tokens, so a run can be cut in
front of any operator (`run_expression_cut`). With parentheses in front of the cut, the same run
goes on inside them and has read all of the enclosed tokens when it meets the closing sign, and what
stands behind is read as the operations that are left (`run_expression_paren`). Marks of the
derivation are in the way of these equations; they play no role in a run (`run_unrecorded`), so the
equations are about runs that record none.
-/

namespace Jack.Compile

open Syntax

variable {c : Setting} {s : State} {q x : List Token} {t : Token}

/-! ## Without a record of the derivation -/

/-- The state without a record of the derivation. -/
def State.unrecorded (s : State) : State := { s with recorded := none }

/-- Whether the derivation is recorded makes no difference to a run. -/
theorem run_unrecorded (c : Setting) (s : State) (gs : List Goal) :
    run c s.unrecorded gs = ⟨(run c s gs).state.unrecorded, (run c s gs).fault⟩ := by
  obtain ⟨ms, hms⟩ := run_recording c s gs
  exact hms none

theorem mark_of_unrecorded (h : s.recorded = none) (m : Mark) : s.mark m = s := by
  rw [State.mark, h, Option.map_none, ← h]

theorem read_of_unrecorded (h : s.recorded = none) (t : Token) (q : List Token) :
    s.read t q = s.facing q := by
  rw [State.read, mark_of_unrecorded h, State.facing]

theorem recorded_run (h : s.recorded = none) (gs : List Goal) :
    (run c s gs).state.recorded = none := by
  have hs : s.unrecorded = s := by rw [State.unrecorded, ← h]
  have hrun := run_unrecorded c s gs
  rw [hs] at hrun
  rw [hrun]
  rfl

theorem run_enter (h : s.recorded = none) (e : Element) (gs : List Goal) :
    run c s (.enter e :: gs) = run c s gs := by
  rw [run_cons_ok gs (by rfl), List.nil_append, mark_of_unrecorded h]

theorem run_leave (h : s.recorded = none) (gs : List Goal) (e : Element) (hs : List Goal) :
    run c s (gs ++ .leave e :: hs) = run c s (gs ++ hs) := by
  rw [run_goals_append, run_goals_append]
  refine andThen_congr fun _ => ?_
  rw [run_cons_ok hs (by rfl), List.nil_append, mark_of_unrecorded (recorded_run h gs)]

theorem run_expression (h : s.recorded = none) (gs : List Goal) :
    run c s (.expression :: gs) = run c s (.term :: .operators :: gs) := by
  rw [run_cons_ok gs (by rfl)]
  exact (run_enter h _ _).trans (run_leave h [.term, .operators] .expression gs)

theorem run_term (h : s.recorded = none) (hview : s.rest ≠ []) (gs : List Goal) :
    run c s (.term :: gs) = run c s (.termBody :: gs) := by
  have hstep : step c s .term = .ok ([.enter .term, .termBody, .leave .term], s) := by
    obtain ⟨t, q, hrest⟩ := List.exists_cons_of_ne_nil hview
    simp only [step, hrest]
  rw [run_cons_ok gs hstep]
  exact (run_enter h _ _).trans (run_leave h [.termBody] .term gs)

/-! ## Expressions in parentheses -/

/-- An expression can be cut in front of any operator: what is behind the cut is read as the
operations that are left. -/
theorem run_expression_cut (h : Confined [.term, .operators] q nameSigns [.operators])
    (hs : s.recorded = none) (c : Setting) (l : Location) (hx : Clear nameSigns x)
    (gs : List Goal) :
    run (c.endingAt l) (s.facing (q ++ x)) (.expression :: gs) =
      ((run c (s.facing q) [.term, .operators]).extend x).andThen fun s' =>
        run (c.endingAt l) s' (.operators :: gs) := by
  have hfacing : (s.facing (q ++ x)).recorded = none := hs
  have happend : ∀ s', run (c.endingAt l) s' (.operators :: gs) =
      (run (c.endingAt l) s' [.operators]).andThen fun s'' => run (c.endingAt l) s'' gs :=
    fun s' => run_goals_append _ s' [.operators] gs
  calc run (c.endingAt l) (s.facing (q ++ x)) (.expression :: gs)
    _ = run (c.endingAt l) (s.facing (q ++ x)) ([.term, .operators] ++ gs) :=
      run_expression hfacing gs
    _ = _ := by rw [run_goals_append, h.resumes c s l hx, andThen_assoc]
    _ = _ := andThen_congr fun _ => (happend _).symm

theorem onTerm_paren (h : t.lexeme = .word "(") :
    Goal.onTerm t = some [.expression, .word ")"] := by
  obtain ⟨kind, text, location⟩ := t
  cases h
  rfl

/-- An expression in parentheses is read as by itself, and what is behind them as the operations
that are left. -/
theorem run_expression_paren {lp rp : Token} (hlp : lp.lexeme = .word "(")
    (hrp : rp.lexeme = .word ")") (h : Confined [.term, .operators] q nameSigns [.operators])
    (hs : s.recorded = none) (c : Setting) (l : Location) (x : List Token) :
    run (c.endingAt l) (s.facing (lp :: q ++ rp :: x)) [.expression] =
      ((run c (s.facing q) [.term, .operators]).extend (rp :: x)).andThen fun s' =>
        run (c.endingAt l) (s'.facing x) [.operators] := by
  have hclear : ∀ {ws}, ")" ∉ ws → Clear ws (rp :: x) := clear_of_isWord (isWord_of_lexeme hrp)
  have hfacing : (s.facing (lp :: q ++ rp :: x)).recorded = none := hs
  have hopen : step (c.endingAt l) (s.facing (lp :: q ++ rp :: x)) .termBody =
      .ok ([.expression, .word ")"], s.facing (q ++ rp :: x)) := by
    have hread : (s.facing (lp :: q ++ rp :: x)).read lp (q ++ rp :: x) = s.facing (q ++ rp :: x) :=
      read_of_unrecorded hfacing lp _
    rw [← hread]
    simp only [step, Setting.expect, State.facing, List.cons_append, onTerm_paren hlp]
  have hinside : run (c.endingAt l) (s.facing (lp :: q ++ rp :: x)) [.expression] =
      run (c.endingAt l) (s.facing (q ++ rp :: x)) [.expression, .word ")", .operators] := by
    rw [run_expression hfacing, run_term hfacing (List.cons_ne_nil _ _), run_cons_ok _ hopen]
    rfl
  rw [hinside, run_expression_cut h hs c l (hclear (by decide))]
  refine andThen_congr fun hfault => ?_
  -- Nothing of the expression is left, so the sign that closes the parentheses is in view.
  have hrecorded : (run c (s.facing q) [.term, .operators]).state.recorded = none :=
    recorded_run (s := s.facing q) hs _
  rw [Outcome.extend, extend_of_rest (h.reads c s hfault)]
  generalize (run c (s.facing q) [.term, .operators]).state = s' at hrecorded
  have hclose : step (c.endingAt l) (s'.facing (rp :: x)) (.word ")") = .ok ([], s'.facing x) := by
    have hread : (s'.facing (rp :: x)).read rp x = s'.facing x :=
      read_of_unrecorded (s := s'.facing _) hrecorded rp _
    rw [← hread]
    simp only [step, Setting.expect, State.facing, Goal.onWord, isWord_of_lexeme hrp, if_true]
  rw [run_cons_ok _ (step_operators_clear _ s' (hclear (by decide))), List.nil_append,
    run_cons_ok _ hclose]
  rfl

/-- Operations are applied from left to right: an expression compiles like the one with its first
operations in parentheses. In any state, and with whatever tokens `ks` behind it that do not
continue it, both are stopped by the same fault or by none; they lead to the same state, apart from
the tokens ahead and the record of the derivation; and if they are not stopped, the tokens `ks` are
left. The settings are the same except that the tokens may end at another place. -/
theorem run_expression_grouped {first : Term} {before after : Operations} {p r ks : List Token}
    {lp rp : Token} (hp : p.map Token.lexeme = (Expression.mk first before).spelling)
    (hr : r.map Token.lexeme = after.spelling) (hlp : lp.lexeme = .word "(")
    (hrp : rp.lexeme = .word ")") (hks : Clear expressionSigns ks) (c : Setting) (s : State)
    (l : Location) :
    let plain := run c (s.facing (p ++ r ++ ks)) [.expression]
    let grouped := run (c.endingAt l) (s.facing (lp :: p ++ rp :: r ++ ks)) [.expression]
    grouped.fault = plain.fault ∧
      { grouped.state with rest := [], recorded := none } =
        { plain.state with rest := [], recorded := none } ∧
      (plain.fault = none → plain.state.rest = ks ∧ grouped.state.rest = ks) := by
  intro plain grouped
  have hclear : Clear nameSigns (r ++ ks) :=
    clear_operations hr fun t ht w hw => hks t ht w (List.mem_append_right _ hw)
  have hfirst : Confined [.term, .operators] p nameSigns [.operators] := by
    obtain ⟨q, q', rfl, hq, hq'⟩ := List.map_eq_append_iff.mp hp
    exact (Term.confined first hq).append (Operations.confined before hq') fun x hx =>
      clear_operations hq' hx
  have hlast : Confined [.operators] r expressionSigns [] :=
    (Operations.confined after hr).operations
  have hplain : (⟨plain.state.unrecorded, plain.fault⟩ : Outcome) =
      ((run c (s.unrecorded.facing p) [.term, .operators]).extend (r ++ ks)).andThen fun s' =>
        run c (s'.facing (r ++ ks)) [.operators] := by
    rw [← run_unrecorded, List.append_assoc]
    refine (run_expression_cut (s := s.unrecorded) hfirst rfl c c.endLocation hclear []).trans ?_
    refine andThen_congr fun hfault => ?_
    rw [Outcome.extend, extend_of_rest (hfirst.reads c s.unrecorded hfault)]
    rfl
  have hgrouped : (⟨grouped.state.unrecorded, grouped.fault⟩ : Outcome) =
      ((run c (s.unrecorded.facing p) [.term, .operators]).extend (rp :: r ++ ks)).andThen fun s' =>
        run (c.endingAt l) (s'.facing (r ++ ks)) [.operators] := by
    rw [← run_unrecorded, List.append_assoc]
    exact run_expression_paren (s := s.unrecorded) hlp hrp hfirst rfl c l (r ++ ks)
  -- Both go on with the operations behind the cut, unless they are stopped in front of it.
  generalize run c (s.unrecorded.facing p) [.term, .operators] = front at hplain hgrouped
  obtain ⟨s', fault⟩ := front
  cases fault with
  | some f =>
      obtain ⟨hstate, hfault⟩ := Outcome.mk.injEq .. |>.mp hplain
      obtain ⟨hstate', hfault'⟩ := Outcome.mk.injEq .. |>.mp hgrouped
      refine ⟨hfault'.trans hfault.symm, ?_, fun hnone => ?_⟩
      · have hsame : plain.state.unrecorded.facing [] = s'.facing [] := by rw [hstate]; rfl
        have hsame' : grouped.state.unrecorded.facing [] = s'.facing [] := by rw [hstate']; rfl
        exact hsame'.trans hsame.symm
      · rw [hfault] at hnone
        cases hnone
  | none =>
      have hrun : ∀ l, run (c.endingAt l) (s'.facing (r ++ ks)) [.operators] =
          (run c (s'.facing r) [.operators]).extend ks := fun l => hlast.run_before c s' l hks
      have hend := hplain.trans (hrun c.endLocation)
      obtain ⟨hstate, hfault⟩ := Outcome.mk.injEq .. |>.mp hend
      obtain ⟨hstate', hfault'⟩ := Outcome.mk.injEq .. |>.mp (hgrouped.trans (hrun l))
      have hsame : grouped.state.unrecorded = plain.state.unrecorded := hstate'.trans hstate.symm
      refine ⟨hfault'.trans hfault.symm, congrArg (State.facing · []) hsame, fun hnone => ?_⟩
      have hrest : (run c (s'.facing r) [.operators]).state.rest = [] :=
        hlast.reads c s' (hfault ▸ hnone)
      have hleft : ((run c (s'.facing r) [.operators]).extend ks).state.rest = ks := by
        rw [Outcome.extend, extend_of_rest hrest]
        rfl
      exact ⟨(congrArg State.rest hstate).trans hleft, (congrArg State.rest hstate').trans hleft⟩

/-- `-n + list[next()]` -/
def mixtureSum : Expression :=
  .mk (.unary .negate (.var "n"))
    (.cons .plus (.element "list" (.mk (.call (.unqualified "next" .nil)) .nil)) .nil)

/-- `* 2` -/
def mixtureProduct : Operations := .cons .times (.integer "2") .nil

/-- `(-n + list[next()]) * 2;` -/
def groupedMixture : List Token :=
  tokensAt ⟨"Main.jack", 1, 1⟩ (.word "(" :: mixtureSum.spelling ++
    .word ")" :: mixtureProduct.spelling ++ [Lexeme.word ";"])

theorem mixture_grouped :
    ∃ s', run mixtureSetting (mixtureState.facing groupedMixture) [.expression] = ⟨s', none⟩ ∧
      s'.code = mixture.code mixtureState.view.env ∧
      s'.rest = tokensAt ⟨"Main.jack", 1, 1⟩ [.word ";"] := by
  let place : Location := ⟨"Main.jack", 1, 1⟩
  have hsum : (tokensAt place mixtureSum.spelling).map Token.lexeme = mixtureSum.spelling := by
    decide
  have hproduct : (tokensAt place mixtureProduct.spelling).map Token.lexeme =
      mixtureProduct.spelling := by
    decide
  have hopen : (⟨.symbol, "(", place⟩ : Token).lexeme = .word "(" := by decide
  have hclose : (⟨.symbol, ")", place⟩ : Token).lexeme = .word ")" := by decide
  have hend : Clear expressionSigns (tokensAt place [.word ";"]) :=
    clear_of_isWord (w := ";") (by decide) (by decide)
  obtain ⟨hfault, hstate, hrest⟩ := run_expression_grouped hsum hproduct hopen hclose hend
    mixtureSetting mixtureState place
  obtain ⟨s', hrun, hcode⟩ := mixture_compiles
  have hplain : run mixtureSetting (mixtureState.facing (tokensAt place mixtureSum.spelling ++
      tokensAt place mixtureProduct.spelling ++ tokensAt place [.word ";"])) [.expression] =
        ⟨s', none⟩ := hrun
  rw [hplain] at hfault hstate hrest
  refine ⟨_, Outcome.mk.injEq .. |>.mpr ⟨rfl, hfault⟩, ?_, (hrest rfl).2⟩
  exact (congrArg State.code hstate).trans hcode

end Jack.Compile
