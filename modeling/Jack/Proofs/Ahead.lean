import Jack.Proofs.Surroundings
import Jack.Proofs.SyntaxErrors

/-!
# Behind the token in view

Tokens that stand behind the one in view have no influence on what happens next. `State.extend` puts
more tokens behind those ahead; as long as there is a token in view, a step does not notice
(`step_extend`), and neither does a run, up to the place where the tokens that both have in common
have been read (`run_extend`). Where the tokens end is known to the setting and told in one
complaint only, which is made when there is no token in view, so the setting may tell of another
end.

It follows that the first fault in a list of tokens is stable (`compileTokens_stable`): it depends
on the tokens up to the one in view, and whatever is put in place of the others, the compilation
stops at the same token, in the same state and with the same complaint.
-/

namespace Jack.Compile

/-- The state with more tokens behind those ahead. -/
def State.extend (s : State) (x : List Token) : State := { s with rest := s.rest ++ x }

/-- The setting with another place where the tokens end. -/
def Setting.endingAt (c : Setting) (l : Location) : Setting := { c with endLocation := l }

/-- What a step yields, with more tokens ahead. -/
def extendResult (x : List Token) (r : List Goal × State) : List Goal × State :=
  (r.1, r.2.extend x)

def Outcome.extend (r : Outcome) (x : List Token) : Outcome := ⟨r.state.extend x, r.fault⟩

variable {c : Setting} {s : State} {g : Goal} {gs : List Goal} {l : Location} {x : List Token}

theorem dispatch_extend (qualifier callee : Token) :
    (c.endingAt l).dispatch (s.extend x) qualifier callee =
      (c.dispatch s qualifier callee).map (extendResult x) := by
  have hscope : (s.extend x).scope = s.scope := rfl
  have hclass : (c.endingAt l).isClassName (s.extend x) qualifier.text =
    c.isClassName s qualifier.text := rfl
  have hresolve : (c.endingAt l).resolve (s.extend x) qualifier = c.resolve s qualifier := rfl
  simp only [Setting.dispatch, hscope, hclass, hresolve]
  split
  · cases c.resolve s qualifier with
    | error f => rfl
    | ok d =>
      dsimp only
      split <;> rfl
  · split <;> rfl

/-- More tokens behind those ahead do not change a step, unless there are none ahead and the goal
is to look at one. -/
theorem step_extend (h : s.rest ≠ [] ∨ g.isBlind = true) :
    step (c.endingAt l) (s.extend x) g = (step c s g).map (extendResult x) := by
  cases hg : g.heedsClasses with
  | false =>
      have hamid : step (c.endingAt l) (s.extend x) g =
          (step c s g).map (amidResult x s.known) :=
        step_amid hg (h.imp_left fun hview hnil => absurd hnil hview)
      rw [hamid]
      cases hstep : step c s g with
      | error f => rfl
      | ok r =>
          rw [← known_of_step hg hstep]
          rfl
  | true =>
      cases g with
      | nameClass | noteClass => rfl
      | dispatch qualifier callee => exact dispatch_extend qualifier callee
      | _ => cases hg

/-! ## Runs -/

/-- A run that leaves some of the tokens ahead does the same whatever stands behind them. -/
theorem run_extend (h : x.length < (run (c.endingAt l) (s.extend x) gs).state.rest.length)
    (l' : Location) (y : List Token) :
    run (c.endingAt l') (s.extend y) gs = (run c s gs).extend y := by
  -- The tokens ahead do not grow, so at no step they are all behind the ones in common.
  have hview : ∀ (s : State) gs,
      x.length < (run (c.endingAt l) (s.extend x) gs).state.rest.length → s.rest ≠ [] := by
    intro s gs h hnil
    have hle := (run_forward (c.endingAt l) (s.extend x) gs).rest.length_le
    simp only [State.extend, hnil, List.nil_append] at h hle
    omega
  fun_induction run c s gs with
  | case1 s =>
      rw [run_nil]
      rfl
  | case2 s g gs f hstep =>
      have hstep' : step (c.endingAt l') (s.extend y) g = .error f := by
        rw [step_extend (.inl (hview s _ h)), hstep]
        rfl
      rw [run_cons_error gs hstep']
      rfl
  | case3 s g gs next s' hstep ih =>
      have hstep' : ∀ l x, step (Setting.endingAt c l) (s.extend x) g =
          .ok (next, s'.extend x) := by
        intro l x
        rw [step_extend (.inl (hview s _ h)), hstep]
        rfl
      rw [run_cons_ok gs (hstep' l x)] at h
      rw [run_cons_ok gs (hstep' l' y), ih h]

/-- The first fault is stable. If a compilation stops in front of the token `t`, it stops there with
whatever tokens behind `t`, in the same state and with the same complaint. -/
theorem compileTokens_stable (o : Options) (file : String) (lines : List String)
    {consumed ahead : List Token} {t : Token} {s : State} {f : Fault}
    (h : compileTokens o file lines (consumed ++ t :: ahead) = ⟨s, some f⟩)
    (hs : s.rest = t :: ahead) (ahead' : List Token) :
    compileTokens o file lines (consumed ++ t :: ahead') =
      ⟨{ s with rest := t :: ahead' }, some f⟩ := by
  let setting (tokens : List Token) : Setting :=
    { Token.Setting.ofTokens file lines tokens with strict := o.strict }
  let start (tokens : List Token) : State :=
    { rest := tokens, known := o.knownClasses, recorded := if o.listTree then some [] else none }
  let common := consumed ++ [t]
  have hsplit : ∀ ts, consumed ++ t :: ts = common ++ ts := by simp [common]
  have hrun : ∀ ts, compileTokens o file lines (consumed ++ t :: ts) =
      run ((setting common).endingAt (Token.Setting.endOf file (common ++ ts)))
        ((start common).extend ts) Goal.wholeClass := by
    intro ts
    rw [hsplit]
    rfl
  have hleft : ahead.length <
      (compileTokens o file lines (consumed ++ t :: ahead)).state.rest.length := by
    rw [h, hs]
    exact Nat.lt_succ_self _
  rw [hrun] at h hleft
  rw [run_extend hleft] at h
  obtain ⟨rfl, hfault⟩ := Outcome.mk.injEq .. |>.mp h
  have hview : (run (setting common) (start common) Goal.wholeClass).state.rest = [t] :=
    List.append_cancel_right (show _ ++ ahead = [t] ++ ahead from hs)
  rw [hrun, run_extend hleft, Outcome.extend, hfault]
  simp only [State.extend, hview, List.singleton_append]

/-- Once the second name is in view, nothing behind it mends the declaration. -/
theorem unseparated_stable :
    ∃ state, compileTokens {} "A.jack" [] unseparated = ⟨state, some (.diagnostic
        { problem := .unexpectedToken "'y'" "';'", location := some ⟨"A.jack", 2, 15⟩ })⟩ ∧
      state.rest = unseparated.drop 6 ∧
      ∀ ahead, compileTokens {} "A.jack" [] (unseparated.take 7 ++ ahead) =
        ⟨{ state with rest := ⟨.identifier, "y", ⟨"A.jack", 2, 15⟩⟩ :: ahead }, some (.diagnostic
          { problem := .unexpectedToken "'y'" "';'", location := some ⟨"A.jack", 2, 15⟩ })⟩ := by
  obtain ⟨state, hstops, hrest⟩ := unseparated_stops
  refine ⟨state, hstops, hrest, fun ahead => ?_⟩
  exact @compileTokens_stable {} "A.jack" [] (unseparated.take 6) _ _ _ _ hstops hrest ahead

end Jack.Compile
