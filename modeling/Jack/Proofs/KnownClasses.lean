import Jack.Proofs.Reordering
import Jack.Proofs.Surroundings

/-!
# Known classes

The known classes decide which names may qualify a call, and nothing else. Only the goals that make
a class known and the one that resolves a qualifier take notice of them. A qualifier that is a
variable is the receiver, and one that is none has to be the name of a class; how the name came to
be known plays no role then. So with more known classes, or with looks taken for knowledge, a step
that succeeds still yields the same goals and the same state, apart from the classes that are known
(`step_widens`), and so does a run.

Hence whatever compiles also compiles with more known classes and without strictness, and nothing
else can be told from the outcome (`compileTokens_widened`).
-/

namespace Jack.Compile

open Syntax

variable {c : Setting} {s s' f : State} {g : Goal} {gs next : List Goal} {strict : Bool}
  {known : List String}

/-- The state with other known classes. -/
def State.knowing (s : State) (known : List String) : State := { s with known := known }

/-- The setting with another strictness. -/
def Setting.withStrict (c : Setting) (strict : Bool) : Setting := { c with strict := strict }

theorem amid_nil (s : State) (known : List String) : s.amid [] known = s.knowing known := by
  simp only [State.amid, List.append_nil, State.knowing]

/-! ## Steps -/

theorem isClassName_widens (hknown : s.known ⊆ known) (hstrict : strict = true → c.strict = true)
    {x : String} (h : c.isClassName s x = true) :
    (c.withStrict strict).isClassName (s.knowing known) x = true := by
  simp only [Setting.isClassName, Bool.or_eq_true, Bool.and_eq_true, Bool.not_eq_true',
    List.contains_iff_mem] at h ⊢
  rcases h with h | ⟨hlax, h⟩
  · exact .inl (hknown h)
  · refine .inr ⟨Bool.eq_false_iff.mpr fun hs => ?_, h⟩
    rw [hstrict hs] at hlax
    cases hlax

theorem dispatch_widens (hknown : s.known ⊆ known) (hstrict : strict = true → c.strict = true)
    {qualifier callee : Token} (h : c.dispatch s qualifier callee = .ok (next, s')) :
    (c.withStrict strict).dispatch (s.knowing known) qualifier callee =
        .ok (next, s'.knowing known) ∧ s'.known = s.known := by
  have hscope : (s.knowing known).scope = s.scope := rfl
  have hresolve : (c.withStrict strict).resolve (s.knowing known) qualifier =
    c.resolve s qualifier := rfl
  simp only [Setting.dispatch, hscope, hresolve] at h ⊢
  by_cases hvariable : (s.scope.lookup qualifier.text).isSome = true
  · simp only [if_pos hvariable] at h ⊢
    cases hd : c.resolve s qualifier with
    | error e =>
        rw [hd] at h
        cases h
    | ok d =>
        simp only [hd] at h ⊢
        split at h
        · cases h
        · next hprimitive =>
            cases h
            exact ⟨by rw [if_neg hprimitive], rfl⟩
  · simp only [if_neg hvariable] at h ⊢
    split at h
    · next hclass =>
        cases h
        exact ⟨by rw [if_pos (isClassName_widens hknown hstrict hclass)], rfl⟩
    · cases h

/-- A step that succeeds also succeeds if more classes are known, and yields the same; all classes
that are known behind the one are known behind the other. -/
theorem step_widens (hknown : s.known ⊆ known) (hstrict : strict = true → c.strict = true)
    (h : step c s g = .ok (next, s')) :
    ∃ known', s'.known ⊆ known' ∧
      step (c.withStrict strict) (s.knowing known) g = .ok (next, s'.knowing known') := by
  cases hg : g.heedsClasses with
  | false =>
      have hamid : step (c.withStrict strict) (s.amid [] known) g =
          (step c s g).map (amidResult [] known) :=
        step_amid hg (.inl fun _ => ⟨rfl, rfl⟩)
      rw [amid_nil, h] at hamid
      refine ⟨known, known_of_step hg h ▸ hknown, hamid.trans ?_⟩
      rw [← amid_nil]
      rfl
  | true =>
      cases g with
      | nameClass x | noteClass x =>
          cases h
          exact ⟨x :: known, List.cons_subset_cons x hknown, rfl⟩
      | dispatch qualifier callee =>
          obtain ⟨hstep, hsame⟩ := dispatch_widens hknown hstrict h
          exact ⟨known, hsame ▸ hknown, hstep⟩
      | _ => cases hg

/-! ## Runs -/

theorem run_widens (hknown : s.known ⊆ known) (hstrict : strict = true → c.strict = true)
    (h : run c s gs = ⟨f, none⟩) :
    ∃ known', run (c.withStrict strict) (s.knowing known) gs = ⟨f.knowing known', none⟩ := by
  fun_induction run c s gs generalizing known with
  | case1 s =>
      cases h
      exact ⟨known, run_nil ..⟩
  | case2 s g gs e hstep => cases h
  | case3 s g gs next s' hstep ih =>
      obtain ⟨known', hknown', hstep'⟩ := step_widens hknown hstrict hstep
      rw [run_cons_ok gs hstep']
      exact ih hknown' h

/-- Known classes and laxity only widen what compiles. Tokens that compile also compile with more
known classes, in whatever order and however often they are given, and with the same strictness or
none. The outcome is the same in every respect, the code, the name of the class and the derivation
among them, except for the classes that are known in the end. -/
theorem compileTokens_widened (o : Options) (known : List String) (strict : Bool)
    (hknown : o.knownClasses ⊆ known) (hstrict : strict = true → o.strict = true) (file : String)
    (lines : List String) (tokens : List Token)
    (h : compileTokens o file lines tokens = ⟨s, none⟩) :
    ∃ known', compileTokens { o with knownClasses := known, strict := strict } file lines tokens =
      ⟨{ s with known := known' }, none⟩ :=
  run_widens (c := { Token.Setting.ofTokens file lines tokens with strict := o.strict })
    (s := { rest := tokens, known := o.knownClasses,
            recorded := if o.listTree then some [] else none })
    hknown hstrict h

/-- A class that calls a subroutine of the class `Foo`, which it does not name as a type. -/
def client : ClassDecl := { factory with subroutines := [caller] }

theorem client_obeys : client.Obeys ["Foo"] true := by
  refine ⟨by decide, by decide, fun earlier s later h => ?_⟩
  cases earlier with
  | cons t earlier => exact absurd (congrArg List.length h) (by simp [client])
  | nil =>
      obtain ⟨rfl, -⟩ := List.cons.inj h
      have hFoo : (client.rules ["Foo"] true [] caller).Qualifies "Foo" := .inl (by decide)
      exact ⟨by decide, ⟨⟨⟨hFoo, trivial⟩, trivial⟩, trivial⟩, by decide⟩

/-- As one of several known classes, and without strictness, `Foo` qualifies the call as before. -/
theorem client_widened :
    ∃ s known, compileTokens { knownClasses := ["Foo"], strict := true } "Main.jack" []
        (tokensAt ⟨"Main.jack", 1, 1⟩ client.spelling) = ⟨s, none⟩ ∧ s.code = client.code ∧
      compileTokens { knownClasses := ["Bar", "Foo", "Bar"] } "Main.jack" []
        (tokensAt ⟨"Main.jack", 1, 1⟩ client.spelling) = ⟨{ s with known := known }, none⟩ := by
  let o : Options := { knownClasses := ["Foo"], strict := true }
  let tokens := tokensAt ⟨"Main.jack", 1, 1⟩ client.spelling
  have hvalid : ∀ t ∈ tokens, t.lexeme.valid = true := by decide
  obtain ⟨hfault, hcode⟩ := (compileTokens_iff o "Main.jack" [] hvalid).mpr
    ⟨client, by decide, client_obeys, rfl⟩
  have h : compileTokens o "Main.jack" [] tokens = ⟨_, none⟩ :=
    Outcome.mk.injEq .. |>.mpr ⟨rfl, hfault⟩
  obtain ⟨known, hwidened⟩ := compileTokens_widened o ["Bar", "Foo", "Bar"] false (by decide)
    (by decide) "Main.jack" [] tokens h
  exact ⟨_, known, h, hcode, hwidened⟩

end Jack.Compile
