import Jack.Proofs.Acceptance
import Jack.Proofs.Evaluation
import Jack.Proofs.Slots
import Jack.Proofs.Unambiguity

/-!
# The values of expressions

If every call comes back, every expression that obeys the rules has a value. Only the calls change
the world while it is evaluated, and they are the calls in its code, in the order of the code
(`Answers`). Nothing else in the evaluation of an expression can fail, because each variable has a
cell that can be read (`Env.Readable`).

So whenever an expression is compiled, in whatever state and scope, its code pushes the value of the
one expression that has been read, leaves the frame alone, and leaves the world as its calls leave
it (`run_expression_computes`).
-/

namespace Jack.Machine

/-! ## Calls -/

/-- An interpretation in which all calls come back. -/
def Interpretation.ofCalls (A : Arithmetic) (call : String → List Word → World → CallResult) :
    Interpretation :=
  { A with call := fun f arguments w => some (call f arguments w) }

/-- What calls, made one after the other, leave of the world. -/
def World.after (call : String → List Word → World → CallResult) (w : World)
    (ks : List (String × List Word)) : World :=
  ks.foldl (fun w k => (call k.1 k.2 w).world) w

/-- The subroutine that an instruction calls. -/
def calledName? : Instruction → Option String
  | .call f _ => some f
  | _ => none

/-- The subroutines that some code calls, in order. -/
def calledNames (code : List Instruction) : List String := code.filterMap calledName?

@[simp] theorem calledNames_nil : calledNames [] = [] := rfl

@[simp] theorem calledNames_cons (x : Instruction) (code : List Instruction) :
    calledNames (x :: code) = (calledName? x).toList ++ calledNames code := by
  cases h : calledName? x with
  | none => exact List.filterMap_cons_none h
  | some f => exact List.filterMap_cons_some h

@[simp] theorem calledNames_append (i j : List Instruction) :
    calledNames (i ++ j) = calledNames i ++ calledNames j :=
  List.filterMap_append

/-- An evaluation that starts in the world `w` yields something, and calls of the subroutines
`names` have made the world what it is then. -/
def Answers (call : String → List Word → World → CallResult) (names : List String) (w : World)
    {α : Type} (r : Option (α × World)) : Prop :=
  ∃ a ks, ks.map Prod.fst = names ∧ r = some (a, w.after call ks)

namespace Answers

variable {call : String → List Word → World → CallResult} {w : World} {names names' : List String}
  {α β : Type}

theorem pure (a : α) : Answers call [] w (some (a, w)) := ⟨a, [], rfl, rfl⟩

theorem bind {r : Option (α × World)} {k : α × World → Option (β × World)}
    (h : Answers call names w r) (hk : ∀ a w', Answers call names' w' (k (a, w'))) :
    Answers call (names ++ names') w (r >>= k) := by
  obtain ⟨a, ks, hks, rfl⟩ := h
  obtain ⟨b, ls, hls, hb⟩ := hk a (w.after call ks)
  refine ⟨b, ks ++ ls, by rw [List.map_append, hks, hls], hb.trans ?_⟩
  rw [World.after, World.after, World.after, List.foldl_append]

/-- Reading a cell is no call. -/
theorem read {o : Option α} {k : α → Option (β × World)} (h : ∃ a, o = some a)
    (hk : ∀ a, Answers call names w (k a)) : Answers call names w (o >>= k) := by
  obtain ⟨a, rfl⟩ := h
  exact hk a

theorem invoke (A : Arithmetic) (f : String) (arguments : List Word) :
    Answers call [f] w ((Interpretation.ofCalls A call).invoke f arguments w) :=
  ⟨(call f arguments w).value, [(f, arguments)], rfl, rfl⟩

end Answers

end Jack.Machine

namespace Jack.Syntax

open Machine

/-! ## Expressions that have a value -/

/-- Variables and the current object have cells that can be read. -/
structure Env.Readable (env : Env) : Prop where
  resolve : ∀ x b, env.resolve x = some b → ∀ m, ∃ a, b.cell.read m = some a
  self : ∀ c, env.self = some c → ∀ m, ∃ a, c.read m = some a

section Evaluation

variable {call : String → List Word → World → CallResult} {A : Arithmetic} {f : Frame}
  {r : Rules}

theorem Env.Readable.value {env : Env} (henv : env.Readable) {x : String}
    (hx : ∃ b, env.resolve x = some b) (w : World) : ∃ a, env.value f w x = some a := by
  obtain ⟨b, hb⟩ := hx
  obtain ⟨a, ha⟩ := henv.resolve x b hb ⟨f, w⟩
  exact ⟨a, by rw [Env.value, hb]; exact ha⟩

theorem calledNames_read (env : Env) (x : String) : calledNames (env.read x) = [] := by
  unfold Env.read
  split <;> rfl

theorem Operator.answers (op : Operator) (a b : Word) (w : World) :
    Answers call (calledName? op.instruction).toList w
      (op.apply (.ofCalls A call) a b w) := by
  cases op with
  | times | divide => exact .invoke A _ _
  | plus | minus | and | or | less | greater | equal => exact .pure _

theorem appendAll_answers (cs : List Char) (a : Word) (w : World) :
    Answers call
      (calledNames (cs.flatMap fun c => [.push .constant c.toNat, .call "String.appendChar" 2])) w
      (appendAll (.ofCalls A call) cs a w) := by
  induction cs generalizing a w with
  | nil => exact .pure a
  | cons c cs ih =>
      rw [List.flatMap_cons, calledNames_append]
      exact (Answers.invoke A _ _).bind ih

theorem stringValue_answers (text : String) (w : World) :
    Answers call (calledNames (stringCode text)) w (stringValue (.ofCalls A call) text w) :=
  (Answers.invoke A _ _).bind fun a w' => appendAll_answers text.toList a w'

mutual

theorem Expression.answers (henv : r.env.Readable) :
    ∀ (e : Expression), e.Obeys r → ∀ w, Answers call (calledNames (e.code r.env)) w
      (e.eval (.ofCalls A call) r.env f w)
  | .mk first rest, h, w => by
      rw [Expression.code, calledNames_append, Expression.eval]
      exact (first.answers henv h.1 w).bind fun a w' => rest.answers henv h.2 a w'

theorem Operations.answers (henv : r.env.Readable) :
    ∀ (o : Operations), o.Obeys r → ∀ a w, Answers call (calledNames (o.code r.env)) w
      (o.eval (.ofCalls A call) r.env f a w)
  | .nil, _, a, w => .pure a
  | .cons op operand rest, h, a, w => by
      rw [Operations.code, calledNames_append, calledNames_cons, Operations.eval]
      exact (operand.answers henv h.1 w).bind fun b w₁ =>
        (op.answers a b w₁).bind fun a' w₂ => rest.answers henv h.2 a' w₂

theorem Term.answers (henv : r.env.Readable) :
    ∀ (t : Term), t.Obeys r → ∀ w, Answers call (calledNames (t.code r.env)) w
      (t.eval (.ofCalls A call) r.env f w)
  | .integer digits, _, w => .pure _
  | .string text, _, w => stringValue_answers text w
  | .constant k, _, w => by cases k <;> exact .pure _
  | .this, h, w => by
      obtain ⟨c, hc⟩ := Option.isSome_iff_exists.mp h
      have hnames : calledNames (Term.code r.env .this) = [] := by rw [Term.code, hc]; rfl
      rw [hnames, Term.eval, hc]
      exact Answers.read (o := c.read ⟨f, w⟩) (henv.self c hc ⟨f, w⟩) .pure
  | .unary op operand, h, w => by
      have hop : calledNames [op.instruction] = [] := by cases op <;> rfl
      rw [Term.code, calledNames_append, hop, Term.eval]
      exact (operand.answers henv h w).bind fun a w' => .pure _
  | .parens e, h, w => e.answers henv h w
  | .var x, h, w => by
      obtain ⟨b, hb, -⟩ := h
      rw [Term.code, calledNames_read, Term.eval]
      exact .read (henv.value ⟨b, hb⟩ w) .pure
  | .element x index, h, w => by
      obtain ⟨⟨b, hb, -⟩, hindex⟩ := h
      rw [Term.code, calledNames_append, calledNames_append, calledNames_read, List.nil_append,
        Term.eval]
      exact .read (henv.value ⟨b, hb⟩ w) fun a =>
        (index.answers henv hindex w).bind fun i w' => .pure _
  | .call k, h, w => k.answers henv h w

theorem Call.answers (henv : r.env.Readable) :
    ∀ (k : Call), k.Obeys r → ∀ w, Answers call (calledNames (k.code r.env)) w
      (k.eval (.ofCalls A call) r.env f w)
  | .unqualified callee arguments, h, w => by
      rw [Call.code, List.cons_append, calledNames_cons, calledNames_append, Call.eval]
      exact (arguments.answers henv h.2 w).bind fun as w' => .invoke A _ _
  | .qualified qualifier callee arguments, h, w => by
      rw [Call.code, Call.eval]
      cases hb : r.env.resolve qualifier with
      | some b =>
          dsimp only
          rw [List.cons_append, calledNames_cons, calledNames_append]
          exact .read (henv.resolve qualifier b hb ⟨f, w⟩) fun a =>
            (arguments.answers henv h.2 w).bind fun as w' => .invoke A _ _
      | none =>
          dsimp only
          rw [calledNames_append]
          exact (arguments.answers henv h.2 w).bind fun as w' => .invoke A _ _

theorem Arguments.answers (henv : r.env.Readable) :
    ∀ (a : Arguments), a.Obeys r → ∀ w, Answers call (calledNames (a.code r.env)) w
      (a.eval (.ofCalls A call) r.env f w)
  | .nil, _, w => .pure _
  | .cons e rest, h, w => by
      rw [Arguments.code, calledNames_append, Arguments.eval,
        ← List.append_nil (calledNames (rest.code r.env))]
      exact (e.answers henv h.1 w).bind fun v w₁ =>
        (rest.answers henv h.2 w₁).bind fun vs w₂ => .pure _

end

/-- The code of an expression that obeys the rules pushes its value, and nothing but its calls
changes the memory. -/
theorem Expression.computes_answer (henv : r.env.Readable) (e : Expression) (h : e.Obeys r)
    (A : Arithmetic) (call : String → List Word → World → CallResult) (f : Frame) (w : World) :
    ∃ v ks, e.eval (.ofCalls A call) r.env f w = some (v, w.after call ks) ∧
      ks.map Prod.fst = calledNames (e.code r.env) ∧
      Computes (.ofCalls A call) f (e.code r.env) [] w [v] (w.after call ks) := by
  have hanswers : Answers call (calledNames (e.code r.env)) w
      (e.eval (.ofCalls A call) r.env f w) := e.answers henv h w
  obtain ⟨v, ks, hks, heval⟩ := hanswers
  have hagrees : Agrees r.env r.env f := ⟨rfl, rfl, fun c hc => ⟨c, hc, fun _ => rfl⟩⟩
  exact ⟨v, ks, heval, hks, e.computes hagrees heval⟩

end Evaluation

/-- The spelling of an expression determines it. -/
theorem Expression.spelling_injective {e e' : Expression} (h : e.spelling = e'.spelling) :
    e = e' := by
  have hclosed : Phrase.allows [Lexeme.word ")"].head? .expression = true := by decide
  exact (e.cut e' hclosed hclosed (congrArg (· ++ [Lexeme.word ")"]) h)).1

end Jack.Syntax

namespace Jack

open Machine Syntax

/-! ## Scopes -/

/-- A declaration that is not hidden by another one of its name. -/
def Scope.Innermost (sc : Scope) (d : Declaration) : Prop :=
  d ∈ sc.subroutine ∨ d ∈ sc.classLevel ∧ d.name ∉ sc.subroutine.map Declaration.name

theorem Scope.WellFormed.lookup_innermost {sc : Scope} (h : sc.WellFormed) {d : Declaration}
    (hd : sc.Innermost d) : sc.lookup d.name = some d := by
  have hinner : (sc.subroutine.map Declaration.name).Nodup := h.names .argument
  have houter : (sc.classLevel.map Declaration.name).Nodup := h.names .static
  rcases hd with hd | ⟨hd, hname⟩
  · rw [lookup, find?_name_of_mem hinner hd, Option.some_or]
  · rw [lookup, find?_name_eq_none_iff.mpr hname, Option.none_or, find?_name_of_mem houter hd]

/-- The cell that a declaration gives its name. -/
def Declaration.read (d : Declaration) (m : Memory) : Option Word :=
  m.read d.storage.segment d.slot

/-- Names are read from the cells of their innermost declarations, and so is `this` where it is
declared. -/
structure Scope.ReadBy (sc : Scope) (env : Env) : Prop where
  value : ∀ d, sc.Innermost d → ∀ f w, env.value f w d.name = d.read ⟨f, w⟩
  self : ∀ d, sc.Innermost d → d.name = "this" →
    ∃ c, env.self = some c ∧ ∀ m, c.read m = d.read m

theorem Declaration.exists_read (d : Declaration) (m : Memory) : ∃ a, d.read m = some a := by
  obtain ⟨name, type, storage, slot⟩ := d
  cases storage <;> exact ⟨_, rfl⟩

namespace Compile

theorem View.env_readable (v : View) : v.env.Readable where
  resolve x b hb m := by
    obtain ⟨d, -, rfl⟩ := Option.map_eq_some_iff.mp hb
    exact d.exists_read m
  self c hc m := by
    simp only [View.env] at hc
    split at hc
    · next d hd =>
        obtain rfl := Option.some.inj hc
        exact d.exists_read m
    · split at hc
      · obtain rfl := Option.some.inj hc
        exact ⟨_, rfl⟩
      · cases hc

theorem View.env_readBy {v : View} (h : v.scope.WellFormed) : v.scope.ReadBy v.env where
  value d hd f w := by
    simp only [Env.value, View.env, h.lookup_innermost hd]
    rfl
  self d hd hname := by
    have hthis := h.lookup_innermost hd
    rw [hname] at hthis
    refine ⟨d.binding.cell, ?_, fun m => rfl⟩
    simp only [View.env, hthis]

/-! ## Compiled expressions -/

/-- Where an expression is compiled, one expression has been read, and the code that has been
emitted pushes its value, on whatever stack it is run and in whatever memory. The frame stays as it
is, and of the world only the calls in the code change anything, in their order. -/
theorem run_expression_computes {c : Setting} {s s' : State} (hs : s.Sound)
    (h : run c s [.expression] = ⟨s', none⟩) :
    ∃ (e : Expression) (code : List Instruction),
      (∀ e' : Expression,
        s.rest.map Token.lexeme = e'.spelling ++ s'.rest.map Token.lexeme ↔ e' = e) ∧
      s'.code = s.code ++ code ∧
      (s.scope.WellFormed → s.scope.ReadBy s.view.env) ∧
      ∀ A call (m : Memory), ∃ v ks,
        e.eval (.ofCalls A call) s.view.env m.frame m.world = some (v, m.world.after call ks) ∧
        ks.map Prod.fst = calledNames code ∧
        ∀ program rest stack that temp, ∃ that' temp',
          Reaches (.ofCalls A call) program ⟨code ++ rest, stack, m, that, temp⟩
            ⟨rest, v :: stack, ⟨m.frame, m.world.after call ks⟩, that', temp'⟩ := by
  obtain ⟨v', ⟨e, hobeys, hreads, -⟩, hview⟩ := (run_iff _ s hs s'.view).mp ⟨s', h, rfl⟩
  obtain rfl : s'.view = v' := hview
  have hcode : s'.code = s.code ++ e.code s.view.env := congrArg View.code hreads.result
  refine ⟨e, e.code s.view.env, fun e' => ⟨fun he' => ?_, ?_⟩, hcode,
    View.env_readBy (v := s.view), fun A call m => ?_⟩
  · exact Expression.spelling_injective (List.append_cancel_right (he'.symm.trans hreads.rest))
  · rintro rfl
    exact hreads.rest
  · have hread : (s.view.rules c).env.Readable := s.view.env_readable
    obtain ⟨v, ks, heval, hks, hcomputes⟩ :=
      e.computes_answer hread hobeys A call m.frame m.world
    exact ⟨v, ks, heval, hks, hcomputes⟩

/-- `-n + list[next()] * 2` -/
def mixture : Expression :=
  .mk (.unary .negate (.var "n"))
    (.cons .plus (.element "list" (.mk (.call (.unqualified "next" .nil)) .nil))
      (.cons .times (.integer "2") .nil))

/-- In a method, where `n` is a field and `list` a local variable. -/
def mixtureState : State where
  rest := tokensAt ⟨"Main.jack", 1, 1⟩ (mixture.spelling ++ [Lexeme.word ";"])
  className := "Main"
  subroutineKind := some .method
  scope :=
    { classLevel := [⟨"n", "int", .field, 0⟩]
      subroutine := [⟨"this", "Main", .argument, 0⟩, ⟨"list", "Array", .localVar, 0⟩] }

def mixtureSetting : Setting where
  endLocation := ⟨"Main.jack", 1, 1⟩
  lines := []

theorem mixtureState_sound : mixtureState.Sound := ⟨by decide, by decide⟩

theorem mixture_compiles : ∃ s', run mixtureSetting mixtureState [.expression] = ⟨s', none⟩ ∧
    s'.code = mixture.code mixtureState.view.env := by
  have hobeys : mixture.Obeys (mixtureState.view.rules mixtureSetting) := by
    have hn : (mixtureState.view.rules mixtureSetting).Accessible "n" :=
      ⟨⟨"int", .this, 0⟩, by decide, by decide⟩
    have hlist : (mixtureState.view.rules mixtureSetting).Accessible "list" :=
      ⟨⟨"Array", .localVar, 0⟩, by decide, by decide⟩
    have htwo : Text.beyond (some Text.maxDigits) "2".length = false ∧
        numeralValue "2" ≤ largestInteger := by decide
    exact ⟨hn, ⟨hlist, ⟨by decide, trivial⟩, trivial⟩, htwo, trivial⟩
  have hreads : Reads mixtureState.view mixture.spelling (mixture.code mixtureState.view.env) 0
      mixture.calls
      { mixtureState.view with
        rest := [Lexeme.word ";"]
        code := mixture.code mixtureState.view.env
        calls := mixture.calls } :=
    ⟨by decide, by decide, rfl⟩
  have hends : mixture.Ends [Lexeme.word ";"] := mixture.ends_of_closer (by decide) []
  obtain ⟨s', hrun, hview⟩ := (run_iff [.expression] mixtureState mixtureState_sound _).mpr
    ⟨_, ⟨mixture, hobeys, hreads, hends⟩, rfl⟩
  exact ⟨s', hrun, congrArg View.code hview⟩

/-- The calls in the example, in their order. -/
theorem mixture_computes :
    ∃ s', run mixtureSetting mixtureState [.expression] = ⟨s', none⟩ ∧
      ∀ A call (m : Memory), ∃ v ks, ks.map Prod.fst = ["Main.next", "Math.multiply"] ∧
        ∀ program stack that temp, ∃ that' temp',
          Reaches (.ofCalls A call) program ⟨s'.code, stack, m, that, temp⟩
            ⟨[], v :: stack, ⟨m.frame, m.world.after call ks⟩, that', temp'⟩ := by
  obtain ⟨s', hrun, hcode⟩ := mixture_compiles
  obtain ⟨e, code, -, happend, -, hcomputes⟩ := run_expression_computes mixtureState_sound hrun
  have hnil : mixtureState.code = [] := rfl
  rw [hnil, List.nil_append] at happend
  refine ⟨s', hrun, fun A call m => ?_⟩
  obtain ⟨v, ks, -, hks, hreaches⟩ := hcomputes A call m
  have hnames : calledNames (mixture.code mixtureState.view.env) =
      ["Main.next", "Math.multiply"] := by decide
  refine ⟨v, ks, ?_, fun program stack that temp => ?_⟩
  · rw [hks, ← happend, hcode, hnames]
  · have hend := hreaches program [] stack that temp
    rw [List.append_nil] at hend
    rw [happend]
    exact hend

end Compile

end Jack
