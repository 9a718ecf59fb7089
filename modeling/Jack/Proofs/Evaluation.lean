import Jack.Proofs.Semantics

/-!
# Running the code of expressions

The code of an expression, run on any stack, pushes the value of the expression and leaves the
memory that its evaluation leaves. The statement about a piece of code is `Computes`: which words
it takes from the stack and which it puts there, whatever lies below them, whatever code follows
and whatever the temporary cells and `pointer 1` hold. These two are left open on both sides, so
nothing has to be said about how nested array accesses and calls use them.

Pieces of code compose by `Computes.append`, and a piece that needs less of the stack than there
is leaves the rest alone (`Computes.frame`).
-/

namespace Jack.Machine

open Syntax

variable {I : Interpretation} {f : Frame} {w w' w'' : World}

/-- Running `code` replaces the words `before` on the stack by `after`, the top coming first, and
the world `w` by `w'`. -/
def Computes (I : Interpretation) (f : Frame) (code : List Instruction) (before : List Word)
    (w : World) (after : List Word) (w' : World) : Prop :=
  ∀ program rest stack that temp, ∃ that' temp',
    Reaches I program ⟨code ++ rest, before ++ stack, ⟨f, w⟩, that, temp⟩
      ⟨rest, after ++ stack, ⟨f, w'⟩, that', temp'⟩

namespace Computes

variable {i j : List Instruction} {a b d : List Word}

theorem nil (I : Interpretation) (f : Frame) (b : List Word) (w : World) :
    Computes I f [] b w b w :=
  fun _ _ _ that temp => ⟨that, temp, .refl⟩

theorem append (h : Computes I f i b w a w') (h' : Computes I f j a w' d w'') :
    Computes I f (i ++ j) b w d w'' := by
  intro program rest stack that temp
  obtain ⟨that₁, temp₁, hrun⟩ := h program (j ++ rest) stack that temp
  obtain ⟨that₂, temp₂, hrun'⟩ := h' program rest stack that₁ temp₁
  rw [← List.append_assoc] at hrun
  exact ⟨that₂, temp₂, hrun.trans hrun'⟩

theorem frame (h : Computes I f i b w a w') (below : List Word) :
    Computes I f i (b ++ below) w (a ++ below) w' := by
  intro program rest stack that temp
  rw [List.append_assoc, List.append_assoc]
  exact h program rest (below ++ stack) that temp

/-- One instruction that goes on to the next one. -/
theorem single {x : Instruction}
    (h : ∀ program rest stack that temp, ∃ that' temp',
      execute I program ⟨rest, b ++ stack, ⟨f, w⟩, that, temp⟩ x =
        some ⟨rest, a ++ stack, ⟨f, w'⟩, that', temp'⟩) :
    Computes I f [x] b w a w' := by
  intro program rest stack that temp
  obtain ⟨that', temp', hx⟩ := h program rest stack that temp
  exact ⟨that', temp', .single hx⟩

end Computes

/-! ## Single instructions -/

theorem computes_constant (n : Nat) :
    Computes I f [.push .constant n] [] w [BitVec.ofNat 16 n] w :=
  .single fun _ _ _ that temp => ⟨that, temp, rfl⟩

theorem load_of_read {k : Config} {s : Segment} {n : Nat} {v : Word}
    (h : k.memory.read s n = some v) : k.load s n = some v := by
  cases s with
  | argument | localVar | static | this => exact h
  | constant | that | temp => cases h
  | pointer =>
      cases n with
      | zero => exact h
      | succ n => cases h

theorem computes_push {c : Cell} {v : Word} (h : c.read ⟨f, w⟩ = some v) :
    Computes I f [c.push] [] w [v] w := by
  refine .single fun program rest stack that temp => ⟨that, temp, ?_⟩
  have hload : Config.load ⟨rest, stack, ⟨f, w⟩, that, temp⟩ c.segment c.index = some v :=
    load_of_read h
  simp only [Cell.push, execute, Count.value, List.nil_append, hload, Option.map_some,
    List.singleton_append]

theorem computes_arithmetic {k : Command} {a b : List Word}
    (h : ∀ stack, I.apply k (b ++ stack) = some (a ++ stack)) :
    Computes I f [.arithmetic k] b w a w := by
  refine .single fun program rest stack that temp => ⟨that, temp, ?_⟩
  simp only [execute, h stack, Option.map_some]

theorem computes_call {x : String} (args : List Word) {v : Word}
    (h : I.invoke x args w = some (v, w')) :
    Computes I f [.call x (.number args.length)] args.reverse w [v] w' := by
  obtain ⟨r, hr, heq⟩ := Option.map_eq_some_iff.mp h
  obtain ⟨rfl, rfl⟩ := Prod.mk.injEq .. |>.mp heq
  refine .single fun program rest stack that temp => ⟨that, r.temp, ?_⟩
  have hlength : args.length ≤ (args.reverse ++ stack).length := by simp
  refine (if_pos hlength).trans ?_
  have htake : (args.reverse ++ stack).take args.length = args.reverse :=
    List.take_left' List.length_reverse
  have hdrop : (args.reverse ++ stack).drop args.length = stack :=
    List.drop_left' List.length_reverse
  simp only [Count.value, htake, hdrop, List.reverse_reverse, hr, Option.map_some,
    List.singleton_append]

/-- A call behind the code of its arguments; the receiver, if there is one, lies below them. -/
theorem Computes.call {i : List Instruction} {receiver args : List Word} {x : String} {n : Nat}
    {v : Word} (h : Computes I f i [] w args.reverse w')
    (hn : n = receiver.length + args.length)
    (hcall : I.invoke x (receiver ++ args) w' = some (v, w'')) :
    Computes I f (i ++ [Instruction.call x (.number n)]) receiver.reverse w [v] w'' := by
  have hargs := h.frame receiver.reverse
  rw [← List.reverse_append, List.nil_append] at hargs
  rw [hn, ← List.length_append]
  exact hargs.append (computes_call (receiver ++ args) hcall)

/-- Reading the heap cell whose address is on the stack. -/
theorem computes_peek (a : Word) :
    Computes I f [.pop .pointer 1, .push .that 0] [a] w [w.heap a] w := by
  intro program rest stack that temp
  have hpop : step I program ⟨.pop .pointer 1 :: .push .that 0 :: rest, a :: stack, ⟨f, w⟩, that,
      temp⟩ = some ⟨.push .that 0 :: rest, stack, ⟨f, w⟩, a, temp⟩ := rfl
  have hpush : step I program ⟨.push .that 0 :: rest, stack, ⟨f, w⟩, a, temp⟩ =
      some ⟨rest, w.heap (a + 0#16) :: stack, ⟨f, w⟩, a, temp⟩ := rfl
  rw [BitVec.add_zero] at hpush
  exact ⟨a, temp, .head hpop (.single hpush)⟩

theorem computes_operator {op : Operator} {a b v : Word} (h : op.apply I a b w = some (v, w')) :
    Computes I f [op.instruction] [b, a] w [v] w' := by
  cases op with
  | times => exact computes_call [a, b] h
  | divide => exact computes_call [a, b] h
  | plus | minus | and | or | less | greater | equal =>
      obtain ⟨rfl, rfl⟩ := Prod.mk.injEq .. |>.mp (Option.some.inj h)
      exact computes_arithmetic fun _ => rfl

theorem computes_unaryOperator (op : UnaryOperator) (a : Word) :
    Computes I f [op.instruction] [a] w [op.apply I a] w := by
  cases op with
  | negate => exact computes_arithmetic fun _ => rfl
  | complement => exact computes_arithmetic fun _ => rfl

theorem computes_appendAll :
    ∀ (cs : List Char) {a v : Word} {w w' : World}, appendAll I cs a w = some (v, w') →
      Computes I f
        (cs.flatMap fun c => [.push .constant c.toNat, .call "String.appendChar" 2]) [a] w [v] w'
  | [], a, v, w, w', h => by
      obtain ⟨rfl, rfl⟩ := Prod.mk.injEq .. |>.mp (Option.some.inj h)
      exact .nil I f [a] w
  | c :: cs, a, v, w, w', h => by
      simp only [appendAll, Option.bind_eq_bind, Option.bind_eq_some_iff, Prod.exists] at h
      obtain ⟨a₁, w₁, hcall, hrest⟩ := h
      have hpush := (computes_constant (I := I) (f := f) (w := w) c.toNat).frame [a]
      exact (hpush.append (computes_call [a, _] hcall)).append (computes_appendAll cs hrest)

theorem computes_stringCode {text : String} {v : Word} (h : stringValue I text w = some (v, w')) :
    Computes I f (stringCode text) [] w [v] w' := by
  simp only [stringValue, Option.bind_eq_bind, Option.bind_eq_some_iff, Prod.exists] at h
  obtain ⟨a, w₁, hnew, happend⟩ := h
  have hpush : Computes I f [.push .constant text.length] [] w [_] w := computes_constant _
  exact (hpush.append (computes_call [_] hnew)).append (computes_appendAll _ happend)

/-! ## Environments for code and for meaning -/

/-- The code reads `this` from a cell that holds what the meaning takes `this` to be. -/
structure Agrees (env env' : Env) (f : Frame) : Prop where
  className : env'.className = env.className
  resolve : env'.resolve = env.resolve
  self : ∀ c', env'.self = some c' →
    ∃ c, env.self = some c ∧ ∀ w, c.read ⟨f, w⟩ = c'.read ⟨f, w⟩

variable {env env' : Env}

theorem computes_read (h : Agrees env env' f) {x : String} {a : Word}
    (hx : env'.value f w x = some a) : Computes I f (env.read x) [] w [a] w := by
  rw [Env.value, h.resolve] at hx
  obtain ⟨b, hb, hread⟩ := Option.bind_eq_some_iff.mp hx
  rw [Env.read, hb]
  exact computes_push hread

end Jack.Machine

namespace Jack.Syntax

open Machine

variable {I : Interpretation} {f : Frame} {env env' : Env}

mutual

theorem Expression.computes (h : Agrees env env' f) :
    ∀ (e : Expression) {w w' : World} {v : Word}, e.eval I env' f w = some (v, w') →
      Computes I f (e.code env) [] w [v] w'
  | .mk first rest, w, w', v, he => by
      simp only [Expression.eval, Option.bind_eq_bind, Option.bind_eq_some_iff, Prod.exists] at he
      obtain ⟨a, w₁, hfirst, hrest⟩ := he
      exact (first.computes h hfirst).append (rest.computes h hrest)

theorem Operations.computes (h : Agrees env env' f) :
    ∀ (o : Operations) {w w' : World} {a v : Word}, o.eval I env' f a w = some (v, w') →
      Computes I f (o.code env) [a] w [v] w'
  | .nil, w, w', a, v, ho => by
      obtain ⟨rfl, rfl⟩ := Prod.mk.injEq .. |>.mp (Option.some.inj ho)
      exact .nil I f [a] w
  | .cons op operand rest, w, w', a, v, ho => by
      simp only [Operations.eval, Option.bind_eq_bind, Option.bind_eq_some_iff, Prod.exists] at ho
      obtain ⟨b, w₁, hoperand, a', w₂, hop, hrest⟩ := ho
      have hoperand := (operand.computes h hoperand).frame [a]
      exact hoperand.append ((computes_operator hop).append (rest.computes h hrest))

theorem Term.computes (h : Agrees env env' f) :
    ∀ (t : Term) {w w' : World} {v : Word}, t.eval I env' f w = some (v, w') →
      Computes I f (t.code env) [] w [v] w'
  | .integer digits, w, w', v, ht => by
      obtain ⟨rfl, rfl⟩ := Prod.mk.injEq .. |>.mp (Option.some.inj ht)
      exact computes_constant _
  | .string text, w, w', v, ht => computes_stringCode ht
  | .constant k, w, w', v, ht => by
      obtain ⟨rfl, rfl⟩ := Prod.mk.injEq .. |>.mp (Option.some.inj ht)
      cases k with
      | true => exact (computes_constant 1).append (computes_arithmetic fun _ => rfl)
      | false => exact computes_constant 0
      | null => exact computes_constant 0
  | .this, w, w', v, ht => by
      simp only [Term.eval, Option.bind_eq_bind, Option.bind_eq_some_iff] at ht
      obtain ⟨c', hc', a, ha, heq⟩ := ht
      obtain ⟨rfl, rfl⟩ := Prod.mk.injEq .. |>.mp (Option.some.inj heq)
      obtain ⟨c, hc, hread⟩ := h.self c' hc'
      rw [Term.code, hc]
      exact computes_push ((hread w).trans ha)
  | .unary op operand, w, w', v, ht => by
      simp only [Term.eval, Option.bind_eq_bind, Option.bind_eq_some_iff, Prod.exists] at ht
      obtain ⟨a, w₁, hoperand, heq⟩ := ht
      obtain ⟨rfl, rfl⟩ := Prod.mk.injEq .. |>.mp (Option.some.inj heq)
      exact (operand.computes h hoperand).append (computes_unaryOperator op a)
  | .parens e, w, w', v, ht => e.computes h ht
  | .var x, w, w', v, ht => by
      simp only [Term.eval, Option.bind_eq_bind, Option.bind_eq_some_iff] at ht
      obtain ⟨a, ha, heq⟩ := ht
      obtain ⟨rfl, rfl⟩ := Prod.mk.injEq .. |>.mp (Option.some.inj heq)
      exact computes_read h ha
  | .element x index, w, w', v, ht => by
      simp only [Term.eval, Option.bind_eq_bind, Option.bind_eq_some_iff, Prod.exists] at ht
      obtain ⟨a, ha, i, w₁, hindex, heq⟩ := ht
      obtain ⟨rfl, rfl⟩ := Prod.mk.injEq .. |>.mp (Option.some.inj heq)
      have haddress : Computes I f [.arithmetic .add] [i, a] w₁ [I.add a i] w₁ :=
        computes_arithmetic fun _ => rfl
      have hindex := (index.computes h hindex).frame [a]
      exact ((computes_read h ha).append hindex).append (haddress.append (computes_peek _))
  | .call k, w, w', v, ht => k.computes h ht

theorem Call.computes (h : Agrees env env' f) :
    ∀ (k : Call) {w w' : World} {v : Word}, k.eval I env' f w = some (v, w') →
      Computes I f (k.code env) [] w [v] w'
  | .unqualified callee arguments, w, w', v, hk => by
      simp only [Call.eval, Option.bind_eq_bind, Option.bind_eq_some_iff, Prod.exists] at hk
      obtain ⟨as, w₁, hargs, hcall⟩ := hk
      obtain ⟨hlength, hargs⟩ := arguments.computes h hargs
      have hreceiver : Computes I f [.push .pointer 0] [] w [f.this] w :=
        computes_push (c := ⟨.pointer, 0⟩) rfl
      rw [Env.qualify, h.className] at hcall
      have hn : arguments.length + 1 = [f.this].length + as.length := by
        rw [hlength, List.length_singleton, Nat.add_comm]
      exact hreceiver.append (hargs.call hn hcall)
  | .qualified qualifier callee arguments, w, w', v, hk => by
      rw [Call.eval, h.resolve] at hk
      rw [Call.code]
      cases hb : env.resolve qualifier with
      | some b =>
          simp only [hb, Option.bind_eq_bind, Option.bind_eq_some_iff, Prod.exists] at hk
          obtain ⟨a, ha, as, w₁, hargs, hcall⟩ := hk
          obtain ⟨hlength, hargs⟩ := arguments.computes h hargs
          have hn : arguments.length + 1 = [a].length + as.length := by
            rw [hlength, List.length_singleton, Nat.add_comm]
          exact (computes_push ha).append (hargs.call hn hcall)
      | none =>
          simp only [hb, Option.bind_eq_bind, Option.bind_eq_some_iff, Prod.exists] at hk
          obtain ⟨as, w₁, hargs, hcall⟩ := hk
          obtain ⟨hlength, hargs⟩ := arguments.computes h hargs
          have hn : arguments.length = ([] : List Word).length + as.length := by
            rw [hlength, List.length_nil, Nat.zero_add]
          exact hargs.call hn hcall

theorem Arguments.computes (h : Agrees env env' f) :
    ∀ (a : Arguments) {w w' : World} {as : List Word}, a.eval I env' f w = some (as, w') →
      as.length = a.length ∧ Computes I f (a.code env) [] w as.reverse w'
  | .nil, w, w', as, ha => by
      obtain ⟨rfl, rfl⟩ := Prod.mk.injEq .. |>.mp (Option.some.inj ha)
      exact ⟨rfl, .nil I f [] w⟩
  | .cons e rest, w, w', as, ha => by
      simp only [Arguments.eval, Option.bind_eq_bind, Option.bind_eq_some_iff, Prod.exists] at ha
      obtain ⟨v, w₁, he, vs, w₂, hrest, heq⟩ := ha
      obtain ⟨rfl, rfl⟩ := Prod.mk.injEq .. |>.mp (Option.some.inj heq)
      obtain ⟨hlength, hrest⟩ := rest.computes h hrest
      have hrest := hrest.frame [v]
      rw [← List.reverse_cons] at hrest
      exact ⟨congrArg (· + 1) hlength, (e.computes h he).append hrest⟩

end

end Jack.Syntax
