import Jack.Proofs.Evaluation
import Jack.Proofs.Labels

/-!
# Running the code of statements

Whenever the execution of a block ends, running the code of the block on the machine ends in the
same memory: at a `return` with the value on the stack, or behind the block with the stack as it
was. The code may stand anywhere in a program in which no label stands twice.

The proof is by induction on the execution, not on the statements, because a loop is executed once
more as a whole after each round; a jump back to its first label leads to the very code with which
it started. On the way, argument 0 of a method keeps holding the current object
(`Env.SelfAt`), since no assignment can name it.
-/

namespace Jack.Syntax

open Machine

/-! ## The current object -/

/-- The code finds the current object where it looks for it. -/
def Env.SelfAt (env : Env) (f : Frame) : Prop :=
  ∀ c, env.self = some c → c = ⟨.pointer, 0⟩ ∨ (c = ⟨.argument, 0⟩ ∧ f.arguments 0 = f.this)

theorem Env.SelfAt.agrees {env : Env} {f : Frame} (h : env.SelfAt f) :
    Agrees env env.source f where
  className := rfl
  resolve := rfl
  self := by
    intro c' hc'
    obtain ⟨c, hc, rfl⟩ := Option.map_eq_some_iff.mp hc'
    refine ⟨c, hc, fun w => ?_⟩
    rcases h c hc with rfl | ⟨rfl, hthis⟩
    · rfl
    · exact congrArg some hthis

mutual

/-- The variables that are assigned to. -/
def Statement.targets : Statement → List String
  | .assign x _ => [x]
  | .conditional _ body alternative => body.targets ++ alternative.targets
  | .loop _ body => body.targets
  | .assignElement .. | .perform _ | .yield _ => []

def Alternative.targets : Alternative → List String
  | .absent => []
  | .present body => body.targets

def Block.targets : Block → List String
  | .nil => []
  | .cons s rest => s.targets ++ rest.targets

end

/-- Assigning to a variable does not touch the current object. -/
def Env.Assignable (env : Env) (x : String) : Prop :=
  ∀ b, env.resolve x = some b → b.cell.segment ≠ .pointer ∧ env.self ≠ some b.cell

/-- Writing to a cell other than those of the current object keeps it where it is. -/
theorem Env.SelfAt.write {env : Env} {f : Frame} {w : World} {m' : Memory} {c : Cell} {v : Word}
    (h : env.SelfAt f) (hpointer : c.segment ≠ .pointer) (hself : env.self ≠ some c)
    (hwrite : c.write ⟨f, w⟩ v = some m') : env.SelfAt m'.frame := by
  obtain ⟨segment, i⟩ := c
  intro d hd
  rcases h d hd with rfl | ⟨rfl, hthis⟩
  · exact .inl rfl
  · refine .inr ⟨rfl, ?_⟩
    cases segment with
    | argument =>
        obtain rfl := Option.some.inj hwrite
        have hi : (0 : Nat) ≠ i := by
          intro heq
          subst heq
          exact hself hd
        exact (Function.update_of_ne hi v f.arguments).trans hthis
    | localVar | static | this =>
        obtain rfl := Option.some.inj hwrite
        exact hthis
    | pointer => exact absurd rfl hpointer
    | constant | that | temp => cases hwrite

variable {I : Interpretation} {env : Env}

theorem Alternative.targets_block (a : Alternative) : a.block.targets = a.targets := by
  cases a <;> rfl

mutual

theorem Statement.Runs.selfAt : ∀ {s : Statement} {m m' : Memory} {e : Ending},
    s.Runs I env.source m e m' → (∀ x ∈ s.targets, env.Assignable x) → env.SelfAt m.frame →
      env.SelfAt m'.frame
  | _, _, _, _, .assign _ hx hwrite, hsafe, hself => by
      obtain ⟨hpointer, hcell⟩ := hsafe _ (List.mem_singleton_self _) _ hx
      exact hself.write hpointer hcell hwrite
  | _, _, _, _, .assignElement _ _ _, _, hself => hself
  | _, _, _, _, .thenPart _ hbody, hsafe, hself =>
      hbody.selfAt (fun x hx => hsafe x (List.mem_append_left _ hx)) hself
  | _, _, _, _, .elsePart _ _ hbody, hsafe, hself =>
      hbody.selfAt (fun x hx => hsafe x (List.mem_append_right _
        (Alternative.targets_block _ ▸ hx))) hself
  | _, _, _, _, .loopEnd _ _, _, hself => hself
  | _, _, _, _, .loopNext _ hbody hloop, hsafe, hself =>
      hloop.selfAt hsafe (hbody.selfAt hsafe hself)
  | _, _, _, _, .loopReturn _ hbody, hsafe, hself => hbody.selfAt hsafe hself
  | _, _, _, _, .perform _, _, hself => hself
  | _, _, _, _, .yieldNothing, _, hself => hself
  | _, _, _, _, .yieldValue _, _, hself => hself

theorem Block.Runs.selfAt : ∀ {b : Block} {m m' : Memory} {e : Ending},
    b.Runs I env.source m e m' → (∀ x ∈ b.targets, env.Assignable x) → env.SelfAt m.frame →
      env.SelfAt m'.frame
  | _, _, _, _, .nil, _, hself => hself
  | _, _, _, _, .next hs hrest, hsafe, hself =>
      hrest.selfAt (fun x hx => hsafe x (List.mem_append_right _ hx))
        (hs.selfAt (fun x hx => hsafe x (List.mem_append_left _ hx)) hself)
  | _, _, _, _, .returned hs, hsafe, hself =>
      hs.selfAt (fun x hx => hsafe x (List.mem_append_left _ hx)) hself

end

/-! ## Single steps -/

theorem store_of_write {k : Config} {s : Segment} {n : Nat} {v : Word} {m : Memory}
    (h : k.memory.write v s n = some m) (hs : s ≠ .pointer) :
    k.store v s n = some { k with memory := m } := by
  cases s with
  | argument | localVar | static | this =>
      exact congrArg (Option.map fun m => { k with memory := m }) h
  | pointer => exact absurd rfl hs
  | constant | that | temp => cases h

/-- The code of a conditional or a loop tests the complement of its condition. -/
theorem complement_eq_zero_iff (v : Word) : ~~~v = 0 ↔ v = BitVec.allOnes 16 := by
  constructor
  · intro h
    have hv := congrArg (~~~ ·) h
    simpa using hv
  · intro heq
    subst heq
    decide

/-- How a run of the machine ends that executes some statements in front of `rest`. -/
structure Stopped (e : Ending) (rest : List Instruction) (stack : List Word) (m : Memory)
    (k : Config) : Prop where
  memory : k.memory = m
  place : match e with
    | .through => k.code = rest ∧ k.stack = stack
    | .returned v => (∃ code, k.code = .ret :: code) ∧ k.stack = v.toList ++ stack

/-- Running `code` in front of `rest` does what the execution of some statements does. -/
def Executes (I : Interpretation) (program code rest : List Instruction) (m : Memory) (e : Ending)
    (m' : Memory) : Prop :=
  ∀ stack that temp, ∃ k, Reaches I program ⟨code ++ rest, stack, m, that, temp⟩ k ∧
    Stopped e rest stack m' k

namespace Executes

variable {program code code' rest rest' : List Instruction} {m m₁ m' : Memory} {e : Ending}
  {f : Frame} {w w' : World}

theorem nil : Executes I program [] rest m .through m :=
  fun stack that temp => ⟨⟨rest, stack, m, that, temp⟩, .refl, rfl, rfl, rfl⟩

/-- A first part, and what comes behind it unless the first part returns. -/
theorem append (h : Executes I program code (code' ++ rest) m .through m₁)
    (h' : Executes I program code' rest m₁ e m') :
    Executes I program (code ++ code') rest m e m' := by
  intro stack that temp
  obtain ⟨k, hrun, rfl, hcode, rfl⟩ := h stack that temp
  obtain ⟨k', hrun', hstopped⟩ := h' k.stack k.that k.temp
  rw [← hcode] at hrun'
  rw [← List.append_assoc] at hrun
  exact ⟨k', hrun.trans hrun', hstopped⟩

theorem returned {r : Option Word}
    (h : Executes I program code (code' ++ rest) m (.returned r) m') :
    Executes I program (code ++ code') rest m (.returned r) m' := by
  intro stack that temp
  obtain ⟨k, hrun, hstopped⟩ := h stack that temp
  rw [← List.append_assoc] at hrun
  exact ⟨k, hrun, hstopped.memory, hstopped.place⟩

/-- A part that is left at its end by code that does nothing but go on. -/
theorem leave (h : Executes I program code (code' ++ rest) m e m')
    (h' : Executes I program code' rest m' .through m') :
    Executes I program (code ++ code') rest m e m' := by
  cases e with
  | through => exact h.append h'
  | returned r => exact h.returned

theorem label {l : String} (h : Executes I program code rest m e m') :
    Executes I program (.label l :: code) rest m e m' := by
  intro stack that temp
  obtain ⟨k, hrun, hstopped⟩ := h stack that temp
  exact ⟨k, .head rfl hrun, hstopped⟩

theorem goto {l : String} (target : List Instruction)
    (hl : findLabel l program = some (target ++ rest)) (h : Executes I program target rest m e m') :
    Executes I program (.goto l :: code) rest m e m' := by
  intro stack that temp
  obtain ⟨k, hrun, hstopped⟩ := h stack that temp
  have hjump : step I program ⟨.goto l :: code ++ rest, stack, m, that, temp⟩ =
      some ⟨target ++ rest, stack, m, that, temp⟩ := by
    show (findLabel l program).map _ = _
    rw [hl]
    rfl
  exact ⟨k, .head hjump hrun, hstopped⟩

/-- Code that computes words, and code that takes them from the stack. -/
theorem of_computes {a : List Word} (h : Computes I f code [] w a w')
    (h' : ∀ stack that temp, ∃ k,
      Reaches I program ⟨code' ++ rest, a ++ stack, ⟨f, w'⟩, that, temp⟩ k ∧
        Stopped e rest stack m' k) :
    Executes I program (code ++ code') rest ⟨f, w⟩ e m' := by
  intro stack that temp
  obtain ⟨that₁, temp₁, hrun⟩ := h program (code' ++ rest) stack that temp
  obtain ⟨k, hrun', hstopped⟩ := h' stack that₁ temp₁
  rw [← List.append_assoc] at hrun
  exact ⟨k, hrun.trans hrun', hstopped⟩

/-- A condition that is true lets the code behind its test run. -/
theorem test_true (hnot : I.not = (~~~ ·)) {l : String}
    (h : Computes I f code [] w [BitVec.allOnes 16] w')
    (h' : Executes I program code' rest ⟨f, w'⟩ e m') :
    Executes I program (code ++ .arithmetic .not :: .ifGoto l :: code') rest ⟨f, w⟩ e m' := by
  refine of_computes h fun stack that temp => ?_
  obtain ⟨k, hrun, hstopped⟩ := h' stack that temp
  have hcomplement : step I program ⟨.arithmetic .not :: .ifGoto l :: code' ++ rest,
      BitVec.allOnes 16 :: stack, ⟨f, w'⟩, that, temp⟩ =
        some ⟨.ifGoto l :: code' ++ rest, I.not (BitVec.allOnes 16) :: stack, ⟨f, w'⟩, that,
          temp⟩ := rfl
  have hzero : I.not (BitVec.allOnes 16) = 0 := by
    rw [hnot]
    decide
  rw [hzero] at hcomplement
  exact ⟨k, .head hcomplement (.head rfl hrun), hstopped⟩

/-- A condition that is not true makes its test jump. -/
theorem test_false (hnot : I.not = (~~~ ·)) {l : String} {v : Word} (target : List Instruction)
    (h : Computes I f code [] w [v] w') (hv : v ≠ BitVec.allOnes 16)
    (hl : findLabel l program = some (target ++ rest))
    (h' : Executes I program target rest ⟨f, w'⟩ e m') :
    Executes I program (code ++ .arithmetic .not :: .ifGoto l :: code') rest ⟨f, w⟩ e m' := by
  refine of_computes h fun stack that temp => ?_
  obtain ⟨k, hrun, hstopped⟩ := h' stack that temp
  have hcomplement : step I program ⟨.arithmetic .not :: .ifGoto l :: code' ++ rest,
      v :: stack, ⟨f, w'⟩, that, temp⟩ =
        some ⟨.ifGoto l :: code' ++ rest, I.not v :: stack, ⟨f, w'⟩, that, temp⟩ := rfl
  have hne : ¬I.not v = 0 := by
    rw [hnot]
    exact fun h => hv ((complement_eq_zero_iff v).mp h)
  have hjump : step I program ⟨.ifGoto l :: code' ++ rest, I.not v :: stack, ⟨f, w'⟩, that,
      temp⟩ = some ⟨target ++ rest, stack, ⟨f, w'⟩, that, temp⟩ := by
    refine (if_neg hne).trans ?_
    rw [hl]
    rfl
  exact ⟨k, .head hcomplement (.head hjump hrun), hstopped⟩

/-- Storing the word on top of the stack where the word below it says. -/
theorem poke {a v : Word} (stack : List Word) (that : Word) (temp : Nat → Word) :
    ∃ k, Reaches I program
        ⟨[Instruction.pop .temp 0, .pop .pointer 1, .push .temp 0, .pop .that 0] ++ rest,
          [v, a] ++ stack, ⟨f, w⟩, that, temp⟩ k ∧
        Stopped .through rest stack (Memory.poke ⟨f, w⟩ a v) k := by
  have hvalue : step I program ⟨.pop .temp 0 :: .pop .pointer 1 :: .push .temp 0 :: .pop .that 0 ::
      rest, v :: a :: stack, ⟨f, w⟩, that, temp⟩ = some ⟨.pop .pointer 1 :: .push .temp 0 ::
        .pop .that 0 :: rest, a :: stack, ⟨f, w⟩, that, Function.update temp 0 v⟩ := rfl
  have haddress : step I program ⟨.pop .pointer 1 :: .push .temp 0 :: .pop .that 0 :: rest,
      a :: stack, ⟨f, w⟩, that, Function.update temp 0 v⟩ = some ⟨.push .temp 0 :: .pop .that 0 ::
        rest, stack, ⟨f, w⟩, a, Function.update temp 0 v⟩ := rfl
  have hpush : step I program ⟨.push .temp 0 :: .pop .that 0 :: rest, stack, ⟨f, w⟩, a,
      Function.update temp 0 v⟩ = some ⟨.pop .that 0 :: rest, v :: stack, ⟨f, w⟩, a,
        Function.update temp 0 v⟩ := rfl
  have hstore : step I program ⟨.pop .that 0 :: rest, v :: stack, ⟨f, w⟩, a,
      Function.update temp 0 v⟩ = some ⟨rest, stack, Memory.poke ⟨f, w⟩ (a + 0#16) v, a,
        Function.update temp 0 v⟩ := rfl
  rw [BitVec.add_zero] at hstore
  exact ⟨_, .head hvalue (.head haddress (.head hpush (.single hstore))), rfl, rfl, rfl⟩

end Executes

/-! ## Statements -/

theorem Alternative.code_block (env : Env) (n : Nat) (a : Alternative) :
    a.block.code env n = a.code env n := by
  cases a <;> rfl

/-- Where the parts of a conditional stand in a program. -/
theorem Statement.suffix_conditional {program rest : List Instruction} {n : Nat}
    {condition : Expression} {body : Block} {alternative : Alternative}
    (h : (Statement.conditional condition body alternative).code env n ++ rest <:+ program) :
    body.code env (n + 2) ++ (.goto (label (n + 2)) :: .label (label (n + 1)) ::
        (alternative.code env (n + 2 + body.labels) ++ [Instruction.label (label (n + 2))]) ++
          rest) <:+ program ∧
      .label (label (n + 1)) :: (alternative.code env (n + 2 + body.labels) ++
        ([Instruction.label (label (n + 2))] ++ rest)) <:+ program ∧
      .label (label (n + 2)) :: rest <:+ program := by
  rw [Statement.code_conditional] at h
  simp only [List.append_assoc, List.cons_append] at h ⊢
  have hbody := suffix_of_cons (suffix_of_cons (suffix_of_append h))
  have halternative := suffix_of_cons (suffix_of_append hbody)
  exact ⟨hbody, halternative, suffix_of_append (suffix_of_cons halternative)⟩

/-- Where the parts of a loop stand in a program. -/
theorem Statement.suffix_loop {program rest : List Instruction} {n : Nat} {condition : Expression}
    {body : Block} (h : (Statement.loop condition body).code env n ++ rest <:+ program) :
    body.code env (n + 2) ++ ([.goto (label (n + 1)), Instruction.label (label (n + 2))] ++
        rest) <:+ program ∧
      .label (label (n + 2)) :: rest <:+ program := by
  rw [Statement.code_loop] at h
  simp only [List.append_assoc, List.cons_append] at h ⊢
  have hbody := suffix_of_cons (suffix_of_cons (suffix_of_append (suffix_of_cons h)))
  exact ⟨hbody, suffix_of_cons (suffix_of_append hbody)⟩

mutual

theorem Statement.Runs.executes (hnot : I.not = (~~~ ·)) {program : List Instruction}
    (hlabels : (labelNames program).Nodup) :
    ∀ {s : Statement} {m m' : Memory} {e : Ending}, s.Runs I env.source m e m' →
      (∀ x ∈ s.targets, env.Assignable x) → env.SelfAt m.frame →
      ∀ {n : Nat} {rest : List Instruction}, s.code env n ++ rest <:+ program →
        Executes I program (s.code env n) rest m e m'
  | .assign x value, m, m', _, .assign (b := b) hvalue hx hwrite, hsafe, hself, n, rest,
      _ => by
      have hx' : env.resolve x = some b := hx
      obtain ⟨hpointer, -⟩ := hsafe x (List.mem_singleton_self _) b hx'
      rw [Statement.code, Env.write, hx']
      refine .of_computes (value.computes hself.agrees hvalue) fun stack that temp => ?_
      have hstore := store_of_write (k := ⟨rest, stack, ⟨m.frame, _⟩, that, temp⟩) hwrite hpointer
      exact ⟨_, .single hstore, rfl, rfl, rfl⟩
  | .assignElement x index value, m, _, _, .assignElement (a := a) (i := i) (v := v) (w := w)
      hbase hindex hvalue, _, hself, n, rest, _ => by
      have hbase' := computes_read (I := I) hself.agrees hbase
      have hindex' := (index.computes hself.agrees hindex).frame [a]
      have hadd : Computes I m.frame [.arithmetic .add] [i, a] w [I.add a i] w :=
        computes_arithmetic fun _ => rfl
      have hvalue' := (value.computes hself.agrees hvalue).frame [I.add a i]
      rw [Statement.code]
      refine .of_computes ((hbase'.append hindex').append (hadd.append hvalue'))
        fun stack that temp => ?_
      exact Executes.poke stack that temp
  | .conditional condition body alternative, m, m', e, .thenPart hcondition hbody, hsafe, hself, n,
      rest, hprogram => by
      obtain ⟨hthen, -, hend⟩ := Statement.suffix_conditional hprogram
      have hbody' := hbody.executes hnot hlabels (fun x hx => hsafe x (List.mem_append_left _ hx))
        hself hthen
      rw [Statement.code_conditional]
      refine .test_true hnot (condition.computes hself.agrees hcondition) (hbody'.leave ?_)
      exact .goto [_] (findLabel_eq hlabels hend) (.label .nil)
  | .conditional condition body alternative, m, m', e, .elsePart (w := w) hcondition hv hbody,
      hsafe, hself, n, rest, hprogram => by
      obtain ⟨-, helse, -⟩ := Statement.suffix_conditional hprogram
      have hsafe' : ∀ x ∈ alternative.block.targets, env.Assignable x := by
        rw [Alternative.targets_block]
        exact fun x hx => hsafe x (List.mem_append_right _ hx)
      have hbody' : Executes I program (alternative.code env (n + 2 + body.labels))
          ([Instruction.label (label (n + 2))] ++ rest) ⟨m.frame, w⟩ e m' := by
        rw [← Alternative.code_block] at helse ⊢
        exact hbody.executes hnot hlabels hsafe' hself (suffix_of_cons helse)
      rw [Statement.code_conditional]
      refine .test_false hnot (.label (label (n + 1)) ::
        (alternative.code env (n + 2 + body.labels) ++ [Instruction.label (label (n + 2))]))
        (condition.computes hself.agrees hcondition) hv ?_ (.label (hbody'.leave (.label .nil)))
      rw [findLabel_eq hlabels helse]
      simp
  | .loop condition body, m, _, _, .loopEnd hcondition hv, hsafe, hself, n, rest, hprogram => by
      obtain ⟨-, hend⟩ := Statement.suffix_loop hprogram
      rw [Statement.code_loop]
      exact .label (.test_false hnot [_] (condition.computes hself.agrees hcondition) hv
        (findLabel_eq hlabels hend) (.label .nil))
  | .loop condition body, m, m', e, .loopNext hcondition hbody hloop, hsafe, hself, n, rest,
      hprogram => by
      obtain ⟨hround, -⟩ := Statement.suffix_loop hprogram
      have hbody' := hbody.executes hnot hlabels hsafe hself hround
      -- The jump back leads to the code of the whole loop, which the rest of the execution runs.
      have hagain := hloop.executes hnot hlabels hsafe (hbody.selfAt hsafe hself) hprogram
      rw [Statement.code_loop] at hprogram hagain ⊢
      exact .label (.test_true hnot (condition.computes hself.agrees hcondition)
        (hbody'.append (.goto _ (findLabel_eq hlabels hprogram) hagain)))
  | .loop condition body, m, m', _, .loopReturn hcondition hbody, hsafe, hself, n, rest,
      hprogram => by
      obtain ⟨hround, -⟩ := Statement.suffix_loop hprogram
      have hbody' := hbody.executes hnot hlabels hsafe hself hround
      rw [Statement.code_loop]
      exact .label (.test_true hnot (condition.computes hself.agrees hcondition) hbody'.returned)
  | .perform k, m, _, _, .perform hcall, _, hself, n, rest, _ => by
      rw [Statement.code]
      refine .of_computes (k.computes hself.agrees hcall) fun stack that temp => ?_
      exact ⟨_, .single rfl, rfl, rfl, rfl⟩
  | .yield none, m, _, _, .yieldNothing, _, _, n, rest, _ =>
      fun stack that temp => ⟨_, .refl, rfl, ⟨rest, rfl⟩, rfl⟩
  | .yield (some value), m, _, _, .yieldValue hvalue, _, hself, n, rest, _ => by
      rw [Statement.code]
      refine .of_computes (value.computes hself.agrees hvalue) fun stack that temp => ?_
      exact ⟨_, .refl, rfl, ⟨rest, rfl⟩, rfl⟩

theorem Block.Runs.executes (hnot : I.not = (~~~ ·)) {program : List Instruction}
    (hlabels : (labelNames program).Nodup) :
    ∀ {b : Block} {m m' : Memory} {e : Ending}, b.Runs I env.source m e m' →
      (∀ x ∈ b.targets, env.Assignable x) → env.SelfAt m.frame →
      ∀ {n : Nat} {rest : List Instruction}, b.code env n ++ rest <:+ program →
        Executes I program (b.code env n) rest m e m'
  | .nil, _, _, _, .nil, _, _, _, _, _ => .nil
  | .cons s b, m, m', e, .next hs hrest, hsafe, hself, n, rest, hprogram => by
      have hsafe' : ∀ x ∈ s.targets, env.Assignable x :=
        fun x hx => hsafe x (List.mem_append_left _ hx)
      rw [Block.code, List.append_assoc] at hprogram
      refine (hs.executes hnot hlabels hsafe' hself hprogram).append ?_
      exact hrest.executes hnot hlabels (fun x hx => hsafe x (List.mem_append_right _ hx))
        (hs.selfAt hsafe' hself) (suffix_of_append hprogram)
  | .cons s b, m, m', _, .returned hs, hsafe, hself, n, rest, hprogram => by
      rw [Block.code, List.append_assoc] at hprogram
      exact (hs.executes hnot hlabels (fun x hx => hsafe x (List.mem_append_left _ hx)) hself
        hprogram).returned

end

end Jack.Syntax
