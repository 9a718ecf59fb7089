import Jack.Proofs.Machine
import Mathlib.Data.List.Nodup

/-!
# Labels

The code of an expression holds no labels and no jumps. The labels in the code of statements are
the numbers that the statements take, each once, though not in order (`labelNames_perm`), and the
jumps go to each of them once and to no others (`jumpNames_perm`). So every jump has exactly one
place to go to, and every label one place it is reached from by a jump.
-/

namespace Jack.Syntax

open Machine

theorem label_injective : Function.Injective label := by
  intro m n h
  have hdigits : Nat.toDigits 10 m = Nat.toDigits 10 n := by
    have hlist := congrArg String.toList h
    rw [toList_label, toList_label] at hlist
    exact (List.cons.inj hlist).2
  have hvalue := congrArg (Nat.ofDigitChars 10 · 0) hdigits
  simpa [Nat.ofDigitChars_ten_toDigits] using hvalue

/-! ## Straight code -/

/-- An instruction that goes on to the next one and is never gone to. -/
def isStraight : Instruction → Bool
  | .push _ _ | .pop _ _ | .arithmetic _ | .call _ _ => true
  | .label _ | .goto _ | .ifGoto _ | .function _ _ | .ret => false

def Straight (code : List Instruction) : Prop := ∀ i ∈ code, isStraight i = true

@[simp] theorem straight_nil : Straight [] := fun _ hi => (List.not_mem_nil hi).elim

@[simp] theorem straight_cons {i : Instruction} {code : List Instruction} :
    Straight (i :: code) ↔ isStraight i = true ∧ Straight code :=
  List.forall_mem_cons

@[simp] theorem straight_append {i j : List Instruction} :
    Straight (i ++ j) ↔ Straight i ∧ Straight j :=
  List.forall_mem_append

theorem straight_read (env : Env) (x : String) : Straight (env.read x) := by
  unfold Env.read
  split <;> simp [Cell.push, isStraight]

theorem straight_write (env : Env) (x : String) : Straight (env.write x) := by
  unfold Env.write
  split <;> simp [Cell.pop, isStraight]

theorem straight_stringCode (text : String) : Straight (stringCode text) := by
  simp only [stringCode, straight_cons, isStraight, true_and]
  induction text.toList with
  | nil => simp
  | cons d ds ih => simpa [isStraight] using ih

theorem straight_operator (op : Operator) : isStraight op.instruction = true := by
  cases op <;> rfl

theorem straight_unaryOperator (op : UnaryOperator) : isStraight op.instruction = true := by
  cases op <;> rfl

mutual

theorem Expression.straight (env : Env) : ∀ e : Expression, Straight (e.code env)
  | .mk first rest => straight_append.mpr ⟨first.straight env, rest.straight env⟩

theorem Operations.straight (env : Env) : ∀ o : Operations, Straight (o.code env)
  | .nil => straight_nil
  | .cons op operand rest =>
      straight_append.mpr ⟨operand.straight env,
        straight_cons.mpr ⟨straight_operator op, rest.straight env⟩⟩

theorem Term.straight (env : Env) : ∀ t : Term, Straight (t.code env)
  | .integer digits => by simp [Term.code, isStraight]
  | .string text => straight_stringCode text
  | .constant k => by cases k <;> simp [Term.code, Constant.code, isStraight]
  | .this => by
      rw [Term.code]
      cases env.self <;> simp [Cell.push, isStraight]
  | .unary op operand =>
      straight_append.mpr ⟨operand.straight env,
        straight_cons.mpr ⟨straight_unaryOperator op, straight_nil⟩⟩
  | .parens e => e.straight env
  | .var x => straight_read env x
  | .element x index => by
      simp [Term.code, straight_read, index.straight env, isStraight]
  | .call k => k.straight env

theorem Call.straight (env : Env) : ∀ k : Call, Straight (k.code env)
  | .unqualified callee arguments => by
      simp [Call.code, arguments.straight env, isStraight]
  | .qualified qualifier callee arguments => by
      rw [Call.code]
      split <;> simp [Cell.push, arguments.straight env, isStraight]

theorem Arguments.straight (env : Env) : ∀ a : Arguments, Straight (a.code env)
  | .nil => straight_nil
  | .cons e rest => straight_append.mpr ⟨e.straight env, rest.straight env⟩

end

theorem Subroutine.straight_prologue (c : ClassDecl) (s : Subroutine) :
    Straight (s.prologue c) := by
  unfold Subroutine.prologue
  split <;> simp [isStraight]

theorem labelNames_of_straight {code : List Instruction} (h : Straight code) :
    labelNames code = [] := by
  induction code with
  | nil => rfl
  | cons i code ih =>
      obtain ⟨hi, hcode⟩ := straight_cons.mp h
      have hlabel : ∀ l, i ≠ .label l := by
        rintro l rfl
        cases hi
      rw [labelNames_cons hlabel, ih hcode]

theorem jumpNames_of_straight {code : List Instruction} (h : Straight code) :
    jumpNames code = [] := by
  refine List.filterMap_eq_nil_iff.mpr fun i hi => ?_
  have hstraight := h i hi
  cases i with
  | goto | ifGoto => cases hstraight
  | push | pop | arithmetic | label | call | function | ret => rfl

/-! ## The labels of statements -/

/-- The labels that are drawn when `n` have been drawn before and `k` are taken. -/
def drawnLabels (n k : Nat) : List String := (List.range' (n + 1) k).map label

theorem drawnLabels_add (n k j : Nat) :
    drawnLabels n (k + j) = drawnLabels n k ++ drawnLabels (n + k) j := by
  rw [drawnLabels, ← List.range'_append_1, List.map_append, Nat.add_right_comm]
  rfl

theorem drawnLabels_two_add (n k : Nat) :
    drawnLabels n (2 + k) = label (n + 1) :: label (n + 2) :: drawnLabels (n + 2) k :=
  drawnLabels_add n 2 k

theorem nodup_drawnLabels (n k : Nat) : (drawnLabels n k).Nodup :=
  (List.nodup_range' 1).map label_injective

theorem Statement.labelNames_conditional (env : Env) (n : Nat) (condition : Expression)
    (body : Block) (alternative : Alternative) :
    labelNames (Statement.code env n (.conditional condition body alternative)) =
      labelNames (body.code env (n + 2)) ++ label (n + 1) ::
        (labelNames (alternative.code env (n + 2 + body.labels)) ++ [label (n + 2)]) := by
  simp [Statement.code, labelNames_of_straight (condition.straight env), labelNames_cons]

theorem Statement.labelNames_loop (env : Env) (n : Nat) (condition : Expression) (body : Block) :
    labelNames (Statement.code env n (.loop condition body)) =
      label (n + 1) :: (labelNames (body.code env (n + 2)) ++ [label (n + 2)]) := by
  simp [Statement.code, labelNames_of_straight (condition.straight env), labelNames_cons]

mutual

theorem Statement.labelNames_perm (env : Env) :
    ∀ (s : Statement) (n : Nat), (labelNames (s.code env n)).Perm (drawnLabels n s.labels)
  | .assign x value, n => by
      rw [Statement.code, labelNames_of_straight
        (straight_append.mpr ⟨value.straight env, straight_write env x⟩)]
      exact .nil
  | .assignElement x index value, n => by
      have hstraight : Straight (Statement.code env n (.assignElement x index value)) := by
        simp [Statement.code, straight_read, index.straight env, value.straight env, isStraight]
      rw [labelNames_of_straight hstraight]
      exact .nil
  | .conditional condition body alternative, n => by
      have hbody := body.labelNames_perm env (n + 2)
      have halternative := alternative.labelNames_perm env (n + 2 + body.labels)
      have hrotate : ∀ (A B : List String) (x y : String),
          (B ++ x :: (A ++ [y])).Perm (x :: y :: (B ++ A)) := by
        intro A B x y
        refine List.perm_middle.trans (.cons x ?_)
        rw [← List.append_assoc]
        exact List.perm_append_singleton y (B ++ A)
      rw [Statement.labelNames_conditional, Statement.labels, Nat.add_assoc 2, drawnLabels_two_add,
        drawnLabels_add]
      exact (hrotate _ _ _ _).trans (.cons _ (.cons _ (hbody.append halternative)))
  | .loop condition body, n => by
      have hbody := body.labelNames_perm env (n + 2)
      rw [Statement.labelNames_loop, Statement.labels, drawnLabels_two_add]
      exact .cons _ ((List.perm_append_singleton _ _).trans (.cons _ hbody))
  | .perform k, n => by
      have hstraight : Straight (Statement.code env n (.perform k)) := by
        simp [Statement.code, k.straight env, isStraight]
      rw [labelNames_of_straight hstraight]
      exact .nil
  | .yield none, _ => .nil
  | .yield (some value), n => by
      have hnames : labelNames (Statement.code env n (.yield (some value))) = [] := by
        simp [Statement.code, labelNames_of_straight (value.straight env), labelNames_cons]
      rw [hnames]
      exact .nil

theorem Alternative.labelNames_perm (env : Env) :
    ∀ (a : Alternative) (n : Nat), (labelNames (a.code env n)).Perm (drawnLabels n a.labels)
  | .absent, _ => .nil
  | .present body, n => body.labelNames_perm env n

theorem Block.labelNames_perm (env : Env) :
    ∀ (b : Block) (n : Nat), (labelNames (b.code env n)).Perm (drawnLabels n b.labels)
  | .nil, _ => .nil
  | .cons s rest, n => by
      rw [Block.code, labelNames_append, Block.labels, drawnLabels_add]
      exact (s.labelNames_perm env n).append (rest.labelNames_perm env (n + s.labels))

end

/-- No label stands twice in a body. -/
theorem Block.nodup_labelNames (env : Env) (b : Block) (n : Nat) :
    (labelNames (b.code env n)).Nodup :=
  (b.labelNames_perm env n).nodup_iff.mpr (nodup_drawnLabels n b.labels)

/-! ## Jumps -/

theorem Statement.jumpNames_conditional (env : Env) (n : Nat) (condition : Expression)
    (body : Block) (alternative : Alternative) :
    jumpNames (Statement.code env n (.conditional condition body alternative)) =
      label (n + 1) :: (jumpNames (body.code env (n + 2)) ++
        label (n + 2) :: jumpNames (alternative.code env (n + 2 + body.labels))) := by
  simp [Statement.code, jumpNames_of_straight (condition.straight env), jumpTarget?]

theorem Statement.jumpNames_loop (env : Env) (n : Nat) (condition : Expression) (body : Block) :
    jumpNames (Statement.code env n (.loop condition body)) =
      label (n + 2) :: (jumpNames (body.code env (n + 2)) ++ [label (n + 1)]) := by
  simp [Statement.code, jumpNames_of_straight (condition.straight env), jumpTarget?]

mutual

/-- Each label of a statement is gone to once. -/
theorem Statement.jumpNames_perm (env : Env) :
    ∀ (s : Statement) (n : Nat), (jumpNames (s.code env n)).Perm (drawnLabels n s.labels)
  | .assign x value, n => by
      rw [Statement.code, jumpNames_of_straight
        (straight_append.mpr ⟨value.straight env, straight_write env x⟩)]
      exact .nil
  | .assignElement x index value, n => by
      have hstraight : Straight (Statement.code env n (.assignElement x index value)) := by
        simp [Statement.code, straight_read, index.straight env, value.straight env, isStraight]
      rw [jumpNames_of_straight hstraight]
      exact .nil
  | .conditional condition body alternative, n => by
      have hbody := body.jumpNames_perm env (n + 2)
      have halternative := alternative.jumpNames_perm env (n + 2 + body.labels)
      rw [Statement.jumpNames_conditional, Statement.labels, Nat.add_assoc 2, drawnLabels_two_add,
        drawnLabels_add]
      exact .cons _ (List.perm_middle.trans (.cons _ (hbody.append halternative)))
  | .loop condition body, n => by
      have hbody := body.jumpNames_perm env (n + 2)
      rw [Statement.jumpNames_loop, Statement.labels, drawnLabels_two_add]
      refine (List.Perm.cons _ (List.perm_append_singleton _ _)).trans (.trans (.swap _ _ _) ?_)
      exact .cons _ (.cons _ hbody)
  | .perform k, n => by
      have hstraight : Straight (Statement.code env n (.perform k)) := by
        simp [Statement.code, k.straight env, isStraight]
      rw [jumpNames_of_straight hstraight]
      exact .nil
  | .yield none, _ => .nil
  | .yield (some value), n => by
      have hjumps : jumpNames (Statement.code env n (.yield (some value))) = [] := by
        simp [Statement.code, jumpNames_of_straight (value.straight env), jumpTarget?]
      rw [hjumps]
      exact .nil

theorem Alternative.jumpNames_perm (env : Env) :
    ∀ (a : Alternative) (n : Nat), (jumpNames (a.code env n)).Perm (drawnLabels n a.labels)
  | .absent, _ => .nil
  | .present body, n => body.jumpNames_perm env n

theorem Block.jumpNames_perm (env : Env) :
    ∀ (b : Block) (n : Nat), (jumpNames (b.code env n)).Perm (drawnLabels n b.labels)
  | .nil, _ => .nil
  | .cons s rest, n => by
      rw [Block.code, jumpNames_append, Block.labels, drawnLabels_add]
      exact (s.jumpNames_perm env n).append (rest.jumpNames_perm env (n + s.labels))

end

/-- A body jumps nowhere but to its own labels. -/
theorem Block.jumpNames_subset (env : Env) (b : Block) (n : Nat) :
    jumpNames (b.code env n) ⊆ labelNames (b.code env n) :=
  ((b.jumpNames_perm env n).trans (b.labelNames_perm env n).symm).subset

end Jack.Syntax
