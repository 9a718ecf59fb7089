import Jack.Proofs.Acceptance
import Jack.Proofs.Labels
import Jack.Proofs.Lexing

/-!
# Stack discipline

Every instruction of a function block stands at a fixed height of the working stack, on whatever
path it is reached (`Disciplined`), and every run keeps to the heights (`Disciplined.reaches`).

The heights are found by going through the code once, in the order in which it is written: `Fits`
relates the height in front of some code, the heights at its returns, and the height behind it. An
expression raises the height by one, wherever it starts; a statement starts and ends at height 0.
Labels and jumps stand between statements, or behind a test, so both ends of a jump are at height
0 without a look at where it goes; behind a return the count starts again at 0.
-/

namespace Jack.Machine

/-! ## Heights of positions -/

/-- How many words an instruction needs on the working stack. -/
def operands : Instruction → Nat
  | .pop _ _ | .ifGoto _ | .arithmetic .neg | .arithmetic .not => 1
  | .arithmetic _ => 2
  | .call _ n => n.value
  | .push _ _ | .label _ | .goto _ | .function _ _ | .ret => 0

/-- How many words it leaves there instead. -/
def results : Instruction → Nat
  | .push _ _ | .arithmetic _ | .call _ _ => 1
  | .pop _ _ | .label _ | .goto _ | .ifGoto _ | .function _ _ | .ret => 0

/-- Control may go from position `i` to position `j`. -/
inductive Follows (block : List Instruction) : Nat → Nat → Prop where
  | next {i : Nat} {x : Instruction} (hx : block[i]? = some x) (hret : x ≠ .ret)
      (hgoto : ∀ l, x ≠ .goto l) : Follows block i (i + 1)
  | jump {i j : Nat} {x : Instruction} {l : String} (hx : block[i]? = some x)
      (htarget : jumpTarget? x = some l) (hlabel : block[j]? = some (.label l)) : Follows block i j

/-- The heights of the working stack in front of the instructions of a block. -/
structure Disciplined (block : List Instruction) (height : Nat → Nat) : Prop where
  start : height 0 = 0
  enough : ∀ i x, block[i]? = some x → operands x ≤ height i
  flow : ∀ i j x, block[i]? = some x → Follows block i j →
    height j = height i - operands x + results x
  targets : ∀ x ∈ block, ∀ l, jumpTarget? x = some l → .label l ∈ block
  labels : ∀ i l, block[i]? = some (.label l) → height i = 0
  restart : ∀ i, block[i]? = some .ret → height (i + 1) = 0

/-- The heights at the returns of a block, in order. -/
def returnHeights (block : List Instruction) (height : Nat → Nat) : List Nat :=
  (block.zipIdx.filter fun p => p.1 = .ret).map fun p => height p.2

/-! ## Heights of runs

The heights of a disciplined block are those that the machine really has there, so no run of the
block ever lacks an operand or reaches into what lay on the stack before. -/

section Runs

variable {I : Interpretation} {program : List Instruction} {k k' : Config} {x : Instruction}

theorem store_frame {v : Word} {s : Segment} {i : Nat} (h : k.store v s i = some k') :
    k'.code = k.code ∧ k'.stack = k.stack := by
  unfold Config.store at h
  split at h
  · obtain rfl := Option.some.inj h
    exact ⟨rfl, rfl⟩
  · obtain rfl := Option.some.inj h
    exact ⟨rfl, rfl⟩
  · obtain rfl := Option.some.inj h
    exact ⟨rfl, rfl⟩
  · obtain ⟨m, -, rfl⟩ := Option.map_eq_some_iff.mp h
    exact ⟨rfl, rfl⟩

theorem apply_length {A : Arithmetic} {c : Command} {stack stack' : List Word}
    (h : A.apply c stack = some stack') :
    stack'.length = stack.length - operands (.arithmetic c) + 1 := by
  unfold Arithmetic.apply at h
  split at h
  · next f a s hf =>
      obtain rfl := Option.some.inj h
      cases c <;> cases hf <;> simp [operands]
  · next f b a s hf =>
      obtain rfl := Option.some.inj h
      cases c <;> cases hf <;> simp [operands]
  · cases h

/-- What an instruction does to the height of the stack, whatever the words on it are. -/
theorem execute_length (h : execute I program k x = some k') :
    k'.stack.length = k.stack.length - operands x + results x := by
  cases x with
  | push s i =>
      obtain ⟨v, -, rfl⟩ := Option.map_eq_some_iff.mp h
      rfl
  | pop s i =>
      simp only [execute] at h
      split at h
      · next v stack hstack =>
          rw [(store_frame h).2, hstack]
          rfl
      · cases h
  | arithmetic c =>
      obtain ⟨stack, hstack, rfl⟩ := Option.map_eq_some_iff.mp h
      exact apply_length hstack
  | label l =>
      obtain rfl := Option.some.inj h
      rfl
  | goto l =>
      obtain ⟨code, -, rfl⟩ := Option.map_eq_some_iff.mp h
      rfl
  | ifGoto l =>
      simp only [execute] at h
      split at h
      · next v stack hstack =>
          rw [hstack]
          split at h
          · obtain rfl := Option.some.inj h
            rfl
          · obtain ⟨code, -, rfl⟩ := Option.map_eq_some_iff.mp h
            rfl
      · cases h
  | call f n =>
      simp only [execute] at h
      split at h
      · obtain ⟨r, -, rfl⟩ := Option.map_eq_some_iff.mp h
        simp [operands, results]
      · cases h
  | function | ret => cases h

/-- Where control goes: to the next instruction, or to a label. -/
theorem execute_code (h : execute I program k x = some k') :
    (k'.code = k.code ∧ x ≠ .ret ∧ ∀ l, x ≠ .goto l) ∨
      ∃ l, jumpTarget? x = some l ∧ findLabel l program = some k'.code := by
  cases x with
  | push s i =>
      obtain ⟨v, -, rfl⟩ := Option.map_eq_some_iff.mp h
      exact .inl ⟨rfl, by simp, by simp⟩
  | pop s i =>
      simp only [execute] at h
      split at h
      · exact .inl ⟨(store_frame h).1, by simp, by simp⟩
      · cases h
  | arithmetic c =>
      obtain ⟨stack, -, rfl⟩ := Option.map_eq_some_iff.mp h
      exact .inl ⟨rfl, by simp, by simp⟩
  | label l =>
      obtain rfl := Option.some.inj h
      exact .inl ⟨rfl, by simp, by simp⟩
  | goto l =>
      obtain ⟨code, hcode, rfl⟩ := Option.map_eq_some_iff.mp h
      exact .inr ⟨l, rfl, hcode⟩
  | ifGoto l =>
      simp only [execute] at h
      split at h
      · split at h
        · obtain rfl := Option.some.inj h
          exact .inl ⟨rfl, by simp, by simp⟩
        · obtain ⟨code, hcode, rfl⟩ := Option.map_eq_some_iff.mp h
          exact .inr ⟨l, rfl, hcode⟩
      · cases h
  | call f n =>
      simp only [execute] at h
      split at h
      · obtain ⟨r, -, rfl⟩ := Option.map_eq_some_iff.mp h
        exact .inl ⟨rfl, by simp, by simp⟩
      · cases h
  | function | ret => cases h

theorem findLabel_drop {l : String} {code : List Instruction}
    (h : findLabel l program = some code) :
    ∃ j : Nat, code = program.drop j ∧ program[j]? = some (.label l) := by
  induction program with
  | nil => cases h
  | cons x program ih =>
      rw [findLabel] at h
      split at h
      · next hx =>
          subst hx
          exact ⟨0, (Option.some.inj h).symm, rfl⟩
      · obtain ⟨j, hcode, hj⟩ := ih h
        exact ⟨j + 1, hcode, hj⟩

/-- A run on top of a stack of height `b` stands at some position, at its height. -/
def StandsAt (block : List Instruction) (height : Nat → Nat) (b : Nat) (k : Config) : Prop :=
  ∃ i : Nat, k.code = block.drop i ∧ k.stack.length = b + height i

theorem Disciplined.step {block : List Instruction} {height : Nat → Nat} {b : Nat}
    (hblock : Disciplined block height) (hk : StandsAt block height b k)
    (h : step I block k = some k') : StandsAt block height b k' := by
  obtain ⟨i, hcode, hstack⟩ := hk
  unfold Machine.step at h
  split at h
  · cases h
  · next x code hx =>
      rw [hcode] at hx
      have hi : block[i]? = some x := by
        rw [← List.head?_drop, hx]
        rfl
      have hnext : code = block.drop (i + 1) := by
        rw [← List.tail_drop, hx]
        rfl
      have henough := hblock.enough i x hi
      have hlength := execute_length h
      have hheight : ∀ j, Follows block i j → k'.stack.length = b + height j := by
        intro j hj
        rw [hlength, hblock.flow i j x hi hj, hstack]
        omega
      rcases execute_code h with ⟨hstay, hret, hgoto⟩ | ⟨l, htarget, hfind⟩
      · exact ⟨i + 1, hstay.trans hnext, hheight _ (.next hi hret hgoto)⟩
      · obtain ⟨j, hj, hlabel⟩ := findLabel_drop hfind
        exact ⟨j, hj, hheight j (.jump hi htarget hlabel)⟩

/-- The heights are those of every run. -/
theorem Disciplined.reaches {block : List Instruction} {height : Nat → Nat}
    (hblock : Disciplined block height) {stack : List Word} {m : Memory} {that : Word}
    {temp : Nat → Word} (h : Reaches I block ⟨block, stack, m, that, temp⟩ k) :
    StandsAt block height stack.length k := by
  induction h with
  | refl => exact ⟨0, rfl, by rw [hblock.start, Nat.add_zero]⟩
  | tail _ hstep ih => exact hblock.step ih hstep

end Runs

/-! ## Function blocks -/

def isHeader : Instruction → Bool
  | .function _ _ => true
  | _ => false

/-- Every header in some code, with the instructions up to the next one. -/
def functionBlocks : List Instruction → List (Instruction × List Instruction)
  | [] => []
  | x :: code =>
    if isHeader x then (x, code.takeWhile fun y => !isHeader y) :: functionBlocks code
    else functionBlocks code

theorem functionBlocks_append {block : List Instruction} (h : ∀ x ∈ block, isHeader x = false)
    (code : List Instruction) : functionBlocks (block ++ code) = functionBlocks code := by
  induction block with
  | nil => rfl
  | cons x block ih =>
      obtain ⟨hx, hblock⟩ := List.forall_mem_cons.mp h
      rw [List.cons_append, functionBlocks, hx]
      exact ih hblock

/-- A header, its block, and code that starts with a header again. -/
theorem functionBlocks_cons {x : Instruction} {block code : List Instruction}
    (hx : isHeader x = true) (hblock : ∀ y ∈ block, isHeader y = false)
    (hcode : code.takeWhile (fun y => !isHeader y) = []) :
    functionBlocks (x :: (block ++ code)) = (x, block) :: functionBlocks code := by
  have htake : (block ++ code).takeWhile (fun y => !isHeader y) = block := by
    rw [List.takeWhile_append_of_pos (fun y hy => by simp [hblock y hy]), hcode, List.append_nil]
  rw [functionBlocks, if_pos hx, htake, functionBlocks_append hblock]

/-! ## Heights along the code -/

/-- What an instruction asks of the height in front of it. -/
def Admits (h : Nat) : Instruction → Prop
  | .label _ | .goto _ => h = 0
  | .ifGoto _ => h = 1
  | .function _ _ => False
  | x => operands x ≤ h

/-- The height with which the code behind an instruction is written. -/
def after (h : Nat) : Instruction → Nat
  | .ret => 0
  | x => h - operands x + results x

/-- Going through `code` from height `h`, one meets returns at the heights `rs` and ends at height
`h'`. -/
inductive Fits : List Instruction → Nat → List Nat → Nat → Prop where
  | nil {h : Nat} : Fits [] h [] h
  | cons {x : Instruction} {code : List Instruction} {h h' : Nat} {rs : List Nat} (hx : Admits h x)
      (hret : x ≠ .ret) (hcode : Fits code (after h x) rs h') : Fits (x :: code) h rs h'
  | ret {code : List Instruction} {h h' : Nat} {rs : List Nat} (hcode : Fits code 0 rs h') :
      Fits (.ret :: code) h (h :: rs) h'

/-- Heights of positions that go along the code. -/
structure Counted (code : List Instruction) (height : Nat → Nat) : Prop where
  admits : ∀ i x, code[i]? = some x → Admits (height i) x
  next : ∀ i x, code[i]? = some x → height (i + 1) = after (height i) x

theorem Counted.cons {x : Instruction} {code : List Instruction} {height : Nat → Nat}
    (hx : Admits (height 0) x) (hnext : height 1 = after (height 0) x)
    (hcode : Counted code fun i => height (i + 1)) : Counted (x :: code) height where
  admits := by
    intro i y hy
    cases i with
    | zero =>
        obtain rfl := Option.some.inj hy
        exact hx
    | succ i => exact hcode.admits i y hy
  next := by
    intro i y hy
    cases i with
    | zero =>
        obtain rfl := Option.some.inj hy
        exact hnext
    | succ i => exact hcode.next i y hy

theorem returnHeights_cons (x : Instruction) (code : List Instruction) (height : Nat → Nat) :
    returnHeights (x :: code) height =
      (if x = .ret then [height 0] else []) ++ returnHeights code fun i => height (i + 1) := by
  have hshift : code.zipIdx 1 = code.zipIdx.map fun p => (p.1, p.2 + 1) := List.zipIdx_succ ..
  rw [returnHeights, List.zipIdx_cons, hshift, List.filter_cons, List.filter_map]
  by_cases hx : x = .ret <;> simp [hx, returnHeights, Function.comp_def]

namespace Fits

variable {i j code : List Instruction} {h h₁ h' : Nat} {rs rs' : List Nat}

theorem append (hi : Fits i h rs h₁) (hj : Fits j h₁ rs' h') : Fits (i ++ j) h (rs ++ rs') h' := by
  induction hi with
  | nil => exact hj
  | cons hx hret _ ih => exact .cons hx hret (ih hj)
  | ret _ ih => exact .ret (ih hj)

/-- A part without returns, and what comes behind it. -/
theorem straight (hi : Fits i h [] h₁) (hj : Fits j h₁ rs h') : Fits (i ++ j) h rs h' :=
  hi.append hj

theorem isHeader_eq_false (hcode : Fits code h rs h') : ∀ x ∈ code, isHeader x = false := by
  induction hcode with
  | nil => exact fun x hx => (List.not_mem_nil hx).elim
  | @cons x code h h' rs hx _ _ ih =>
      refine List.forall_mem_cons.mpr ⟨?_, ih⟩
      cases x with
      | function => exact hx.elim
      | push | pop | arithmetic | label | goto | ifGoto | call | ret => rfl
  | ret _ ih => exact List.forall_mem_cons.mpr ⟨rfl, ih⟩

/-- The heights that are met give a height to every position. -/
theorem exists_height (hcode : Fits code h rs h') :
    ∃ height : Nat → Nat, height 0 = h ∧ Counted code height ∧ returnHeights code height = rs := by
  induction hcode with
  | @nil h => exact ⟨fun _ => h, rfl, ⟨by simp, by simp⟩, rfl⟩
  | @cons x code h h' rs hx hret _ ih =>
      obtain ⟨height, hstart, hcounted, hreturns⟩ := ih
      refine ⟨fun | 0 => h | i + 1 => height i, rfl, .cons hx hstart hcounted, ?_⟩
      rw [returnHeights_cons, if_neg hret]
      exact hreturns
  | @ret code h h' rs _ ih =>
      obtain ⟨height, hstart, hcounted, hreturns⟩ := ih
      refine ⟨fun | 0 => h | i + 1 => height i, rfl, .cons (Nat.zero_le h) hstart hcounted, ?_⟩
      rw [returnHeights_cons, if_pos rfl]
      exact congrArg (h :: ·) hreturns

end Fits

theorem Admits.enough {h : Nat} {x : Instruction} (hx : Admits h x) : operands x ≤ h := by
  cases x with
  | push | pop | arithmetic | call | ret => exact hx
  | label | goto => exact Nat.zero_le h
  | ifGoto => exact Nat.le_of_eq hx.symm
  | function => exact hx.elim

/-- Heights along the code are heights along every path. -/
theorem Counted.disciplined {block : List Instruction} {height : Nat → Nat}
    (hcounted : Counted block height) (hstart : height 0 = 0)
    (hjumps : jumpNames block ⊆ labelNames block) :
    Disciplined block height where
  start := hstart
  enough i x hx := (hcounted.admits i x hx).enough
  flow := by
    intro i j x hx hfollows
    cases hfollows with
    | next hy hret hgoto =>
        obtain rfl := Option.some.inj (hx.symm.trans hy)
        rw [hcounted.next i x hx, after]
        exact hret
    | jump hy htarget hlabel =>
        obtain rfl := Option.some.inj (hx.symm.trans hy)
        have hj : height j = 0 := hcounted.admits j _ hlabel
        have hi := hcounted.admits i x hx
        cases x with
        | goto =>
            have hi : height i = 0 := hi
            rw [hi, hj]
            rfl
        | ifGoto =>
            have hi : height i = 1 := hi
            rw [hi, hj]
            rfl
        | push | pop | arithmetic | label | call | function | ret => cases htarget
  targets x hx l hl := mem_labelNames.mp (hjumps (List.mem_filterMap.mpr ⟨x, hx, hl⟩))
  labels i l hl := hcounted.admits i _ hl
  restart i hi := hcounted.next i _ hi

end Jack.Machine

namespace Jack.Syntax

open Machine

/-! ## Expressions -/

theorem fits_push (s : Segment) (i : Count) (h : Nat) : Fits [.push s i] h [] (h + 1) :=
  .cons (Nat.zero_le h) (by simp) .nil

theorem fits_pop (s : Segment) (i : Count) (h : Nat) : Fits [.pop s i] (h + 1) [] h :=
  .cons (Nat.le_add_left 1 h) (by simp) .nil

theorem fits_arithmetic (k : Command) {h : Nat} (hk : operands (.arithmetic k) ≤ h) :
    Fits [.arithmetic k] h [] (h - operands (.arithmetic k) + 1) :=
  .cons hk (by simp) .nil

theorem fits_call (f : String) (n h : Nat) : Fits [.call f (.number n)] (h + n) [] (h + 1) := by
  refine .cons (Nat.le_add_left n h) (by simp) ?_
  show Fits [] (h + n - n + 1) [] (h + 1)
  rw [Nat.add_sub_cancel]
  exact .nil

/-- The receiver is counted with the arguments. -/
theorem fits_method (f : String) (n h : Nat) :
    Fits [.call f (.number (n + 1))] (h + 1 + n) [] (h + 1) := by
  rw [Nat.add_right_comm h 1 n]
  exact fits_call f (n + 1) h

theorem fits_operator (op : Operator) (h : Nat) : Fits [op.instruction] (h + 2) [] (h + 1) := by
  cases op with
  | times => exact fits_call _ 2 h
  | divide => exact fits_call _ 2 h
  | plus | minus | and | or | less | greater | equal =>
      exact fits_arithmetic _ (Nat.le_add_left 2 h)

theorem fits_unaryOperator (op : UnaryOperator) (h : Nat) :
    Fits [op.instruction] (h + 1) [] (h + 1) := by
  cases op with
  | negate | complement => exact fits_arithmetic _ (Nat.le_add_left 1 h)

theorem fits_stringCode (text : String) (h : Nat) : Fits (stringCode text) h [] (h + 1) := by
  have hchars : ∀ cs : List Char,
      Fits (cs.flatMap fun c => [.push .constant c.toNat, .call "String.appendChar" 2]) (h + 1) []
        (h + 1) := by
    intro cs
    induction cs with
    | nil => exact .nil
    | cons c cs ih =>
        exact ((fits_push .constant c.toNat (h + 1)).straight (fits_call _ 2 h)).straight ih
  exact ((fits_push .constant text.length h).straight (fits_call _ 1 h)).straight (hchars _)

variable {r : Rules}

theorem fits_read {x : String} (hx : r.Accessible x) (h : Nat) :
    Fits (r.env.read x) h [] (h + 1) := by
  obtain ⟨b, hb, -⟩ := hx
  rw [Env.read, hb]
  exact fits_push _ _ h

theorem fits_write {x : String} (hx : r.Accessible x) (h : Nat) :
    Fits (r.env.write x) (h + 1) [] h := by
  obtain ⟨b, hb, -⟩ := hx
  rw [Env.write, hb]
  exact fits_pop _ _ h

mutual

theorem Expression.fits :
    ∀ (e : Expression), e.Obeys r → ∀ h, Fits (e.code r.env) h [] (h + 1)
  | .mk first rest, ⟨hfirst, hrest⟩, h => (first.fits hfirst h).straight (rest.fits hrest h)

theorem Operations.fits :
    ∀ (o : Operations), o.Obeys r → ∀ h, Fits (o.code r.env) (h + 1) [] (h + 1)
  | .nil, _, _ => .nil
  | .cons op operand rest, ⟨hoperand, hrest⟩, h =>
      (operand.fits hoperand (h + 1)).straight ((fits_operator op h).straight (rest.fits hrest h))

theorem Term.fits : ∀ (t : Term), t.Obeys r → ∀ h, Fits (t.code r.env) h [] (h + 1)
  | .integer _, _, h => fits_push _ _ h
  | .string text, _, h => fits_stringCode text h
  | .constant .true, _, h => (fits_push _ _ h).straight (fits_unaryOperator .negate h)
  | .constant .false, _, h => fits_push _ _ h
  | .constant .null, _, h => fits_push _ _ h
  | .this, ht, h => by
      obtain ⟨c, hc⟩ := Option.isSome_iff_exists.mp ht
      rw [Term.code, hc]
      exact fits_push _ _ h
  | .unary op operand, ht, h => (operand.fits ht h).straight (fits_unaryOperator op h)
  | .parens e, ht, h => e.fits ht h
  | .var x, ht, h => fits_read ht h
  | .element x index, ⟨hx, hindex⟩, h =>
      ((fits_read hx h).straight (index.fits hindex (h + 1))).straight
        ((fits_operator .plus h).straight ((fits_pop .pointer 1 h).straight (fits_push .that 0 h)))
  | .call k, ht, h => k.fits ht h

theorem Call.fits : ∀ (k : Call), k.Obeys r → ∀ h, Fits (k.code r.env) h [] (h + 1)
  | .unqualified callee arguments, ⟨_, harguments⟩, h =>
      ((fits_push .pointer 0 h).straight (arguments.fits harguments (h + 1))).straight
        (fits_method _ _ h)
  | .qualified qualifier callee arguments, ⟨_, harguments⟩, h => by
      rw [Call.code]
      split
      · exact ((fits_push _ _ h).straight (arguments.fits harguments (h + 1))).straight
          (fits_method _ _ h)
      · exact (arguments.fits harguments h).straight (fits_call _ _ h)

theorem Arguments.fits :
    ∀ (a : Arguments), a.Obeys r → ∀ h, Fits (a.code r.env) h [] (h + a.length)
  | .nil, _, _ => .nil
  | .cons e rest, ⟨he, hrest⟩, h => by
      have hrest := rest.fits hrest (h + 1)
      rw [Nat.add_right_comm] at hrest
      exact (e.fits he h).straight hrest

end

/-! ## Statements -/

mutual

/-- What the return statements return, in order. -/
def Statement.returns : Statement → List (Option Expression)
  | .conditional _ body alternative => body.returns ++ alternative.returns
  | .loop _ body => body.returns
  | .yield value => [value]
  | .assign .. | .assignElement .. | .perform _ => []

def Alternative.returns : Alternative → List (Option Expression)
  | .absent => []
  | .present body => body.returns

def Block.returns : Block → List (Option Expression)
  | .nil => []
  | .cons s rest => s.returns ++ rest.returns

end

/-- One word for `return e;`, none for `return;`. -/
def returnHeight (value : Option Expression) : Nat := if value.isSome then 1 else 0

theorem fits_label {l : String} {code : List Instruction} {rs : List Nat} {h' : Nat}
    (h : Fits code 0 rs h') : Fits (.label l :: code) 0 rs h' :=
  .cons rfl (by simp) h

theorem fits_goto {l : String} {code : List Instruction} {rs : List Nat} {h' : Nat}
    (h : Fits code 0 rs h') : Fits (.goto l :: code) 0 rs h' :=
  .cons rfl (by simp) h

/-- The test of a condition leaves nothing, whether it jumps or not. -/
theorem fits_test {l : String} {code : List Instruction} {rs : List Nat} {h' : Nat}
    (h : Fits code 0 rs h') : Fits (.arithmetic .not :: .ifGoto l :: code) 1 rs h' :=
  .cons (Nat.le_refl 1) (by simp) (.cons rfl (by simp) h)

mutual

theorem Statement.fits : ∀ (s : Statement), s.Obeys r → ∀ n,
    Fits (s.code r.env n) 0 (s.returns.map returnHeight) 0
  | .assign x value, ⟨hx, hvalue⟩, _ => (value.fits hvalue 0).straight (fits_write hx 0)
  | .assignElement x index value, ⟨hx, hindex, hvalue⟩, _ => by
      have haddress := ((fits_read hx 0).straight (index.fits hindex 1)).straight
        ((fits_operator .plus 0).straight (value.fits hvalue 1))
      exact haddress.straight ((fits_pop .temp 0 1).straight ((fits_pop .pointer 1 0).straight
        ((fits_push .temp 0 0).straight (fits_pop .that 0 0))))
  | .conditional condition body alternative, ⟨hcondition, hbody, halternative⟩, n => by
      rw [Statement.code_conditional, Statement.returns, List.map_append]
      refine (condition.fits hcondition 0).straight (fits_test ?_)
      refine (body.fits hbody (n + 2)).append (fits_goto (fits_label ?_))
      have hend : Fits [.label (label (n + 2))] 0 [] 0 := fits_label .nil
      simpa using (alternative.fits halternative (n + 2 + body.labels)).append hend
  | .loop condition body, ⟨hcondition, hbody⟩, n => by
      rw [Statement.code_loop, Statement.returns]
      refine fits_label ((condition.fits hcondition 0).straight (fits_test ?_))
      have hend : Fits [.goto (label (n + 1)), .label (label (n + 2))] 0 [] 0 :=
        fits_goto (fits_label .nil)
      simpa using (body.fits hbody (n + 2)).append hend
  | .perform k, hk, _ => (k.fits hk 0).straight (fits_pop .temp 0 0)
  | .yield none, _, _ => .ret .nil
  | .yield (some value), hvalue, _ => (value.fits hvalue 0).straight (.ret .nil)

theorem Alternative.fits : ∀ (a : Alternative), a.Obeys r → ∀ n,
    Fits (a.code r.env n) 0 (a.returns.map returnHeight) 0
  | .absent, _, _ => .nil
  | .present body, hbody, n => body.fits hbody n

theorem Block.fits : ∀ (b : Block), b.Obeys r → ∀ n,
    Fits (b.code r.env n) 0 (b.returns.map returnHeight) 0
  | .nil, _, _ => .nil
  | .cons s rest, ⟨hs, hrest⟩, n => by
      rw [Block.code, Block.returns, List.map_append]
      exact (s.fits hs n).append (rest.fits hrest _)

end

/-! ## Subroutines -/

namespace Subroutine

variable {c : ClassDecl} {s : Subroutine}

theorem fits_prologue (c : ClassDecl) (s : Subroutine) : Fits (s.prologue c) 0 [] 0 := by
  unfold Subroutine.prologue
  split
  · exact (fits_push .constant _ 0).straight ((fits_call _ 1 0).straight (fits_pop .pointer 0 0))
  · exact .nil
  · exact (fits_push .argument 0 0).straight (fits_pop .pointer 0 0)

/-- `b` is the header and the block of a subroutine; the instructions of the block have heights,
the returns stand at the heights of what the return statements return, and every run of the block
keeps to the heights. -/
def Balanced (c : ClassDecl) (s : Subroutine) (b : Instruction × List Instruction) : Prop :=
  b.1 = s.header c ∧ ∃ height, Disciplined b.2 height ∧
    returnHeights b.2 height = s.body.returns.map returnHeight ∧
    ∀ I stack m that temp k, Reaches I b.2 ⟨b.2, stack, m, that, temp⟩ k →
      StandsAt b.2 height stack.length k

theorem balanced (hr : r.env = s.env c) (hbody : s.body.Obeys r) (n : Nat) :
    (∀ x ∈ s.prologue c ++ s.bodyCode c n, isHeader x = false) ∧
      s.Balanced c (s.header c, s.prologue c ++ s.bodyCode c n) := by
  have hfits := (fits_prologue c s).straight (s.body.fits hbody n)
  rw [hr] at hfits
  have hjumps : jumpNames (s.prologue c ++ s.bodyCode c n) ⊆
      labelNames (s.prologue c ++ s.bodyCode c n) := by
    rw [jumpNames_append, jumpNames_of_straight (straight_prologue c s), labelNames_append,
      labelNames_of_straight (straight_prologue c s)]
    exact s.body.jumpNames_subset (s.env c) n
  obtain ⟨height, hstart, hcounted, hreturns⟩ := hfits.exists_height
  have hdisciplined := hcounted.disciplined hstart hjumps
  exact ⟨hfits.isHeader_eq_false, rfl, height, hdisciplined, hreturns,
    fun _ _ _ _ _ _ hrun => hdisciplined.reaches hrun⟩

end Subroutine

theorem takeWhile_subroutinesCode (c : ClassDecl) (n : Nat) (ss : List Subroutine) :
    (subroutinesCode c n ss).takeWhile (fun y => !isHeader y) = [] := by
  cases ss with
  | nil => rfl
  | cons s ss => rfl

/-- The function blocks of a class are those of its subroutines, in order. -/
theorem forall₂_functionBlocks {P : Subroutine → Instruction × List Instruction → Prop}
    (c : ClassDecl) (ss : List Subroutine)
    (hss : ∀ s ∈ ss, ∃ r : Rules, r.env = s.env c ∧ s.body.Obeys r)
    (hP : ∀ s ∈ ss, ∀ n, P s (s.header c, s.prologue c ++ s.bodyCode c n)) (n : Nat) :
    List.Forall₂ P ss (functionBlocks (subroutinesCode c n ss)) := by
  induction ss generalizing n with
  | nil => exact .nil
  | cons s ss ih =>
      obtain ⟨⟨r, hr, hbody⟩, hss⟩ := List.forall_mem_cons.mp hss
      obtain ⟨hs, hP⟩ := List.forall_mem_cons.mp hP
      obtain ⟨hheaders, -⟩ := Subroutine.balanced hr hbody n
      have hsplit := functionBlocks_cons (x := s.header c) rfl hheaders
        (takeWhile_subroutinesCode c (n + s.body.labels) ss)
      have hcode : subroutinesCode c n (s :: ss) = s.header c ::
          (s.prologue c ++ s.bodyCode c n ++ subroutinesCode c (n + s.body.labels) ss) := rfl
      rw [hcode, hsplit]
      exact .cons (hs n) (ih hss hP _)

theorem subroutinesCode_balanced (c : ClassDecl) (ss : List Subroutine)
    (hss : ∀ s ∈ ss, ∃ r : Rules, r.env = s.env c ∧ s.body.Obeys r) (n : Nat) :
    List.Forall₂ (Subroutine.Balanced c) ss (functionBlocks (subroutinesCode c n ss)) := by
  refine forall₂_functionBlocks c ss hss (fun s hs n => ?_) n
  obtain ⟨r, hr, hbody⟩ := hss s hs
  exact (Subroutine.balanced hr hbody n).2

end Jack.Syntax

namespace Jack

open Compile Syntax Machine

/-- In every function block that a source compiles to, each instruction has one height. -/
theorem compileSource_disciplined (o : Options) (source file : String) (compiled : Compiled)
    (h : (compileSource o source file).result = .ok compiled) :
    ∃ cd : ClassDecl, (Token.scan source file).tokens.map Token.lexeme = cd.spelling ∧
      List.Forall₂ (Subroutine.Balanced cd) cd.subroutines (functionBlocks compiled.code) := by
  obtain ⟨-, cd, hspells, hobeys, hcode⟩ := compileSource_iff.mp ⟨compiled, h, rfl⟩
  refine ⟨cd, hspells, ?_⟩
  rw [hcode]
  refine subroutinesCode_balanced cd cd.subroutines (fun s hs => ?_) 0
  obtain ⟨earlier, later, hss⟩ := List.append_of_mem hs
  exact ⟨_, rfl, (hobeys.bodies earlier s later hss).body⟩

def counterSource : String :=
  "class Counter \x7b field int n; method void bump(int by)
    \x7b if (by < n) \x7b let n = n + by; \x7d return; \x7d \x7d"

theorem counterSource_scan (file : String) :
    (Token.scan counterSource file).fault = none ∧
      (Token.scan counterSource file).tokens.map Token.lexeme = counter.spelling :=
  Token.scan_of_cutAll (by decide +kernel) file

theorem counterSource_compiles : ∃ compiled,
    (compileSource { strict := true } counterSource "Counter.jack").result = .ok compiled := by
  obtain ⟨hscan, hspells⟩ := counterSource_scan "Counter.jack"
  have hobeys : counter.Obeys (Options.allKnown { strict := true }) true := counter_obeys _
  obtain ⟨compiled, h, -⟩ := compileSource_iff.mpr ⟨hscan, counter, hspells, hobeys, rfl⟩
  exact ⟨compiled, h⟩

theorem counterSource_disciplined :
    ∃ compiled, (compileSource { strict := true } counterSource "Counter.jack").result =
        .ok compiled ∧
      ∃ cd : ClassDecl,
        (Token.scan counterSource "Counter.jack").tokens.map Token.lexeme = cd.spelling ∧
          List.Forall₂ (Subroutine.Balanced cd) cd.subroutines
            (functionBlocks compiled.code) := by
  obtain ⟨compiled, h⟩ := counterSource_compiles
  exact ⟨compiled, h, compileSource_disciplined _ _ _ compiled h⟩

end Jack
