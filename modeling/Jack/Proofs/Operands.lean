import Jack.Proofs.Bodies
import Jack.Proofs.Heights

/-!
# Operands

The memory operands of a function block stay inside what its subroutine declares: a local variable,
an argument, a static variable or a field that exists (`Subroutine.Permits`). The cells that every
block may use besides are the other pointer, the element it points at, one temporary cell and the
constants.

Every variable operand comes from the environment, whose cells are positions in lists of declared
variables (`permits_resolve`), so the bounds are facts about positions. Two cells have a special
part. `pointer 0` is set by the prologue alone, for no name stands for it; and `argument 0` of a
method is its receiver, which no statement changes, for its name is a keyword.
-/

namespace Jack.Syntax

open Machine

namespace Subroutine

/-- How many arguments there are: the parameters, and the receiver of a method. -/
def argumentCount (s : Subroutine) : Nat :=
  match s.kind with
  | .constructor | .function => s.parameters.length
  | .method => s.parameters.length + 1

/-- The cells that a subroutine has. A function has no object, hence no fields either. -/
def Permits (c : ClassDecl) (s : Subroutine) : Segment → Nat → Prop
  | .constant, _ => True
  | .localVar, i => i < s.localVariables.length
  | .argument, i => i < s.argumentCount
  | .static, i => i < c.statics.length
  | .this, i => i < c.fields.length ∧ s.kind ≠ .function
  | .pointer, i => i = 1 ∨ (i = 0 ∧ s.kind ≠ .function)
  | .that, i | .temp, i => i = 0

/-- What the statements of a subroutine may do: use its cells, but set neither the current object
nor the receiver. -/
def Keeps (c : ClassDecl) (s : Subroutine) : Instruction → Prop
  | .push seg (.number i) => s.Permits c seg i
  | .pop seg (.number i) =>
    s.Permits c seg i ∧ (seg = .pointer → i ≠ 0) ∧ (s.kind = .method → seg = .argument → i ≠ 0)
  | .push _ (.truth _) | .pop _ (.truth _) => False
  | .arithmetic _ | .label _ | .goto _ | .ifGoto _ | .call _ _ | .function _ _ | .ret => True

def KeepsAll (c : ClassDecl) (s : Subroutine) (code : List Instruction) : Prop :=
  ∀ x ∈ code, s.Keeps c x

variable {c : ClassDecl} {s : Subroutine}

@[simp] theorem keepsAll_nil : s.KeepsAll c [] := fun _ hx => (List.not_mem_nil hx).elim

@[simp] theorem keepsAll_cons {x : Instruction} {code : List Instruction} :
    s.KeepsAll c (x :: code) ↔ s.Keeps c x ∧ s.KeepsAll c code :=
  List.forall_mem_cons

@[simp] theorem keepsAll_append {i j : List Instruction} :
    s.KeepsAll c (i ++ j) ↔ s.KeepsAll c i ∧ s.KeepsAll c j :=
  List.forall_mem_append

/-! ## Variables -/

theorem length_arguments (c : ClassDecl) (s : Subroutine) :
    (s.arguments c).length = s.argumentCount := by
  unfold Subroutine.arguments argumentCount
  cases s.kind <;> simp

theorem lt_of_place {segment : Segment} {vars : List Variable} {x : String} {b : Binding}
    (h : place segment vars x = some b) :
    b.cell.segment = segment ∧ b.cell.index < vars.length := by
  obtain ⟨v, hv, -, -, hsegment⟩ := getElem?_of_place h
  exact ⟨hsegment, (List.getElem?_eq_some_iff.mp hv).1⟩

/-- A variable that may be used is a cell of the subroutine. -/
theorem permits_resolve {x : String} {b : Binding} (h : (s.env c).resolve x = some b)
    (hfield : ¬((s.env c).inFunction = true ∧ b.isField = true)) :
    s.Permits c b.cell.segment b.cell.index := by
  simp only [Subroutine.env, Option.or_eq_some_iff] at h
  rcases h with (h | ⟨-, h⟩) | ⟨-, h | ⟨-, h⟩⟩
  · obtain ⟨hsegment, hindex⟩ := lt_of_place h
    rw [length_arguments] at hindex
    rw [hsegment]
    exact hindex
  · obtain ⟨hsegment, hindex⟩ := lt_of_place h
    rw [hsegment]
    exact hindex
  · obtain ⟨hsegment, hindex⟩ := lt_of_place h
    rw [hsegment]
    exact hindex
  · obtain ⟨hsegment, hindex⟩ := lt_of_place h
    rw [hsegment]
    have hkind : s.kind ≠ .function := by
      intro hkind
      exact hfield ⟨decide_eq_true hkind, by simp [Binding.isField, hsegment]⟩
    exact ⟨hindex, hkind⟩

theorem kind_ne_function (h : (s.env c).inFunction = false) : s.kind ≠ .function :=
  of_decide_eq_false h

theorem keeps_self {cell : Cell} (h : (s.env c).self = some cell) : s.Keeps c cell.push := by
  rcases self_env h with rfl | ⟨hkind, rfl⟩
  · have hkind : s.kind ≠ .function := by
      intro hkind
      simp [Subroutine.env, hkind] at h
    exact .inr ⟨rfl, hkind⟩
  · show 0 < s.argumentCount
    simp [argumentCount, hkind]

section Phrases

variable {r : Rules}

theorem keeps_read (hr : r.env = s.env c) {x : String} (hx : r.Accessible x) :
    s.KeepsAll c (r.env.read x) := by
  obtain ⟨b, hb, hfield⟩ := hx
  rw [hr] at hb hfield
  rw [hr, Env.read, hb]
  exact keepsAll_cons.mpr ⟨permits_resolve hb hfield, keepsAll_nil⟩

/-- Assignments reach every variable but the receiver. -/
theorem keeps_write (hr : r.env = s.env c) {x : String} (hx : r.Accessible x)
    (hthis : x ≠ "this") : s.KeepsAll c (r.env.write x) := by
  obtain ⟨b, hb, hfield⟩ := hx
  rw [hr] at hb hfield
  obtain ⟨hpointer, hargument⟩ := resolve_env hb
  rw [hr, Env.write, hb]
  refine keepsAll_cons.mpr ⟨⟨permits_resolve hb hfield, fun h => absurd h hpointer, ?_⟩,
    keepsAll_nil⟩
  intro hkind hsegment hindex
  obtain ⟨v, hv, hname⟩ := hargument hsegment
  rw [Subroutine.arguments, if_pos hkind, hindex] at hv
  obtain rfl := Option.some.inj hv
  exact hthis hname.symm

theorem keeps_stringCode (text : String) : s.KeepsAll c (stringCode text) := by
  simp only [stringCode, keepsAll_cons]
  refine ⟨trivial, trivial, ?_⟩
  induction text.toList with
  | nil => exact keepsAll_nil
  | cons d ds ih => exact keepsAll_cons.mpr ⟨trivial, keepsAll_cons.mpr ⟨trivial, ih⟩⟩

theorem keeps_operator (op : Operator) : s.Keeps c op.instruction := by
  cases op <;> trivial

theorem keeps_unaryOperator (op : UnaryOperator) : s.Keeps c op.instruction := by
  cases op <;> trivial

theorem keeps_popTemp : s.Keeps c (.pop .temp 0) :=
  ⟨rfl, (nomatch ·), fun _ => (nomatch ·)⟩

/-- An array element is addressed through the other pointer. -/
theorem keeps_popPointer : s.Keeps c (.pop .pointer 1) :=
  ⟨.inl rfl, fun _ => Nat.one_ne_zero, fun _ => (nomatch ·)⟩

theorem keeps_popThat : s.Keeps c (.pop .that 0) :=
  ⟨rfl, (nomatch ·), fun _ => (nomatch ·)⟩

end Phrases

end Subroutine

/-! ## Phrases -/

variable {c : ClassDecl} {sub : Subroutine} {r : Rules}

mutual

theorem Expression.keeps (hr : r.env = sub.env c) :
    ∀ e : Expression, e.Obeys r → sub.KeepsAll c (e.code r.env)
  | .mk first rest, ⟨hfirst, hrest⟩ =>
      Subroutine.keepsAll_append.mpr ⟨first.keeps hr hfirst, rest.keeps hr hrest⟩

theorem Operations.keeps (hr : r.env = sub.env c) :
    ∀ o : Operations, o.Obeys r → sub.KeepsAll c (o.code r.env)
  | .nil, _ => Subroutine.keepsAll_nil
  | .cons op operand rest, ⟨hoperand, hrest⟩ =>
      Subroutine.keepsAll_append.mpr ⟨operand.keeps hr hoperand,
        Subroutine.keepsAll_cons.mpr ⟨Subroutine.keeps_operator op, rest.keeps hr hrest⟩⟩

theorem Term.keeps (hr : r.env = sub.env c) :
    ∀ t : Term, t.Obeys r → sub.KeepsAll c (t.code r.env)
  | .integer _, _ => Subroutine.keepsAll_cons.mpr ⟨trivial, Subroutine.keepsAll_nil⟩
  | .string text, _ => Subroutine.keeps_stringCode text
  | .constant k, _ => by
      cases k <;> simp [Term.code, Constant.code, Subroutine.Keeps, Subroutine.Permits]
  | .this, ht => by
      obtain ⟨cell, hcell⟩ := Option.isSome_iff_exists.mp ht
      rw [Term.code, hcell]
      exact Subroutine.keepsAll_cons.mpr ⟨Subroutine.keeps_self (hr ▸ hcell),
        Subroutine.keepsAll_nil⟩
  | .unary op operand, ht =>
      Subroutine.keepsAll_append.mpr ⟨operand.keeps hr ht,
        Subroutine.keepsAll_cons.mpr ⟨Subroutine.keeps_unaryOperator op, Subroutine.keepsAll_nil⟩⟩
  | .parens e, ht => e.keeps hr ht
  | .var x, ht => Subroutine.keeps_read hr ht
  | .element x index, ⟨hx, hindex⟩ => by
      have hread := Subroutine.keeps_read hr hx
      have hindex := index.keeps hr hindex
      simp only [Term.code, Subroutine.keepsAll_append, Subroutine.keepsAll_cons]
      exact ⟨⟨hread, hindex⟩, trivial, Subroutine.keeps_popPointer, rfl, Subroutine.keepsAll_nil⟩
  | .call k, ht => k.keeps hr ht

theorem Call.keeps (hr : r.env = sub.env c) :
    ∀ k : Call, k.Obeys r → sub.KeepsAll c (k.code r.env)
  | .unqualified callee arguments, ⟨hfunction, harguments⟩ => by
      have hreceiver : sub.Keeps c (.push .pointer 0) :=
        .inr ⟨rfl, Subroutine.kind_ne_function (hr ▸ hfunction)⟩
      have harguments := arguments.keeps hr harguments
      simp only [Call.code, List.cons_append, Subroutine.keepsAll_cons, Subroutine.keepsAll_append]
      exact ⟨hreceiver, harguments, trivial, Subroutine.keepsAll_nil⟩
  | .qualified qualifier callee arguments, ⟨hqualifier, harguments⟩ => by
      have harguments := arguments.keeps hr harguments
      rw [Call.code]
      split
      · next b hb =>
          simp only [Rules.Qualifies, hb] at hqualifier
          have hreceiver : sub.Keeps c b.cell.push :=
            Subroutine.permits_resolve (hr ▸ hb) (hr ▸ hqualifier.1)
          simp only [List.cons_append, Subroutine.keepsAll_cons, Subroutine.keepsAll_append]
          exact ⟨hreceiver, harguments, trivial, Subroutine.keepsAll_nil⟩
      · exact Subroutine.keepsAll_append.mpr ⟨harguments,
          Subroutine.keepsAll_cons.mpr ⟨trivial, Subroutine.keepsAll_nil⟩⟩

theorem Arguments.keeps (hr : r.env = sub.env c) :
    ∀ a : Arguments, a.Obeys r → sub.KeepsAll c (a.code r.env)
  | .nil, _ => Subroutine.keepsAll_nil
  | .cons e rest, ⟨he, hrest⟩ =>
      Subroutine.keepsAll_append.mpr ⟨e.keeps hr he, rest.keeps hr hrest⟩

end

mutual

theorem Statement.keeps (hr : r.env = sub.env c) :
    ∀ (s : Statement) (n : Nat), s.Obeys r → (∀ x ∈ s.targets, x ≠ "this") →
      sub.KeepsAll c (s.code r.env n)
  | .assign x value, _, ⟨hx, hvalue⟩, htargets =>
      Subroutine.keepsAll_append.mpr ⟨value.keeps hr hvalue,
        Subroutine.keeps_write hr hx (htargets x (List.mem_singleton_self x))⟩
  | .assignElement x index value, _, ⟨hx, hindex, hvalue⟩, _ => by
      have hread := Subroutine.keeps_read hr hx
      have hindex := index.keeps hr hindex
      have hvalue := value.keeps hr hvalue
      simp only [Statement.code, List.append_assoc, List.cons_append, Subroutine.keepsAll_append,
        Subroutine.keepsAll_cons]
      exact ⟨hread, hindex, trivial, hvalue, Subroutine.keeps_popTemp, Subroutine.keeps_popPointer,
        rfl, Subroutine.keeps_popThat, Subroutine.keepsAll_nil⟩
  | .conditional condition body alternative, n, ⟨hcondition, hbody, halternative⟩, htargets => by
      obtain ⟨htargets, htargets'⟩ := List.forall_mem_append.mp htargets
      rw [Statement.code_conditional]
      simp only [Subroutine.keepsAll_append, Subroutine.keepsAll_cons]
      exact ⟨condition.keeps hr hcondition, trivial, trivial, body.keeps hr _ hbody htargets,
        trivial, trivial, alternative.keeps hr _ halternative htargets', trivial,
        Subroutine.keepsAll_nil⟩
  | .loop condition body, n, ⟨hcondition, hbody⟩, htargets => by
      rw [Statement.code_loop]
      simp only [Subroutine.keepsAll_append, Subroutine.keepsAll_cons]
      exact ⟨trivial, condition.keeps hr hcondition, trivial, trivial,
        body.keeps hr _ hbody htargets, trivial, trivial, Subroutine.keepsAll_nil⟩
  | .perform k, _, hk, _ =>
      Subroutine.keepsAll_append.mpr ⟨k.keeps hr hk,
        Subroutine.keepsAll_cons.mpr ⟨Subroutine.keeps_popTemp, Subroutine.keepsAll_nil⟩⟩
  | .yield none, _, _, _ => Subroutine.keepsAll_cons.mpr ⟨trivial, Subroutine.keepsAll_nil⟩
  | .yield (some value), _, hvalue, _ =>
      Subroutine.keepsAll_append.mpr ⟨value.keeps hr hvalue,
        Subroutine.keepsAll_cons.mpr ⟨trivial, Subroutine.keepsAll_nil⟩⟩

theorem Alternative.keeps (hr : r.env = sub.env c) :
    ∀ (a : Alternative) (n : Nat), a.Obeys r → (∀ x ∈ a.targets, x ≠ "this") →
      sub.KeepsAll c (a.code r.env n)
  | .absent, _, _, _ => Subroutine.keepsAll_nil
  | .present body, n, hbody, htargets => body.keeps hr n hbody htargets

theorem Block.keeps (hr : r.env = sub.env c) :
    ∀ (b : Block) (n : Nat), b.Obeys r → (∀ x ∈ b.targets, x ≠ "this") →
      sub.KeepsAll c (b.code r.env n)
  | .nil, _, _, _ => Subroutine.keepsAll_nil
  | .cons s rest, n, ⟨hs, hrest⟩, htargets => by
      obtain ⟨htargets, htargets'⟩ := List.forall_mem_append.mp htargets
      exact Subroutine.keepsAll_append.mpr ⟨s.keeps hr n hs htargets,
        rest.keeps hr _ hrest htargets'⟩

end

/-! ## Function blocks -/

/-- The memory operand of an instruction. -/
def operand? : Instruction → Option (Segment × Count)
  | .push seg i | .pop seg i => some (seg, i)
  | .arithmetic _ | .label _ | .goto _ | .ifGoto _ | .call _ _ | .function _ _ | .ret => none

namespace Subroutine

variable {s : Subroutine}

/-- `b` is the header and the block of a subroutine. The header announces its local variables, and
every operand in the block is one of its cells. The block starts with the prologue, which is the
only place where the current object is set, and a method never changes its receiver. -/
structure Addresses (c : ClassDecl) (s : Subroutine) (b : Instruction × List Instruction) :
    Prop where
  header : b.1 = .function s!"{c.name}.{s.name}" s.localVariables.length
  operands : ∀ x ∈ b.2, ∀ seg i, operand? x = some (seg, i) → ∃ n, i = .number n ∧ s.Permits c seg n
  prologue : s.prologue c <+: b.2
  object : s.kind ≠ .function → b.2.count (.pop .pointer 0) = 1
  receiver : s.kind = .method → .pop .argument 0 ∉ b.2

theorem Keeps.permits {x : Instruction} (hx : s.Keeps c x) {seg : Segment} {i : Count}
    (h : operand? x = some (seg, i)) : ∃ n, i = .number n ∧ s.Permits c seg n := by
  cases x with
  | push seg i =>
      cases h
      cases i with
      | number n => exact ⟨n, rfl, hx⟩
      | truth b => exact hx.elim
  | pop seg i =>
      cases h
      cases i with
      | number n => exact ⟨n, rfl, hx.1⟩
      | truth b => exact hx.elim
  | arithmetic | label | goto | ifGoto | call | function | ret => cases h

theorem permits_prologue (c : ClassDecl) (s : Subroutine) : ∀ x ∈ s.prologue c, ∀ seg i,
    operand? x = some (seg, i) → ∃ n, i = .number n ∧ s.Permits c seg n := by
  unfold Subroutine.prologue
  intro x hx seg i h
  cases hkind : s.kind with
  | constructor =>
      simp only [hkind, List.mem_cons, List.not_mem_nil, or_false] at hx
      rcases hx with rfl | rfl | rfl <;> cases h
      · exact ⟨_, rfl, trivial⟩
      · exact ⟨0, rfl, .inr ⟨rfl, by simp [hkind]⟩⟩
  | function =>
      simp only [hkind] at hx
      exact (List.not_mem_nil hx).elim
  | method =>
      simp only [hkind, List.mem_cons, List.not_mem_nil, or_false] at hx
      rcases hx with rfl | rfl <;> cases h
      · exact ⟨0, rfl, by simp [Permits, argumentCount, hkind]⟩
      · exact ⟨0, rfl, .inr ⟨rfl, by simp [hkind]⟩⟩

theorem count_prologue (c : ClassDecl) (h : s.kind ≠ .function) :
    (s.prologue c).count (.pop .pointer 0) = 1 := by
  unfold Subroutine.prologue
  cases hkind : s.kind with
  | constructor => rfl
  | function => exact absurd hkind h
  | method => rfl

theorem addresses (hr : r.env = s.env c) (hbody : s.body.Obeys r)
    (htargets : ∀ x ∈ s.body.targets, x ≠ "this") (n : Nat) :
    s.Addresses c (s.header c, s.prologue c ++ s.bodyCode c n) := by
  have hkeeps : s.KeepsAll c (s.bodyCode c n) := by
    rw [bodyCode, ← hr]
    exact s.body.keeps hr n hbody htargets
  have hobject : .pop .pointer 0 ∉ s.bodyCode c n := fun hx => (hkeeps _ hx).2.1 rfl rfl
  refine ⟨rfl, ?_, List.prefix_append _ _, ?_, ?_⟩
  · intro x hx seg i h
    rcases List.mem_append.mp hx with hx | hx
    · exact permits_prologue c s x hx seg i h
    · exact (hkeeps x hx).permits h
  · intro hkind
    rw [List.count_append, count_prologue c hkind, List.count_eq_zero_of_not_mem hobject]
  · intro hkind hx
    rcases List.mem_append.mp hx with hx | hx
    · simp only [Subroutine.prologue, hkind] at hx
      exact absurd hx (by decide)
    · exact (hkeeps _ hx).2.2 hkind rfl rfl

end Subroutine

end Jack.Syntax

namespace Jack

open Compile Syntax Machine

/-- In every function block that a source compiles to, the operands are cells that the subroutine
declares. -/
theorem compileSource_addresses (o : Options) (source file : String) (compiled : Compiled)
    (h : (compileSource o source file).result = .ok compiled) :
    ∃ cd : ClassDecl, (Token.scan source file).tokens.map Token.lexeme = cd.spelling ∧
      List.Forall₂ (Subroutine.Addresses cd) cd.subroutines (functionBlocks compiled.code) := by
  obtain ⟨-, cd, hspells, hobeys, hcode⟩ := compileSource_iff.mp ⟨compiled, h, rfl⟩
  have hvalid : Valid cd.spelling := hspells ▸ valid_lexemes (Token.scan_valid source file)
  have hbodies : ∀ s ∈ cd.subroutines, ∃ r : Rules, r.env = s.env cd ∧ s.body.Obeys r := by
    intro s hs
    obtain ⟨earlier, later, hss⟩ := List.append_of_mem hs
    exact ⟨_, rfl, (hobeys.bodies earlier s later hss).body⟩
  refine ⟨cd, hspells, ?_⟩
  rw [hcode]
  refine forall₂_functionBlocks cd cd.subroutines hbodies (fun s hs n => ?_) 0
  obtain ⟨r, hr, hbody⟩ := hbodies s hs
  obtain ⟨-, -, -, hspelling⟩ := Subroutine.valid_spelling (cd.valid_subroutine hvalid hs)
  exact Subroutine.addresses hr hbody (fun x hx => Block.target_ne_this hspelling hx) n

theorem counterSource_addresses :
    ∃ compiled, (compileSource { strict := true } counterSource "Counter.jack").result =
        .ok compiled ∧
      ∃ cd : ClassDecl,
        (Token.scan counterSource "Counter.jack").tokens.map Token.lexeme = cd.spelling ∧
          List.Forall₂ (Subroutine.Addresses cd) cd.subroutines
            (functionBlocks compiled.code) := by
  obtain ⟨compiled, h⟩ := counterSource_compiles
  exact ⟨compiled, h, compileSource_addresses _ _ _ compiled h⟩

end Jack
