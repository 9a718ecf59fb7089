import Jack.Proofs.Scopes

/-!
# The reference translation is never refused

An instruction is refused if the name in it is empty or holds a blank, or if it pops into the
constants. The names in the code of a tree are labels, names of the run-time library, and names of
the tree itself, alone or qualified. If the lexemes that spell the tree are valid, all of them keep
their places; and no variable stands among the constants, so the code of the tree is never refused.
-/

namespace Jack.Syntax

def Writable (code : List Instruction) : Prop := ∀ i ∈ code, i.fault? = none

def Valid (ls : List Lexeme) : Prop := ∀ l ∈ ls, l.valid = true

@[simp] theorem writable_nil : Writable [] := fun _ hi => (List.not_mem_nil hi).elim

@[simp] theorem writable_cons {i : Instruction} {code : List Instruction} :
    Writable (i :: code) ↔ i.fault? = none ∧ Writable code :=
  List.forall_mem_cons

@[simp] theorem writable_append {i j : List Instruction} :
    Writable (i ++ j) ↔ Writable i ∧ Writable j :=
  List.forall_mem_append

@[simp] theorem valid_nil : Valid [] := fun _ hl => (List.not_mem_nil hl).elim

@[simp] theorem valid_cons {l : Lexeme} {ls : List Lexeme} :
    Valid (l :: ls) ↔ l.valid = true ∧ Valid ls :=
  List.forall_mem_cons

@[simp] theorem valid_append {l k : List Lexeme} : Valid (l ++ k) ↔ Valid l ∧ Valid k :=
  List.forall_mem_append

/-! ## Single instructions -/

@[simp] theorem fault?_push (s : Segment) (i : Count) : (Instruction.push s i).fault? = none := rfl

@[simp] theorem fault?_pop {s : Segment} {i : Count} :
    (Instruction.pop s i).fault? = none ↔ s ≠ .constant := by
  cases s <;> simp [Instruction.fault?, Instruction.namePart?]

@[simp] theorem fault?_arithmetic (k : Command) : (Instruction.arithmetic k).fault? = none := rfl

@[simp] theorem fault?_ret : Instruction.ret.fault? = none := rfl

@[simp] theorem fault?_call {x : String} {n : Count} :
    (Instruction.call x n).fault? = none ↔ isLineName x = true := by
  simp [Instruction.fault?, Instruction.namePart?]

@[simp] theorem fault?_function {x : String} {n : Count} :
    (Instruction.function x n).fault? = none ↔ isLineName x = true := by
  simp [Instruction.fault?, Instruction.namePart?]

@[simp] theorem fault?_goto {x : String} :
    (Instruction.goto x).fault? = none ↔ isLineName x = true := by
  simp [Instruction.fault?, Instruction.namePart?]

@[simp] theorem fault?_ifGoto {x : String} :
    (Instruction.ifGoto x).fault? = none ↔ isLineName x = true := by
  simp [Instruction.fault?, Instruction.namePart?]

@[simp] theorem fault?_label {x : String} :
    (Instruction.label x).fault? = none ↔ isLineName x = true := by
  simp [Instruction.fault?, Instruction.namePart?]

/-- What is wrong with an instruction is neither the grammar of a source nor its meaning. -/
theorem category_fault? {i : Instruction} {p : Problem} (h : i.fault? = some p) :
    p.category = .emission := by
  unfold Instruction.fault? at h
  split at h
  · split at h
    · cases h
    · cases h
      rfl
  · split at h
    · cases h
      rfl
    · cases h

/-- A label is a letter and digits. -/
@[simp] theorem isLineName_label (n : Nat) : isLineName (label n) = true := by
  have hdigit : ∀ d ∈ Nat.toDigits 10 n, Text.isBlank d = false := by
    intro d hd
    refine isBlank_eq_false_of_isRun ?_
    simp [Token.isRun, Char.isAlphanum, Nat.isDigit_of_mem_toDigits (by decide) (by decide) hd]
  have hne : label n ≠ "" := by
    intro h
    have hnil := toList_label n
    rw [h] at hnil
    cases hnil
  have hletter : Text.isBlank 'L' = false := by decide
  simp only [isLineName, toList_label, List.any_cons, hletter, Bool.false_or, Bool.and_eq_true,
    Bool.not_eq_true', String.isEmpty_eq_false_iff, List.any_eq_false]
  exact ⟨hne, fun d hd => by simp [hdigit d hd]⟩

/-! ## Expressions -/

/-- What an environment brings into the code is not refused: its names keep their places, and its
variables can be written. -/
structure Env.Writable (env : Env) : Prop where
  className : isLineName env.className = true
  types : ∀ x b, env.resolve x = some b → isLineName b.type = true
  cells : ∀ x b, env.resolve x = some b → b.cell.segment ≠ .constant

theorem writable_read (env : Env) (x : String) : Writable (env.read x) := by
  unfold Env.read
  split <;> simp [Cell.push]

theorem writable_write {env : Env} (henv : env.Writable) (x : String) :
    Writable (env.write x) := by
  unfold Env.write
  split
  · next b hb => simp [Cell.pop, henv.cells x b hb]
  · exact writable_nil

theorem writable_stringCode (text : String) : Writable (stringCode text) := by
  have hnew : isLineName "String.new" = true := by decide
  have happend : isLineName "String.appendChar" = true := by decide
  simp only [stringCode, writable_cons, fault?_push, fault?_call, hnew, true_and]
  induction text.toList with
  | nil => simp
  | cons d ds ih => simpa [happend] using ih

variable {env : Env}

mutual

theorem Expression.writable (henv : env.Writable) :
    ∀ e : Expression, Valid e.spelling → Writable (e.code env)
  | .mk first rest, h => by
      obtain ⟨hfirst, hrest⟩ := valid_append.mp h
      exact writable_append.mpr ⟨first.writable henv hfirst, rest.writable henv hrest⟩

theorem Operations.writable (henv : env.Writable) :
    ∀ o : Operations, Valid o.spelling → Writable (o.code env)
  | .nil, _ => writable_nil
  | .cons op operand rest, h => by
      obtain ⟨hoperand, hrest⟩ := valid_append.mp (valid_cons.mp h).2
      have hop : op.instruction.fault? = none := by cases op <;> decide
      exact writable_append.mpr ⟨operand.writable henv hoperand,
        writable_cons.mpr ⟨hop, rest.writable henv hrest⟩⟩

theorem Term.writable (henv : env.Writable) :
    ∀ t : Term, Valid t.spelling → Writable (t.code env)
  | .integer digits, _ => by simp [Term.code]
  | .string text, _ => writable_stringCode text
  | .constant k, _ => by cases k <;> simp [Term.code, Constant.code]
  | .this, _ => by
      rw [Term.code]
      cases env.self <;> simp [Cell.push]
  | .unary op operand, h => by
      have hop : op.instruction.fault? = none := by cases op <;> decide
      exact writable_append.mpr ⟨operand.writable henv (valid_cons.mp h).2,
        writable_cons.mpr ⟨hop, writable_nil⟩⟩
  | .parens e, h => e.writable henv (valid_append.mp (valid_cons.mp h).2).1
  | .var x, _ => writable_read env x
  | .element x index, h => by
      have hindex := index.writable henv (valid_append.mp (valid_cons.mp (valid_cons.mp h).2).2).1
      simp [Term.code, writable_read, hindex]
  | .call k, h => k.writable henv h

theorem Call.writable (henv : env.Writable) :
    ∀ k : Call, Valid k.spelling → Writable (k.code env)
  | .unqualified callee arguments, h => by
      simp only [Call.spelling, valid_cons, valid_append, List.cons_append] at h
      obtain ⟨hcallee, -, harguments, -⟩ := h
      have htarget := isLineName_qualified henv.className (isLineName_of_valid hcallee)
      simp only [Call.code, List.cons_append, writable_cons, writable_append, fault?_push,
        arguments.writable henv harguments, fault?_call, writable_nil, true_and, and_true]
      exact htarget
  | .qualified qualifier callee arguments, h => by
      simp only [Call.spelling, valid_cons, valid_append, List.cons_append] at h
      obtain ⟨hqualifier, -, hcallee, -, harguments, -⟩ := h
      rw [Call.code]
      split
      · next b hb =>
          have htarget := isLineName_qualified (henv.types _ b hb) (isLineName_of_valid hcallee)
          simp only [List.cons_append, writable_cons, writable_append, Cell.push, fault?_push,
            arguments.writable henv harguments, fault?_call, writable_nil, true_and, and_true]
          exact htarget
      · have htarget := isLineName_qualified (isLineName_of_valid hqualifier)
          (isLineName_of_valid hcallee)
        simp only [writable_cons, writable_append, arguments.writable henv harguments,
          fault?_call, writable_nil, true_and, and_true]
        exact htarget

theorem Arguments.writable (henv : env.Writable) :
    ∀ a : Arguments, Valid a.spelling → Writable (a.code env)
  | .nil, _ => writable_nil
  | .cons e rest, h => by
      obtain ⟨he, hrest⟩ := valid_append.mp h
      exact writable_append.mpr ⟨e.writable henv he, rest.writable_more henv hrest⟩

theorem Arguments.writable_more (henv : env.Writable) :
    ∀ a : Arguments, Valid a.moreSpelling → Writable (a.code env)
  | .nil, _ => writable_nil
  | .cons e rest, h => by
      obtain ⟨he, hrest⟩ := valid_append.mp (valid_cons.mp h).2
      exact writable_append.mpr ⟨e.writable henv he, rest.writable_more henv hrest⟩

end

/-! ## Statements -/

mutual

theorem Statement.writable (henv : env.Writable) :
    ∀ (s : Statement) (n : Nat), Valid s.spelling → Writable (s.code env n)
  | .assign x value, n, h => by
      have hvalue := value.writable henv (by simp_all [Statement.spelling])
      exact writable_append.mpr ⟨hvalue, writable_write henv x⟩
  | .assignElement x index value, n, h => by
      have hindex := index.writable henv (by simp_all [Statement.spelling])
      have hvalue := value.writable henv (by simp_all [Statement.spelling])
      simp [Statement.code, writable_read, hindex, hvalue]
  | .conditional condition body alternative, n, h => by
      have hcondition := condition.writable henv (by simp_all [Statement.spelling])
      have hbody := body.writable henv (n + 2) (by simp_all [Statement.spelling])
      have halternative := alternative.writable henv (n + 2 + body.labels)
        (by simp_all [Statement.spelling])
      simp [Statement.code, hcondition, hbody, halternative]
  | .loop condition body, n, h => by
      have hcondition := condition.writable henv (by simp_all [Statement.spelling])
      have hbody := body.writable henv (n + 2) (by simp_all [Statement.spelling])
      simp [Statement.code, hcondition, hbody]
  | .perform k, n, h => by
      have hcall := k.writable henv (by simp_all [Statement.spelling])
      simp [Statement.code, hcall]
  | .yield none, n, _ => by simp [Statement.code]
  | .yield (some value), n, h => by
      have hvalue := value.writable henv (by simp_all [Statement.spelling])
      simp [Statement.code, hvalue]

theorem Alternative.writable (henv : env.Writable) :
    ∀ (a : Alternative) (n : Nat), Valid a.spelling → Writable (a.code env n)
  | .absent, _, _ => writable_nil
  | .present body, n, h => body.writable henv n (by simp_all [Alternative.spelling])

theorem Block.writable (henv : env.Writable) :
    ∀ (b : Block) (n : Nat), Valid b.spelling → Writable (b.code env n)
  | .nil, _, _ => writable_nil
  | .cons s rest, n, h => by
      obtain ⟨hs, hrest⟩ := valid_append.mp h
      exact writable_append.mpr ⟨s.writable henv n hs, rest.writable henv _ hrest⟩

end

/-! ## Declared names and types -/

/-- Both lexemes of a variable are valid. -/
def Variable.Valid (v : Variable) : Prop := Syntax.Valid v.spelling

theorem Variable.Valid.name_ne_this {v : Variable} (h : v.Valid) : v.name ≠ "this" := by
  intro hthis
  have hname := h _ (List.mem_cons_of_mem _ (List.mem_singleton_self _))
  rw [hthis] at hname
  exact absurd hname (by decide)

theorem isLineName_type {t : TypeName} (h : t.lexeme.valid = true) : isLineName t.text = true := by
  cases t with
  | int | char | boolean => decide
  | named x => exact isLineName_of_valid h

theorem valid_moreNames {names : List String} (h : Valid (moreNames names)) :
    ∀ x ∈ names, (Lexeme.name x).valid = true := by
  intro x hx
  exact h _ (List.mem_flatMap.mpr ⟨x, hx, List.mem_cons_of_mem _ (List.mem_singleton_self _)⟩)

theorem VarDec.valid_variables {d : VarDec} (h : Valid d.spelling) :
    ∀ v ∈ d.vars, v.Valid := by
  have hphrase := (valid_append.mp h).1
  obtain ⟨htype, hphrase⟩ := valid_cons.mp hphrase
  obtain ⟨hfirst, hmore⟩ := valid_cons.mp hphrase
  intro v hv
  obtain ⟨x, hx, rfl⟩ := List.mem_map.mp hv
  have hname : (Lexeme.name x).valid = true := by
    rcases List.mem_cons.mp hx with rfl | hx
    · exact hfirst
    · exact valid_moreNames hmore x hx
  exact valid_cons.mpr ⟨htype, valid_cons.mpr ⟨hname, valid_nil⟩⟩

theorem valid_parameters {ps : List Variable} (h : Valid (parametersSpelling ps)) :
    ∀ p ∈ ps, p.Valid := by
  cases ps with
  | nil => exact fun p hp => (List.not_mem_nil hp).elim
  | cons q ps =>
      obtain ⟨hq, hps⟩ := valid_append.mp h
      intro p hp
      rcases List.mem_cons.mp hp with rfl | hp
      · exact hq
      · intro l hl
        exact hps l (List.mem_flatMap.mpr ⟨p, hp, List.mem_cons_of_mem _ hl⟩)

namespace Subroutine

variable {s : Subroutine}

theorem valid_spelling (h : Valid s.spelling) :
    (Lexeme.name s.name).valid = true ∧ Valid (parametersSpelling s.parameters) ∧
      Valid (localsSpelling s.locals) ∧ Valid s.body.spelling := by
  simp_all [Subroutine.spelling]

theorem valid_variables (h : Valid s.spelling) :
    ∀ v ∈ s.parameters ++ s.localVariables, v.Valid := by
  obtain ⟨-, hps, hds, -⟩ := valid_spelling h
  intro v hv
  rcases List.mem_append.mp hv with hv | hv
  · exact valid_parameters hps v hv
  · obtain ⟨d, hd, hv⟩ := List.mem_flatMap.mp hv
    refine d.valid_variables (fun l hl => ?_) v hv
    exact hds l (List.mem_flatMap.mpr ⟨d, hd, List.mem_cons_of_mem _ hl⟩)

theorem this_notMem (h : Valid s.spelling) :
    "this" ∉ (s.parameters ++ s.localVariables).map Variable.name := by
  intro hthis
  obtain ⟨v, hv, hname⟩ := List.mem_map.mp hthis
  exact (valid_variables h v hv).name_ne_this hname

end Subroutine

namespace ClassDecl

variable {c : ClassDecl}

theorem valid_name (h : Valid c.spelling) : isLineName c.name = true :=
  isLineName_of_valid (h _ (List.mem_cons_of_mem _ (List.mem_cons_self ..)))

theorem valid_subroutine (h : Valid c.spelling) {s : Subroutine} (hs : s ∈ c.subroutines) :
    Valid s.spelling := by
  intro l hl
  have hsub : l ∈ c.subroutines.flatMap Subroutine.spelling := List.mem_flatMap.mpr ⟨s, hs, hl⟩
  exact h l (by simp [ClassDecl.spelling, hsub])

theorem valid_variables (h : Valid c.spelling) :
    ∀ v ∈ c.vars.flatMap fun d => d.dec.vars, v.Valid := by
  intro v hv
  obtain ⟨d, hd, hv⟩ := List.mem_flatMap.mp hv
  refine d.dec.valid_variables (fun l hl => ?_) v hv
  have hdec : l ∈ c.vars.flatMap ClassVarDec.spelling :=
    List.mem_flatMap.mpr ⟨d, hd, List.mem_cons_of_mem _ hl⟩
  exact h l (by simp [ClassDecl.spelling, hdec])

theorem this_notMem (h : Valid c.spelling) : "this" ∉ c.variableNames := by
  intro hthis
  obtain ⟨v, hv, hname⟩ := List.mem_map.mp hthis
  exact (valid_variables h v hv).name_ne_this hname

theorem mem_ofKind {k : ClassVarKind} {v : Variable} (h : v ∈ c.ofKind k) :
    v ∈ c.vars.flatMap fun d => d.dec.vars := by
  obtain ⟨d, hd, hv⟩ := List.mem_flatMap.mp h
  exact List.mem_flatMap.mpr ⟨d, (List.mem_filter.mp hd).1, hv⟩

end ClassDecl

/-- A place is in its segment, and at its index stands a variable of the name. -/
theorem getElem?_of_place {segment : Segment} {vars : List Variable} {x : String} {b : Binding}
    (h : place segment vars x = some b) :
    ∃ v, vars[b.cell.index]? = some v ∧ v.name = x ∧ b.type = v.type.text ∧
      b.cell.segment = segment := by
  obtain ⟨p, hp, rfl⟩ := Option.map_eq_some_iff.mp h
  have hmem := List.mem_zipIdx_iff_getElem?.mp (List.mem_of_find?_eq_some hp)
  exact ⟨p.1, hmem, by simpa using List.find?_some hp, rfl, rfl⟩

theorem mem_of_place {segment : Segment} {vars : List Variable} {x : String} {b : Binding}
    (h : place segment vars x = some b) :
    ∃ v ∈ vars, b.type = v.type.text ∧ b.cell.segment = segment := by
  obtain ⟨v, hv, -, htype, hsegment⟩ := getElem?_of_place h
  exact ⟨v, List.mem_of_getElem? hv, htype, hsegment⟩

/-- No variable of a subroutine stands among the constants. -/
theorem Subroutine.segment_env {c : ClassDecl} {s : Subroutine} {x : String} {b : Binding}
    (hb : (s.env c).resolve x = some b) : b.cell.segment ≠ .constant := by
  simp only [Subroutine.env, Option.or_eq_some_iff] at hb
  rcases hb with (hb | ⟨-, hb⟩) | ⟨-, hb | ⟨-, hb⟩⟩ <;>
    · obtain ⟨-, -, -, hsegment⟩ := mem_of_place hb
      rw [hsegment]
      decide

/-- The environment of a subroutine whose class is spelled by valid lexemes. -/
theorem Subroutine.writable_env {c : ClassDecl} (h : Valid c.spelling) {s : Subroutine}
    (hs : s ∈ c.subroutines) : (s.env c).Writable := by
  have hvalid : ∀ vars : List Variable, (∀ v ∈ vars, v.Valid) → ∀ segment x b,
      place segment vars x = some b → isLineName b.type = true := by
    intro vars hvars segment x b hb
    obtain ⟨v, hv, htype, -⟩ := mem_of_place hb
    rw [htype]
    exact isLineName_type (valid_cons.mp (hvars v hv)).1
  have hsub := valid_variables (c.valid_subroutine h hs)
  refine ⟨c.valid_name h, fun x b hb => ?_, fun _ _ => segment_env⟩
  simp only [Subroutine.env, Option.or_eq_some_iff] at hb
  rcases hb with (hb | ⟨-, hb⟩) | ⟨-, hb | ⟨-, hb⟩⟩
  · obtain ⟨v, hv, htype, -⟩ := mem_of_place hb
    have hargs : v ∈ ⟨.named c.name, "this"⟩ :: s.parameters := by
      unfold Subroutine.arguments at hv
      split at hv
      · exact hv
      · exact List.mem_cons_of_mem _ hv
    rcases List.mem_cons.mp hargs with rfl | hv
    · rw [htype]
      exact c.valid_name h
    · rw [htype]
      exact isLineName_type (valid_cons.mp (hsub v (List.mem_append_left _ hv))).1
  · exact hvalid _ (fun v hv => hsub v (List.mem_append_right _ hv)) _ x b hb
  · exact hvalid _ (fun v hv => c.valid_variables h v (c.mem_ofKind hv)) _ x b hb
  · exact hvalid _ (fun v hv => c.valid_variables h v (c.mem_ofKind hv)) _ x b hb

/-- The code of a subroutine of a class that is spelled by valid lexemes is never refused. -/
theorem Subroutine.writable {c : ClassDecl} (h : Valid c.spelling) {s : Subroutine}
    (hs : s ∈ c.subroutines) (n : Nat) : Writable (s.code c n) := by
  obtain ⟨hname, -, -, hbody⟩ := valid_spelling (c.valid_subroutine h hs)
  have hheader : (s.header c).fault? = none :=
    fault?_function.mpr (isLineName_qualified (c.valid_name h) (isLineName_of_valid hname))
  have hprologue : Writable (s.prologue c) := by
    have halloc : isLineName "Memory.alloc" = true := by decide
    unfold Subroutine.prologue
    split <;> simp [halloc]
  simp only [Subroutine.code, List.cons_append, writable_cons, writable_append]
  exact ⟨hheader, hprologue, s.body.writable (writable_env h hs) n hbody⟩

end Jack.Syntax
