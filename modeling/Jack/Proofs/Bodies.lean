import Jack.Proofs.Acceptance
import Jack.Proofs.Simulation

/-!
# The meaning of subroutine bodies

The code that a compilation makes of a subroutine body does what the body means. Two things are
left to see for this: the environment of a subroutine finds the current object where the prologue
puts it, and no assignment can name `this`, since a valid lexeme for a name is not a keyword.
-/

namespace Jack.Syntax

open Machine

/-! ## Names that are assigned to -/

mutual

theorem Statement.targets_spelled :
    ∀ (s : Statement) {x : String}, x ∈ s.targets → .name x ∈ s.spelling
  | .assign y value, x, h => by
      obtain rfl := List.mem_singleton.mp h
      simp [Statement.spelling]
  | .conditional condition body alternative, x, h => by
      rcases List.mem_append.mp h with h | h
      · simp [Statement.spelling, body.targets_spelled h]
      · simp [Statement.spelling, alternative.targets_spelled h]
  | .loop condition body, x, h => by
      simp [Statement.spelling, body.targets_spelled h]
  | .assignElement .., _, h | .perform _, _, h | .yield _, _, h => (List.not_mem_nil h).elim

theorem Alternative.targets_spelled :
    ∀ (a : Alternative) {x : String}, x ∈ a.targets → .name x ∈ a.spelling
  | .absent, _, h => (List.not_mem_nil h).elim
  | .present body, x, h => by
      simp [Alternative.spelling, body.targets_spelled h]

theorem Block.targets_spelled :
    ∀ (b : Block) {x : String}, x ∈ b.targets → .name x ∈ b.spelling
  | .nil, _, h => (List.not_mem_nil h).elim
  | .cons s rest, x, h => by
      rcases List.mem_append.mp h with h | h
      · exact List.mem_append_left _ (s.targets_spelled h)
      · exact List.mem_append_right _ (rest.targets_spelled h)

end

theorem Block.target_ne_this {b : Block} (hb : Valid b.spelling) {x : String}
    (hx : x ∈ b.targets) : x ≠ "this" := by
  intro heq
  subst heq
  exact absurd (hb _ (b.targets_spelled hx)) (by decide)

/-! ## The environment of a subroutine -/

namespace Subroutine

variable {c : ClassDecl} {s : Subroutine}

theorem self_env {cell : Cell} (h : (s.env c).self = some cell) :
    cell = ⟨.pointer, 0⟩ ∨ (s.kind = .method ∧ cell = ⟨.argument, 0⟩) := by
  unfold Subroutine.env at h
  cases hkind : s.kind with
  | constructor =>
      simp only [hkind] at h
      exact .inl (Option.some.inj h).symm
  | function =>
      simp only [hkind] at h
      cases h
  | method =>
      simp only [hkind] at h
      exact .inr ⟨rfl, (Option.some.inj h).symm⟩

theorem selfAt {f : Frame} (h : s.kind = .method → f.arguments 0 = f.this) :
    (s.env c).SelfAt f := by
  intro cell hcell
  rcases self_env hcell with hcell | ⟨hkind, hcell⟩
  · exact .inl hcell
  · exact .inr ⟨hcell, h hkind⟩

/-- A variable in the argument segment is one of the arguments. -/
theorem resolve_env {x : String} {b : Binding} (h : (s.env c).resolve x = some b) :
    b.cell.segment ≠ .pointer ∧ (b.cell.segment = .argument →
      ∃ v, (s.arguments c)[b.cell.index]? = some v ∧ v.name = x) := by
  simp only [Subroutine.env, Option.or_eq_some_iff] at h
  rcases h with (h | ⟨-, h⟩) | ⟨-, h | ⟨-, h⟩⟩
  · obtain ⟨v, hv, hname, -, hsegment⟩ := getElem?_of_place h
    exact ⟨by simp [hsegment], fun _ => ⟨v, hv, hname⟩⟩
  all_goals
    obtain ⟨-, -, -, -, hsegment⟩ := getElem?_of_place h
    simp [hsegment]

/-- Only the receiver of a method is argument 0, and its name is a keyword. -/
theorem assignable {x : String} (hx : x ≠ "this") : (s.env c).Assignable x := by
  intro b hb
  obtain ⟨hpointer, harguments⟩ := resolve_env hb
  refine ⟨hpointer, fun hself => ?_⟩
  rcases self_env hself with hcell | ⟨hkind, hcell⟩
  · exact hpointer (congrArg Cell.segment hcell)
  · obtain ⟨v, hv, hname⟩ := harguments (congrArg Cell.segment hcell)
    rw [Subroutine.arguments, if_pos hkind, hcell] at hv
    obtain rfl := Option.some.inj hv
    exact hx hname.symm

/-- Header and prologue bring no labels. -/
theorem nodup_labelNames (c : ClassDecl) (s : Subroutine) (n : Nat) :
    (labelNames (s.code c n)).Nodup := by
  have hnames : labelNames (s.code c n) = labelNames (s.bodyCode c n) := by
    rw [Subroutine.code, Subroutine.header, List.cons_append, labelNames_cons (by simp),
      labelNames_append, labelNames_of_straight (s.straight_prologue c), List.nil_append]
  rw [hnames]
  exact s.body.nodup_labelNames (s.env c) n

/-- Running the code of a body does what the body means. -/
theorem body_executes {I : Interpretation} (hnot : I.not = (~~~ ·))
    (hvalid : Valid s.body.spelling) (n : Nat) {m m' : Memory} {e : Ending}
    (hself : s.kind = .method → m.frame.arguments 0 = m.frame.this)
    (hruns : s.body.Runs I (s.env c).source m e m') :
    Executes I (s.code c n) (s.bodyCode c n) [] m e m' := by
  have hsuffix : s.bodyCode c n ++ [] <:+ s.code c n := by
    rw [List.append_nil]
    exact List.suffix_append (s.header c :: s.prologue c) _
  exact hruns.executes hnot (nodup_labelNames c s n)
    (fun x hx => assignable (Block.target_ne_this hvalid hx)) (selfAt hself) hsuffix

end Subroutine

end Jack.Syntax

namespace Jack.Compile

open Syntax Machine

/-- If a body of a compiled class ends, then its code, run on any stack from the same memory, ends
in the same memory: at a `return` with the value on the stack, at a `return` with the stack as it
was, or behind the last instruction of the body with the stack as it was. -/
theorem compileTokens_runs (o : Options) (file : String) (lines : List String)
    (tokens : List Token) (hvalid : ∀ t ∈ tokens, t.lexeme.valid = true) (cd : ClassDecl)
    (hspells : tokens.map Token.lexeme = cd.spelling)
    (hobeys : cd.Obeys o.knownClasses o.strict) (earlier later : List Subroutine)
    (s : Subroutine) (hs : cd.subroutines = earlier ++ s :: later) :
    let n := (earlier.map fun s => s.body.labels).sum
    (compileTokens o file lines tokens).fault = none ∧
      (compileTokens o file lines tokens).state.code =
        subroutinesCode cd 0 earlier ++ (s.header cd :: s.prologue cd ++ s.bodyCode cd n) ++
          subroutinesCode cd (n + s.body.labels) later ∧
      ∀ call memory ending memory' stack that temp,
        (s.kind = .method → memory.frame.arguments 0 = memory.frame.this) →
        s.body.Runs ⟨.usual, call⟩ (s.env cd).source memory ending memory' →
          ∃ k, Reaches ⟨.usual, call⟩ (s.code cd n) ⟨s.bodyCode cd n, stack, memory, that, temp⟩ k ∧
            Stopped ending [] stack memory' k := by
  intro n
  obtain ⟨hfault, hcode⟩ := (compileTokens_iff o file lines hvalid).mpr ⟨cd, hspells, hobeys, rfl⟩
  have hlexemes : Valid cd.spelling := hspells ▸ valid_lexemes hvalid
  have hmem : s ∈ cd.subroutines := by simp [hs]
  obtain ⟨-, -, -, hbody⟩ := Subroutine.valid_spelling (cd.valid_subroutine hlexemes hmem)
  refine ⟨hfault, ?_, ?_⟩
  · rw [hcode, ClassDecl.code, hs, subroutinesCode_append, Nat.zero_add, subroutinesCode,
      List.append_assoc]
    rfl
  · intro call memory ending memory' stack that temp hself hruns
    obtain ⟨k, hreaches, hstopped⟩ := s.body_executes rfl hbody n hself hruns stack that temp
    rw [List.append_nil] at hreaches
    exact ⟨k, hreaches, hstopped⟩

/-- A memory in which the counter at address 2048 holds 10 and is to be raised by 3. -/
def counterMemory : Memory where
  frame := ⟨fun _ => 0, fun i => if i = 0 then 2048 else 3, 2048⟩
  world := ⟨fun _ => 0, Function.update (fun _ => 0) 2048 10⟩

theorem bump_runs (call : String → List Word → World → Option CallResult) :
    bump.body.Runs ⟨.usual, call⟩ (bump.env counter).source counterMemory (.returned none)
      (counterMemory.poke 2048 13) := by
  have hcondition : Expression.eval ⟨.usual, call⟩ (bump.env counter).source counterMemory.frame
      (.mk (.var "by") (.cons .less (.var "n") .nil)) counterMemory.world =
        some (BitVec.allOnes 16, counterMemory.world) := rfl
  have hvalue : Expression.eval ⟨.usual, call⟩ (bump.env counter).source counterMemory.frame
      (.mk (.var "n") (.cons .plus (.var "by") .nil)) counterMemory.world =
        some (13, counterMemory.world) := rfl
  have hn : (bump.env counter).source.resolve "n" = some ⟨"int", .this, 0⟩ := by decide
  exact .next (.thenPart hcondition (.next (.assign hvalue hn rfl) .nil)) (.returned .yieldNothing)

theorem bump_executes :
    ∃ k, Reaches ⟨.usual, fun _ _ _ => none⟩ (bump.code counter 0)
        ⟨bump.bodyCode counter 0, [7], counterMemory, 0, fun _ => 0⟩ k ∧
      Stopped (.returned none) [] [7] (counterMemory.poke 2048 13) k :=
  (compileTokens_runs { strict := true } "Counter.jack" []
    (tokensAt ⟨"Counter.jack", 1, 1⟩ counter.spelling) (by decide) counter (by decide)
    (counter_obeys []) [] [] bump rfl).2.2 _ _ _ _ [7] 0 _ (fun _ => rfl) (bump_runs _)

end Jack.Compile
