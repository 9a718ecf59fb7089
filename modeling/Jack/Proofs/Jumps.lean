import Jack.Proofs.Heights

/-!
# Labels of a class

The labels of a whole class are numbered from 1 without a gap: a conditional or a loop takes two,
and nothing else takes any (`labels_eq`). Over the subroutines the numbers go on where they stopped,
so each label is defined once in the whole code, and gone to once (`labelNames_perm`,
`jumpNames_perm`). Both ends of a jump belong to the same statement, hence to the same
function block.

The number of the last label is what the counter of a compilation holds at its end
(`compileTokens_reached`).
-/

namespace Jack.Syntax

open Machine

/-! ## How many labels there are -/

mutual

/-- How many conditionals and loops there are. -/
def Statement.branches : Statement → Nat
  | .conditional _ body alternative => 1 + body.branches + alternative.branches
  | .loop _ body => 1 + body.branches
  | .assign .. | .assignElement .. | .perform _ | .yield _ => 0

def Alternative.branches : Alternative → Nat
  | .absent => 0
  | .present body => body.branches

def Block.branches : Block → Nat
  | .nil => 0
  | .cons s rest => s.branches + rest.branches

end

def ClassDecl.branches (c : ClassDecl) : Nat :=
  (c.subroutines.map fun s => s.body.branches).sum

mutual

theorem Statement.labels_eq : ∀ s : Statement, s.labels = 2 * s.branches
  | .conditional _ body alternative => by
      rw [Statement.labels, Statement.branches, body.labels_eq, alternative.labels_eq]
      omega
  | .loop _ body => by
      rw [Statement.labels, Statement.branches, body.labels_eq]
      omega
  | .assign .. | .assignElement .. | .perform _ | .yield _ => rfl

theorem Alternative.labels_eq : ∀ a : Alternative, a.labels = 2 * a.branches
  | .absent => rfl
  | .present body => body.labels_eq

theorem Block.labels_eq : ∀ b : Block, b.labels = 2 * b.branches
  | .nil => rfl
  | .cons s rest => by
      rw [Block.labels, Block.branches, s.labels_eq, rest.labels_eq, Nat.mul_add]

end

/-- How many labels some subroutines take. -/
def totalLabels (ss : List Subroutine) : Nat := (ss.map fun s => s.body.labels).sum

theorem totalLabels_cons (s : Subroutine) (ss : List Subroutine) :
    totalLabels (s :: ss) = s.body.labels + totalLabels ss := by
  simp [totalLabels]

theorem ClassDecl.totalLabels_eq (c : ClassDecl) : totalLabels c.subroutines = 2 * c.branches := by
  unfold ClassDecl.branches
  induction c.subroutines with
  | nil => rfl
  | cons s ss ih =>
      rw [totalLabels_cons, ih, s.body.labels_eq, List.map_cons, List.sum_cons, Nat.mul_add]

/-! ## Labels and jumps of a class -/

theorem Subroutine.labelNames_perm (c : ClassDecl) (s : Subroutine) (n : Nat) :
    (labelNames (s.prologue c ++ s.bodyCode c n)).Perm (drawnLabels n s.body.labels) := by
  rw [labelNames_append, labelNames_of_straight (s.straight_prologue c)]
  exact s.body.labelNames_perm (s.env c) n

theorem Subroutine.jumpNames_perm (c : ClassDecl) (s : Subroutine) (n : Nat) :
    (jumpNames (s.prologue c ++ s.bodyCode c n)).Perm (drawnLabels n s.body.labels) := by
  rw [jumpNames_append, jumpNames_of_straight (s.straight_prologue c)]
  exact s.body.jumpNames_perm (s.env c) n

/-- What each block takes from its own interval of labels, the class takes from the whole. -/
theorem filterMap_subroutinesCode {p : Instruction → Option String} (c : ClassDecl)
    (hheader : ∀ s : Subroutine, p (s.header c) = none)
    (hblock : ∀ (s : Subroutine) (n : Nat),
      ((s.prologue c ++ s.bodyCode c n).filterMap p).Perm (drawnLabels n s.body.labels))
    (ss : List Subroutine) (n : Nat) :
    ((subroutinesCode c n ss).filterMap p).Perm (drawnLabels n (totalLabels ss)) := by
  induction ss generalizing n with
  | nil => exact .nil
  | cons s ss ih =>
      have hnames : (subroutinesCode c n (s :: ss)).filterMap p =
          (s.prologue c ++ s.bodyCode c n).filterMap p ++
            (subroutinesCode c (n + s.body.labels) ss).filterMap p := by
        rw [subroutinesCode, List.filterMap_append, Subroutine.code, List.cons_append,
          List.filterMap_cons_none (hheader s)]
      rw [hnames, totalLabels_cons, drawnLabels_add]
      exact (hblock s n).append (ih _)

theorem ClassDecl.labelNames_perm (c : ClassDecl) :
    (labelNames c.code).Perm (drawnLabels 0 (totalLabels c.subroutines)) :=
  filterMap_subroutinesCode c (fun _ => rfl) (Subroutine.labelNames_perm c) c.subroutines 0

theorem ClassDecl.jumpNames_perm (c : ClassDecl) :
    (jumpNames c.code).Perm (drawnLabels 0 (totalLabels c.subroutines)) :=
  filterMap_subroutinesCode c (fun _ => rfl) (Subroutine.jumpNames_perm c) c.subroutines 0

/-- The blocks make up the code from its first header on. -/
theorem flatMap_functionBlocks (code : List Instruction) :
    (functionBlocks code).flatMap (fun b => b.1 :: b.2) = code.dropWhile fun x => !isHeader x := by
  induction code with
  | nil => rfl
  | cons x code ih =>
      rw [functionBlocks, List.dropWhile_cons]
      cases hx : isHeader x with
      | false => exact ih
      | true =>
          show x :: code.takeWhile _ ++ (functionBlocks code).flatMap _ = x :: code
          rw [ih, List.cons_append, List.takeWhile_append_dropWhile]

theorem flatMap_subroutinesCode (c : ClassDecl) (n : Nat) (ss : List Subroutine) :
    (functionBlocks (subroutinesCode c n ss)).flatMap (fun b => b.1 :: b.2) =
      subroutinesCode c n ss := by
  have hsplit := List.takeWhile_append_dropWhile
    (p := fun x => !isHeader x) (l := subroutinesCode c n ss)
  rw [takeWhile_subroutinesCode, List.nil_append] at hsplit
  rw [flatMap_functionBlocks, hsplit]

/-- The labels of the code are `L1` to `Ln`, two for each conditional and each loop of the class.
Each stands in the code once and is gone to once, from inside its own function block; no jump goes
anywhere else. -/
structure ClassDecl.Labelled (c : ClassDecl) (n : Nat) (code : List Instruction) : Prop where
  count : n = 2 * c.branches
  labels : (labelNames code).Perm ((List.range' 1 n).map fun k => s!"L{k}")
  distinct : (labelNames code).Nodup
  targeted : ∀ l ∈ labelNames code, (jumpNames code).count l = 1
  defined : ∀ l ∈ jumpNames code, l ∈ labelNames code
  blocks : (functionBlocks code).flatMap (fun b => b.1 :: b.2) = code
  closed : ∀ b ∈ functionBlocks code, ∀ l, l ∈ jumpNames b.2 ↔ l ∈ labelNames b.2

theorem ClassDecl.labelled (c : ClassDecl)
    (hbodies : ∀ s ∈ c.subroutines, ∃ r : Rules, r.env = s.env c ∧ s.body.Obeys r) :
    c.Labelled (totalLabels c.subroutines) c.code := by
  have hsame := c.jumpNames_perm.trans c.labelNames_perm.symm
  have hnodup : (labelNames c.code).Nodup :=
    c.labelNames_perm.nodup_iff.mpr (nodup_drawnLabels _ _)
  refine ⟨c.totalLabels_eq, c.labelNames_perm, hnodup, ?_, fun l hl => hsame.subset hl,
    flatMap_subroutinesCode c 0 c.subroutines, ?_⟩
  · intro l hl
    rw [hsame.count_eq, List.count_eq_one_of_mem hnodup hl]
  · -- A property of every block, whichever subroutine it comes from.
    have hblocks : List.Forall₂ (fun _ b => ∀ l, l ∈ jumpNames b.2 ↔ l ∈ labelNames b.2)
        c.subroutines (functionBlocks c.code) := by
      refine forall₂_functionBlocks c c.subroutines hbodies (fun s _ n l => ?_) 0
      exact ((s.jumpNames_perm c n).trans (s.labelNames_perm c n).symm).mem_iff
    have hflip := hblocks.flip.imp fun b s hb => And.intro hb True.intro
    exact ((List.forall₂_and_left _ _).mp hflip).1

end Jack.Syntax

namespace Jack.Compile

open Syntax Machine

/-- A compilation that succeeds has read a class to its end. -/
theorem compileTokens_reached (o : Options) (file : String) (lines : List String)
    {tokens : List Token} (hvalid : ∀ t ∈ tokens, t.lexeme.valid = true)
    (hfault : (compileTokens o file lines tokens).fault = none) :
    ∃ cd : ClassDecl, tokens.map Token.lexeme = cd.spelling ∧
      cd.Obeys o.knownClasses o.strict ∧
      Reached cd o.knownClasses cd.subroutines (compileTokens o file lines tokens).state.view := by
  let setting : Setting := { Token.Setting.ofTokens file lines tokens with strict := o.strict }
  let start : State :=
    { rest := tokens, known := o.knownClasses, recorded := if o.listTree then some [] else none }
  have hsound : start.Sound := ⟨hvalid, Int.le_refl 0⟩
  have hrun : run setting start Goal.wholeClass =
      ⟨(compileTokens o file lines tokens).state, none⟩ :=
    congrArg (Outcome.mk (compileTokens o file lines tokens).state) hfault
  have hmeans := (run_iff Goal.wholeClass start hsound _).mp ⟨_, hrun, rfl⟩
  exact hmeans.reached (valid_lexemes hvalid)

/-- The counter of a successful compilation stands at the last label of its class. -/
theorem compileTokens_labels (o : Options) (file : String) (lines : List String)
    {tokens : List Token} {cd : ClassDecl}
    (h : Reached cd o.knownClasses cd.subroutines
      (compileTokens o file lines tokens).state.view) :
    (compileTokens o file lines tokens).state.labels = totalLabels cd.subroutines := by
  have hlabels : (compileTokens o file lines tokens).state.labels.toNat = _ := h.labels
  have hnonneg : 0 ≤ (compileTokens o file lines tokens).state.labels :=
    (run_forward _ _ _).labels
  rw [← Int.toNat_of_nonneg hnonneg, hlabels]
  rfl

end Jack.Compile

namespace Jack

open Compile Syntax Machine

theorem compileSource_outcome {o : Options} {source file : String} {compiled : Compiled}
    (h : (compileSource o source file).result = .ok compiled) :
    (compileTokens { o with knownClasses := o.allKnown } file (Text.linesOf source)
        (Token.scan source file).tokens).fault = none ∧
      compiled.code = (compileTokens { o with knownClasses := o.allKnown } file
        (Text.linesOf source) (Token.scan source file).tokens).state.code := by
  unfold compileSource at h
  dsimp only at h
  split at h
  · cases h
  · split at h
    · cases h
    · next hfault =>
        obtain rfl := Except.ok.inj h
        exact ⟨hfault, rfl⟩

/-- The labels of a compiled source: as many as its counter says, each defined once and gone to
once, and never from another function block. -/
theorem compileSource_labelled (o : Options) (source file : String) (compiled : Compiled)
    (h : (compileSource o source file).result = .ok compiled) :
    ∃ cd : ClassDecl, (Token.scan source file).tokens.map Token.lexeme = cd.spelling ∧
      ∃ n : Nat, cd.Labelled n compiled.code ∧
        (compileTokens { o with knownClasses := o.allKnown } file (Text.linesOf source)
          (Token.scan source file).tokens).state.labels = n := by
  have hvalid := Token.scan_valid source file
  obtain ⟨hfault, hcode⟩ := compileSource_outcome h
  obtain ⟨cd, hspells, hobeys, hreached⟩ := compileTokens_reached _ file _ hvalid hfault
  refine ⟨cd, hspells, totalLabels cd.subroutines, ?_, compileTokens_labels _ file _ hreached⟩
  have hcode : compiled.code = cd.code := hcode.trans hreached.code
  rw [hcode]
  refine cd.labelled fun s hs => ?_
  obtain ⟨earlier, later, hss⟩ := List.append_of_mem hs
  exact ⟨_, rfl, (hobeys.bodies earlier s later hss).body⟩

theorem counterSource_labelled :
    ∃ compiled, (compileSource { strict := true } counterSource "Counter.jack").result =
        .ok compiled ∧
      ∃ cd : ClassDecl,
        (Token.scan counterSource "Counter.jack").tokens.map Token.lexeme = cd.spelling ∧
          ∃ n : Nat, cd.Labelled n compiled.code ∧
            (compileTokens { strict := true, knownClasses := Options.allKnown { strict := true } }
              "Counter.jack" (Text.linesOf counterSource)
              (Token.scan counterSource "Counter.jack").tokens).state.labels = n := by
  obtain ⟨compiled, h⟩ := counterSource_compiles
  exact ⟨compiled, h, compileSource_labelled _ _ _ compiled h⟩

end Jack
