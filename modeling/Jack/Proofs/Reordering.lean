import Jack.Proofs.Acceptance
import Jack.Proofs.Unambiguity

/-!
# The order of the subroutines

The rules of a class mention the order of its subroutines in one place: a class may qualify a call
once it is known, and the declarations of the subroutines in front make classes known. Unqualified
calls, by contrast, are looked up in the whole class.

So a class that compiles still compiles with its subroutines in another order, provided that every
qualifier that is no variable is a known class at its new place (`QualifiersKnown`); and if one is
not, it does not compile (`compileTokens_reordered`). The proviso cannot be dropped:
`factory_needs_order` is a class that compiles in one order and not in the other.
-/

namespace Jack.Syntax

/-! ## Qualifiers -/

mutual

def Expression.qualifiers : Expression → List String
  | .mk first rest => first.qualifiers ++ rest.qualifiers

def Operations.qualifiers : Operations → List String
  | .nil => []
  | .cons _ operand rest => operand.qualifiers ++ rest.qualifiers

/-- The names that qualify the calls of a phrase, in order. -/
def Term.qualifiers : Term → List String
  | .integer _ | .string _ | .constant _ | .this | .var _ => []
  | .unary _ operand => operand.qualifiers
  | .parens e => e.qualifiers
  | .element _ index => index.qualifiers
  | .call c => c.qualifiers

def Call.qualifiers : Call → List String
  | .unqualified _ arguments => arguments.qualifiers
  | .qualified qualifier _ arguments => qualifier :: arguments.qualifiers

def Arguments.qualifiers : Arguments → List String
  | .nil => []
  | .cons e rest => e.qualifiers ++ rest.qualifiers

end

mutual

def Statement.qualifiers : Statement → List String
  | .assign _ value => value.qualifiers
  | .assignElement _ index value => index.qualifiers ++ value.qualifiers
  | .conditional condition body alternative =>
    condition.qualifiers ++ body.qualifiers ++ alternative.qualifiers
  | .loop condition body => condition.qualifiers ++ body.qualifiers
  | .perform c => c.qualifiers
  | .yield none => []
  | .yield (some value) => value.qualifiers

def Alternative.qualifiers : Alternative → List String
  | .absent => []
  | .present body => body.qualifiers

def Block.qualifiers : Block → List String
  | .nil => []
  | .cons s rest => s.qualifiers ++ rest.qualifiers

end

/-- The names that are no variables are classes. -/
def Rules.Knows (r : Rules) (qs : List String) : Prop :=
  ∀ q ∈ qs, r.env.resolve q = none → r.isClass q

/-- Rules that differ in the classes that are known. -/
def Rules.withClasses (r : Rules) (isClass : String → Prop) : Rules := { r with isClass }

theorem Rules.knows_nil (r : Rules) : r.Knows [] ↔ True := by
  simp [Rules.Knows]

theorem Rules.knows_append (r : Rules) {ps qs : List String} :
    r.Knows (ps ++ qs) ↔ r.Knows ps ∧ r.Knows qs :=
  List.forall_mem_append

theorem Rules.knows_cons (r : Rules) {q : String} {qs : List String} :
    r.Knows (q :: qs) ↔ (r.env.resolve q = none → r.isClass q) ∧ r.Knows qs :=
  List.forall_mem_cons

variable {r : Rules} {isClass : String → Prop}

/-- A variable qualifies a call whichever classes are known; any other name has to be known. -/
theorem Rules.qualifies_withClasses_iff {q : String} (h : r.Qualifies q) :
    (r.withClasses isClass).Qualifies q ↔ (r.env.resolve q = none → isClass q) := by
  unfold Rules.Qualifies at h ⊢
  cases hq : r.env.resolve q with
  | some b =>
      rw [hq] at h
      simpa [Rules.withClasses, hq] using h
  | none => simp [Rules.withClasses, hq]

/-! ## What the rules of a phrase say of the classes

A phrase that obeys rules obeys them with other classes known exactly if its qualifiers are. -/

mutual

theorem Expression.obeys_withClasses_iff : ∀ e : Expression, e.Obeys r →
    (e.Obeys (r.withClasses isClass) ↔ (r.withClasses isClass).Knows e.qualifiers)
  | .mk t o, h => by
      rw [Expression.Obeys, Expression.qualifiers, Rules.knows_append,
        t.obeys_withClasses_iff h.1, o.obeys_withClasses_iff h.2]

theorem Operations.obeys_withClasses_iff : ∀ o : Operations, o.Obeys r →
    (o.Obeys (r.withClasses isClass) ↔ (r.withClasses isClass).Knows o.qualifiers)
  | .nil, _ => (Rules.knows_nil _).symm
  | .cons _ t o, h => by
      rw [Operations.Obeys, Operations.qualifiers, Rules.knows_append,
        t.obeys_withClasses_iff h.1, o.obeys_withClasses_iff h.2]

theorem Term.obeys_withClasses_iff : ∀ t : Term, t.Obeys r →
    (t.Obeys (r.withClasses isClass) ↔ (r.withClasses isClass).Knows t.qualifiers)
  | .integer _, h | .string _, h | .constant _, h | .this, h | .var _, h =>
      iff_of_true h ((Rules.knows_nil _).mpr trivial)
  | .unary _ t, h => t.obeys_withClasses_iff h
  | .parens e, h => e.obeys_withClasses_iff h
  | .element x i, h => by
      have hx : (r.withClasses isClass).Accessible x := h.1
      rw [Term.Obeys, Term.qualifiers, ← i.obeys_withClasses_iff h.2, and_iff_right hx]
  | .call c, h => c.obeys_withClasses_iff h

theorem Call.obeys_withClasses_iff : ∀ c : Call, c.Obeys r →
    (c.Obeys (r.withClasses isClass) ↔ (r.withClasses isClass).Knows c.qualifiers)
  | .unqualified _ a, h => by
      have hinside : (r.withClasses isClass).env.inFunction = false := h.1
      rw [Call.Obeys, Call.qualifiers, ← a.obeys_withClasses_iff h.2, and_iff_right hinside]
  | .qualified q _ a, h => by
      rw [Call.Obeys, Call.qualifiers, Rules.knows_cons, a.obeys_withClasses_iff h.2,
        Rules.qualifies_withClasses_iff h.1]
      rfl

theorem Arguments.obeys_withClasses_iff : ∀ a : Arguments, a.Obeys r →
    (a.Obeys (r.withClasses isClass) ↔ (r.withClasses isClass).Knows a.qualifiers)
  | .nil, _ => (Rules.knows_nil _).symm
  | .cons e a, h => by
      rw [Arguments.Obeys, Arguments.qualifiers, Rules.knows_append,
        e.obeys_withClasses_iff h.1, a.obeys_withClasses_iff h.2]

end

mutual

theorem Statement.obeys_withClasses_iff : ∀ s : Statement, s.Obeys r →
    (s.Obeys (r.withClasses isClass) ↔ (r.withClasses isClass).Knows s.qualifiers)
  | .assign x e, h => by
      have hx : (r.withClasses isClass).Accessible x := h.1
      rw [Statement.Obeys, Statement.qualifiers, ← e.obeys_withClasses_iff h.2, and_iff_right hx]
  | .assignElement x i e, h => by
      have hx : (r.withClasses isClass).Accessible x := h.1
      rw [Statement.Obeys, Statement.qualifiers, Rules.knows_append,
        ← i.obeys_withClasses_iff h.2.1, ← e.obeys_withClasses_iff h.2.2, and_iff_right hx]
  | .conditional e b a, h => by
      rw [Statement.Obeys, Statement.qualifiers, Rules.knows_append, Rules.knows_append,
        e.obeys_withClasses_iff h.1, b.obeys_withClasses_iff h.2.1, a.obeys_withClasses_iff h.2.2,
        and_assoc]
  | .loop e b, h => by
      rw [Statement.Obeys, Statement.qualifiers, Rules.knows_append,
        e.obeys_withClasses_iff h.1, b.obeys_withClasses_iff h.2]
  | .perform c, h => c.obeys_withClasses_iff h
  | .yield none, _ => (Rules.knows_nil _).symm
  | .yield (some e), h => e.obeys_withClasses_iff h

theorem Alternative.obeys_withClasses_iff : ∀ a : Alternative, a.Obeys r →
    (a.Obeys (r.withClasses isClass) ↔ (r.withClasses isClass).Knows a.qualifiers)
  | .absent, _ => (Rules.knows_nil _).symm
  | .present b, h => b.obeys_withClasses_iff h

theorem Block.obeys_withClasses_iff : ∀ b : Block, b.Obeys r →
    (b.Obeys (r.withClasses isClass) ↔ (r.withClasses isClass).Knows b.qualifiers)
  | .nil, _ => (Rules.knows_nil _).symm
  | .cons s b, h => by
      rw [Block.Obeys, Block.qualifiers, Rules.knows_append,
        s.obeys_withClasses_iff h.1, b.obeys_withClasses_iff h.2]

end

/-! ## Classes -/

namespace ClassDecl

variable {cd : ClassDecl} {order : List Subroutine} {known : List String} {strict : Bool}

/-- The class with its subroutines as listed. -/
def reordered (cd : ClassDecl) (order : List Subroutine) : ClassDecl :=
  { cd with subroutines := order }

/-- Every qualifier that is no variable is a class that is known where it stands. -/
def QualifiersKnown (cd : ClassDecl) (known : List String) (strict : Bool) : Prop :=
  ∀ earlier s later, cd.subroutines = earlier ++ s :: later →
    (cd.rules known strict earlier s).Knows s.body.qualifiers

/-- A class that obeys the rules obeys them in another order exactly if the qualifiers are known
there. -/
theorem obeys_reordered_iff (horder : order.Perm cd.subroutines) (hobeys : cd.Obeys known strict) :
    (cd.reordered order).Obeys known strict ↔ (cd.reordered order).QualifiersKnown known strict := by
  have hold : ∀ earlier s later, order = earlier ++ s :: later →
      ∃ before, s.Obeys cd (cd.rules known strict before s) := by
    rintro earlier s later rfl
    obtain ⟨before, after, hplace⟩ := List.append_of_mem (horder.mem_iff.mp List.mem_append_cons_self)
    exact ⟨before, hobeys.bodies before s after hplace⟩
  constructor
  · intro h earlier s later hsplit
    obtain ⟨before, hs⟩ := hold earlier s later hsplit
    exact (s.body.obeys_withClasses_iff hs.body).mp (h.bodies earlier s later hsplit).body
  · intro h
    refine ⟨hobeys.vars, (horder.map Subroutine.name).nodup_iff.mpr hobeys.subroutines, ?_⟩
    intro earlier s later hsplit
    obtain ⟨before, hs⟩ := hold earlier s later hsplit
    refine ⟨hs.distinct, (s.body.obeys_withClasses_iff hs.body).mpr (h earlier s later hsplit), ?_⟩
    intro f hf
    obtain ⟨m, hm, hname, hkind⟩ := hs.calls f hf
    exact ⟨m, horder.mem_iff.mpr hm, hname, hkind⟩

/-- Another order spells the same lexemes, up to their order. -/
theorem valid_reordered (horder : order.Perm cd.subroutines) (h : Valid cd.spelling) :
    Valid (cd.reordered order).spelling := by
  have hperm : (cd.reordered order).spelling.Perm cd.spelling :=
    ((horder.flatMap_right Subroutine.spelling).append_left _).append_right _
  intro l hl
  exact h l (hperm.mem_iff.mp hl)

end ClassDecl

end Jack.Syntax

namespace Jack.Compile

open Syntax

/-- A class that compiles also compiles with its subroutines in another order, exactly if every
qualifier that is no variable is a class that is known at its new place. -/
theorem compileTokens_reordered (o : Options) (file file' : String) (lines lines' : List String)
    (tokens tokens' : List Token) (hvalid : ∀ t ∈ tokens, t.lexeme.valid = true)
    (cd : ClassDecl) (order : List Subroutine) (horder : order.Perm cd.subroutines)
    (hspells : tokens.map Token.lexeme = cd.spelling)
    (hspells' : tokens'.map Token.lexeme = (cd.reordered order).spelling)
    (hcompiles : (compileTokens o file lines tokens).fault = none) :
    (compileTokens o file' lines' tokens').fault = none ↔
      (cd.reordered order).QualifiersKnown o.knownClasses o.strict := by
  obtain ⟨cd₀, hspells₀, hobeys, -⟩ :=
    (compileTokens_iff o file lines hvalid).mp ⟨hcompiles, rfl⟩
  obtain rfl : cd = cd₀ := ClassDecl.spelling_injective (hspells.symm.trans hspells₀)
  have hvalid' : ∀ t ∈ tokens', t.lexeme.valid = true := by
    have h := ClassDecl.valid_reordered horder (hspells ▸ valid_lexemes hvalid)
    rw [← hspells'] at h
    exact List.forall_mem_map.mp h
  rw [← ClassDecl.obeys_reordered_iff horder hobeys]
  constructor
  · intro hfault
    obtain ⟨cd', hspells'', hobeys', -⟩ :=
      (compileTokens_iff o file' lines' hvalid').mp ⟨hfault, rfl⟩
    rw [ClassDecl.spelling_injective (hspells'.symm.trans hspells'')]
    exact hobeys'
  · intro hobeys'
    exact ((compileTokens_iff o file' lines' hvalid').mpr ⟨_, hspells', hobeys', rfl⟩).1

/-! ## A class whose order matters -/

/-- Names the class `Foo` as its return type. -/
def maker : Subroutine where
  kind := .function
  returnType := some (.named "Foo")
  name := "make"
  parameters := []
  locals := []
  body := .cons (.yield (some (.mk (.constant .null) .nil))) .nil

/-- Calls a subroutine of the class `Foo`. -/
def caller : Subroutine where
  kind := .function
  returnType := some .int
  name := "size"
  parameters := []
  locals := []
  body := .cons (.yield (some (.mk (.call (.qualified "Foo" "size" .nil)) .nil))) .nil

def factory : ClassDecl where
  name := "Main"
  vars := []
  subroutines := [maker, caller]

theorem factory_obeys (known : List String) : factory.Obeys known true := by
  refine ⟨by decide, by decide, fun earlier s later h => ?_⟩
  have hFoo : (factory.rules known true [maker] caller).Qualifies "Foo" :=
    .inr (.inr (.inl (by decide)))
  rcases earlier with _ | ⟨t, _ | ⟨t', earlier⟩⟩
  · obtain ⟨rfl, -⟩ := List.cons.inj h
    exact ⟨by decide, ⟨⟨trivial, trivial⟩, trivial⟩, by decide⟩
  · injection h with ht h
    injection h with hs
    subst ht hs
    exact ⟨by decide, ⟨⟨⟨hFoo, trivial⟩, trivial⟩, trivial⟩, by decide⟩
  · exact absurd (congrArg List.length h) (by simp [factory])

theorem factory_compiles (known : List String) :
    (compileTokens { knownClasses := known, strict := true } "Main.jack" []
        (tokensAt ⟨"Main.jack", 1, 1⟩ factory.spelling)).fault = none :=
  ((compileTokens_iff { knownClasses := known, strict := true } "Main.jack" [] (by decide)).mpr
    ⟨factory, by decide, factory_obeys known, rfl⟩).1

/-- If `Foo` is known beforehand, the class compiles with its caller in front as well. -/
theorem factory_reordered :
    (compileTokens { knownClasses := ["Foo"], strict := true } "Main.jack" []
        (tokensAt ⟨"Main.jack", 1, 1⟩ (factory.reordered [caller, maker]).spelling)).fault =
      none := by
  refine (compileTokens_reordered { knownClasses := ["Foo"], strict := true } "Main.jack"
    "Main.jack" [] [] (tokensAt ⟨"Main.jack", 1, 1⟩ factory.spelling) _ (by decide) factory
    [caller, maker] (List.Perm.swap _ _ _) (by decide) (by decide)
    (factory_compiles ["Foo"])).mpr ?_
  intro earlier s later h q hq _
  have hqualifiers : ∀ t ∈ [caller, maker], ∀ p ∈ t.body.qualifiers, p ∈ ["Foo"] := by decide
  have hsplit : [caller, maker] = earlier ++ s :: later := h
  exact .inl (hqualifiers s (hsplit ▸ List.mem_append_cons_self) q hq)

/-- If only known classes may qualify calls, the order decides: the class compiles, but not with
its caller in front. -/
theorem factory_needs_order :
    [caller, maker].Perm factory.subroutines ∧
      (compileTokens { strict := true } "Main.jack" []
        (tokensAt ⟨"Main.jack", 1, 1⟩ factory.spelling)).fault = none ∧
      (compileTokens { strict := true } "Main.jack" []
        (tokensAt ⟨"Main.jack", 1, 1⟩ (factory.reordered [caller, maker]).spelling)).fault ≠
          none := by
  refine ⟨List.Perm.swap _ _ _, factory_compiles [], fun hfault => ?_⟩
  obtain ⟨cd, hspells, hobeys, -⟩ :=
    (compileTokens_iff { strict := true } "Main.jack" [] (by decide)).mp ⟨hfault, rfl⟩
  have hspelling : (tokensAt ⟨"Main.jack", 1, 1⟩
      (factory.reordered [caller, maker]).spelling).map Token.lexeme =
        (factory.reordered [caller, maker]).spelling := by decide
  obtain rfl := ClassDecl.spelling_injective (hspelling.symm.trans hspells)
  obtain ⟨⟨⟨hFoo, -⟩, -⟩, -⟩ := (hobeys.bodies [] caller [maker] rfl).body
  have hknown : ¬("Foo" ∈ ([] : List String) ∨ "Foo" = "Main" ∨
      "Foo" ∈ (factory.reordered [caller, maker]).typesBefore [] caller ∨
        (true = false ∧ Text.startsUpper "Foo" = true)) := by
    simp [ClassDecl.typesBefore, ClassDecl.reordered, factory, caller, Subroutine.types,
      TypeName.classes]
  exact hknown hFoo

end Jack.Compile
