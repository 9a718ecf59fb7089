import Jack.Proofs.Writable
import Jack.Source
import Mathlib.Algebra.GroupWithZero.Nat

/-!
# Acceptance and translation

A compilation succeeds exactly if its tokens spell a class that obeys the static rules, and then
its code is the reference translation of that class.

The proof follows the class from its head to its last subroutine. `Reached` says what a view holds
between two subroutines, in terms of the tree alone; `subroutineMeans_iff` takes it past one
subroutine, in both directions, and `subroutinesMean_iff` past all of them by induction on the
list. What remains is the frame of the class and the check of the unqualified calls.

One of the rules is no rule of the language: a numeral may have so many digits only, zeros in front
included. A class that breaks no other rule stands at the end.
-/

namespace Jack.Compile

open Syntax Scope

variable {c : Setting} {cd : ClassDecl} {known : List String} {v v' : View}

/-! ## Transitions as equations -/

theorem Reads.iff_eq {l : List Lexeme} {i : List Instruction} {n : Nat} {f : List String} :
    Reads v l i n f v' ↔ ∃ ls, v.rest = l ++ ls ∧ Writable i ∧
      v' = { v with
        rest := ls
        code := v.code ++ i
        labels := v.labels + n
        calls := v.calls ++ f } := by
  constructor
  · intro h
    exact ⟨v'.rest, h.rest, h.writable, h.result⟩
  · intro h
    rcases h with ⟨ls, hrest, hwritable, rfl⟩
    exact ⟨hrest, hwritable, rfl⟩

theorem Declares.iff_eq {l : List Lexeme} {d : List (String × String × Storage)}
    {f : List String} :
    Declares v l d f v' ↔ ∃ ls sc, v.rest = l ++ ls ∧ v.scope.defineAll d = some sc ∧
      v' = { v with rest := ls, scope := sc, known := f.reverse ++ v.known } := by
  constructor
  · intro h
    exact ⟨v'.rest, v'.scope, h.rest, h.scope, h.result⟩
  · intro h
    rcases h with ⟨ls, sc, hrest, hscope, rfl⟩
    exact ⟨hrest, hscope, rfl⟩

/-! ## One subroutine -/

/-- The view in front of the statements of a subroutine. -/
def View.inside (v : View) (cd : ClassDecl) (s : Subroutine) (ls : List Lexeme) : View :=
  { v with
    rest := ls
    kind := some s.kind
    subroutineName := s.name
    subroutines := v.subroutines ++ [(s.name, s.kind)]
    scope := scopeOf cd s
    known := s.types.reverse ++ v.known }

/-- The view behind a subroutine. -/
def View.after (v : View) (cd : ClassDecl) (s : Subroutine) (ls : List Lexeme) : View :=
  { v.inside cd s ls with
    labels := v.labels + s.body.labels
    calls := v.calls ++ s.body.calls
    code := v.code ++ s.code cd v.labels }

/-- What a view holds behind the subroutines `earlier`. -/
structure Reached (cd : ClassDecl) (known : List String) (earlier : List Subroutine) (v : View) :
    Prop where
  className : v.className = cd.name
  labels : v.labels = (earlier.map fun s => s.body.labels).sum
  subroutines : v.subroutines = earlier.map fun s => (s.name, s.kind)
  calls : v.calls = earlier.flatMap fun s => s.body.calls
  classLevel : v.scope.classLevel = slotted [] cd.declarations
  known : v.known = (cd.vars.flatMap (fun d => d.dec.type.classes) ++
    earlier.flatMap Subroutine.types).reverse ++ cd.name :: known
  code : v.code = subroutinesCode cd 0 earlier

theorem subroutinesCode_append (cd : ClassDecl) (n : Nat) (ss later : List Subroutine) :
    subroutinesCode cd n (ss ++ later) = subroutinesCode cd n ss ++
      subroutinesCode cd (n + (ss.map fun s => s.body.labels).sum) later := by
  induction ss generalizing n with
  | nil => simp [subroutinesCode]
  | cons t ss ih => simp [subroutinesCode, ih, Nat.add_assoc]

theorem Reached.after {earlier : List Subroutine} (h : Reached cd known earlier v)
    (s : Subroutine) (ls : List Lexeme) :
    Reached cd known (earlier ++ [s]) (v.after cd s ls) where
  className := h.className
  labels := by simp [View.after, h.labels]
  subroutines := by simp [View.after, View.inside, h.subroutines]
  calls := by simp [View.after, h.calls]
  classLevel := rfl
  known := by simp [View.after, View.inside, h.known]
  code := by simp [View.after, h.code, h.labels, subroutinesCode_append, subroutinesCode]

/-- The declarations of a subroutine succeed exactly if their names are distinct. -/
theorem defineAll_begin_iff {s : Subroutine} (hname : v.className = cd.name)
    (hclass : v.scope.classLevel = slotted [] cd.declarations) {sc : Scope} :
    (v.begin s.kind s.name).scope.defineAll
        (s.parameters.map declaredParameter ++ s.locals.flatMap (declared .localVar)) = some sc ↔
      ((s.arguments cd ++ s.localVariables).map Variable.name).Nodup ∧ sc = scopeOf cd s := by
  have hlocals : s.locals.flatMap (declared .localVar) =
      s.localVariables.map (Variable.declared .localVar) := by
    rw [Subroutine.localVariables, List.map_flatMap]
    simp only [← declared_eq]
  have hlevel : ∀ d ∈ s.parameters.map (Variable.declared .argument) ++
      s.localVariables.map (Variable.declared .localVar), d.2.2.isClassLevel = false := by
    intro d hd
    rcases List.mem_append.mp hd with hd | hd
    · obtain ⟨p, -, rfl⟩ := List.mem_map.mp hd
      rfl
    · obtain ⟨p, -, rfl⟩ := List.mem_map.mp hd
      rfl
  have hparameters : s.parameters.map declaredParameter =
      s.parameters.map (Variable.declared .argument) := rfl
  have hnames : (s.parameters.map (Variable.declared .argument) ++
      s.localVariables.map (Variable.declared .localVar)).map Prod.fst =
        (s.parameters ++ s.localVariables).map Variable.name := by
    simp only [List.map_append, List.map_map]
    rfl
  rw [hparameters, hlocals]
  by_cases hk : s.kind = .method
  · have hargs : s.arguments cd = ⟨.named cd.name, "this"⟩ :: s.parameters := if_pos hk
    have hscope : (v.begin s.kind s.name).scope =
        ⟨slotted [] cd.declarations, [⟨"this", cd.name, .argument, 0⟩]⟩ := by
      simp only [View.begin, if_pos hk, hname, ← hclass]
      rfl
    rw [hscope, defineAll_iff hlevel (by simp [level]), hnames, scopeOf, Subroutine.declarations,
      hargs]
    rfl
  · have hargs : s.arguments cd = s.parameters := if_neg hk
    have hscope : (v.begin s.kind s.name).scope = ⟨slotted [] cd.declarations, []⟩ := by
      simp only [View.begin, if_neg hk, ← hclass]
      rfl
    rw [hscope, defineAll_iff hlevel (by simp [level]), hnames, scopeOf, Subroutine.declarations,
      hargs]
    rfl

/-- The receiver never clashes with a declared name. -/
theorem nodup_arguments (cd : ClassDecl) {s : Subroutine} (h : Valid s.spelling) :
    ((s.arguments cd ++ s.localVariables).map Variable.name).Nodup ↔
      ((s.parameters ++ s.localVariables).map Variable.name).Nodup := by
  unfold Subroutine.arguments
  split
  · rw [List.cons_append, List.map_cons, List.nodup_cons]
    exact ⟨fun h' => h'.2, fun h' => ⟨Subroutine.this_notMem h, h'⟩⟩
  · rfl

theorem rules_eq {earlier : List Subroutine} {s : Subroutine} (henv : v.env = s.env cd)
    (hknown : v.known = (cd.typesBefore earlier s).reverse ++ cd.name :: known) :
    v.rules c = cd.rules known c.strict earlier s := by
  have hclass : (v.rules c).isClass = (cd.rules known c.strict earlier s).isClass := by
    funext q
    simp only [View.rules, ClassDecl.rules, hknown, List.mem_append, List.mem_reverse,
      List.mem_cons, eq_iff_iff]
    constructor
    · intro h
      rcases h with (h | h | h) | h
      · exact .inr (.inr (.inl h))
      · exact .inr (.inl h)
      · exact .inl h
      · exact .inr (.inr (.inr h))
    · intro h
      rcases h with h | h | h | h
      · exact .inl (.inr (.inr h))
      · exact .inl (.inr (.inl h))
      · exact .inl (.inl h)
      · exact .inr h
  calc v.rules c = { env := v.env, isClass := (v.rules c).isClass } := rfl
    _ = { env := s.env cd, isClass := (cd.rules known c.strict earlier s).isClass } := by
      rw [henv, hclass]
    _ = cd.rules known c.strict earlier s := rfl

theorem types_eq (s : Subroutine) :
    s.types = s.returnType.toList.flatMap TypeName.classes ++
      (s.parameters.flatMap (·.type.classes) ++ s.locals.flatMap (·.type.classes)) := by
  simp [Subroutine.types, List.flatMap_append, List.flatMap_map]

theorem lookup_eq_none_iff {ss : List Subroutine} {x : String} :
    (ss.map fun s => (s.name, s.kind)).lookup x = none ↔ x ∉ ss.map Subroutine.name := by
  rw [List.lookup_eq_none_iff, List.mem_map]
  simp only [List.forall_mem_map, bne_iff_ne, ne_eq, not_exists, not_and]
  exact ⟨fun h s hs hx => h s hs hx.symm, fun h s hs hx => h s hs hx.symm⟩

theorem lookup_eq_some_iff {ss : List Subroutine} (hnodup : (ss.map Subroutine.name).Nodup)
    {x : String} {k : SubroutineKind} :
    (ss.map fun s => (s.name, s.kind)).lookup x = some k ↔
      ∃ m ∈ ss, m.name = x ∧ m.kind = k := by
  induction ss with
  | nil => simp
  | cons s ss ih =>
      rw [List.map_cons, List.nodup_cons] at hnodup
      rw [List.map_cons, List.lookup_cons]
      by_cases hx : x = s.name
      · simp only [hx, beq_self_eq_true, Option.some.injEq]
        constructor
        · intro hk
          exact ⟨s, List.mem_cons_self .., rfl, hk⟩
        · intro h
          rcases h with ⟨m, hm, hname, hk⟩
          rcases List.mem_cons.mp hm with rfl | hm
          · exact hk
          · exact absurd (List.mem_map.mpr ⟨m, hm, hname⟩) hnodup.1
      · have hne : (x == s.name) = false := by simpa using hx
        simp only [hne, ih hnodup.2, List.mem_cons]
        constructor
        · intro h
          rcases h with ⟨m, hm, h⟩
          exact ⟨m, .inr hm, h⟩
        · intro h
          rcases h with ⟨m, rfl | hm, hname, hk⟩
          · exact absurd hname.symm hx
          · exact ⟨m, hm, hname, hk⟩

/-- The rules that are checked while a subroutine is read. -/
structure Admits (c : Setting) (cd : ClassDecl) (known : List String)
    (earlier : List Subroutine) (s : Subroutine) : Prop where
  fresh : s.name ∉ earlier.map Subroutine.name
  distinct : ((s.parameters ++ s.localVariables).map Variable.name).Nodup
  body : s.body.Obeys (cd.rules known c.strict earlier s)

/-- Everything in front of the statements. -/
def signature (s : Subroutine) : List Lexeme :=
  .word s.kind.name :: returnLexeme s.returnType :: .name s.name ::
    (.word "(" :: parametersSpelling s.parameters ++
      .word ")" :: .word Goal.openBrace :: localsSpelling s.locals)

theorem signature_iff {s : Subroutine} (hspelling : Valid s.spelling) {earlier : List Subroutine}
    (hv : Reached cd known earlier v) :
    (∃ v₁ ls, Declares v [.word s.kind.name, returnLexeme s.returnType] []
        (s.returnType.toList.flatMap TypeName.classes) v₁ ∧
      v₁.rest = .name s.name :: ls ∧ v₁.subroutines.lookup s.name = none ∧
      Declares ((v₁.at ls).begin s.kind s.name)
        (.word "(" :: parametersSpelling s.parameters ++
          .word ")" :: .word Goal.openBrace :: localsSpelling s.locals)
        (s.parameters.map declaredParameter ++ s.locals.flatMap (declared .localVar))
        (s.parameters.flatMap (·.type.classes) ++ s.locals.flatMap (·.type.classes)) v') ↔
    ∃ ls, v.rest = signature s ++ ls ∧ s.name ∉ earlier.map Subroutine.name ∧
      ((s.parameters ++ s.localVariables).map Variable.name).Nodup ∧
      v' = v.inside cd s ls := by
  have hknown : s.types.reverse ++ v.known =
      (s.parameters.flatMap (·.type.classes) ++ s.locals.flatMap (·.type.classes)).reverse ++
        ((s.returnType.toList.flatMap TypeName.classes).reverse ++ v.known) := by
    simp [types_eq]
  rw [← lookup_eq_none_iff, ← hv.subroutines, ← nodup_arguments cd hspelling]
  constructor
  · intro h
    rcases h with ⟨v₁, ls₂, htype, hx, hfresh, hdecl⟩
    obtain ⟨ls₀, hrest₀, htype⟩ := Declares.cons_iff.mp htype
    obtain ⟨ls₁, hrest₁, htype⟩ := Declares.cons_iff.mp htype
    obtain rfl := Declares.known_iff.mp htype
    obtain ⟨ls, sc, hrest₂, hscope, rfl⟩ := Declares.iff_eq.mp hdecl
    obtain ⟨hdistinct, rfl⟩ := (defineAll_begin_iff hv.className hv.classLevel).mp hscope
    have hrest₁ : ls₀ = _ := hrest₁
    have hx : ls₁ = _ := hx
    have hrest₂ : ls₂ = _ := hrest₂
    refine ⟨ls, ?_, hfresh, hdistinct, ?_⟩
    · rw [hrest₀, hrest₁, hx, hrest₂]
      rfl
    · rw [View.inside, hknown]
      rfl
  · intro h
    rcases h with ⟨ls, hrest, hfresh, hdistinct, rfl⟩
    refine ⟨_, _, Declares.cons_iff.mpr ⟨_, hrest, Declares.cons_iff.mpr ⟨_, rfl,
      Declares.known_iff.mpr rfl⟩⟩, rfl, hfresh, Declares.iff_eq.mpr ⟨ls, scopeOf cd s, rfl,
        (defineAll_begin_iff hv.className hv.classLevel).mpr ⟨hdistinct, rfl⟩, ?_⟩⟩
    rw [View.inside, hknown]
    rfl

theorem subroutineMeans_iff (hvalid : Valid cd.spelling) (hnodup : cd.variableNames.Nodup)
    {earlier : List Subroutine} (hv : Reached cd known earlier v) {s : Subroutine}
    (hs : s ∈ cd.subroutines) :
    SubroutineMeans c v s v' ↔
      ∃ ls, v.rest = s.spelling ++ ls ∧ Admits c cd known earlier s ∧ v' = v.after cd s ls := by
  have hspelling := cd.valid_subroutine hvalid hs
  have hspells : s.spelling =
      signature s ++ (s.body.spelling ++ [Lexeme.word Goal.closeBrace]) := by
    simp [Subroutine.spelling, signature]
  -- In front of the statements, names and rules are those of the tree.
  have henv : ∀ ls, ((s.parameters ++ s.localVariables).map Variable.name).Nodup →
      (v.inside cd s ls).env = s.env cd := by
    intro ls hdistinct
    exact env_eq hv.className rfl rfl hnodup ((nodup_arguments cd hspelling).mpr hdistinct)
      (cd.this_notMem hvalid) (Subroutine.this_notMem hspelling)
  have hrules : ∀ ls, ((s.parameters ++ s.localVariables).map Variable.name).Nodup →
      (v.inside cd s ls).rules c = cd.rules known c.strict earlier s := by
    intro ls hdistinct
    refine rules_eq (henv ls hdistinct) ?_
    simp [View.inside, hv.known, ClassDecl.typesBefore]
  have hheader : ∀ ls, (v.inside cd s ls).header = s.header cd :: s.prologue cd :=
    fun ls => header_scopeOf hv.className rfl rfl rfl
  constructor
  · intro h
    rcases h with ⟨v₁, v₂, ls₁, htype, hx, hfresh, hdecl, hbody, hread⟩
    obtain ⟨ls₂, hrest, hfresh, hdistinct, rfl⟩ :=
      (signature_iff hspelling hv).mp ⟨v₁, ls₁, htype, hx, hfresh, hdecl⟩
    rw [hrules ls₂ hdistinct] at hbody
    rw [henv ls₂ hdistinct, hheader] at hread
    obtain ⟨ls, hrest₂, -, rfl⟩ := Reads.iff_eq.mp hread
    have hrest₂ : ls₂ = _ := hrest₂
    refine ⟨ls, ?_, ⟨hfresh, hdistinct, hbody⟩, rfl⟩
    rw [hrest, hrest₂, hspells]
    exact (List.append_assoc ..).symm
  · intro h
    rcases h with ⟨ls, hrest, ⟨hfresh, hdistinct, hbody⟩, rfl⟩
    rw [hspells, List.append_assoc] at hrest
    obtain ⟨v₁, ls₁, htype, hx, hfresh, hdecl⟩ :=
      (signature_iff hspelling hv).mpr ⟨_, hrest, hfresh, hdistinct, rfl⟩
    refine ⟨v₁, _, ls₁, htype, hx, hfresh, hdecl, ?_, ?_⟩
    · rw [hrules _ hdistinct]
      exact hbody
    · rw [henv _ hdistinct, hheader]
      exact Reads.iff_eq.mpr ⟨ls, rfl, Subroutine.writable hvalid hs v.labels, rfl⟩

/-! ## All subroutines -/

/-- The rules hold for each subroutine behind those before it. -/
def AdmitsAll (c : Setting) (cd : ClassDecl) (known : List String) (earlier ss : List Subroutine) :
    Prop :=
  ∀ before s after, ss = before ++ s :: after → Admits c cd known (earlier ++ before) s

theorem admitsAll_nil (earlier : List Subroutine) : AdmitsAll c cd known earlier [] := by
  intro before s after h
  cases before <;> cases h

theorem admitsAll_cons {earlier ss : List Subroutine} {s : Subroutine} :
    AdmitsAll c cd known earlier (s :: ss) ↔
      Admits c cd known earlier s ∧ AdmitsAll c cd known (earlier ++ [s]) ss := by
  constructor
  · intro h
    refine ⟨by simpa using h [] s ss rfl, fun before t after hss => ?_⟩
    have ht := h (s :: before) t after (by rw [hss, List.cons_append])
    simpa using ht
  · rintro ⟨hs, hss⟩ before t after h
    cases before with
    | nil =>
        obtain ⟨rfl, rfl⟩ := List.cons.inj h
        simpa using hs
    | cons u before =>
        obtain ⟨rfl, hafter⟩ := List.cons.inj h
        have ht := hss before t after hafter
        simpa using ht

theorem SubroutineMeans.rest {s : Subroutine} (h : SubroutineMeans c v s v') :
    v.rest = s.spelling ++ v'.rest := by
  obtain ⟨v₁, v₂, ls, htype, hx, -, hdecl, -, hread⟩ := h
  have hls : ls = _ := hdecl.rest
  rw [htype.rest, hx, hls, hread.rest]
  simp [Subroutine.spelling]

theorem SubroutinesMean.rest {ss : List Subroutine} (h : SubroutinesMean c v ss v') :
    v.rest = ss.flatMap Subroutine.spelling ++ v'.rest := by
  induction ss generalizing v with
  | nil =>
      obtain rfl : v' = v := h
      rfl
  | cons s ss ih =>
      obtain ⟨u, hs, hss⟩ := h
      rw [hs.rest, ih hss, List.flatMap_cons, List.append_assoc]

/-- Reading subroutines checks the rules of each and translates them all. -/
theorem SubroutinesMean.reached (hvalid : Valid cd.spelling) (hnodup : cd.variableNames.Nodup)
    {earlier ss : List Subroutine} (hss : ∀ s ∈ ss, s ∈ cd.subroutines)
    (hv : Reached cd known earlier v) (h : SubroutinesMean c v ss v') :
    AdmitsAll c cd known earlier ss ∧ Reached cd known (earlier ++ ss) v' := by
  induction ss generalizing v earlier with
  | nil =>
      obtain rfl : v' = v := h
      exact ⟨admitsAll_nil earlier, by simpa using hv⟩
  | cons s ss ih =>
      obtain ⟨u, hs, h⟩ := h
      obtain ⟨ls, -, hadmits, rfl⟩ := (subroutineMeans_iff hvalid hnodup hv
        (hss s (List.mem_cons_self ..))).mp hs
      obtain ⟨hadmitsAll, hreached⟩ := ih (fun t ht => hss t (List.mem_cons_of_mem _ ht))
        (hv.after s ls) h
      exact ⟨admitsAll_cons.mpr ⟨hadmits, hadmitsAll⟩, by simpa using hreached⟩

/-- Subroutines that obey their rules are read to their end. -/
theorem exists_subroutinesMean (hvalid : Valid cd.spelling) (hnodup : cd.variableNames.Nodup)
    {earlier ss : List Subroutine} (hss : ∀ s ∈ ss, s ∈ cd.subroutines)
    (hv : Reached cd known earlier v) {ls : List Lexeme}
    (hrest : v.rest = ss.flatMap Subroutine.spelling ++ ls)
    (hadmits : AdmitsAll c cd known earlier ss) :
    ∃ v', SubroutinesMean c v ss v' ∧ v'.rest = ls := by
  induction ss generalizing v earlier with
  | nil => exact ⟨v, rfl, hrest⟩
  | cons s ss ih =>
      rw [List.flatMap_cons, List.append_assoc] at hrest
      obtain ⟨hs, hadmits⟩ := admitsAll_cons.mp hadmits
      have hmeans := (subroutineMeans_iff hvalid hnodup hv
        (hss s (List.mem_cons_self ..))).mpr ⟨_, hrest, hs, rfl⟩
      obtain ⟨v', hmeans', hrest'⟩ := ih (fun t ht => hss t (List.mem_cons_of_mem _ ht))
        (hv.after s _) rfl hadmits
      exact ⟨v', ⟨_, hmeans, hmeans'⟩, hrest'⟩

/-! ## The class -/

/-- The view at the first token. -/
def View.start (known : List String) (ls : List Lexeme) : View where
  rest := ls
  className := ""
  kind := none
  subroutineName := ""
  labels := 0
  subroutines := []
  calls := []
  scope := {}
  known := known
  code := []

/-- The view in front of the first subroutine. -/
def View.behindVariables (cd : ClassDecl) (known : List String) (ls : List Lexeme) : View :=
  { View.start known ls with
    className := cd.name
    scope := ⟨slotted [] cd.declarations, []⟩
    known := (cd.vars.flatMap fun d => d.dec.type.classes).reverse ++ cd.name :: known }

theorem reached_nil (cd : ClassDecl) (known : List String) (ls : List Lexeme) :
    Reached cd known [] (View.behindVariables cd known ls) where
  className := rfl
  labels := rfl
  subroutines := rfl
  calls := rfl
  classLevel := rfl
  known := by simp [View.behindVariables]
  code := rfl

/-- The frame of a class around its subroutines. -/
theorem meansAll_wholeClass {ls : List Lexeme} :
    MeansAll c Goal.wholeClass (View.start known ls) v' ↔
      ∃ (cd : ClassDecl) (u : View) (ks : List Lexeme),
        ls = .word "class" :: .name cd.name :: .word Goal.openBrace ::
          (cd.vars.flatMap ClassVarDec.spelling ++ ks) ∧
        cd.variableNames.Nodup ∧
        SubroutinesMean c (View.behindVariables cd known ks) cd.subroutines u ∧
        u.rest = [.word Goal.closeBrace] ∧
        (∀ f ∈ u.calls, u.subroutines.lookup f = some .method) ∧ v' = u.at [] := by
  have hlevel : ∀ cd : ClassDecl, ∀ d ∈ cd.declarations, d.2.2.isClassLevel = true := by
    intro cd d hd
    rcases ClassDecl.storage_of_mem hd with h | h <;> rw [h] <;> rfl
  have hdefine : ∀ (cd : ClassDecl) (sc : Scope), ({} : Scope).defineAll cd.declarations = some sc ↔
      cd.variableNames.Nodup ∧ sc = ⟨slotted [] cd.declarations, []⟩ := by
    intro cd sc
    rw [defineAll_iff (hlevel cd) (by simp [level])]
    simp only [level, if_true, List.map_nil, List.nil_append, cd.map_fst_declarations]
    rfl
  simp only [Goal.wholeClass, meansAll_cons, meansAll_nil, Means, exists_eq_left,
    exists_eq_right']
  constructor
  · intro h
    rcases h with ⟨_, hclass, _, ⟨x, ls₁, hname, rfl⟩, _, hopen, _, ⟨ds, hds, -⟩, u, ⟨ss, hss, -⟩,
      _, hclose, _, ⟨hend, rfl⟩, hcalls, rfl⟩
    obtain ⟨ls₀, hrest₀, hread₀⟩ := Reads.cons_iff.mp hclass
    obtain rfl := Reads.nil_iff.mp hread₀
    obtain ⟨ls₂, hrest₁, hread₁⟩ := Reads.cons_iff.mp hopen
    obtain rfl := Reads.nil_iff.mp hread₁
    obtain ⟨ks, sc, hrest₂, hscope, rfl⟩ := Declares.iff_eq.mp hds
    obtain ⟨ls₃, hrest₃, hread₃⟩ := Reads.cons_iff.mp hclose
    obtain rfl := Reads.nil_iff.mp hread₃
    obtain ⟨hnodup, rfl⟩ := (hdefine ⟨x, ds, ss⟩ sc).mp hscope
    have hname : ls₀ = _ := hname
    have hrest₁ : ls₁ = _ := hrest₁
    have hrest₂ : ls₂ = _ := hrest₂
    obtain rfl : ls₃ = [] := hend
    refine ⟨⟨x, ds, ss⟩, u, ks, ?_, hnodup, hss, hrest₃, hcalls, rfl⟩
    rw [← hrest₂, ← hrest₁, ← hname]
    exact hrest₀
  · intro h
    rcases h with ⟨⟨x, ds, ss⟩, u, ks, rfl, hnodup, hss, hclose, hcalls, rfl⟩
    refine ⟨_, Reads.word rfl, _, ⟨x, _, rfl, rfl⟩, _, Reads.word rfl, _, ⟨ds,
      Declares.iff_eq.mpr ⟨ks, _, rfl, (hdefine ⟨x, ds, ss⟩ _).mpr ⟨hnodup, rfl⟩, rfl⟩, ?_⟩, u,
      ⟨ss, hss, ?_⟩, _, Reads.word hclose, _, ⟨rfl, rfl⟩, hcalls, rfl⟩
    · have hks : ks = _ := hss.rest
      show Stops ["static", "field"] ks
      rw [hks, hclose]
      cases ss with
      | nil => exact stops_word (by decide) _
      | cons s ss =>
          have hkind : s.kind.name ∉ ["static", "field"] := by cases s.kind <;> decide
          exact stops_word hkind _
    · rw [hclose]
      exact stops_word (by decide) _

theorem nodup_map_iff {α : Type} (f : α → String) (l : List α) :
    (l.map f).Nodup ↔ ∀ before x after, l = before ++ x :: after → f x ∉ before.map f := by
  constructor
  · rintro h before x after rfl hx
    rw [List.map_append, List.nodup_append] at h
    exact h.2.2 _ hx _ (List.mem_cons_self ..) rfl
  · intro h
    induction l with
    | nil => exact List.nodup_nil
    | cons y l ih =>
        rw [List.map_cons, List.nodup_cons]
        constructor
        · intro hy
          obtain ⟨x, hx, hxy⟩ := List.mem_map.mp hy
          obtain ⟨before, after, rfl⟩ := List.append_of_mem hx
          exact h (y :: before) x after rfl (hxy ▸ List.mem_cons_self ..)
        · refine ih fun before x after hl hx => ?_
          exact h (y :: before) x after (by rw [hl, List.cons_append])
            (List.mem_cons_of_mem _ hx)

/-- The static rules, in the order in which a compilation checks them. -/
theorem obeys_iff :
    cd.Obeys known c.strict ↔
      cd.variableNames.Nodup ∧ AdmitsAll c cd known [] cd.subroutines ∧
        ∀ f ∈ cd.subroutines.flatMap fun s => s.body.calls,
          (cd.subroutines.map fun s => (s.name, s.kind)).lookup f = some .method := by
  constructor
  · intro h
    rcases h with ⟨hvariables, hsubroutines, hbodies⟩
    refine ⟨hvariables, fun before s after hss => ?_, fun f hf => ?_⟩
    · have hs := hbodies before s after hss
      exact ⟨(nodup_map_iff _ _).mp hsubroutines before s after hss, hs.distinct, hs.body⟩
    · obtain ⟨s, hs, hf⟩ := List.mem_flatMap.mp hf
      obtain ⟨before, after, hss⟩ := List.append_of_mem hs
      exact (lookup_eq_some_iff hsubroutines).mpr ((hbodies before s after hss).calls f hf)
  · intro h
    rcases h with ⟨hvariables, hadmits, hcalls⟩
    have hsubroutines : (cd.subroutines.map Subroutine.name).Nodup :=
      (nodup_map_iff _ _).mpr fun before s after hss => (hadmits before s after hss).fresh
    refine ⟨hvariables, hsubroutines, fun before s after hss => ?_⟩
    have hs := hadmits before s after hss
    refine ⟨hs.distinct, hs.body, fun f hf => ?_⟩
    have hmem : s ∈ cd.subroutines := by
      rw [hss]
      exact List.mem_append_right _ (List.mem_cons_self ..)
    exact (lookup_eq_some_iff hsubroutines).mp (hcalls f (List.mem_flatMap.mpr ⟨s, hmem, hf⟩))

/-- A class that is read to its end obeys the rules, and its subroutines have all been reached. -/
theorem MeansAll.reached {ls : List Lexeme} (hls : Valid ls)
    (h : MeansAll c Goal.wholeClass (View.start known ls) v') :
    ∃ cd : ClassDecl, ls = cd.spelling ∧ cd.Obeys known c.strict ∧
      Reached cd known cd.subroutines v' := by
  obtain ⟨cd, u, ks, hspells, hnodup, hss, hclose, hcalls, rfl⟩ := meansAll_wholeClass.mp h
  have hks : ks = _ := hss.rest
  have hspelling : ls = cd.spelling := by
    rw [hspells, hks, hclose]
    simp [ClassDecl.spelling]
  obtain ⟨hadmits, hreached⟩ := hss.reached (hspelling ▸ hls) hnodup (fun s hs => hs)
    (reached_nil cd known ks)
  rw [hreached.calls, hreached.subroutines, List.nil_append] at hcalls
  exact ⟨cd, hspelling, obeys_iff.mpr ⟨hnodup, hadmits, hcalls⟩, ⟨hreached.className,
    hreached.labels, hreached.subroutines, hreached.calls, hreached.classLevel, hreached.known,
    hreached.code⟩⟩

/-- What a whole class means: a tree that obeys the rules, and its translation. -/
theorem meansAll_wholeClass_iff {ls : List Lexeme} (hls : Valid ls) {code : List Instruction} :
    (∃ v', MeansAll c Goal.wholeClass (View.start known ls) v' ∧ v'.code = code) ↔
      ∃ cd : ClassDecl, ls = cd.spelling ∧ cd.Obeys known c.strict ∧ code = cd.code := by
  constructor
  · intro h
    rcases h with ⟨v', hmeans, rfl⟩
    obtain ⟨cd, hspelling, hobeys, hreached⟩ := hmeans.reached hls
    exact ⟨cd, hspelling, hobeys, hreached.code⟩
  · intro h
    rcases h with ⟨cd, rfl, hobeys, rfl⟩
    obtain ⟨hnodup, hadmits, hcalls⟩ := obeys_iff.mp hobeys
    have hreached := reached_nil cd known
      (cd.subroutines.flatMap Subroutine.spelling ++ [Lexeme.word Goal.closeBrace])
    obtain ⟨u, hss, hclose⟩ :=
      exists_subroutinesMean hls hnodup (fun s hs => hs) hreached rfl hadmits
    obtain ⟨-, hreached⟩ := hss.reached hls hnodup (fun s hs => hs) hreached
    refine ⟨u.at [], meansAll_wholeClass.mpr ⟨cd, u, _, ?_, hnodup, hss, hclose, ?_, rfl⟩,
      hreached.code⟩
    · simp [ClassDecl.spelling]
    · rw [hreached.calls, hreached.subroutines]
      exact hcalls

/-! ## Compiling a list of tokens -/

theorem valid_lexemes {tokens : List Token} (h : ∀ t ∈ tokens, t.lexeme.valid = true) :
    Valid (tokens.map Token.lexeme) :=
  List.forall_mem_map.mpr h

theorem compileTokens_iff (o : Options) (file : String) (lines : List String)
    {tokens : List Token} (hvalid : ∀ t ∈ tokens, t.lexeme.valid = true)
    {code : List Instruction} :
    ((compileTokens o file lines tokens).fault = none ∧
        (compileTokens o file lines tokens).state.code = code) ↔
      ∃ cd : ClassDecl, tokens.map Token.lexeme = cd.spelling ∧
        cd.Obeys o.knownClasses o.strict ∧ code = cd.code := by
  let setting : Setting := { Token.Setting.ofTokens file lines tokens with strict := o.strict }
  let start : State :=
    { rest := tokens, known := o.knownClasses, recorded := if o.listTree then some [] else none }
  have hsound : start.Sound := ⟨hvalid, Int.le_refl 0⟩
  have hview : start.view = View.start o.knownClasses (tokens.map Token.lexeme) := rfl
  rw [← meansAll_wholeClass_iff (c := setting) (valid_lexemes hvalid), ← hview]
  simp only [← run_iff Goal.wholeClass start hsound]
  constructor
  · intro h
    rcases h with ⟨hfault, hcode⟩
    refine ⟨_, ⟨(compileTokens o file lines tokens).state, ?_, rfl⟩, hcode⟩
    exact congrArg (Outcome.mk (compileTokens o file lines tokens).state) hfault
  · intro h
    rcases h with ⟨v', ⟨s', hrun, rfl⟩, hcode⟩
    have hcompile : compileTokens o file lines tokens = ⟨s', none⟩ := hrun
    rw [hcompile]
    exact ⟨rfl, hcode⟩

theorem compileSource_iff {o : Options} {source file : String} {code : List Instruction} :
    (∃ compiled, (compileSource o source file).result = .ok compiled ∧ compiled.code = code) ↔
      (Token.scan source file).fault = none ∧
        ∃ cd : ClassDecl, (Token.scan source file).tokens.map Token.lexeme = cd.spelling ∧
          cd.Obeys o.allKnown o.strict ∧ code = cd.code := by
  rw [← compileTokens_iff { o with knownClasses := o.allKnown } file (Text.linesOf source)
    (Token.scan_valid source file)]
  unfold compileSource
  dsimp only
  split
  · next hscan => simp [hscan]
  · next hscan =>
      split
      · next hfault => simp [hfault]
      · next hfault => simp [hscan, hfault]

/-- Tokens that spell a class which obeys the static rules compile to its translation. -/
theorem compileTokens_translates (o : Options) (file : String) (lines : List String)
    (tokens : List Token) (hvalid : ∀ t ∈ tokens, t.lexeme.valid = true) (cd : ClassDecl)
    (hspells : tokens.map Token.lexeme = cd.spelling)
    (hobeys : cd.Obeys o.knownClasses o.strict) :
    (compileTokens o file lines tokens).fault = none ∧
      (compileTokens o file lines tokens).state.code = cd.code :=
  (compileTokens_iff o file lines hvalid).mpr ⟨cd, hspells, hobeys, rfl⟩

/-- A list of tokens is accepted exactly if it spells a class that obeys the static rules. -/
theorem compileTokens_accepts_iff (o : Options) (file : String) (lines : List String)
    (tokens : List Token) (hvalid : ∀ t ∈ tokens, t.lexeme.valid = true) :
    (compileTokens o file lines tokens).fault = none ↔
      ∃ cd : ClassDecl, tokens.map Token.lexeme = cd.spelling ∧
        cd.Obeys o.knownClasses o.strict := by
  constructor
  · intro hfault
    obtain ⟨cd, hspells, hobeys, -⟩ := (compileTokens_iff o file lines hvalid).mp ⟨hfault, rfl⟩
    exact ⟨cd, hspells, hobeys⟩
  · intro h
    rcases h with ⟨cd, hspells, hobeys⟩
    exact ((compileTokens_iff o file lines hvalid).mpr ⟨cd, hspells, hobeys, rfl⟩).1

/-! ## A class that compiles -/

/-- Raises a counter by the argument, if the argument is smaller. -/
def bump : Subroutine where
  kind := .method
  returnType := none
  name := "bump"
  parameters := [⟨.int, "by"⟩]
  locals := []
  body :=
    .cons (.conditional (.mk (.var "by") (.cons .less (.var "n") .nil))
      (.cons (.assign "n" (.mk (.var "n") (.cons .plus (.var "by") .nil))) .nil) .absent)
    (.cons (.yield none) .nil)

def counter : ClassDecl where
  name := "Counter"
  vars := [⟨.field, ⟨.int, "n", []⟩⟩]
  subroutines := [bump]

/-- Tokens that spell a list of lexemes, all at one place. -/
def tokensAt (l : Location) (ls : List Lexeme) : List Token :=
  ls.map fun x => ⟨x.kind, x.text, l⟩

theorem lexemes_tokensAt (l : Location) (ls : List Lexeme) :
    (tokensAt l ls).map Token.lexeme = ls := by
  rw [tokensAt, List.map_map]
  exact List.map_id ls

theorem valid_tokensAt {l : Location} {ls : List Lexeme} (h : Valid ls) :
    ∀ t ∈ tokensAt l ls, t.lexeme.valid = true :=
  List.forall_mem_map.mpr h

theorem counter_obeys (known : List String) : counter.Obeys known true := by
  refine ⟨by decide, by decide, fun earlier s later h => ?_⟩
  cases earlier with
  | cons t earlier => exact absurd (List.cons.inj h).2 (by simp)
  | nil =>
      obtain ⟨rfl, -⟩ := List.cons.inj h
      have hmethod : ¬(bump.env counter).inFunction = true := by decide
      have hby : (bump.env counter).resolve "by" = some ⟨"int", .argument, 1⟩ := by decide
      have hn : (bump.env counter).resolve "n" = some ⟨"int", .this, 0⟩ := by decide
      have hby : (counter.rules known true [] bump).Accessible "by" :=
        ⟨_, hby, fun h => hmethod h.1⟩
      have hn : (counter.rules known true [] bump).Accessible "n" :=
        ⟨_, hn, fun h => hmethod h.1⟩
      exact ⟨by decide, ⟨⟨⟨hby, hn, trivial⟩, ⟨⟨hn, hn, hby, trivial⟩, trivial⟩, trivial⟩, trivial,
        trivial⟩, by decide⟩

theorem counter_translates :
    (compileTokens { strict := true } "Counter.jack" []
        (tokensAt ⟨"Counter.jack", 1, 1⟩ counter.spelling)).state.code = counter.code :=
  (compileTokens_translates { strict := true } "Counter.jack" []
    (tokensAt ⟨"Counter.jack", 1, 1⟩ counter.spelling) (by decide) counter (by decide)
    (counter_obeys [])).2

theorem counter_accepted :
    (compileTokens { strict := true } "Counter.jack" []
        (tokensAt ⟨"Counter.jack", 1, 1⟩ counter.spelling)).fault = none :=
  (compileTokens_accepts_iff { strict := true } "Counter.jack" []
    (tokensAt ⟨"Counter.jack", 1, 1⟩ counter.spelling) (by decide)).mpr
    ⟨counter, by decide, counter_obeys []⟩

/-! ## A numeral with too many digits -/

/-- A class with one function, which returns an integer. -/
def returning (digits : String) : ClassDecl where
  name := "A"
  vars := []
  subroutines := [{
    kind := .function
    returnType := some .int
    name := "f"
    parameters := []
    locals := []
    body := .cons (.yield (some (.mk (.integer digits) .nil))) .nil }]

theorem returning_spelling (digits : String) :
    (returning digits).spelling =
      [.word "class", .name "A", .word Goal.openBrace, .word "function", .word "int", .name "f",
        .word "(", .word ")", .word Goal.openBrace, .word "return"] ++
      ⟨.integer, digits⟩ :: [.word ";", .word Goal.closeBrace, .word Goal.closeBrace] :=
  rfl

theorem returning_valid {digits : String} (h : Lexeme.valid ⟨.integer, digits⟩ = true) :
    ∀ l ∈ (returning digits).spelling, l.valid = true := by
  rw [returning_spelling]
  exact List.forall_mem_append.mpr ⟨by decide, List.forall_mem_cons.mpr ⟨h, by decide⟩⟩

theorem returning_obeys {digits : String} {limit : Option Nat}
    (hwithin : Text.beyond limit digits.length = false)
    (hmax : numeralValue digits ≤ largestInteger)
    (known : List String) (strict : Bool) : (returning digits).Obeys known strict limit where
  vars := List.nodup_nil
  subroutines := List.pairwise_singleton ..
  bodies earlier s later h := by
    cases earlier with
    | nil =>
        obtain ⟨rfl, -⟩ := List.cons.inj h
        exact ⟨List.nodup_nil, ⟨⟨⟨hwithin, hmax⟩, trivial⟩, trivial⟩, fun f hf => by cases hf⟩
    | cons t earlier => exact absurd (List.cons.inj h).2 (by simp)

/-- The numeral stops the compilation, whatever its value. -/
theorem compileTokens_returning (o : Options) (file : String) (lines : List String)
    {digits : String} (hvalid : Lexeme.valid ⟨.integer, digits⟩ = true)
    (hlong : Text.maxDigits < digits.length) (l : Location) :
    (compileTokens o file lines (tokensAt l (returning digits).spelling)).fault =
      some (.misread digits (.tooLong digits.length)) := by
  have htokens : tokensAt l (returning digits).spelling =
      [⟨.keyword, "class", l⟩, ⟨.identifier, "A", l⟩, ⟨.symbol, Goal.openBrace, l⟩,
        ⟨.keyword, "function", l⟩, ⟨.keyword, "int", l⟩, ⟨.identifier, "f", l⟩, ⟨.symbol, "(", l⟩,
        ⟨.symbol, ")", l⟩, ⟨.symbol, Goal.openBrace, l⟩, ⟨.keyword, "return", l⟩,
        ⟨.integer, digits, l⟩, ⟨.symbol, ";", l⟩, ⟨.symbol, Goal.closeBrace, l⟩,
        ⟨.symbol, Goal.closeBrace, l⟩] := rfl
  have hclass : isLineName "A" = true := by decide
  have hname : isLineName "f" = true := by decide
  have hheader := fun n => fault?_function (n := n).mpr (isLineName_qualified hclass hname)
  unfold compileTokens
  rw [htokens]
  repeat refine (congrArg Outcome.fault (run_cons_ok _ rfl)).trans ?_
  refine (congrArg Outcome.fault (run_cons_ok _ (step_emit (hheader _)))).trans ?_
  repeat refine (congrArg Outcome.fault (run_cons_ok _ rfl)).trans ?_
  refine congrArg Outcome.fault (run_cons_error _ ?_)
  simp only [step, Setting.integer, readInteger_of_long hvalid hlong]

/-- The numeral with one digit in all places. -/
def repdigit (d : Char) (places : Nat) : String := String.ofList (List.replicate places d)

@[simp] theorem length_repdigit (d : Char) (places : Nat) :
    (repdigit d places).length = places := by
  simp [repdigit]

theorem digits_repdigit {d : Char} (hd : d.isDigit = true) (places : Nat) :
    (repdigit d places).toList.all Char.isDigit = true := by
  simp [repdigit, hd]

theorem valid_repdigit {d : Char} (hd : d.isDigit = true) {places : Nat} (h : 0 < places) :
    Lexeme.valid ⟨.integer, repdigit d places⟩ = true := by
  have hne : (repdigit d places).toList ≠ [] := by simp [repdigit, Nat.ne_of_gt h]
  simp [Lexeme.valid, digits_repdigit hd, hne]

theorem numeralValue_zeros (places : Nat) : numeralValue (repdigit '0' places) = 0 := by
  rw [numeralValue, repdigit, String.toList_ofList]
  induction places with
  | zero => rfl
  | succ places ih => exact ih

/-- Zero is an integer of the machine, however it is spelled. -/
theorem zeros_obeys (places : Nat) (known : List String) (strict : Bool) :
    (returning (repdigit '0' places)).Obeys known strict none := by
  refine returning_obeys rfl ?_ known strict
  rw [numeralValue_zeros]
  exact Nat.zero_le _

/-- Many times the same digit stops the compilation, even if it is zero. -/
theorem compileTokens_repdigit (o : Options) (file : String) (lines : List String) {d : Char}
    (hd : d.isDigit = true) {places : Nat} (hlong : Text.maxDigits < places) (l : Location) :
    (compileTokens o file lines (tokensAt l (returning (repdigit d places)).spelling)).fault =
      some (.misread (repdigit d places) (.tooLong places)) := by
  have hvalid := valid_repdigit hd (Nat.zero_lt_of_lt hlong)
  have hfault :=
    compileTokens_returning o file lines hvalid ((length_repdigit d places).symm ▸ hlong) l
  rwa [length_repdigit] at hfault

/-- A class that the language allows, with zero in it in so many digits, is not translated. -/
theorem zeros_not_translated :
    let tokens := tokensAt ⟨"A.jack", 1, 1⟩ (returning (repdigit '0' 4301)).spelling
    (∀ t ∈ tokens, t.lexeme.valid = true) ∧
      tokens.map Token.lexeme = (returning (repdigit '0' 4301)).spelling ∧
      (returning (repdigit '0' 4301)).Obeys [] false none ∧
      (compileTokens {} "A.jack" [] tokens).fault =
        some (.misread (repdigit '0' 4301) (.tooLong 4301)) :=
  ⟨valid_tokensAt (returning_valid (valid_repdigit (by decide) (by decide))),
    lexemes_tokensAt .., zeros_obeys ..,
    compileTokens_repdigit {} "A.jack" [] (by decide) (by decide) _⟩

/-- The rules of the language alone do not tell which lists of tokens are accepted. -/
theorem zeros_refused :
    ¬∀ tokens : List Token, (∀ t ∈ tokens, t.lexeme.valid = true) →
      ((compileTokens {} "A.jack" [] tokens).fault = none ↔
        ∃ cd : ClassDecl, tokens.map Token.lexeme = cd.spelling ∧ cd.Obeys [] false none) := by
  intro h
  let tokens := tokensAt ⟨"A.jack", 1, 1⟩ (returning (repdigit '0' 4301)).spelling
  have hvalid : ∀ t ∈ tokens, t.lexeme.valid = true :=
    valid_tokensAt (returning_valid (valid_repdigit (by decide) (by decide)))
  have haccepted := (h tokens hvalid).mpr ⟨_, lexemes_tokensAt .., zeros_obeys ..⟩
  have hfault : (compileTokens {} "A.jack" [] tokens).fault =
      some (.misread (repdigit '0' 4301) (.tooLong 4301)) :=
    compileTokens_repdigit {} "A.jack" [] (by decide) (by decide) _
  cases haccepted.symm.trans hfault

end Jack.Compile
