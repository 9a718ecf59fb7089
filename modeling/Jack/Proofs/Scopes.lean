import Jack.Proofs.Declarations

/-!
# Scopes as environments

A compilation declares names one after the other; the reference translation numbers the variables
of each kind by their positions. Both agree:

- declaring a list of names succeeds exactly if they are distinct (`defineAll_iff`), and then the
  declarations are the names in order, each with the count of its storage so far (`slotted`);
- the declarations of one storage are therefore numbered from 0 in order (`filter_slotted`);
- so what a name is looked up to is its place among the variables of its kind (`find?_slotted`),
  and the environment of a subroutine is the one that the tree gives (`env_eq`).
-/

namespace Jack

open Syntax

namespace Scope

/-! ## One of the two layers -/

def level (sc : Scope) (classLevel : Bool) : List Declaration :=
  if classLevel then sc.classLevel else sc.subroutine

def setLevel (sc : Scope) (classLevel : Bool) (ds : List Declaration) : Scope :=
  if classLevel then { sc with classLevel := ds } else { sc with subroutine := ds }

@[simp] theorem level_setLevel (sc : Scope) (b : Bool) (ds : List Declaration) :
    (sc.setLevel b ds).level b = ds := by
  cases b <;> rfl

@[simp] theorem setLevel_setLevel (sc : Scope) (b : Bool) (ds es : List Declaration) :
    (sc.setLevel b ds).setLevel b es = sc.setLevel b es := by
  cases b <;> rfl

@[simp] theorem setLevel_level (sc : Scope) (b : Bool) : sc.setLevel b (sc.level b) = sc := by
  cases b <;> rfl

theorem add_eq (sc : Scope) (d : Declaration) :
    sc.add d = sc.setLevel d.storage.isClassLevel
      (sc.level d.storage.isClassLevel ++ [d]) := by
  unfold add
  cases d.storage.isClassLevel <;> rfl

/-! ## Declaring a list of names -/

/-- Declarations with slots, behind some that exist. -/
def slotted (before : List Declaration) : List (String × String × Storage) → List Declaration
  | [] => before
  | (x, type, k) :: ds =>
    slotted (before ++ [⟨x, type, k, before.countP fun d => d.storage == k⟩]) ds

theorem define_eq (sc : Scope) (x type : String) (k : Storage) :
    sc.define x type k =
      if x ∈ (sc.level k.isClassLevel).map Declaration.name then
        .error (.duplicate x k.scopeName)
      else
        .ok (⟨x, type, k, (sc.level k.isClassLevel).countP fun d => d.storage == k⟩,
          sc.setLevel k.isClassLevel (slotted (sc.level k.isClassLevel) [(x, type, k)])) := by
  have hany : ((sc.layer k).any fun d => d.name == x) = true ↔
      x ∈ (sc.level k.isClassLevel).map Declaration.name := by
    simp only [List.any_eq_true, beq_iff_eq, List.mem_map]
    rfl
  simp only [define, hany, add_eq]
  rfl

/-- Names of one layer can be declared exactly if they are distinct. -/
theorem defineAll_iff {b : Bool} {ds : List (String × String × Storage)}
    (hds : ∀ d ∈ ds, d.2.2.isClassLevel = b) {sc sc' : Scope}
    (hsc : ((sc.level b).map Declaration.name).Nodup) :
    sc.defineAll ds = some sc' ↔
      ((sc.level b).map Declaration.name ++ ds.map Prod.fst).Nodup ∧
        sc' = sc.setLevel b (slotted (sc.level b) ds) := by
  induction ds generalizing sc with
  | nil =>
      simp only [defineAll, slotted, List.map_nil, List.append_nil, hsc, true_and, setLevel_level,
        Option.some.injEq]
      exact eq_comm
  | cons d ds ih =>
      obtain ⟨x, type, k⟩ := d
      obtain rfl : k.isClassLevel = b := hds _ (List.mem_cons_self ..)
      rw [defineAll, define_eq]
      by_cases hx : x ∈ (sc.level k.isClassLevel).map Declaration.name
      · rw [if_pos hx]
        simp only [reduceCtorEq, List.map_cons, false_iff, not_and]
        intro hnodup
        exact absurd rfl ((List.nodup_append.mp hnodup).2.2 x hx x (List.mem_cons_self ..))
      · rw [if_neg hx]
        have hnames : (slotted (sc.level k.isClassLevel) [(x, type, k)]).map Declaration.name =
            (sc.level k.isClassLevel).map Declaration.name ++ [x] := by
          simp [slotted]
        have hnodup : ((sc.level k.isClassLevel).map Declaration.name ++ [x]).Nodup := by
          rw [List.nodup_append]
          refine ⟨hsc, by simp, ?_⟩
          rintro y hy z hz rfl
          exact hx (List.mem_singleton.mp hz ▸ hy)
        have hds' : ∀ d ∈ ds, d.2.2.isClassLevel = k.isClassLevel :=
          fun d hd => hds d (List.mem_cons_of_mem _ hd)
        refine (ih hds' (by rw [level_setLevel, hnames]; exact hnodup)).trans ?_
        rw [level_setLevel, setLevel_setLevel, hnames, List.append_assoc]
        rfl

/-! ## Slots -/

/-- The declarations of one storage are numbered in order. -/
theorem filter_slotted (k : Storage) (before : List Declaration)
    (ds : List (String × String × Storage)) :
    (slotted before ds).filter (fun d => d.storage == k) =
      before.filter (fun d => d.storage == k) ++
        ((ds.filter fun d => d.2.2 == k).zipIdx (before.countP fun d => d.storage == k)).map
          fun p => ⟨p.1.1, p.1.2.1, k, p.2⟩ := by
  induction ds generalizing before with
  | nil => simp [slotted]
  | cons d ds ih =>
      obtain ⟨x, type, k'⟩ := d
      rw [slotted, ih]
      by_cases hk : k' = k
      · subst hk
        simp [List.filter_append, List.countP_append]
      · simp [List.filter_append, List.countP_append, hk]

theorem mem_slotted {before : List Declaration} {ds : List (String × String × Storage)}
    {d : Declaration} (h : d ∈ slotted before ds) :
    d ∈ before ∨ (d.name, d.type, d.storage) ∈ ds := by
  induction ds generalizing before with
  | nil => exact .inl h
  | cons e ds ih =>
      rcases ih h with h | h
      · rcases List.mem_append.mp h with h | h
        · exact .inl h
        · rw [List.mem_singleton.mp h]
          exact .inr (List.mem_cons_self ..)
      · exact .inr (List.mem_cons_of_mem _ h)

theorem map_name_slotted (before : List Declaration) (ds : List (String × String × Storage)) :
    (slotted before ds).map Declaration.name =
      before.map Declaration.name ++ ds.map Prod.fst := by
  induction ds generalizing before with
  | nil => simp [slotted]
  | cons d ds ih => simp [slotted, ih]

/-- Among distinct names, a declaration can be sought storage by storage. -/
theorem find?_eq_or {k₁ k₂ : Storage} (hne : k₁ ≠ k₂) {ds : List Declaration}
    (hds : ∀ d ∈ ds, d.storage = k₁ ∨ d.storage = k₂)
    (hnodup : (ds.map Declaration.name).Nodup) (x : String) :
    ds.find? (fun d => d.name == x) =
      ((ds.filter fun d => d.storage == k₁).find? fun d => d.name == x).or
        ((ds.filter fun d => d.storage == k₂).find? fun d => d.name == x) := by
  induction ds with
  | nil => rfl
  | cons d ds ih =>
      rw [List.map_cons, List.nodup_cons] at hnodup
      have ih := ih (fun e he => hds e (List.mem_cons_of_mem _ he)) hnodup.2
      by_cases hx : d.name = x
      · have hfirst : (ds.filter fun d => d.storage == k₁).find? (fun d => d.name == x) = none := by
          rw [List.find?_eq_none]
          intro e he hex
          rw [beq_iff_eq] at hex
          exact hnodup.1 (List.mem_map.mpr ⟨e, (List.mem_filter.mp he).1, hex.trans hx.symm⟩)
        rcases hds d (List.mem_cons_self ..) with hk | hk
        · simp [hx, hk]
        · simp [hx, hk, hne.symm, hfirst]
      · rcases hds d (List.mem_cons_self ..) with hk | hk
        · simp [hx, hk, hne, ih]
        · simp [hx, hk, hne.symm, ih]

end Scope

/-! ## Places -/

/-- What a variable declares in a storage. -/
def Syntax.Variable.declared (k : Storage) (v : Variable) : String × String × Storage :=
  (v.name, v.type.text, k)

theorem filter_declared (k : Storage) (vars : List Variable) :
    (vars.map (Variable.declared k)).filter (fun d => d.2.2 == k) =
      vars.map (Variable.declared k) := by
  rw [List.filter_eq_self]
  intro d hd
  obtain ⟨v, -, rfl⟩ := List.mem_map.mp hd
  exact beq_self_eq_true k

theorem filter_declared_of_ne {k k' : Storage} (h : k ≠ k') (vars : List Variable) :
    (vars.map (Variable.declared k)).filter (fun d => d.2.2 == k') = [] := by
  rw [List.filter_eq_nil_iff]
  intro d hd
  obtain ⟨v, -, rfl⟩ := List.mem_map.mp hd
  simpa [Variable.declared] using h

open Scope

/-- The declarations of one storage, in order. -/
def numbered (k : Storage) (vars : List Variable) : List Declaration :=
  vars.zipIdx.map fun p => ⟨p.1.name, p.1.type.text, k, p.2⟩

theorem filter_slotted_eq {k : Storage} {ds : List (String × String × Storage)}
    {vars : List Variable}
    (h : ds.filter (fun d => d.2.2 == k) = vars.map (Variable.declared k)) :
    (slotted [] ds).filter (fun d => d.storage == k) = numbered k vars := by
  rw [filter_slotted, h, List.zipIdx_map, List.map_map]
  rfl

theorem count_slotted {k : Storage} {ds : List (String × String × Storage)}
    {vars : List Variable}
    (h : ds.filter (fun d => d.2.2 == k) = vars.map (Variable.declared k)) :
    (slotted [] ds).countP (fun d => d.storage == k) = vars.length := by
  rw [List.countP_eq_length_filter, filter_slotted_eq h]
  simp [numbered]

theorem find?_numbered (k : Storage) (vars : List Variable) (x : String) :
    ((numbered k vars).find? fun d => d.name == x).map Declaration.binding =
      place k.segment vars x := by
  rw [numbered, List.find?_map, Option.map_map]
  rfl

/-- A name is looked up to its place among the variables of its kind. -/
theorem find?_slotted {k₁ k₂ : Storage} (hne : k₁ ≠ k₂)
    {ds : List (String × String × Storage)} {vars₁ vars₂ : List Variable}
    (h₁ : ds.filter (fun d => d.2.2 == k₁) = vars₁.map (Variable.declared k₁))
    (h₂ : ds.filter (fun d => d.2.2 == k₂) = vars₂.map (Variable.declared k₂))
    (hds : ∀ d ∈ ds, d.2.2 = k₁ ∨ d.2.2 = k₂) (hnodup : (ds.map Prod.fst).Nodup) (x : String) :
    ((slotted [] ds).find? fun d => d.name == x).map Declaration.binding =
      (place k₁.segment vars₁ x).or (place k₂.segment vars₂ x) := by
  have hstorage : ∀ d ∈ slotted [] ds, d.storage = k₁ ∨ d.storage = k₂ := by
    intro d hd
    rcases mem_slotted hd with h | h
    · exact (List.not_mem_nil h).elim
    · exact hds _ h
  have hnames : ((slotted [] ds).map Declaration.name).Nodup := by
    rw [map_name_slotted]
    exact hnodup
  rw [find?_eq_or hne hstorage hnames, filter_slotted_eq h₁, filter_slotted_eq h₂,
    ← find?_numbered, ← find?_numbered]
  cases (numbered k₁ vars₁).find? fun d => d.name == x <;> rfl

/-! ## The declarations of a class and of a subroutine -/

theorem declared_eq (k : Storage) (d : VarDec) :
    Compile.declared k d = d.vars.map (Variable.declared k) := by
  rw [Compile.declared, VarDec.vars, List.map_map]
  rfl

namespace Syntax

def ClassDecl.declarations (c : ClassDecl) : List (String × String × Storage) :=
  c.vars.flatMap fun d => Compile.declared d.kind.storage d.dec

theorem ClassDecl.map_fst_declarations (c : ClassDecl) :
    c.declarations.map Prod.fst = c.variableNames := by
  simp only [declarations, variableNames, List.map_flatMap, declared_eq, List.map_map]
  rfl

theorem ClassDecl.filter_declarations (c : ClassDecl) (k : ClassVarKind) :
    c.declarations.filter (fun d => d.2.2 == k.storage) =
      (c.ofKind k).map (Variable.declared k.storage) := by
  unfold declarations ofKind
  induction c.vars with
  | nil => rfl
  | cons d ds ih =>
      rw [List.flatMap_cons, List.filter_append, ih, List.filter_cons, declared_eq]
      by_cases hk : d.kind = k
      · rw [if_pos (by simpa using hk), hk, filter_declared, List.flatMap_cons, List.map_append]
      · have hne : d.kind.storage ≠ k.storage := by
          intro h
          apply hk
          cases hd : d.kind <;> cases k <;> simp_all [ClassVarKind.storage]
        rw [if_neg (by simpa using hk), filter_declared_of_ne hne, List.nil_append]

theorem ClassDecl.storage_of_mem {c : ClassDecl} {d : String × String × Storage}
    (h : d ∈ c.declarations) : d.2.2 = .static ∨ d.2.2 = .field := by
  obtain ⟨e, -, hd⟩ := List.mem_flatMap.mp h
  rw [declared_eq] at hd
  obtain ⟨v, -, rfl⟩ := List.mem_map.mp hd
  cases hk : e.kind
  · exact .inl (by simp [Variable.declared, ClassVarKind.storage])
  · exact .inr (by simp [Variable.declared, ClassVarKind.storage])

def Subroutine.declarations (c : ClassDecl) (s : Subroutine) : List (String × String × Storage) :=
  (s.arguments c).map (Variable.declared .argument) ++
    s.localVariables.map (Variable.declared .localVar)

theorem Subroutine.map_fst_declarations (c : ClassDecl) (s : Subroutine) :
    (s.declarations c).map Prod.fst = (s.arguments c ++ s.localVariables).map Variable.name := by
  simp only [declarations, List.map_append, List.map_map]
  rfl

theorem Subroutine.filter_arguments (c : ClassDecl) (s : Subroutine) :
    (s.declarations c).filter (fun d => d.2.2 == .argument) =
      (s.arguments c).map (Variable.declared .argument) := by
  rw [declarations, List.filter_append, filter_declared,
    filter_declared_of_ne (by decide), List.append_nil]

theorem Subroutine.filter_locals (c : ClassDecl) (s : Subroutine) :
    (s.declarations c).filter (fun d => d.2.2 == .localVar) =
      s.localVariables.map (Variable.declared .localVar) := by
  rw [declarations, List.filter_append, filter_declared,
    filter_declared_of_ne (by decide), List.nil_append]

theorem Subroutine.storage_of_mem {c : ClassDecl} {s : Subroutine}
    {d : String × String × Storage} (h : d ∈ s.declarations c) :
    d.2.2 = .argument ∨ d.2.2 = .localVar := by
  rcases List.mem_append.mp h with h | h
  · obtain ⟨v, -, rfl⟩ := List.mem_map.mp h
    exact .inl rfl
  · obtain ⟨v, -, rfl⟩ := List.mem_map.mp h
    exact .inr rfl

end Syntax

namespace Compile

/-- The scope in which the statements of a subroutine are compiled. -/
def scopeOf (c : ClassDecl) (s : Subroutine) : Scope where
  classLevel := slotted [] c.declarations
  subroutine := slotted [] (s.declarations c)

theorem count_fields (c : ClassDecl) (s : Subroutine) :
    (scopeOf c s).count .field = c.fields.length :=
  count_slotted (c.filter_declarations .field)

theorem count_locals (c : ClassDecl) (s : Subroutine) :
    (scopeOf c s).count .localVar = s.localVariables.length :=
  count_slotted (s.filter_locals c)

theorem lookup_scopeOf {c : ClassDecl} {s : Subroutine} (hclass : c.variableNames.Nodup)
    (hsub : ((s.arguments c ++ s.localVariables).map Variable.name).Nodup) (x : String) :
    ((scopeOf c s).lookup x).map Declaration.binding = (s.env c).resolve x := by
  have hor : ∀ o p : Option Declaration, (o.or p).map Declaration.binding =
      (o.map Declaration.binding).or (p.map Declaration.binding) := by
    intro o p
    cases o <;> rfl
  have hinner := find?_slotted (by decide) (s.filter_arguments c) (s.filter_locals c)
    (fun _ => Subroutine.storage_of_mem) (by rw [s.map_fst_declarations c]; exact hsub) x
  have houter := find?_slotted (by decide) (c.filter_declarations .static)
    (c.filter_declarations .field) (fun _ => ClassDecl.storage_of_mem)
    (by rw [c.map_fst_declarations]; exact hclass) x
  rw [Scope.lookup, hor]
  exact (congrArg (Option.or · _) hinner).trans (congrArg (Option.or _) houter)

/-- Nothing but the receiver of a method is called `this`. -/
theorem lookup_this {c : ClassDecl} {s : Subroutine} (hclass : "this" ∉ c.variableNames)
    (hsub : "this" ∉ (s.parameters ++ s.localVariables).map Variable.name) :
    (scopeOf c s).lookup "this" =
      if s.kind = .method then some ⟨"this", c.name, .argument, 0⟩ else none := by
  have hnone : ∀ ds : List (String × String × Storage), "this" ∉ ds.map Prod.fst →
      (slotted [] ds).find? (fun d => d.name == "this") = none := by
    intro ds hds
    rw [List.find?_eq_none]
    intro d hd hname
    rw [beq_iff_eq] at hname
    rcases mem_slotted hd with h | h
    · exact List.not_mem_nil h
    · exact hds (List.mem_map.mpr ⟨_, h, hname⟩)
  rw [Scope.lookup]
  by_cases hk : s.kind = .method
  · have hfirst : ∀ ds es, ∃ fs, slotted (⟨"this", c.name, .argument, 0⟩ :: ds) es =
        ⟨"this", c.name, .argument, 0⟩ :: fs := by
      intro ds es
      induction es generalizing ds with
      | nil => exact ⟨ds, rfl⟩
      | cons e es ih => exact ih _
    have hargs : s.arguments c = ⟨.named c.name, "this"⟩ :: s.parameters := if_pos hk
    obtain ⟨fs, hfs⟩ := hfirst [] (s.parameters.map (Variable.declared .argument) ++
      s.localVariables.map (Variable.declared .localVar))
    have hslots : (scopeOf c s).subroutine = ⟨"this", c.name, .argument, 0⟩ :: fs := by
      rw [← hfs, scopeOf, Subroutine.declarations, hargs]
      rfl
    rw [hslots, if_pos hk]
    rfl
  · have hargs : s.arguments c = s.parameters := if_neg hk
    have hsub : "this" ∉ (s.declarations c).map Prod.fst := by
      rw [s.map_fst_declarations c, hargs]
      exact hsub
    rw [if_neg hk, scopeOf, hnone _ hsub, hnone _ (by rw [c.map_fst_declarations]; exact hclass)]
    rfl

/-- Inside a subroutine, names mean what the tree says. -/
theorem env_eq {c : ClassDecl} {s : Subroutine} {v : View} (hname : v.className = c.name)
    (hkind : v.kind = some s.kind) (hscope : v.scope = scopeOf c s)
    (hclass : c.variableNames.Nodup)
    (hsub : ((s.arguments c ++ s.localVariables).map Variable.name).Nodup)
    (hthis : "this" ∉ c.variableNames)
    (hthis' : "this" ∉ (s.parameters ++ s.localVariables).map Variable.name) :
    v.env = s.env c := by
  have hresolve : v.env.resolve = (s.env c).resolve := by
    funext x
    rw [← lookup_scopeOf hclass hsub, ← hscope]
    rfl
  have hself : v.env.self = (s.env c).self := by
    simp only [View.env, hscope, lookup_this hthis hthis', hkind, Subroutine.env]
    cases s.kind <;> rfl
  have hfunction : v.env.inFunction = (s.env c).inFunction := by
    simp only [View.env, hkind, Subroutine.env, Option.some.injEq]
  calc v.env = ⟨v.className, v.env.inFunction, v.env.self, v.env.resolve⟩ := rfl
    _ = ⟨c.name, (s.env c).inFunction, (s.env c).self, (s.env c).resolve⟩ := by
      rw [hname, hfunction, hself, hresolve]
    _ = s.env c := rfl

theorem header_scopeOf {c : ClassDecl} {s : Subroutine} {v : View} (hname : v.className = c.name)
    (hkind : v.kind = some s.kind) (hsub : v.subroutineName = s.name)
    (hscope : v.scope = scopeOf c s) : v.header = s.header c :: s.prologue c := by
  rw [View.header, Subroutine.header, hname, hsub, hscope, count_locals, View.prologue, hkind,
    Subroutine.prologue, hscope, count_fields]
  cases s.kind <;> rfl

end Compile

end Jack
