import Jack.Proofs.Statements

/-!
# Steps on declarations

For every goal that belongs to a class or to a declaration in it, a step leads exactly to what the
goal means. Together with `Expressions` and `Statements` this covers all goals (`leads_iff`), so
a compilation succeeds exactly with what its goals mean (`run_iff`).
-/

namespace Jack.Compile

open Syntax

variable {c : Setting} {s : State} {v v' : View}

/-! ## Types -/

/-- A type is expected: one of some keywords, or a name, which is then known as a class. -/
theorem leads_onType {g : Goal} {expected w : String} {ws : List String}
    {next : String → List Goal} {P : String → View → Prop}
    (hws : ∀ x ∈ w :: ws, Token.keywords.contains x = true)
    (h : step c s g = c.expect s expected (Goal.onType (w :: ws) next))
    (hP : ∀ x v, MeansAll c (next x) v v' ↔ P x v) :
    Leads c s g v' ↔
      (∃ x ∈ w :: ws, ∃ ls, s.view.rest = .word x :: ls ∧ P x (s.view.at ls)) ∨
      (∃ x ls, s.view.rest = .name x :: ls ∧
        P x { s.view.at ls with known := x :: s.view.known }) := by
  have hnote : ∀ x v, MeansAll c (.noteClass x :: next x) v v' ↔
      P x { v with known := x :: v.known } := by
    intro x v
    simp only [meansAll_cons, Means, Declares.known_iff, exists_eq_left, hP, List.reverse_singleton,
      List.singleton_append]
  rw [leads_expect h]
  constructor
  · intro h
    rcases h with ⟨t, ts, gs, hts, hsel, hmeans⟩
    have hrest : s.view.rest = t.lexeme :: ts.map Token.lexeme := by
      rw [view_rest, hts, List.map_cons]
    unfold Goal.onType at hsel
    split at hsel
    · next hkeyword =>
        obtain rfl := Option.some.inj hsel
        obtain ⟨x, hmem, hx⟩ := (isKeyword_iff hws).mp hkeyword
        rw [hx] at hrest
        rw [show t.text = x from congrArg Lexeme.text hx] at hmeans
        exact .inl ⟨x, hmem, _, hrest, (hP x _).mp hmeans⟩
    · split at hsel
      · next hid =>
          obtain rfl := Option.some.inj hsel
          rw [isIdentifier_iff.mp hid] at hrest
          exact .inr ⟨t.text, _, hrest, (hnote _ _).mp hmeans⟩
      · cases hsel
  · intro h
    rcases h with ⟨x, hmem, ls, hrest, hx⟩ | ⟨x, ls, hrest, hx⟩
    · rw [view_rest] at hrest
      obtain ⟨t, ts, hts, ht, rfl⟩ := List.map_eq_cons_iff.mp hrest
      obtain rfl : t.text = x := congrArg Lexeme.text ht
      have hkeyword := (isKeyword_iff hws).mpr ⟨t.text, hmem, ht⟩
      exact ⟨t, ts, next t.text, hts, by rw [Goal.onType, if_pos hkeyword], (hP _ _).mpr hx⟩
    · rw [view_rest] at hrest
      obtain ⟨t, ts, hts, ht, rfl⟩ := List.map_eq_cons_iff.mp hrest
      obtain rfl : t.text = x := congrArg Lexeme.text ht
      have hkeyword : ¬t.isKeyword (w :: ws) = true := by
        intro hkeyword
        obtain ⟨x, -, hx⟩ := (isKeyword_iff hws).mp hkeyword
        exact name_ne_word _ _ (ht.symm.trans hx)
      refine ⟨t, ts, .noteClass t.text :: next t.text, hts, ?_, (hnote _ _).mpr hx⟩
      rw [Goal.onType, if_neg hkeyword, if_pos (isIdentifier_iff.mpr ht)]

theorem declares_lexeme {l : Lexeme} {f : List String} :
    Declares v [l] [] f v' ↔
      ∃ ls, v.rest = l :: ls ∧ v' = { v.at ls with known := f.reverse ++ v.known } := by
  simp only [Declares.cons_iff, Declares.known_iff]
  rfl

/-- A type is a keyword or a name. -/
theorem declares_type {P : String → View → Prop} :
    ((∃ x ∈ Token.primitiveTypes, ∃ ls, v.rest = .word x :: ls ∧ P x (v.at ls)) ∨
      (∃ x ls, v.rest = .name x :: ls ∧ P x { v.at ls with known := x :: v.known })) ↔
    ∃ (t : TypeName) (u : View), Declares v [t.lexeme] [] t.classes u ∧ P t.text u := by
  simp only [declares_lexeme]
  constructor
  · intro h
    rcases h with ⟨x, hx, ls, hrest, h⟩ | ⟨x, ls, hrest, h⟩
    · simp only [Token.primitiveTypes, List.mem_cons, List.not_mem_nil, or_false] at hx
      rcases hx with rfl | rfl | rfl
      · exact ⟨.int, _, ⟨ls, hrest, rfl⟩, h⟩
      · exact ⟨.char, _, ⟨ls, hrest, rfl⟩, h⟩
      · exact ⟨.boolean, _, ⟨ls, hrest, rfl⟩, h⟩
    · exact ⟨.named x, _, ⟨ls, hrest, rfl⟩, h⟩
  · intro h
    rcases h with ⟨t, u, ⟨ls, hrest, rfl⟩, h⟩
    cases t with
    | int => exact .inl ⟨"int", by decide, ls, hrest, h⟩
    | char => exact .inl ⟨"char", by decide, ls, hrest, h⟩
    | boolean => exact .inl ⟨"boolean", by decide, ls, hrest, h⟩
    | named x => exact .inr ⟨x, ls, hrest, h⟩

theorem leads_typeName {g : Goal} {expected : String} {next : String → List Goal}
    {P : String → View → Prop}
    (h : step c s g = c.expect s expected (Goal.onType Token.primitiveTypes next))
    (hP : ∀ x v, MeansAll c (next x) v v' ↔ P x v) :
    Leads c s g v' ↔
      ∃ (t : TypeName) (u : View), Declares s.view [t.lexeme] [] t.classes u ∧ P t.text u :=
  (leads_onType (by decide) h hP).trans declares_type

theorem leads_returnType :
    Leads c s .returnType v' ↔ Means c .returnType s.view v' := by
  rw [leads_onType (P := fun _ v => v' = v) (by decide) rfl (fun _ _ => Iff.rfl)]
  constructor
  · intro h
    rcases h with ⟨x, hx, ls, hrest, rfl⟩ | h
    · by_cases hvoid : x = "void"
      · subst hvoid
        exact ⟨none, declares_lexeme.mpr ⟨ls, hrest, rfl⟩⟩
      · have hprim : x ∈ Token.primitiveTypes := by
          rcases List.mem_append.mp (show x ∈ Token.primitiveTypes ++ ["void"] from hx) with h | h
          · exact h
          · exact absurd (List.mem_singleton.mp h) hvoid
        obtain ⟨t, u, hread, rfl⟩ := declares_type (P := fun _ v => s.view.at ls = v).mp
          (.inl ⟨x, hprim, ls, hrest, rfl⟩)
        exact ⟨some t, by simpa [returnLexeme] using hread⟩
    · obtain ⟨t, u, hread, rfl⟩ := declares_type (P := fun _ v => v' = v).mp (.inr h)
      exact ⟨some t, by simpa [returnLexeme] using hread⟩
  · intro h
    rcases h with ⟨t, hread⟩
    cases t with
    | none =>
        obtain ⟨ls, hrest, rfl⟩ := declares_lexeme.mp hread
        exact .inl ⟨"void", by decide, ls, hrest, rfl⟩
    | some t =>
        have hread : Declares s.view [t.lexeme] [] t.classes v' := by
          simpa [returnLexeme] using hread
        rcases declares_type (P := fun _ v => v' = v).mpr ⟨t, v', hread, rfl⟩ with h | h
        · obtain ⟨x, hx, h⟩ := h
          exact .inl ⟨x, List.mem_append_left ["void"] hx, h⟩
        · exact .inr h

/-! ## Names -/

theorem leads_className : Leads c s .className v' ↔ Means c .className s.view v' := by
  rw [leads_onName rfl (P := fun x v => v' = { v with known := x :: v.known, className := x })
    (fun t v => by simp only [meansAll_cons, meansAll_nil, Means, exists_eq_left])]
  rfl

theorem leads_nameClass (x : String) :
    Leads c s (.nameClass x) v' ↔ Means c (.nameClass x) s.view v' := by
  rw [leads_ok rfl]
  rfl

theorem leads_noteClass (x : String) :
    Leads c s (.noteClass x) v' ↔ Means c (.noteClass x) s.view v' := by
  rw [leads_ok rfl]
  simp only [Means, Declares.known_iff]
  rfl

theorem leads_declare (name : Token) (type : String) (k : Storage) :
    Leads c s (.declare name type k) v' ↔ Means c (.declare name type k) s.view v' := by
  simp only [Means, Declares.define_iff]
  have hscope : s.view.scope = s.scope := rfl
  rw [hscope]
  cases hdefine : s.scope.define name.text type k with
  | error p =>
      have hstep : step c s (.declare name type k) = .error (c.fault p name none) := by
        simp only [step, Setting.declare, hdefine]
      simp [not_leads hstep]
  | ok r =>
      obtain ⟨d, sc⟩ := r
      have hstep : step c s (.declare name type k) = .ok ([], { s with scope := sc }) := by
        simp only [step, Setting.declare, hdefine]
      rw [leads_ok hstep]
      simp only [Except.ok.injEq, Prod.mk.injEq, meansAll_nil]
      constructor
      · intro heq
        subst heq
        exact ⟨d, sc, ⟨rfl, rfl⟩, rfl⟩
      · intro h
        rcases h with ⟨d, sc, ⟨rfl, rfl⟩, rfl⟩
        rfl

theorem leads_varName (what : String) (k : Storage) (type : String) :
    Leads c s (.varName what k type) v' ↔ Means c (.varName what k type) s.view v' := by
  rw [leads_onName rfl (P := fun x v => Declares v [] [(x, type, k)] [] v')
    (fun t v => by simp only [meansAll_cons, meansAll_nil, Means, exists_eq_right'])]
  simp only [Means, Declares.cons_iff]

/-- A name and the names behind it. -/
theorem meansAll_names (k : Storage) (type : String) :
    MeansAll c (Goal.names k type) v v' ↔
      ∃ x xs, Declares v (.name x :: Syntax.moreNames xs) ((x :: xs).map (·, type, k)) [] v' ∧
        Stops [","] v'.rest := by
  simp only [Goal.names, meansAll_cons, meansAll_nil, Means, exists_eq_right']
  constructor
  · intro h
    rcases h with ⟨u, ⟨x, hx⟩, xs, hxs, hstops⟩
    exact ⟨x, xs, hx.append hxs, hstops⟩
  · intro h
    rcases h with ⟨x, xs, hread, hstops⟩
    obtain ⟨u, hx, hxs⟩ := Declares.split (l := [_]) (d := [_]) (f := []) hread
    exact ⟨u, ⟨x, hx⟩, xs, hxs, hstops⟩

theorem leads_moreNames (hs : s.Sound) (k : Storage) (type : String) :
    Leads c s (.moreNames k type) v' ↔ Means c (.moreNames k type) s.view v' := by
  rw [leads_ok rfl, meansAll_chooseWord hs]
  simp only [meansAll_names, meansAll_nil, Means]
  constructor
  · intro h
    rcases h with ⟨ls, hrest, x, xs, hread, hstops⟩ | ⟨hstops, rfl⟩
    · exact ⟨x :: xs, Declares.cons_iff.mpr ⟨ls, hrest, hread⟩, hstops⟩
    · exact ⟨[], .refl _, hstops⟩
  · intro h
    rcases h with ⟨xs, hread, hstops⟩
    cases xs with
    | nil =>
        obtain rfl := Declares.known_iff.mp hread
        exact .inr ⟨hstops, rfl⟩
    | cons x xs =>
        obtain ⟨ls, hrest, hread⟩ := Declares.cons_iff.mp hread
        exact .inl ⟨ls, hrest, x, xs, hread, hstops⟩

theorem leads_varType (k : Storage) :
    Leads c s (.varType k) v' ↔ Means c (.varType k) s.view v' := by
  rw [leads_typeName rfl (fun _ _ => meansAll_names k _)]
  constructor
  · intro h
    rcases h with ⟨t, u, htype, x, xs, hread, hstops⟩
    exact ⟨⟨t, x, xs⟩, by simpa [VarDec.phrase, declared] using htype.append hread, hstops⟩
  · intro h
    rcases h with ⟨⟨t, x, xs⟩, hread, hstops⟩
    obtain ⟨u, htype, hread⟩ := Declares.split (l := [t.lexeme]) (k := .name x :: moreNames xs)
      (d := []) (f := t.classes) (g := []) (by simpa [VarDec.phrase] using hread)
    exact ⟨t, u, htype, x, xs, hread, hstops⟩

/-! ## Variable declarations -/

theorem meansAll_varDec (k : Storage) (e : Element) (g : Goal) :
    MeansAll c [.varType k, .word ";", .leave e, g] v v' ↔
      ∃ (d : VarDec) (u : View), Declares v d.spelling (declared k d) d.type.classes u ∧
        Means c g u v' := by
  simp only [meansAll_cons, meansAll_nil, Means, exists_eq_left, exists_eq_right',
    reads_iff_declares]
  constructor
  · intro h
    rcases h with ⟨u, ⟨d, hread, -⟩, w, hend, hg⟩
    exact ⟨d, w, by simpa [VarDec.spelling] using hread.append hend, hg⟩
  · intro h
    rcases h with ⟨d, w, hread, hg⟩
    obtain ⟨u, hread, hend⟩ := Declares.split (d := declared k d) (e := []) (f := d.type.classes)
      (g := []) (by simpa [VarDec.spelling] using hread)
    refine ⟨u, ⟨d, hread, ?_⟩, w, hend, hg⟩
    rw [hend.rest]
    exact stops_word (by decide) _

theorem selects_onClassVar :
    Selects Goal.onClassVar
      [("static", .classVarDec, [.varType .static, .word ";", .leave .classVarDec, .classVars]),
        ("field", .classVarDec, [.varType .field, .word ";", .leave .classVarDec, .classVars])] :=
  (Selects.nil.cons _ (fun _ ht => isWord_iff ht "field") List.not_mem_nil).cons _
    (fun _ ht => isWord_iff ht "static") (by decide)

/-- A declaration of class variables and what follows it. -/
theorem classVars_cons {ls : List Lexeme} (k : ClassVarKind) (hrest : v.rest = .word k.word :: ls)
    (h : MeansAll c [.varType k.storage, .word ";", .leave .classVarDec, .classVars] (v.at ls) v') :
    Means c .classVars v v' := by
  obtain ⟨d, u, hd, ds, hds, hstops⟩ := (meansAll_varDec _ _ _).mp h
  have hd := Declares.cons_iff.mpr ⟨ls, hrest, hd⟩
  exact ⟨⟨k, d⟩ :: ds, by simpa [ClassVarDec.spelling] using hd.append hds, hstops⟩

theorem leads_classVars (hs : s.Sound) :
    Leads c s .classVars v' ↔ Means c .classVars s.view v' := by
  rw [leads_ok rfl, meansAll_openElement hs selects_onClassVar]
  simp only [List.mem_cons, List.not_mem_nil, or_false, Prod.mk.injEq, List.map_cons, List.map_nil]
  constructor
  · intro h
    rcases h with ⟨w, e, next, ls, ⟨rfl, rfl, rfl⟩ | ⟨rfl, rfl, rfl⟩, hrest, hmeans⟩ | ⟨hstops, rfl⟩
    · exact classVars_cons .static hrest hmeans
    · exact classVars_cons .field hrest hmeans
    · exact ⟨[], .refl _, hstops⟩
  · intro h
    rcases h with ⟨ds, hread, hstops⟩
    cases ds with
    | nil =>
        obtain rfl := Declares.known_iff.mp hread
        exact .inr ⟨hstops, rfl⟩
    | cons d ds =>
        obtain ⟨ls, hrest, hread⟩ := Declares.cons_iff.mp hread
        obtain ⟨u, hd, hds⟩ := Declares.split (k := ds.flatMap ClassVarDec.spelling) hread
        have hnext := (meansAll_varDec (c := c) d.kind.storage .classVarDec .classVars).mpr
          ⟨d.dec, u, hd, ds, hds, hstops⟩
        refine .inl ⟨d.kind.word, .classVarDec, _, ls, ?_, hrest, hnext⟩
        cases d.kind
        · exact .inl ⟨rfl, rfl, rfl⟩
        · exact .inr ⟨rfl, rfl, rfl⟩

theorem selects_onLocalVar :
    Selects Goal.onLocalVar
      [("var", .varDec, [.varType .localVar, .word ";", .leave .varDec, .localVars])] :=
  Selects.nil.cons _ (fun _ ht => isWord_iff ht "var") List.not_mem_nil

theorem leads_localVars (hs : s.Sound) :
    Leads c s .localVars v' ↔ Means c .localVars s.view v' := by
  rw [leads_ok rfl, meansAll_openElement hs selects_onLocalVar]
  simp only [List.mem_singleton, Prod.mk.injEq, List.map_cons, List.map_nil]
  constructor
  · intro h
    rcases h with ⟨w, e, next, ls, ⟨rfl, rfl, rfl⟩, hrest, hmeans⟩ | ⟨hstops, rfl⟩
    · obtain ⟨d, u, hd, ds, hds, hstops⟩ := (meansAll_varDec _ _ _).mp hmeans
      have hd := Declares.cons_iff.mpr ⟨ls, hrest, hd⟩
      exact ⟨d :: ds, by simpa [localsSpelling] using hd.append hds, hstops⟩
    · exact ⟨[], .refl _, hstops⟩
  · intro h
    rcases h with ⟨ds, hread, hstops⟩
    cases ds with
    | nil =>
        obtain rfl := Declares.known_iff.mp hread
        exact .inr ⟨hstops, rfl⟩
    | cons d ds =>
        obtain ⟨ls, hrest, hread⟩ := Declares.cons_iff.mp hread
        obtain ⟨u, hd, hds⟩ := Declares.split (k := localsSpelling ds) hread
        exact .inl ⟨"var", .varDec, _, ls, ⟨rfl, rfl, rfl⟩, hrest,
          (meansAll_varDec .localVar .varDec .localVars).mpr ⟨d, u, hd, ds, hds, hstops⟩⟩

/-! ## Parameters -/

theorem leads_parameter : Leads c s .parameter v' ↔ Means c .parameter s.view v' := by
  rw [leads_typeName (P := fun type v => ∃ x, Declares v [.name x] [(x, type, .argument)] [] v')
    rfl (fun x v => by simp only [meansAll_cons, meansAll_nil, Means, exists_eq_right'])]
  constructor
  · intro h
    rcases h with ⟨t, u, htype, x, hread⟩
    exact ⟨⟨t, x⟩, by simpa [Variable.spelling, declaredParameter] using htype.append hread⟩
  · intro h
    rcases h with ⟨⟨t, x⟩, hread⟩
    obtain ⟨u, htype, hread⟩ := Declares.split (l := [_]) (d := []) (f := t.classes) (g := [])
      (by simpa [Variable.spelling, declaredParameter] using hread)
    exact ⟨t, u, htype, x, hread⟩

theorem meansAll_parameters :
    MeansAll c [.parameter, .moreParameters] v v' ↔
      ∃ p ps, Declares v (parametersSpelling (p :: ps)) ((p :: ps).map declaredParameter)
        ((p :: ps).flatMap (·.type.classes)) v' ∧ Stops [","] v'.rest := by
  simp only [meansAll_cons, meansAll_nil, Means, exists_eq_right']
  constructor
  · intro h
    rcases h with ⟨u, ⟨p, hp⟩, ps, hps, hstops⟩
    exact ⟨p, ps, hp.append hps, hstops⟩
  · intro h
    rcases h with ⟨p, ps, hread, hstops⟩
    obtain ⟨u, hp, hps⟩ := Declares.split (d := [_]) hread
    exact ⟨u, ⟨p, hp⟩, ps, hps, hstops⟩

theorem leads_moreParameters (hs : s.Sound) :
    Leads c s .moreParameters v' ↔ Means c .moreParameters s.view v' := by
  rw [leads_ok rfl, meansAll_chooseWord hs]
  simp only [meansAll_parameters, meansAll_nil, Means]
  constructor
  · intro h
    rcases h with ⟨ls, hrest, p, ps, hread, hstops⟩ | ⟨hstops, rfl⟩
    · exact ⟨p :: ps, Declares.cons_iff.mpr ⟨ls, hrest, hread⟩, hstops⟩
    · exact ⟨[], .refl _, hstops⟩
  · intro h
    rcases h with ⟨ps, hread, hstops⟩
    cases ps with
    | nil =>
        obtain rfl := Declares.known_iff.mp hread
        exact .inr ⟨hstops, rfl⟩
    | cons p ps =>
        obtain ⟨ls, hrest, hread⟩ := Declares.cons_iff.mp hread
        exact .inl ⟨ls, hrest, p, ps, hread, hstops⟩

theorem type_ne_close (t : TypeName) : t.lexeme ≠ .word ")" := by
  cases t with
  | int | char | boolean => decide
  | named x => exact name_ne_word x ")"

theorem leads_parameters (hs : s.Sound) :
    Leads c s .parameters v' ↔ Means c .parameters s.view v' := by
  rw [leads_ok rfl]
  simp only [sees_iff hs]
  by_cases hend : s.view.rest.head? = some (.word ")")
  · rw [if_pos hend]
    constructor
    · intro heq
      subst heq
      exact ⟨[], .refl _, fun _ => hend, fun h => absurd rfl h⟩
    · intro h
      rcases h with ⟨ps, hread, -, -⟩
      cases ps with
      | nil => exact Declares.known_iff.mp hread
      | cons p ps =>
          rw [hread.rest] at hend
          exact absurd (Option.some.inj hend) (type_ne_close p.type)
  · rw [if_neg hend, meansAll_parameters]
    constructor
    · intro h
      rcases h with ⟨p, ps, hread, hstops⟩
      exact ⟨p :: ps, hread, fun h => (List.cons_ne_nil _ _ h).elim, fun _ => hstops⟩
    · intro h
      rcases h with ⟨ps, hread, hnil, hcons⟩
      cases ps with
      | nil => exact absurd (hnil rfl) hend
      | cons p ps => exact ⟨p, ps, hread, hcons (List.cons_ne_nil _ _)⟩

/-! ## Subroutines -/

theorem lookup_kindOf (s : State) (x : String) : s.kindOf? x = s.view.subroutines.lookup x := rfl

theorem leads_beginSubroutine (kind : SubroutineKind) (name : Token) :
    Leads c s (.beginSubroutine kind name) v' ↔
      Means c (.beginSubroutine kind name) s.view v' := by
  simp only [Means, ← lookup_kindOf]
  cases hk : s.kindOf? name.text with
  | some k =>
      have hstep : ∃ f, step c s (.beginSubroutine kind name) = .error f := by
        simp only [step, Setting.beginSubroutine_eq, hk]
        exact ⟨_, rfl⟩
      simp [not_leads hstep.choose_spec]
  | none =>
      have hstep : step c s (.beginSubroutine kind name) =
          .ok ([], s.entered kind name.text) := by
        simp only [step, Setting.beginSubroutine_eq, hk]
      rw [leads_ok hstep]
      simp only [true_and]
      rfl

theorem leads_subroutineName (kind : SubroutineKind) :
    Leads c s (.subroutineName kind) v' ↔ Means c (.subroutineName kind) s.view v' := by
  rw [leads_onName rfl
    (P := fun x v => v.subroutines.lookup x = none ∧ v' = v.begin kind x)
    (fun t v => by simp only [meansAll_cons, meansAll_nil, Means, exists_eq_right'])]
  rfl

theorem header_eq (s : State) : s.header = s.view.header.map Goal.emit := by
  have hkind : s.view.kind = s.subroutineKind := rfl
  have hheader : s.view.header = .function s.qualifiedName (s.scope.count .localVar) ::
      s.view.prologue := rfl
  rw [hheader, State.header, List.map_cons, View.prologue, hkind]
  cases s.subroutineKind with
  | none => rfl
  | some kind => cases kind <;> rfl

theorem leads_header : Leads c s .header v' ↔ Means c .header s.view v' := by
  rw [leads_ok rfl, header_eq, meansAll_emits]
  rfl

/-- Behind local variables there is no further one. -/
theorem stops_var (b : Block) (ls : List Lexeme) :
    Stops ["var"] (b.spelling ++ .word Goal.closeBrace :: ls) := by
  cases b with
  | nil => exact stops_word (by decide) _
  | cons t b =>
      obtain ⟨w, hw, ks, ht⟩ := statement_starts t
      have hvar : ∀ x ∈ statementWords, x ∉ ["var"] := by decide
      simp only [Block.spelling, ht, List.cons_append]
      exact stops_word (hvar w hw) _

/-- The goals between the name and the body of a subroutine. -/
theorem meansAll_signature :
    MeansAll c [.word "(", .enter .parameterList, .parameters, .leave .parameterList, .word ")",
        .enter .subroutineBody, .word Goal.openBrace, .localVars] v v' ↔
      ∃ (ps : List Variable) (ds : List VarDec),
        Declares v (.word "(" :: parametersSpelling ps ++
            .word ")" :: .word Goal.openBrace :: localsSpelling ds)
          (ps.map declaredParameter ++ ds.flatMap (declared .localVar))
          (ps.flatMap (·.type.classes) ++ ds.flatMap (·.type.classes)) v' ∧
        Stops ["var"] v'.rest := by
  simp only [meansAll_cons, meansAll_nil, Means, exists_eq_left, exists_eq_right',
    reads_iff_declares]
  constructor
  · intro h
    rcases h with ⟨u₁, hopen, u₂, ⟨ps, hps, -, -⟩, u₃, hclose, u₄, hbrace, ds, hds, hstops⟩
    refine ⟨ps, ds, ?_, hstops⟩
    simpa using (((hopen.append hps).append hclose).append hbrace).append hds
  · intro h
    rcases h with ⟨ps, ds, hread, hstops⟩
    have hread : Declares v
        (((([Lexeme.word "("] ++ parametersSpelling ps) ++ [Lexeme.word ")"]) ++
          [Lexeme.word Goal.openBrace]) ++ localsSpelling ds)
        (((([] ++ ps.map declaredParameter) ++ []) ++ []) ++ ds.flatMap (declared .localVar))
        (((([] ++ ps.flatMap (·.type.classes)) ++ []) ++ []) ++ ds.flatMap (·.type.classes))
        v' := by
      simpa using hread
    obtain ⟨u₄, hread, hds⟩ := hread.split
    obtain ⟨u₃, hread, hbrace⟩ := hread.split
    obtain ⟨u₂, hread, hclose⟩ := hread.split
    obtain ⟨u₁, hopen, hps⟩ := hread.split
    refine ⟨u₁, hopen, u₂, ⟨ps, hps, ?_, ?_⟩, u₃, hclose, u₄, hbrace, ds, hds, hstops⟩
    · intro heq
      subst heq
      rw [hps.rest, hclose.rest]
      rfl
    · intro _
      rw [hclose.rest]
      exact stops_word (by decide) _

/-- The goals of a body, behind the local variables. -/
theorem meansAll_body :
    MeansAll c [.header, .statements, .word Goal.closeBrace] v v' ↔
      ∃ b : Block, b.Obeys (v.rules c) ∧
        Reads v (b.spelling ++ [Lexeme.word Goal.closeBrace]) (v.header ++ b.code v.env v.labels)
          b.labels b.calls v' := by
  simp only [meansAll_cons, meansAll_nil, Means, exists_eq_right']
  constructor
  · intro h
    rcases h with ⟨u₁, hheader, u₂, ⟨b, hb, hread, -⟩, hclose⟩
    rw [hheader.rules] at hb
    rw [hheader.env, hheader.labels] at hread
    exact ⟨b, hb, by simpa using (hheader.append hread).append hclose⟩
  · intro h
    rcases h with ⟨b, hb, hread⟩
    have hread : Reads v (([] ++ b.spelling) ++ [Lexeme.word Goal.closeBrace])
        ((v.header ++ b.code v.env v.labels) ++ []) (0 + b.labels + 0) (([] ++ b.calls) ++ [])
        v' := by
      simpa using hread
    obtain ⟨u₂, hread, hclose⟩ := hread.split
    obtain ⟨u₁, hheader, hread⟩ := hread.split
    have hlabels : u₁.labels = v.labels := hheader.labels
    rw [← hheader.rules] at hb
    rw [← hheader.env, ← hlabels] at hread
    refine ⟨u₁, hheader, u₂, ⟨b, hb, hread, ?_⟩, hclose⟩
    rw [hclose.rest]
    exact b.ends_of_closeBrace _

theorem meansAll_subroutineRest {kind : SubroutineKind} {ls : List Lexeme}
    (hrest : v.rest = .word kind.name :: ls) :
    MeansAll c (Goal.subroutineRest kind) (v.at ls) v' ↔
      ∃ (t : Subroutine) (u : View), t.kind = kind ∧ SubroutineMeans c v t u ∧
        Means c .subroutines u v' := by
  have hgoals : Goal.subroutineRest kind = [Goal.returnType, .subroutineName kind] ++
      [Goal.word "(", .enter .parameterList, .parameters, .leave .parameterList, .word ")",
        .enter .subroutineBody, .word Goal.openBrace, .localVars] ++
      [Goal.header, .statements, .word Goal.closeBrace] ++
      [Goal.leave .subroutineBody, .leave .subroutineDec, .subroutines] := rfl
  have hend : ∀ u, MeansAll c [.leave .subroutineBody, .leave .subroutineDec, .subroutines] u v' ↔
      Means c .subroutines u v' := by
    intro u
    simp only [meansAll_cons, meansAll_nil, Means, exists_eq_left, exists_eq_right']
  rw [hgoals, meansAll_append]
  simp only [hend]
  simp only [meansAll_append, meansAll_signature, meansAll_body]
  constructor
  · intro h
    rcases h with ⟨u, ⟨v₂, ⟨_, ⟨v₁, ⟨returnType, htype⟩, _, ⟨x, ks, hx, hnew, rfl⟩, rfl⟩, ps, ds,
      hread, -⟩, b, hb, hbody⟩, hnext⟩
    refine ⟨⟨kind, returnType, x, ps, ds, b⟩, u, rfl, ?_, hnext⟩
    exact ⟨v₁, v₂, ks, Declares.cons_iff.mpr ⟨ls, hrest, htype⟩, hx, hnew, hread, hb, hbody⟩
  · intro h
    rcases h with ⟨⟨kind, returnType, x, ps, ds, b⟩, u, rfl, ⟨v₁, v₂, ks, htype, hx, hnew, hread,
      hb, hbody⟩, hnext⟩
    obtain ⟨ls', hrest', htype⟩ := Declares.cons_iff.mp htype
    obtain rfl : ls = ls' := (List.cons.inj (hrest.symm.trans hrest')).2
    refine ⟨u, ⟨v₂, ⟨_, ⟨v₁, ⟨returnType, htype⟩, _, ⟨x, ks, hx, hnew, rfl⟩, rfl⟩, ps, ds, hread,
      ?_⟩, b, hb, hbody⟩, hnext⟩
    rw [hbody.rest, List.append_assoc]
    exact stops_var b _

theorem selects_onSubroutine :
    Selects Goal.onSubroutine
      (SubroutineKind.all.map fun k => (k.name, .subroutineDec, Goal.subroutineRest k)) := by
  have hnodup : (SubroutineKind.all.map SubroutineKind.name).Nodup := by decide
  exact selects_find SubroutineKind.name
    (fun k => (Element.subroutineDec, Goal.subroutineRest k)) hnodup

theorem leads_subroutines (hs : s.Sound) :
    Leads c s .subroutines v' ↔ Means c .subroutines s.view v' := by
  rw [leads_ok rfl, meansAll_openElement hs selects_onSubroutine]
  constructor
  · intro h
    rcases h with ⟨w, e, next, ls, hmem, hrest, hmeans⟩ | ⟨hstops, rfl⟩
    · obtain ⟨kind, -, heq⟩ := List.mem_map.mp hmem
      obtain ⟨rfl, -, rfl⟩ : kind.name = w ∧ _ = e ∧ _ = next := by simpa using heq
      obtain ⟨t, u, -, ht, ss, hss, hstops⟩ := (meansAll_subroutineRest hrest).mp hmeans
      exact ⟨t :: ss, ⟨u, ht, hss⟩, hstops⟩
    · exact ⟨[], rfl, hstops⟩
  · intro h
    rcases h with ⟨ss, hss, hstops⟩
    cases ss with
    | nil =>
        obtain rfl : v' = s.view := hss
        exact .inr ⟨hstops, rfl⟩
    | cons t ss =>
        obtain ⟨u, ht, hss⟩ := hss
        obtain ⟨ls, hrest⟩ : ∃ ls, s.view.rest = .word t.kind.name :: ls := by
          obtain ⟨v₁, v₂, ks, htype, -⟩ := ht
          exact ⟨_, htype.rest⟩
        refine .inl ⟨t.kind.name, .subroutineDec, _, ls, ?_, hrest,
          (meansAll_subroutineRest hrest).mpr ⟨t, u, rfl, ht, ss, hss, hstops⟩⟩
        refine List.mem_map.mpr ⟨t.kind, ?_, rfl⟩
        cases t.kind <;> decide

/-! ## The end of a class -/

theorem leads_endOfInput :
    Leads c s .endOfInput v' ↔ Means c .endOfInput s.view v' := by
  simp only [Means, view_rest, List.map_eq_nil_iff]
  cases hrest : s.rest with
  | nil =>
      have hstep : step c s .endOfInput = .ok ([], s) := by simp only [step, hrest]
      rw [leads_ok hstep]
      simp
  | cons t ts =>
      have hstep : ∃ f, step c s .endOfInput = .error f := by
        simp only [step, hrest]
        exact ⟨_, rfl⟩
      simp [not_leads hstep.choose_spec]

theorem callFault?_eq_none (call : Token) :
    c.callFault? s call = none ↔ s.view.subroutines.lookup call.text = some .method := by
  rw [← lookup_kindOf, Setting.callFault?]
  cases s.kindOf? call.text with
  | none => simp
  | some kind => cases kind <;> simp

theorem leads_verifyCalls :
    Leads c s .verifyCalls v' ↔ Means c .verifyCalls s.view v' := by
  have hcalls : s.localCalls.findSome? (c.callFault? s) = none ↔
      ∀ f ∈ s.view.calls, s.view.subroutines.lookup f = some .method := by
    rw [List.findSome?_eq_none_iff]
    simp only [callFault?_eq_none, State.view, List.mem_map, forall_exists_index, and_imp,
      forall_apply_eq_imp_iff₂]
  simp only [Means, ← hcalls]
  cases hfind : s.localCalls.findSome? (c.callFault? s) with
  | none =>
      have hstep : step c s .verifyCalls = .ok ([], s) := by simp only [step, hfind]
      rw [leads_ok hstep]
      simp
  | some f =>
      have hstep : step c s .verifyCalls = .error f := by simp only [step, hfind]
      simp [not_leads hstep]

/-! ## All goals -/

theorem leads_iff (s : State) (g : Goal) (v' : View) (hs : s.Sound) :
    Leads c s g v' ↔ Means c g s.view v' := by
  cases g with
  | word w => exact leads_word hs w
  | enter e => rw [leads_ok rfl]; rfl
  | leave e => rw [leads_ok rfl]; rfl
  | emit i => exact leads_emit i
  | className => exact leads_className
  | nameClass x => exact leads_nameClass x
  | noteClass x => exact leads_noteClass x
  | classVars => exact leads_classVars hs
  | varType k => exact leads_varType k
  | varName what k type => exact leads_varName what k type
  | moreNames k type => exact leads_moreNames hs k type
  | declare name type k => exact leads_declare name type k
  | subroutines => exact leads_subroutines hs
  | returnType => exact leads_returnType
  | subroutineName kind => exact leads_subroutineName kind
  | beginSubroutine kind name => exact leads_beginSubroutine kind name
  | parameters => exact leads_parameters hs
  | parameter => exact leads_parameter
  | moreParameters => exact leads_moreParameters hs
  | localVars => exact leads_localVars hs
  | header => exact leads_header
  | endOfInput => exact leads_endOfInput
  | verifyCalls => exact leads_verifyCalls
  | statements => exact leads_statements
  | statementList => exact leads_statementList hs
  | letTarget => exact leads_letTarget
  | assign name => exact leads_assign name
  | assignTail d => exact leads_assignTail hs d
  | ifBody => exact leads_ifBody hs
  | elsePart => exact leads_elsePart hs
  | whileBody => exact leads_whileBody hs
  | doTarget => exact leads_doTarget
  | returnValue => exact leads_returnValue hs
  | expression => exact leads_expression
  | term => exact leads_term
  | termBody => exact leads_termBody hs
  | operators => exact leads_operators hs
  | integer t => exact leads_integer t
  | this t => exact leads_this t
  | identifierTail name => exact leads_identifierTail hs name
  | load name => exact leads_load name
  | callSign name => exact leads_callSign hs name
  | localCall name => exact leads_localCall name
  | qualifiedCall q => exact leads_qualifiedCall q
  | dispatch q callee => exact leads_dispatch q callee
  | firstArgument target count => exact leads_firstArgument hs target count
  | moreArguments target count => exact leads_moreArguments hs target count

/-- A run succeeds exactly with what its goals mean. -/
theorem run_iff (gs : List Goal) (s : State) (hs : s.Sound) (v' : View) :
    (∃ s', run c s gs = ⟨s', none⟩ ∧ s'.view = v') ↔ MeansAll c gs s.view v' :=
  run_iff_of_leads_iff leads_iff gs s hs v'

end Jack.Compile
