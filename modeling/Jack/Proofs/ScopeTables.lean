import Jack.Proofs.Slots
import Jack.Scope.Request

/-!
# Scope tables

A table keeps counters beside its declarations, and nothing in it ties a counter to the declarations
that it counts. A declaration moves one counter on, a new subroutine sets two of them back, a new
class all four, and a refused request none. That a counter is the number of its declarations all the
same is an invariant of the requests (`Counted`): it holds at first and every request keeps it
(`Counted.answer`).

While it holds, a table does what the scope of its declarations does, which has no counters
(`answer_scope`), so the history of a table is a history of scopes (`after_scope`). What is known
about slots there (`WellFormed`) is thereby known of tables, and `lawful_after` says what can be
relied on after any requests.
-/

namespace Jack.Scope

/-! ## Mappings -/

namespace Mapping

variable {m : Mapping} {x : String} {d : Declaration}

theorem find?_cons (y : String) (e : Declaration) (m : Mapping) (x : String) :
    find? ((y, e) :: m) x = if x = y then some e else m.find? x := by
  unfold find?
  rw [List.lookup_cons]
  by_cases hx : x = y
  · simp [hx]
  · simp [hx, beq_false_of_ne hx]

theorem find?_isSome_iff : (m.find? x).isSome ↔ x ∈ m.map Prod.fst := by
  induction m with
  | nil => simp [find?]
  | cons e m ih =>
      rw [find?_cons, List.map_cons, List.mem_cons, ← ih]
      by_cases hx : x = e.1 <;> simp [hx]

theorem find?_eq_none_iff : m.find? x = none ↔ x ∉ m.map Prod.fst := by
  rw [← find?_isSome_iff, Option.isSome_iff_ne_none, ne_eq, not_not]

/-- A new name comes last. -/
theorem enter_of_notMem (h : x ∉ m.map Prod.fst) (d : Declaration) :
    m.enter x d = m ++ [(x, d)] := by
  induction m with
  | nil => rfl
  | cons e m ih =>
      obtain ⟨hx, hm⟩ := not_or.mp (mt List.mem_cons.mpr h)
      rw [enter, if_neg (Ne.symm hx), ih hm, List.cons_append]

/-- Names are those of their declarations, and no two are the same. -/
structure Keyed (m : Mapping) : Prop where
  names : ∀ e ∈ m, e.2.name = e.1
  nodup : (m.map Prod.fst).Nodup

theorem Keyed.nil : Keyed [] := ⟨nofun, List.nodup_nil⟩

theorem Keyed.map_name (h : m.Keyed) :
    m.declarations.map Declaration.name = m.map Prod.fst := by
  rw [declarations, List.map_map]
  exact List.map_congr_left h.names

/-- Seeking a name is seeking a declaration of that name. -/
theorem Keyed.find?_eq (h : m.Keyed) (x : String) :
    m.find? x = m.declarations.find? fun d => d.name == x := by
  have hnames := h.names
  clear h
  induction m with
  | nil => rfl
  | cons e m ih =>
      obtain ⟨he, hm⟩ := List.forall_mem_cons.mp hnames
      have hcons : declarations (e :: m) = e.2 :: declarations m := rfl
      rw [find?_cons, ih hm, hcons, List.find?_cons, he]
      by_cases hx : x = e.1
      · simp [hx]
      · simp [hx, beq_false_of_ne (Ne.symm hx)]

/-- A name that has been entered is found. -/
theorem Keyed.find?_of_mem (h : m.Keyed) {e : String × Declaration} (he : e ∈ m) :
    m.find? e.1 = some e.2 := by
  have hnames : (m.declarations.map Declaration.name).Nodup := by
    rw [h.map_name]
    exact h.nodup
  have hmem : e.2 ∈ m.declarations := List.mem_map_of_mem he
  rw [h.find?_eq, ← h.names e he]
  exact find?_name_of_mem hnames hmem

theorem Keyed.enter (h : m.Keyed) (hx : x ∉ m.map Prod.fst) (hd : d.name = x) :
    (m.enter x d).Keyed := by
  rw [enter_of_notMem hx]
  constructor
  · intro e he
    rcases List.mem_append.mp he with he | he
    · exact h.names e he
    · rw [List.mem_singleton.mp he, hd]
  · rw [List.map_append, List.map_singleton]
    exact h.nodup.append (List.nodup_singleton _) (List.disjoint_singleton.mpr hx)

end Mapping

namespace Table

/-! ## Counters count -/

/-- The counter of each storage is the number of its declarations. -/
structure Counted (t : Table) : Prop where
  keyed : ∀ k, (t.mapping k).Keyed
  counters : ∀ k, t.count k = t.scope.count k

variable {t : Table} {x type : String} {k : Storage}

theorem layer_scope (t : Table) (k : Storage) :
    t.scope.layer k = (t.mapping k).declarations := by
  unfold layer mapping
  split <;> rfl

theorem Counted.map_name (h : t.Counted) (k : Storage) :
    (t.scope.layer k).map Declaration.name = (t.mapping k).map Prod.fst := by
  rw [layer_scope, (h.keyed k).map_name]

theorem counted_empty : Counted {} where
  keyed k := by cases k <;> exact .nil
  counters k := by cases k <;> rfl

theorem mapping_congr (t : Table) {j k : Storage} (h : j.isClassLevel = k.isClassLevel) :
    t.mapping j = t.mapping k := by
  unfold mapping
  rw [h]

theorem mapping_enter (t : Table) (k : Storage) (x : String) (d : Declaration) (j : Storage) :
    (t.enter k x d).mapping j =
      if k.isClassLevel = j.isClassLevel then (t.mapping j).enter x d else t.mapping j := by
  unfold enter mapping
  cases k.isClassLevel <;> cases j.isClassLevel <;> rfl

theorem count_enter (t : Table) (k : Storage) (x : String) (d : Declaration) (j : Storage) :
    (t.enter k x d).count j = t.count j := by
  unfold enter
  split <;> rfl

theorem count_advance (t : Table) (k j : Storage) :
    (t.advance k).count j = t.count j + if k = j then 1 else 0 := by
  show (t.counters.set k (t.counters.get k + 1)).get j = _
  rw [Counters.get_set]
  split
  · next hk => rw [hk]; rfl
  · rfl

/-- A new name is added to the declarations. -/
theorem scope_enter (t : Table) {d : Declaration}
    (hx : x ∉ (t.mapping d.storage).map Prod.fst) :
    (t.enter d.storage x d).scope = t.scope.add d := by
  unfold mapping at hx
  unfold enter add
  split
  · next hk =>
      rw [if_pos hk] at hx
      simp [scope, Mapping.enter_of_notMem hx, Mapping.declarations]
  · next hk =>
      rw [if_neg hk] at hx
      simp [scope, Mapping.enter_of_notMem hx, Mapping.declarations]

/-! ### Declaring a name -/

/-- The declaration of a new name. -/
def nextDeclaration (t : Table) (x type : String) (k : Storage) : Declaration :=
  ⟨x, type, k, t.count k⟩

/-- The table with a new name. -/
def declare (t : Table) (x type : String) (k : Storage) : Table :=
  (t.advance k).enter k x (t.nextDeclaration x type k)

theorem define_eq (t : Table) (x type : String) (k : Storage) :
    t.define x type k =
      if x ∈ (t.mapping k).map Prod.fst then .error (.duplicate x k.scopeName)
      else .ok (t.nextDeclaration x type k, t.declare x type k) := by
  simp only [define, Mapping.find?_isSome_iff]
  rfl

theorem mapping_declare (hx : x ∉ (t.mapping k).map Prod.fst) (type : String) (j : Storage) :
    (t.declare x type k).mapping j =
      if k.isClassLevel = j.isClassLevel then t.mapping j ++ [(x, t.nextDeclaration x type k)]
      else t.mapping j := by
  rw [declare, mapping_enter]
  have hmapping : (t.advance k).mapping j = t.mapping j := rfl
  rw [hmapping]
  split
  · next hk =>
      rw [← mapping_congr t hk.symm] at hx
      exact Mapping.enter_of_notMem hx _
  · rfl

theorem count_declare (t : Table) (x type : String) (k j : Storage) :
    (t.declare x type k).count j = t.count j + if k = j then 1 else 0 := by
  rw [declare, count_enter, count_advance]

theorem scope_declare (hx : x ∉ (t.mapping k).map Prod.fst) (type : String) :
    (t.declare x type k).scope = t.scope.add (t.nextDeclaration x type k) :=
  scope_enter (t.advance k) (d := t.nextDeclaration x type k) hx

theorem Counted.declare (h : t.Counted) (hx : x ∉ (t.mapping k).map Prod.fst) (type : String) :
    (t.declare x type k).Counted where
  keyed j := by
    rw [Table.declare, mapping_enter]
    split
    · next hk =>
        rw [← mapping_congr t hk.symm] at hx
        exact (h.keyed j).enter hx rfl
    · exact h.keyed j
  counters j := by
    rw [count_declare, scope_declare hx, count_add, h.counters]
    rfl

/-! ### Starting anew -/

theorem Counted.startSubroutine (h : t.Counted) : t.startSubroutine.Counted where
  keyed k := by
    cases k with
    | static | field => exact h.keyed .static
    | argument | localVar => exact .nil
  counters k := by
    show (t.counters.restart Storage.ofSubroutine).get k = _
    rw [Counters.get_restart]
    cases k with
    | static => exact h.counters .static
    | field => exact h.counters .field
    | argument | localVar => rfl

theorem counted_reset (t : Table) : t.reset.Counted where
  keyed k := by cases k <;> exact .nil
  counters k := by
    show ((t.counters.restart Storage.ofSubroutine).restart Storage.ofClass).get k = _
    rw [Counters.get_restart, Counters.get_restart]
    cases k <;> rfl

/-! ## A table and the scope of its declarations -/

theorem lookup_scope (h : t.Counted) (x : String) : t.lookup x = t.scope.lookup x := by
  have hsubroutine : t.subroutine.Keyed := h.keyed .argument
  have hclass : t.classLevel.Keyed := h.keyed .static
  rw [lookup, hsubroutine.find?_eq, hclass.find?_eq]
  rfl

theorem nextDeclaration_eq (h : t.Counted) (x type : String) (k : Storage) :
    t.nextDeclaration x type k = ⟨x, type, k, t.scope.count k⟩ := by
  rw [nextDeclaration, h.counters]

/-- The slot that a counter gives is the one that counting the declarations gives. -/
theorem define_scope (h : t.Counted) (x type : String) (k : Storage) :
    (t.define x type k).map (fun r => (r.1, r.2.scope)) = t.scope.define x type k := by
  rw [define_eq, define_eq_ite, h.map_name]
  split
  · rfl
  · next hx =>
      rw [← nextDeclaration_eq h, ← scope_declare hx]
      rfl

/-! ## Requests -/

section Define

variable (t) (type) {given : Scalar}

theorem answer_define_of_unknown (x : String) (hk : ∀ k, ¬Storage.Names given k) :
    t.answer (.define x type given) = (.error (.unknownStorage given), t) := by
  simp only [answer, Storage.ofScalar?_eq_none_iff.mpr hk]

theorem answer_define_of_mem (hk : Storage.Names given k) (hx : x ∈ (t.mapping k).map Prod.fst) :
    t.answer (.define x type given) = (.error (.problem (.duplicate x k.scopeName)), t) := by
  simp only [answer, Storage.ofScalar?_eq_some_iff.mpr hk, define_eq, if_pos hx]

/-- An accepted declaration gets the slot that its counter gives. -/
theorem answer_define_of_notMem (hk : Storage.Names given k)
    (hx : x ∉ (t.mapping k).map Prod.fst) :
    t.answer (.define x type given) =
      (.ok (.declared (t.nextDeclaration x type k)), t.declare x type k) := by
  simp only [answer, Storage.ofScalar?_eq_some_iff.mpr hk, define_eq, if_neg hx]

end Define

/-- All that a request can do to a table. -/
theorem answer_effect (t : Table) (r : Request) :
    (t.answer r).2 = t ∨ (t.answer r).2 = t.startSubroutine ∨ (t.answer r).2 = t.reset ∨
      ∃ x type k, x ∉ (t.mapping k).map Prod.fst ∧ (t.answer r).2 = t.declare x type k := by
  cases r with
  | define x type given =>
      by_cases hknown : ∃ k, Storage.Names given k
      · obtain ⟨k, hk⟩ := hknown
        by_cases hx : x ∈ (t.mapping k).map Prod.fst
        · rw [answer_define_of_mem t type hk hx]
          exact .inl rfl
        · rw [answer_define_of_notMem t type hk hx]
          exact .inr (.inr (.inr ⟨x, type, k, hx, rfl⟩))
      · rw [answer_define_of_unknown t type x (not_exists.mp hknown)]
        exact .inl rfl
  | startSubroutine => exact .inr (.inl rfl)
  | reset => exact .inr (.inr (.inl rfl))
  | count given =>
      simp only [answer]
      split <;> exact .inl rfl
  | lookup | contains | storageOf | typeOf | slotOf | classDeclarations | subroutineDeclarations =>
      exact .inl rfl

theorem Counted.answer (h : t.Counted) (r : Request) : (t.answer r).2.Counted := by
  rcases t.answer_effect r with heq | heq | heq | ⟨x, type, k, hx, heq⟩ <;> rw [heq]
  · exact h
  · exact h.startSubroutine
  · exact t.counted_reset
  · exact h.declare hx type

theorem Counted.after (h : t.Counted) (requests : List Request) : (t.after requests).Counted := by
  induction requests generalizing t with
  | nil => exact h
  | cons r requests ih => exact ih (h.answer r)

end Table

/-- The declarations after a request, where no counters are kept. -/
def next (s : Scope) : Request → Scope
  | .define name type given =>
    match Storage.ofScalar? given with
    | none => s
    | some k =>
      match s.define name type k with
      | .ok (_, s') => s'
      | .error _ => s
  | .startSubroutine => s.startSubroutine
  | .reset => s.reset
  | _ => s

theorem WellFormed.next {s : Scope} (h : s.WellFormed) (r : Request) : (s.next r).WellFormed := by
  cases r with
  | define x type given =>
      simp only [Scope.next]
      cases Storage.ofScalar? given with
      | none => exact h
      | some k =>
          simp only [define_eq_ite]
          by_cases hx : x ∈ (s.layer k).map Declaration.name
          · simp only [if_pos hx]
            exact h
          · simp only [if_neg hx]
            exact h.add hx rfl
  | startSubroutine => exact h.startSubroutine
  | reset => exact .empty
  | lookup | contains | storageOf | typeOf | slotOf | count | classDeclarations
  | subroutineDeclarations => exact h

theorem WellFormed.foldl_next {s : Scope} (h : s.WellFormed) (requests : List Request) :
    (requests.foldl Scope.next s).WellFormed := by
  induction requests generalizing s with
  | nil => exact h
  | cons r requests ih => exact ih (h.next r)

namespace Table

variable {t : Table}

/-- A request does to the declarations of a table what it does where no counters are kept. -/
theorem answer_scope (h : t.Counted) (r : Request) : (t.answer r).2.scope = t.scope.next r := by
  cases r with
  | define x type given =>
      simp only [answer, Scope.next]
      cases Storage.ofScalar? given with
      | none => rfl
      | some k =>
          simp only [← define_scope h]
          cases t.define x type k <;> rfl
  | startSubroutine | reset => rfl
  | count given =>
      simp only [answer]
      split <;> rfl
  | lookup | contains | storageOf | typeOf | slotOf | classDeclarations | subroutineDeclarations =>
      rfl

/-- The history of a table is a history of scopes. -/
theorem after_scope (h : t.Counted) (requests : List Request) :
    (t.after requests).scope = requests.foldl Scope.next t.scope := by
  induction requests generalizing t with
  | nil => rfl
  | cons r requests ih =>
      have hrest : t.after (r :: requests) = (t.answer r).2.after requests := rfl
      rw [hrest, ih (h.answer r), answer_scope h, List.foldl_cons]

/-! ## Refused requests -/

/-- A declaration is refused for the value given as its storage, or because the name is taken. -/
theorem answer_define_eq_error_iff (t : Table) (x type : String) (given : Scalar) (e : Refusal) :
    (t.answer (.define x type given)).1 = .error e ↔
      ((∀ k, ¬Storage.Names given k) ∧ e = .unknownStorage given) ∨
        ∃ k, Storage.Names given k ∧ x ∈ (t.mapping k).map Prod.fst ∧
          e = .problem (.duplicate x k.scopeName) := by
  constructor
  · intro h
    by_cases hknown : ∃ k, Storage.Names given k
    · obtain ⟨k, hk⟩ := hknown
      by_cases hx : x ∈ (t.mapping k).map Prod.fst
      · rw [answer_define_of_mem t type hk hx] at h
        exact .inr ⟨k, hk, hx, (Except.error.inj h).symm⟩
      · rw [answer_define_of_notMem t type hk hx] at h
        cases h
    · rw [answer_define_of_unknown t type x (not_exists.mp hknown)] at h
      exact .inl ⟨not_exists.mp hknown, (Except.error.inj h).symm⟩
  · rintro (⟨hk, rfl⟩ | ⟨k, hk, hx, rfl⟩)
    · rw [answer_define_of_unknown t type x hk]
    · rw [answer_define_of_mem t type hk hx]

/-- A refused request changes neither the declarations nor the counters. -/
theorem answer_of_error {r : Request} {e : Refusal} (h : (t.answer r).1 = .error e) :
    (t.answer r).2 = t := by
  cases r with
  | define x type given =>
      rcases (answer_define_eq_error_iff t x type given e).mp h with ⟨hk, -⟩ | ⟨k, hk, hx, -⟩
      · rw [answer_define_of_unknown t type x hk]
      · rw [answer_define_of_mem t type hk hx]
  | count given =>
      simp only [answer]
      split <;> rfl
  | startSubroutine | reset => cases h
  | lookup | contains | storageOf | typeOf | slotOf | classDeclarations | subroutineDeclarations =>
      rfl

/-! ## Every history -/

/-- What can be relied on between two requests, whatever they are. -/
structure Lawful (t : Table) : Prop where
  classLevel : ∀ e ∈ t.classLevel,
    e.2.name = e.1 ∧ (e.2.storage = .static ∨ e.2.storage = .field)
  subroutine : ∀ e ∈ t.subroutine,
    e.2.name = e.1 ∧ (e.2.storage = .argument ∨ e.2.storage = .localVar)
  classNames : (t.classLevel.map Prod.fst).Nodup
  subroutineNames : (t.subroutine.map Prod.fst).Nodup
  /-- The declarations of a storage are numbered in order, from zero up to its counter. -/
  slots : ∀ k, ((t.classLevel ++ t.subroutine).declarations.filter fun d => d.storage == k).map
    Declaration.slot = List.range (t.count k)
  inner : ∀ e ∈ t.subroutine, t.lookup e.1 = some e.2
  /-- A class variable is seen unless it is hidden. -/
  outer : ∀ e ∈ t.classLevel, e.1 ∉ t.subroutine.map Prod.fst → t.lookup e.1 = some e.2
  missing : ∀ x, x ∉ t.subroutine.map Prod.fst → x ∉ t.classLevel.map Prod.fst →
    t.lookup x = none
  refused : ∀ x type given e, (t.answer (.define x type given)).1 = .error e ↔
    ((∀ k, ¬Storage.Names given k) ∧ e = .unknownStorage given) ∨
      ∃ k, Storage.Names given k ∧ x ∈ (t.mapping k).map Prod.fst ∧
        e = .problem (.duplicate x k.scopeName)
  unchanged : ∀ r e, (t.answer r).1 = .error e → (t.answer r).2 = t
  /-- A declaration comes last in its mapping, at the slot that its counter gives, and moves that
  counter on; nothing else changes. -/
  accepted : ∀ x type given k, Storage.Names given k → x ∉ (t.mapping k).map Prod.fst →
    (t.answer (.define x type given)).1 = .ok (.declared ⟨x, type, k, t.count k⟩) ∧
      ∀ j, (t.answer (.define x type given)).2.mapping j =
          (if k.isClassLevel = j.isClassLevel then
            t.mapping j ++ [(x, ⟨x, type, k, t.count k⟩)] else t.mapping j) ∧
        (t.answer (.define x type given)).2.count j = t.count j + if k = j then 1 else 0
  /-- Different names that resolve have different cells. -/
  apart : ∀ x y d e, x ≠ y → t.lookup x = some d → t.lookup y = some e →
    (d.storage.segment, d.slot) ≠ (e.storage.segment, e.slot)

theorem Counted.lawful (h : t.Counted) (hscope : t.scope.WellFormed) : t.Lawful where
  classLevel e he := by
    have hmem : e.2 ∈ t.scope.layer .static := List.mem_map_of_mem he
    exact ⟨(h.keyed .static).names e he,
      Storage.isClassLevel_iff.mp (hscope.storage .static e.2 hmem)⟩
  subroutine e he := by
    have hmem : e.2 ∈ t.scope.layer .argument := List.mem_map_of_mem he
    exact ⟨(h.keyed .argument).names e he,
      Storage.isClassLevel_eq_false_iff.mp (hscope.storage .argument e.2 hmem)⟩
  classNames := (h.keyed .static).nodup
  subroutineNames := (h.keyed .argument).nodup
  slots k := by
    rw [Mapping.declarations, List.map_append, h.counters, ← hscope.slots k,
      ← filter_layers hscope]
    rfl
  inner e he := by
    have hfind : t.subroutine.find? e.1 = some e.2 := (h.keyed .argument).find?_of_mem he
    rw [lookup, hfind, Option.some_or]
  outer e he hx := by
    have hfind : t.classLevel.find? e.1 = some e.2 := (h.keyed .static).find?_of_mem he
    rw [lookup, Mapping.find?_eq_none_iff.mpr hx, Option.none_or, hfind]
  missing x hx hy := by
    rw [lookup, Mapping.find?_eq_none_iff.mpr hx, Mapping.find?_eq_none_iff.mpr hy, Option.none_or]
  refused := t.answer_define_eq_error_iff
  unchanged r e he := answer_of_error he
  accepted x type given k hk hx := by
    rw [t.answer_define_of_notMem type hk hx]
    exact ⟨rfl, fun j => ⟨mapping_declare hx type j, t.count_declare x type k j⟩⟩
  apart x y d e hxy hd he hcell := by
    rw [lookup_scope h] at hd he
    obtain ⟨hsegment, hslot⟩ := Prod.mk.inj hcell
    obtain ⟨hdx, hdmem⟩ := hscope.mem_of_lookup hd
    obtain ⟨hey, hemem⟩ := hscope.mem_of_lookup he
    have heq := hscope.slots_injective hdmem hemem (Storage.segment_injective hsegment) hslot
    exact hxy (by rw [← hdx, ← hey, heq])

/-- After any sequence of requests to a new table, refused ones included, all of this holds. -/
theorem lawful_after (requests : List Request) : (after {} requests).Lawful := by
  have hcounted := counted_empty.after requests
  refine hcounted.lawful ?_
  rw [after_scope counted_empty]
  exact WellFormed.foldl_next .empty requests

end Table

end Jack.Scope
