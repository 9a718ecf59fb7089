import Jack.Instruction
import Jack.Scope
import Mathlib.Data.List.Nodup

/-!
# Slots

Declarations that are made one after the other stay in order: each scope holds its own storages,
names are distinct in each, and the variables of a storage have the slots 0, 1, ... in the order of
their declarations (`WellFormed`). That this order is kept is a fact about adding one declaration at
the next free slot (`WellFormed.add`).

Two names that resolve never share a memory cell (`WellFormed.slots_injective`). The two scopes
use different storages, different storages use different segments, and inside a storage the slots
are distinct, so it does not matter which of the two names hides what.
-/

namespace Jack

/-! ## Names of storages -/

namespace Storage

/-- The spellings of a storage, apart from case. -/
def spellings : Storage → List String
  | static => ["static"]
  | field => ["field"]
  | argument => ["argument", "arg"]
  | localVar => ["local", "var"]

/-- A value names a storage if it is a text that spells it in upper or lower case. -/
def Names (given : Scalar) (k : Storage) : Prop := ∃ t, given = .text t ∧ t.toLower ∈ k.spellings

theorem ofName?_eq_some_iff {t : String} {k : Storage} :
    ofName? t = some k ↔ t.toLower ∈ k.spellings := by
  unfold ofName?
  constructor
  · intro h
    split at h <;> cases h <;> simp [*, spellings]
  · intro h
    cases k <;> simp only [spellings, List.mem_cons, List.not_mem_nil, or_false] at h
    · simp [h]
    · simp [h]
    · rcases h with h | h <;> simp [h]
    · rcases h with h | h <;> simp [h]

theorem ofScalar?_eq_some_iff {given : Scalar} {k : Storage} :
    ofScalar? given = some k ↔ Names given k := by
  cases given with
  | text t => simp [ofScalar?, ofName?_eq_some_iff, Names]
  | absent | truth | integer | decimal => simp [ofScalar?, Names]

theorem ofScalar?_eq_none_iff {given : Scalar} :
    ofScalar? given = none ↔ ∀ k, ¬Names given k := by
  rw [Option.eq_none_iff_forall_ne_some]
  simp only [ne_eq, ofScalar?_eq_some_iff]

theorem isClassLevel_iff {k : Storage} : k.isClassLevel = true ↔ k = .static ∨ k = .field := by
  cases k <;> simp [isClassLevel]

theorem isClassLevel_eq_false_iff {k : Storage} :
    k.isClassLevel = false ↔ k = .argument ∨ k = .localVar := by
  cases k <;> simp [isClassLevel]

theorem segment_injective : Function.Injective segment := by
  intro j k h
  cases j <;> cases k <;> first | rfl | cases h

end Storage

namespace Scope

/-! ## Adding a declaration -/

theorem layer_congr (s : Scope) {j k : Storage} (h : j.isClassLevel = k.isClassLevel) :
    s.layer j = s.layer k := by
  unfold layer
  rw [h]

theorem layer_add (s : Scope) (d : Declaration) (k : Storage) :
    (s.add d).layer k =
      if d.storage.isClassLevel = k.isClassLevel then s.layer k ++ [d] else s.layer k := by
  unfold add layer
  cases d.storage.isClassLevel <;> cases k.isClassLevel <;> rfl

theorem filter_layer_add (s : Scope) (d : Declaration) (k : Storage) :
    ((s.add d).layer k).filter (fun e => e.storage == k) =
      (s.layer k).filter (fun e => e.storage == k) ++ if d.storage = k then [d] else [] := by
  rw [layer_add]
  by_cases hk : d.storage = k
  · rw [if_pos (congrArg Storage.isClassLevel hk), List.filter_append]
    simp [hk]
  · rw [if_neg hk]
    split
    · simp [List.filter_append, hk]
    · simp

/-- Declarations count like a counter that a declaration of its storage moves on by one. -/
theorem count_add (s : Scope) (d : Declaration) (k : Storage) :
    (s.add d).count k = s.count k + if d.storage = k then 1 else 0 := by
  simp only [count, List.countP_eq_length_filter, filter_layer_add, List.length_append]
  split <;> rfl

/-- The declarations are in order: each layer has its own storages and distinct names, and the
slots of each storage count from zero. -/
structure WellFormed (s : Scope) : Prop where
  storage : ∀ k, ∀ d ∈ s.layer k, d.storage.isClassLevel = k.isClassLevel
  names : ∀ k, ((s.layer k).map Declaration.name).Nodup
  slots : ∀ k, ((s.layer k).filter fun d => d.storage == k).map Declaration.slot =
    List.range (s.count k)

namespace WellFormed

variable {s : Scope}

theorem empty : WellFormed {} where
  storage k d hd := by
    cases k <;> exact (List.not_mem_nil hd).elim
  names k := by cases k <;> exact List.nodup_nil
  slots k := by cases k <;> rfl

/-- A new name at the next slot of its storage. -/
theorem add (h : s.WellFormed) {d : Declaration}
    (hname : d.name ∉ (s.layer d.storage).map Declaration.name)
    (hslot : d.slot = s.count d.storage) : (s.add d).WellFormed where
  storage k e he := by
    rw [layer_add] at he
    split at he
    · next hk =>
        rcases List.mem_append.mp he with he | he
        · exact h.storage k e he
        · rwa [List.mem_singleton.mp he]
    · exact h.storage k e he
  names k := by
    rw [layer_add]
    split
    · next hk =>
        rw [layer_congr s hk] at hname
        rw [List.map_append, List.map_singleton]
        refine List.Nodup.append (h.names k) (List.nodup_singleton _) ?_
        rw [List.disjoint_singleton]
        exact hname
    · exact h.names k
  slots k := by
    rw [filter_layer_add, count_add, List.map_append, h.slots k]
    split
    · next hk => rw [List.map_singleton, List.range_succ, hslot, hk]
    · exact List.append_nil _

theorem startSubroutine (h : s.WellFormed) : s.startSubroutine.WellFormed where
  storage k d hd := by
    cases k with
    | static | field => exact h.storage .static d hd
    | argument | localVar => exact (List.not_mem_nil hd).elim
  names k := by
    cases k with
    | static | field => exact h.names .static
    | argument | localVar => exact List.nodup_nil
  slots k := by
    cases k with
    | static => exact h.slots .static
    | field => exact h.slots .field
    | argument | localVar => rfl

end WellFormed

/-! ## Declaring a name -/

theorem define_eq_ite (s : Scope) (x type : String) (k : Storage) :
    s.define x type k =
      if x ∈ (s.layer k).map Declaration.name then .error (.duplicate x k.scopeName)
      else .ok (⟨x, type, k, s.count k⟩, s.add ⟨x, type, k, s.count k⟩) := by
  have hany : ((s.layer k).any fun d => d.name == x) = true ↔
      x ∈ (s.layer k).map Declaration.name := by
    simp only [List.any_eq_true, beq_iff_eq, List.mem_map]
  simp only [define, hany]

/-! ## Looking names up -/

theorem find?_name_of_mem {ds : List Declaration} (h : (ds.map Declaration.name).Nodup)
    {d : Declaration} (hd : d ∈ ds) : ds.find? (fun e => e.name == d.name) = some d := by
  induction ds with
  | nil => exact (List.not_mem_nil hd).elim
  | cons e ds ih =>
      rw [List.map_cons, List.nodup_cons] at h
      rcases List.mem_cons.mp hd with rfl | hd
      · simp
      · have hne : e.name ≠ d.name := fun heq =>
          h.1 (heq ▸ List.mem_map.mpr ⟨d, hd, rfl⟩)
        rw [List.find?_cons_of_neg (by simpa using hne)]
        exact ih h.2 hd

theorem find?_name_eq_none_iff {ds : List Declaration} {x : String} :
    ds.find? (fun d => d.name == x) = none ↔ x ∉ ds.map Declaration.name := by
  simp [List.find?_eq_none, List.mem_map]

/-- What a name resolves to is a declaration of that name in the layer of its storage. -/
theorem WellFormed.mem_of_lookup {s : Scope} (h : s.WellFormed) {x : String} {d : Declaration}
    (hd : s.lookup x = some d) : d.name = x ∧ d ∈ s.layer d.storage := by
  rw [lookup, Option.or_eq_some_iff] at hd
  rcases hd with hd | ⟨-, hd⟩
  · have hmem : d ∈ s.layer .argument := List.mem_of_find?_eq_some hd
    refine ⟨by simpa using List.find?_some hd, ?_⟩
    rwa [layer_congr s (h.storage .argument d hmem)]
  · have hmem : d ∈ s.layer .static := List.mem_of_find?_eq_some hd
    refine ⟨by simpa using List.find?_some hd, ?_⟩
    rwa [layer_congr s (h.storage .static d hmem)]

/-- Inside one storage, slots tell declarations apart. -/
theorem WellFormed.slots_injective {s : Scope} (h : s.WellFormed) {d e : Declaration}
    (hd : d ∈ s.layer d.storage) (he : e ∈ s.layer e.storage) (hstorage : d.storage = e.storage)
    (hslot : d.slot = e.slot) : d = e := by
  have hnodup : (((s.layer e.storage).filter fun c => c.storage == e.storage).map
      Declaration.slot).Nodup := by
    rw [h.slots]
    exact List.nodup_range
  have hd' : d ∈ (s.layer e.storage).filter fun c => c.storage == e.storage :=
    List.mem_filter.mpr ⟨hstorage ▸ hd, by simp [hstorage]⟩
  have he' : e ∈ (s.layer e.storage).filter fun c => c.storage == e.storage :=
    List.mem_filter.mpr ⟨he, by simp⟩
  exact List.inj_on_of_nodup_map hnodup hd' he' hslot

/-- The declarations of a storage are those of its layer. -/
theorem filter_layers {s : Scope} (h : s.WellFormed) (k : Storage) :
    (s.classLevel ++ s.subroutine).filter (fun d => d.storage == k) =
      (s.layer k).filter fun d => d.storage == k := by
  have hnone : ∀ j : Storage, j.isClassLevel ≠ k.isClassLevel →
      (s.layer j).filter (fun d => d.storage == k) = [] := by
    intro j hj
    rw [List.filter_eq_nil_iff]
    intro d hd hstorage
    rw [beq_iff_eq] at hstorage
    exact hj (hstorage ▸ (h.storage j d hd).symm)
  rw [List.filter_append]
  cases hk : k.isClassLevel with
  | true =>
      have hsubroutine := hnone .argument (by rw [hk]; decide)
      rw [show s.subroutine = s.layer .argument from rfl, hsubroutine, List.append_nil, layer, hk]
      rfl
  | false =>
      have hclass := hnone .static (by rw [hk]; decide)
      rw [show s.classLevel = s.layer .static from rfl, hclass, List.nil_append, layer, hk]
      rfl

end Scope

end Jack
