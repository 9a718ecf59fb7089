import Jack.Path

/-!
# Paths and their texts

A path in normal form can be read back from its text (`ofString_text`), and every path that has been
read is in normal form (`normal_ofString`). A name is its stem followed by its suffix
(`splitName_append`), so names with the same suffix differ in their stems.
-/

namespace Jack.Path

/-- What a path keeps as a part: no slash stands in it, and it is neither empty nor a single dot. -/
def IsPart (n : String) : Prop :=
  n ≠ "" ∧ n ≠ "." ∧ '/' ∉ n.toList

/-- Every part is one that a path keeps. -/
def Normal (p : Path) : Prop := ∀ n ∈ p.parts, IsPart n

/-! ## Fields -/

theorem fields_of_notMem {cs : List Char} (h : '/' ∉ cs) : fields cs = [cs] := by
  induction cs with
  | nil => rfl
  | cons c cs ih =>
      rw [List.mem_cons, not_or] at h
      rw [fields, if_neg (Ne.symm h.1), ih h.2]

theorem fields_append {f : List Char} (h : '/' ∉ f) (cs : List Char) :
    fields (f ++ '/' :: cs) = f :: fields cs := by
  induction f with
  | nil => rfl
  | cons c f ih =>
      rw [List.mem_cons, not_or] at h
      rw [List.cons_append, fields, if_neg (Ne.symm h.1), ih h.2]

theorem fields_eq_singleton_nil {cs : List Char} (h : fields cs = [[]]) : cs = [] := by
  cases cs with
  | nil => rfl
  | cons c cs =>
      rw [fields] at h
      split at h
      · have hnil : fields cs = [] := (List.cons.inj h).2
        cases cs with
        | nil => cases hnil
        | cons c' cs =>
            rw [fields] at hnil
            split at hnil
            · cases hnil
            · split at hnil <;> cases hnil
      · split at h <;> cases h

theorem notMem_of_mem_fields {cs f : List Char} (h : f ∈ fields cs) : '/' ∉ f := by
  induction cs generalizing f with
  | nil =>
      obtain rfl := List.mem_singleton.mp h
      exact List.not_mem_nil
  | cons c cs ih =>
      rw [fields] at h
      split at h
      · rcases List.mem_cons.mp h with rfl | h
        · exact List.not_mem_nil
        · exact ih h
      · next hc =>
          cases hfs : fields cs with
          | nil =>
              rw [hfs] at h
              obtain rfl := List.mem_singleton.mp h
              simpa using Ne.symm hc
          | cons g gs =>
              rw [hfs] at h ih
              rcases List.mem_cons.mp h with rfl | h
              · have hg := ih (List.mem_cons_self ..)
                rw [List.mem_cons, not_or]
                exact ⟨Ne.symm hc, hg⟩
              · exact ih (List.mem_cons_of_mem _ h)

/-- The part that a field stands for. -/
def partOf (f : List Char) : Option String :=
  if f = [] ∨ f = ['.'] then none else some (String.ofList f)

theorem ofString_parts (text : String) :
    (ofString text).parts = (fields text.toList).filterMap partOf := rfl

theorem partOf_toList {n : String} (h : IsPart n) : partOf n.toList = some n := by
  have hempty : n.toList ≠ [] := fun h' => h.1 (String.toList_eq_nil_iff.mp h')
  have hdot : n.toList ≠ ['.'] := by
    intro h'
    refine h.2.1 (String.toList_injective ?_)
    rw [h']
    rfl
  simp [partOf, hempty, hdot]

/-- Fields are read back from their text. -/
theorem filterMap_fields {parts : List String} (h : ∀ n ∈ parts, IsPart n) :
    (fields (String.intercalate "/" parts).toList).filterMap partOf = parts := by
  induction parts with
  | nil => rfl
  | cons n parts ih =>
      have hn := h n (List.mem_cons_self ..)
      cases parts with
      | nil =>
          rw [String.intercalate_singleton, fields_of_notMem hn.2.2]
          simp [partOf_toList hn]
      | cons m parts =>
          have hrest := ih fun k hk => h k (List.mem_cons_of_mem _ hk)
          have hslash : "/".toList = ['/'] := rfl
          rw [String.intercalate_cons_cons, String.toList_append, String.toList_append, hslash,
            List.append_assoc, List.singleton_append, fields_append hn.2.2,
            List.filterMap_cons_some (partOf_toList hn), hrest]

theorem normal_ofString (text : String) : (ofString text).Normal := by
  intro n hn
  rw [ofString_parts] at hn
  obtain ⟨f, hf, hpart⟩ := List.mem_filterMap.mp hn
  unfold partOf at hpart
  split at hpart
  · cases hpart
  · next hne =>
      obtain rfl := Option.some.inj hpart
      rw [not_or] at hne
      refine ⟨fun h => hne.1 ?_, fun h => hne.2 ?_, ?_⟩
      · simpa using congrArg String.toList h
      · simpa using congrArg String.toList h
      · rw [String.toList_ofList]
        exact notMem_of_mem_fields hf

/-! ## Anchors -/

/-- A text of parts does not start with a slash. -/
theorem head_intercalate {parts : List String} (h : ∀ n ∈ parts, IsPart n) :
    (String.intercalate "/" parts).toList.head? ≠ some '/' := by
  cases parts with
  | nil => simp
  | cons n parts =>
      have hn := h n (List.mem_cons_self ..)
      have hhead : (String.intercalate "/" (n :: parts)).toList.head? = n.toList.head? := by
        cases hcs : n.toList with
        | nil => exact absurd (String.toList_eq_nil_iff.mp hcs) hn.1
        | cons c cs => cases parts <;> simp [hcs]
      rw [hhead]
      intro hslash
      obtain ⟨cs, hcs⟩ := List.head?_eq_some_iff.mp hslash
      exact hn.2.2 (hcs ▸ List.mem_cons_self ..)

theorem anchorOf_text (anchor : Anchor) {cs : List Char} (h : cs.head? ≠ some '/') :
    anchorOf (anchor.text.toList ++ cs) = anchor := by
  have hroot : "/".toList = ['/'] := rfl
  have hdouble : "//".toList = ['/', '/'] := rfl
  cases anchor <;> simp only [Anchor.text, hroot, hdouble]
  all_goals
    unfold anchorOf
    split <;> grind

theorem filterMap_anchored (anchor : Anchor) (cs : List Char) :
    (fields (anchor.text.toList ++ cs)).filterMap partOf = (fields cs).filterMap partOf := by
  cases anchor <;> rfl

/-- A path in normal form is read back from its text. -/
theorem ofString_text {p : Path} (h : p.Normal) : ofString p.text = p := by
  obtain ⟨anchor, parts⟩ := p
  have hhead := head_intercalate h
  have hread : ofString (anchor.text ++ String.intercalate "/" parts) = ⟨anchor, parts⟩ := by
    have hanchor : anchorOf (anchor.text ++ String.intercalate "/" parts).toList = anchor := by
      rw [String.toList_append]
      exact anchorOf_text anchor hhead
    have hparts : (fields (anchor.text ++ String.intercalate "/" parts).toList).filterMap partOf =
        parts := by
      rw [String.toList_append, filterMap_anchored, filterMap_fields h]
    exact congr (congrArg Path.mk hanchor) hparts
  unfold text
  dsimp only
  split
  · next hempty =>
      rw [hempty] at hread
      rw [← hread]
      rfl
  · exact hread

/-! ## Names -/

@[simp] theorem parent_child (p : Path) (n : String) : (p.child n).parent = p := by
  simp [parent, child]

@[simp] theorem name_child (p : Path) (n : String) : (p.child n).name = n := by
  simp [name, child]

theorem name_ne_empty {p : Path} (hp : p.Normal) (hparts : p.parts ≠ []) : p.name ≠ "" := by
  unfold name
  rw [List.getLast?_eq_some_getLast hparts]
  exact (hp _ (List.getLast_mem hparts)).1

theorem withName_name {p : Path} (hparts : p.parts ≠ []) : p.withName p.name = p := by
  have hsplit : p.parts.dropLast ++ [p.name] = p.parts := by
    rw [name, List.getLast?_eq_some_getLast hparts, Option.getD_some]
    exact List.dropLast_concat_getLast hparts
  exact congrArg (Path.mk p.anchor) hsplit

theorem normal_child {p : Path} (hp : p.Normal) {n : String} (hn : IsPart n) :
    (p.child n).Normal := by
  intro m hm
  rcases List.mem_append.mp hm with hm | hm
  · exact hp m hm
  · rwa [List.mem_singleton.mp hm]

/-- A name is its stem and its suffix. -/
theorem splitName_append (n : String) : (splitName n).1 ++ (splitName n).2 = n := by
  unfold splitName
  dsimp only
  split
  · exact String.append_empty ..
  · next hends =>
      rw [not_or] at hends
      -- What is left behind the last dot, backwards, starts with that dot.
      have hdot : n.toList.reverse.dropWhile (· != '.') =
          '.' :: (n.toList.reverse.dropWhile (· != '.')).drop 1 := by
        cases hrest : n.toList.reverse.dropWhile (· != '.') with
        | nil => rw [hrest] at hends; exact absurd rfl hends.2
        | cons c cs =>
            have hc := List.head?_dropWhile_not (· != '.') n.toList.reverse
            rw [hrest] at hc
            have hc : c = '.' := by simpa using hc
            rw [hc]
            rfl
      have hsplit : n.toList.reverse.takeWhile (· != '.') ++
          '.' :: (n.toList.reverse.dropWhile (· != '.')).drop 1 = n.toList.reverse := by
        rw [← hdot, List.takeWhile_append_dropWhile]
      have hback := congrArg List.reverse hsplit
      rw [List.reverse_reverse, List.reverse_append, List.reverse_cons, List.append_assoc] at hback
      refine String.toList_injective ?_
      rw [String.toList_append, String.toList_ofList, String.toList_ofList]
      exact hback

theorem stem_append_suffix (p : Path) : p.stem ++ p.suffix = p.name :=
  splitName_append p.name

end Jack.Path
