import Jack.CommandLine.Run
import Jack.Proofs.FileTrees

/-!
# Deliveries

What compiled sources leave in a file tree when they are delivered one after the other. The names
under which something is delivered end like code or like listings (`deliveredNames`), so no delivery
touches a source; and the code of a source has the stem of the source, so the code of sources with
different stems is all there at the end (`read_of_deliverEach`).
-/

namespace Jack.CommandLine

/-! ## Names -/

theorem getLast?_append_vm (s : String) : (s ++ codeSuffix).toList.getLast? = some 'm' := by
  have h : codeSuffix.toList = ['.', 'v', 'm'] := rfl
  simp [h]

theorem getLast?_append_xml (s : String) : (s ++ ".xml").toList.getLast? = some 'l' := by
  have h : ".xml".toList = ['.', 'x', 'm', 'l'] := rfl
  simp [h]

theorem getLast?_of_suffix {n : String} (h : (Path.splitName n).2 = sourceSuffix) :
    n.toList.getLast? = some 'k' := by
  have hsuffix : sourceSuffix.toList = ['.', 'j', 'a', 'c', 'k'] := rfl
  rw [← Path.splitName_append n, h]
  simp [hsuffix]

/-! ## Delivering one source -/

/-- Where the code of a source goes when a directory is compiled: beside the source, or into the
output directory. -/
def codePath (a : Arguments) (source : Path) : Path :=
  ((a.output.map Path.ofString).getD source.parent).child (source.stem ++ codeSuffix)

theorem outputPath_eq (t : FileTree) (a : Arguments) {source : Path} (h : source.name ≠ "") :
    t.outputPath source (a.output.map Path.ofString) true = .ok (codePath a source) := by
  unfold FileTree.outputPath codePath
  rw [if_neg h]
  cases a.output with
  | none => rfl
  | some out => simp [Path.withSuffix, Path.withName]

/-- The listings that go with the code, by their names. -/
def listingFiles (a : Arguments) (source : Path) (r : Compiled) : List (String × String) :=
  (if a.tokens then [(source.stem ++ "T" ++ ".xml", r.tokenListing ++ "\n")] else []) ++
    (if a.tree then [(source.stem ++ ".xml", r.treeListing ++ "\n")] else [])

theorem outputs_child (a : Arguments) (source p : Path) (n : String) (r : Compiled) :
    outputs a source (p.child n) r =
      (p.child n, codeFile r.codeText) ::
        (listingFiles a source r).map fun f => (p.child f.1, f.2) := by
  have htokens : s!"{source.stem}T.xml" = source.stem ++ "T" ++ ".xml" := by
    rw [String.append_assoc]
    rfl
  have htree : s!"{source.stem}.xml" = source.stem ++ ".xml" := rfl
  unfold outputs listingFiles
  rw [htokens, htree]
  cases a.tokens <;> cases a.tree <;> simp [Path.withName]

theorem getLast?_listingFiles {a : Arguments} {source : Path} {r : Compiled} {f : String × String}
    (h : f ∈ listingFiles a source r) : f.1.toList.getLast? = some 'l' := by
  unfold listingFiles at h
  rcases List.mem_append.mp h with h | h
  · split at h
    · rw [List.mem_singleton.mp h]
      exact getLast?_append_xml _
    · cases h
  · split at h
    · rw [List.mem_singleton.mp h]
      exact getLast?_append_xml _
    · cases h

/-- Listings have other names than code. -/
theorem code_notMem_listingFiles (a : Arguments) (source : Path) (r : Compiled) (s : String) :
    s ++ codeSuffix ∉ (listingFiles a source r).map Prod.fst := by
  intro h
  obtain ⟨f, hf, hname⟩ := List.mem_map.mp h
  have hlast := getLast?_listingFiles hf
  rw [hname, getLast?_append_vm] at hlast
  exact absurd (Option.some.inj hlast) (by decide)

theorem ne_dots {n : String} {c : Char} (h : n.toList.getLast? = some c) (hc : c ≠ '.') :
    n ≠ ".." := by
  rintro rfl
  exact hc (Option.some.inj h).symm

theorem alters_of_writeAll {t t' : FileTree} {p : Path} {files : List (String × String)}
    (hdots : ∀ f ∈ files, f.1 ≠ "..")
    (h : writeAll t (files.map fun f => (p.child f.1, f.2)) = (t', none)) :
    t.Alters (files.map Prod.fst) t' := by
  induction files generalizing t with
  | nil =>
      obtain rfl := (Prod.mk.inj h).1
      exact .refl _ _
  | cons f files ih =>
      rw [List.map_cons, writeAll] at h
      split at h
      · cases (Prod.mk.inj h).2
      · next t₁ hwrite =>
          have hfirst := (FileTree.alters_of_write (hdots f (List.mem_cons_self ..))
            (FileTree.writeText_eq_ok hwrite)).1
          exact hfirst.trans (ih (fun g hg => hdots g (List.mem_cons_of_mem _ hg)) h)

/-- The names of what is delivered for a source. -/
def deliveredNames (a : Arguments) (source : Path) (r : Compiled) : List String :=
  (source.stem ++ codeSuffix) :: (listingFiles a source r).map Prod.fst

theorem getLast?_deliveredNames {a : Arguments} {source : Path} {r : Compiled} {n : String}
    (h : n ∈ deliveredNames a source r) : n.toList.getLast? ≠ some 'k' := by
  rcases List.mem_cons.mp h with rfl | h
  · rw [getLast?_append_vm]
    simp
  · obtain ⟨f, hf, rfl⟩ := List.mem_map.mp h
    rw [getLast?_listingFiles hf]
    simp

/-- The code of a source is delivered only with that source. -/
theorem stem_of_mem_deliveredNames {a : Arguments} {source source' : Path} {r : Compiled}
    (h : source'.stem ++ codeSuffix ∈ deliveredNames a source r) : source'.stem = source.stem := by
  rcases List.mem_cons.mp h with heq | h
  · exact (String.append_left_inj _).mp heq
  · exact absurd h (code_notMem_listingFiles a source r _)

/-- A delivery without a fault leaves everything but the names delivered alone, and the code is
there. -/
theorem deliver_alters {t t' : FileTree} {a : Arguments} {source : Path} {r : Compiled}
    (h : deliver t a source (codePath a source) r = (t', none)) :
    t.Alters (deliveredNames a source r) t' ∧
      t'.read (codePath a source) = .ok (Text.Utf8.encode (codeFile r.codeText)) := by
  unfold deliver at h
  split at h
  · cases (Prod.mk.inj h).2
  · next t₁ hmade =>
      have hdirectories := t.alters_makePath (codePath a source).parent
      rw [hmade] at hdirectories
      rw [codePath, outputs_child, writeAll] at h
      split at h
      · cases (Prod.mk.inj h).2
      · next t₂ hwrite =>
          have hdots : source.stem ++ codeSuffix ≠ ".." :=
            ne_dots (getLast?_append_vm _) (by decide)
          obtain ⟨hcode, hread⟩ :=
            FileTree.alters_of_write hdots (FileTree.writeText_eq_ok hwrite)
          have hlistings := alters_of_writeAll
            (fun f hf => ne_dots (getLast?_listingFiles hf) (by decide)) h
          exact ⟨hdirectories.trans (hcode.trans hlistings),
            hlistings.read hdots (code_notMem_listingFiles a source r _) hread⟩

/-! ## Delivering several sources -/

/-- Delivers compiled sources one after the other until one cannot be delivered. -/
def deliverEach (a : Arguments) (t : FileTree) :
    List (Path × Compiled) → FileTree × Option FileFault
  | [] => (t, none)
  | (q, r) :: more =>
    match deliver t a q (codePath a q) r with
    | (t', some f) => (t', some f)
    | (t', none) => deliverEach a t' more

theorem alters_of_deliverEach {a : Arguments} {ds : List (Path × Compiled)} {t t' : FileTree}
    (h : deliverEach a t ds = (t', none)) :
    t.Alters (ds.flatMap fun d => deliveredNames a d.1 d.2) t' := by
  induction ds generalizing t with
  | nil =>
      obtain rfl := (Prod.mk.inj h).1
      exact .refl _ _
  | cons d ds ih =>
      rw [deliverEach] at h
      split at h
      · cases (Prod.mk.inj h).2
      · next t₁ hdeliver =>
          rw [List.flatMap_cons]
          exact (deliver_alters hdeliver).1.trans (ih h)

/-- At the end the code of every source is there: no two sources have the same stem, so none is
written over. -/
theorem read_of_deliverEach {a : Arguments} {ds : List (Path × Compiled)} {t t' : FileTree}
    (hdistinct : ∀ d ∈ ds, ∀ d' ∈ ds, d.1.stem = d'.1.stem → d = d')
    (h : deliverEach a t ds = (t', none)) {d : Path × Compiled} (hd : d ∈ ds) :
    t'.read (codePath a d.1) = .ok (Text.Utf8.encode (codeFile d.2.codeText)) := by
  induction ds generalizing t with
  | nil => cases hd
  | cons d₀ ds ih =>
      rw [deliverEach] at h
      split at h
      · cases (Prod.mk.inj h).2
      · next t₁ hdeliver =>
          have hlater := fun d hd d' hd' =>
            hdistinct d (List.mem_cons_of_mem _ hd) d' (List.mem_cons_of_mem _ hd')
          by_cases hmem : d ∈ ds
          · exact ih hlater h hmem
          · obtain rfl : d = d₀ := (List.mem_cons.mp hd).resolve_right hmem
            refine (alters_of_deliverEach h).read (ne_dots (getLast?_append_vm _) (by decide)) ?_
              (deliver_alters hdeliver).2
            intro hname
            obtain ⟨d', hd', hname⟩ := List.mem_flatMap.mp hname
            have hsame := hdistinct d hd d' (List.mem_cons_of_mem _ hd')
              (stem_of_mem_deliveredNames hname)
            exact hmem (hsame ▸ hd')

end Jack.CommandLine
