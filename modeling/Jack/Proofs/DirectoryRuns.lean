import Jack.Proofs.Deliveries
import Jack.Proofs.Heights
import Jack.Proofs.Layout
import Jack.Proofs.Printing
import Jack.Proofs.Subjects

/-!
# Compiling a directory

The sources of a directory are compiled one after the other on one changing file tree. They are
independent all the same: what is delivered for one source is never another source (`SourcesKept`),
so every source compiles as it does in the tree before the run. Hence the loop does what compiling
all sources at first and delivering the results afterwards would do (`compileEach_delivered`), and a
run is told by how each source compiles on its own (`run_directory`).

That is so as long as the loop goes on behind each source that does not compile. It does if there is
something to complain about, but it ends where a numeral has more digits than are read
(`IsMisread`).
-/

namespace Jack

open Compile (Options)

/-! ## Compiling a text -/

/-- The listings asked for have no influence on the code. -/
theorem compileSource_listings {o : Options} {source file : String} {r : Compiled}
    (h : (compileSource o source file).result = .ok r) (o' : Options)
    (hknown : o.knownClasses = o'.knownClasses) (hstrict : o.strict = o'.strict) :
    ∃ r', (compileSource o' source file).result = .ok r' ∧ r'.code = r.code := by
  have hiff := Compile.compileSource_iff.mp ⟨r, h, rfl⟩
  rw [Options.allKnown, hknown, hstrict] at hiff
  exact Compile.compileSource_iff.mpr hiff

/-- A text that does not compile is complained about, or it has an integer with more digits than are
read. -/
theorem compileSource_fault {o : Options} {source file : String} {f : Compile.Fault}
    (h : (compileSource o source file).result = .error f) :
    (∃ d, f = .diagnostic d) ∨
      ∃ t ∈ (Token.scan source file).tokens, t.kind = .integer ∧ Text.maxDigits < t.text.length ∧
        f = .misread t.text (.tooLong t.text.length) := by
  rcases compileSource_located o source file with ⟨r, hr, -⟩ | ⟨d, -, hd, -⟩ | hlong
  · cases h.symm.trans hr
  · exact .inl ⟨d, Except.error.inj (h.symm.trans hd)⟩
  · obtain ⟨t, ht, hkind, hlength, hresult⟩ := hlong
    exact .inr ⟨t, ht, hkind, hlength, Except.error.inj (h.symm.trans hresult)⟩

/-- Compiling a file is compiling its text. -/
theorem FileTree.compileFile_eq {t : FileTree} {q : Path} (hq : q.Normal) (o : Options)
    {text : String} (htext : t.readText q = .ok text) :
    (t.compileFile o q.text).result =
      (compileSource o text q.text).result.mapError FileFault.source := by
  have hstatus : ∃ m, t.status q = .ok m := by
    unfold FileTree.readText at htext
    split at htext
    · cases htext
    · next bytes hread => exact ⟨_, FileTree.read_eq_ok.mp hread⟩
  obtain ⟨m, hm⟩ := hstatus
  simp [FileTree.compileFile, Path.ofString_text hq, hm, htext]

namespace CommandLine

/-! ## One source -/

@[simp] theorem tree_notes (w : Transcript) (verbose : Bool) (lines : List String) :
    (w.notes verbose lines).tree = w.tree := by
  unfold Transcript.notes
  split <;> rfl

@[simp] theorem stdout_notes (w : Transcript) (verbose : Bool) (lines : List String) :
    (w.notes verbose lines).stdout = w.stdout := by
  unfold Transcript.notes
  split <;> rfl

/-- What is said of a source that has been delivered. -/
def announcement (a : Arguments) (source : Path) : String :=
  Text.plainText s!"Compiled {source.text} -> {(codePath a source).text}\n"

section Turn

variable {a : Arguments} {o : Options} {w : Transcript} {q : Path} {r : Compiled} {t' : FileTree}

theorem compileOne_delivered (hname : q.name ≠ "")
    (hresult : (w.tree.compileFile o q.text).result = .ok r)
    (hdeliver : deliver w.tree a q (codePath a q) r = (t', none)) :
    ∃ w', compileOne a o true w q = .delivered w' ∧ w'.tree = t' ∧
      w'.stdout = w.stdout ++ announcement a q := by
  simp [compileOne, hresult, outputPath_eq _ a hname, hdeliver, Transcript.say, announcement]

theorem compileOne_hindered {f : FileFault} (hname : q.name ≠ "")
    (hresult : (w.tree.compileFile o q.text).result = .ok r)
    (hdeliver : deliver w.tree a q (codePath a q) r = (t', some f)) :
    ∃ e, compileOne a o true w q = .ended e ∧ e.transcript.tree = t' ∧
      e.status = (Trouble.ofFault f).status := by
  simp [compileOne, hresult, outputPath_eq _ a hname, hdeliver, Transcript.giveUp, Transcript.warn]

theorem compileOne_failed {d : Diagnostic}
    (hresult : (w.tree.compileFile o q.text).result = .error (.source (.diagnostic d))) :
    ∃ w', compileOne a o true w q = .failed w' ∧ w'.tree = w.tree ∧ w'.stdout = w.stdout := by
  simp [compileOne, hresult, Transcript.warn]

/-- A fault that is no complaint about the source ends the command. -/
theorem compileOne_ended (asDirectory : Bool) {f : FileFault}
    (hresult : (w.tree.compileFile o q.text).result = .error f)
    (hfault : ∀ d, f ≠ .source (.diagnostic d)) :
    ∃ e, compileOne a o asDirectory w q = .ended e ∧ e.transcript.tree = w.tree ∧
      e.status = (Trouble.ofFault f).status := by
  cases f with
  | source f =>
      cases f with
      | diagnostic d => exact absurd rfl (hfault d)
      | misread => simp [compileOne, hresult, Transcript.giveUp, Transcript.warn]
  | _ => simp [compileOne, hresult, Transcript.giveUp, Transcript.warn]

end Turn

/-! ## Sources -/

/-- How the sources of a directory are compiled: they know each other by their stems. -/
def directoryOptions (a : Arguments) (sources : List Path) : Options where
  knownClasses := sources.map Path.stem
  strict := a.strict
  listTokens := a.tokens
  listTree := a.tree

/-- A source of a directory that can be read as text. -/
structure IsSource (tree : FileTree) (dir q : Path) : Prop where
  named : ∃ n, q = dir.child n ∧ (Path.splitName n).2 = sourceSuffix
  normal : q.Normal
  text : ∃ text, tree.readText q = .ok text

/-- Compiling the source comes to an integer that is not read. -/
def IsMisread (tree : FileTree) (o : Options) (q : Path) : Prop :=
  ∃ text digits why, tree.readText q = .ok text ∧
    (compileSource o text q.text).result = .error (.misread digits why)

/-- The sources that compile, each taken from the same tree, with what they compile to. -/
def compiledSources (tree : FileTree) (o : Options) (sources : List Path) :
    List (Path × Compiled) :=
  sources.filterMap fun q => (tree.compileFile o q.text).result.toOption.map (q, ·)

/-- Whether files have changed only under names that no source has. -/
def SourcesKept (tree t : FileTree) : Prop :=
  ∃ ns, tree.Alters ns t ∧ ∀ n ∈ ns, n.toList.getLast? ≠ some 'k'

section Sources

variable {tree t t' : FileTree} {a : Arguments} {o : Options} {dir q : Path} {r : Compiled}

theorem IsSource.name_ne (h : IsSource tree dir q) : q.name ≠ "" := by
  obtain ⟨n, rfl, hn⟩ := h.named
  rw [Path.name_child]
  rintro rfl
  exact absurd (getLast?_of_suffix hn) (by decide)

theorem IsSource.decodes (h : IsSource tree dir q) {bytes : List UInt8}
    (hbytes : tree.read q = .ok bytes) : ∃ cs, Text.Utf8.decode bytes = .ok cs := by
  obtain ⟨text, htext⟩ := h.text
  unfold FileTree.readText at htext
  rw [hbytes] at htext
  cases hdecode : Text.Utf8.decode bytes with
  | ok cs => exact ⟨cs, rfl⟩
  | error f => simp [hdecode] at htext

/-- Sources of one directory with the same stem are the same. -/
theorem child_eq_of_stem {n n' : String} (hn : (Path.splitName n).2 = sourceSuffix)
    (hn' : (Path.splitName n').2 = sourceSuffix)
    (hstem : (dir.child n).stem = (dir.child n').stem) : dir.child n = dir.child n' := by
  simp only [Path.stem, Path.name_child] at hstem
  rw [← Path.splitName_append n, ← Path.splitName_append n', hstem, hn, hn']

theorem IsSource.eq_of_stem {q' : Path} (h : IsSource tree dir q) (h' : IsSource tree dir q')
    (hstem : q.stem = q'.stem) : q = q' := by
  obtain ⟨n, rfl, hn⟩ := h.named
  obtain ⟨n', rfl, hn'⟩ := h'.named
  exact child_eq_of_stem hn hn' hstem

theorem SourcesKept.trans (h : SourcesKept tree t) {ns : List String} (halters : t.Alters ns t')
    (hns : ∀ n ∈ ns, n.toList.getLast? ≠ some 'k') : SourcesKept tree t' := by
  obtain ⟨ms, hms, hlast⟩ := h
  refine ⟨ms ++ ns, hms.trans halters, fun n hn => ?_⟩
  rcases List.mem_append.mp hn with hn | hn
  · exact hlast n hn
  · exact hns n hn

theorem SourcesKept.deliver (h : SourcesKept tree t)
    (hdeliver : deliver t a q (codePath a q) r = (t', none)) : SourcesKept tree t' :=
  h.trans (deliver_alters hdeliver).1 fun _ => getLast?_deliveredNames

theorem SourcesKept.deliverEach (h : SourcesKept tree t) {ds : List (Path × Compiled)}
    (hdeliver : deliverEach a t ds = (t', none)) : SourcesKept tree t' := by
  refine h.trans (alters_of_deliverEach hdeliver) fun n hn => ?_
  obtain ⟨d, -, hmem⟩ := List.mem_flatMap.mp hn
  exact getLast?_deliveredNames hmem

theorem SourcesKept.node?_iff (h : SourcesKept tree t) {place : Place} {n : String}
    (hlast : place.getLast? = some n) (hn : (Path.splitName n).2 = sourceSuffix)
    (content : List UInt8) :
    t.node? place = some (.file content) ↔ tree.node? place = some (.file content) := by
  obtain ⟨ns, halters, hns⟩ := h
  exact halters.files place n hlast (fun hmem => hns n hmem (getLast?_of_suffix hn)) content

/-- A source reads as before. -/
theorem SourcesKept.readText (h : SourcesKept tree t) (hq : IsSource tree dir q) {text : String}
    (htext : tree.readText q = .ok text) : t.readText q = .ok text := by
  obtain ⟨ns, halters, hns⟩ := h
  obtain ⟨n, rfl, hn⟩ := hq.named
  have hlast := getLast?_of_suffix hn
  exact halters.readText (ne_dots hlast (by decide)) (fun hmem => hns n hmem hlast) htext

/-- A source compiles as before. -/
theorem SourcesKept.compileFile (h : SourcesKept tree t) (hq : IsSource tree dir q) (o : Options) :
    (t.compileFile o q.text).result = (tree.compileFile o q.text).result := by
  obtain ⟨text, htext⟩ := hq.text
  rw [FileTree.compileFile_eq hq.normal o htext,
    FileTree.compileFile_eq hq.normal o (h.readText hq htext)]

/-- A source is misread because of an integer with too many digits. -/
theorem IsMisread.exists_long (h : IsMisread tree o q) :
    ∃ text, tree.readText q = .ok text ∧ ∃ t ∈ (Token.scan text q.text).tokens,
      t.kind = .integer ∧ Text.maxDigits < t.text.length := by
  obtain ⟨text, digits, why, htext, hresult⟩ := h
  rcases compileSource_fault hresult with ⟨d, hd⟩ | ⟨t, ht, hkind, hlong, -⟩
  · cases hd
  · exact ⟨text, htext, t, ht, hkind, hlong⟩

theorem IsSource.compileFile_misread (h : IsSource tree dir q) (hmisread : IsMisread tree o q) :
    ∃ digits why,
      (tree.compileFile o q.text).result = .error (.source (.misread digits why)) := by
  obtain ⟨text, digits, why, htext, hresult⟩ := hmisread
  exact ⟨digits, why, by rw [FileTree.compileFile_eq h.normal o htext, hresult]; rfl⟩

/-- A source that does not compile is complained about, unless it is misread. -/
theorem IsSource.diagnostic (h : IsSource tree dir q) (hread : ¬IsMisread tree o q) {f : FileFault}
    (hresult : (tree.compileFile o q.text).result = .error f) :
    ∃ d, f = .source (.diagnostic d) := by
  obtain ⟨text, htext⟩ := h.text
  rw [FileTree.compileFile_eq h.normal o htext] at hresult
  cases hsource : (compileSource o text q.text).result with
  | ok r =>
      rw [hsource] at hresult
      cases hresult
  | error fault =>
      rw [hsource] at hresult
      cases fault with
      | diagnostic d => exact ⟨d, (Except.error.inj hresult).symm⟩
      | misread digits why => exact absurd ⟨text, digits, why, htext, hsource⟩ hread

theorem compiledSources_cons_ok (ps : List Path)
    (h : (tree.compileFile o q.text).result = .ok r) :
    compiledSources tree o (q :: ps) = (q, r) :: compiledSources tree o ps := by
  simp [compiledSources, h, Except.toOption]

theorem compiledSources_cons_error (ps : List Path) {f : FileFault}
    (h : (tree.compileFile o q.text).result = .error f) :
    compiledSources tree o (q :: ps) = compiledSources tree o ps := by
  simp [compiledSources, h, Except.toOption]

theorem mem_compiledSources {ps : List Path} {d : Path × Compiled} :
    d ∈ compiledSources tree o ps ↔
      d.1 ∈ ps ∧ (tree.compileFile o d.1.text).result = .ok d.2 := by
  induction ps with
  | nil => simp [compiledSources]
  | cons q ps ih =>
      cases hresult : (tree.compileFile o q.text).result with
      | error f => grind [compiledSources_cons_error ps hresult]
      | ok r => grind [compiledSources_cons_ok ps hresult]

theorem mem_map_compiledSources {ps : List Path} :
    q ∈ (compiledSources tree o ps).map Prod.fst ↔
      q ∈ ps ∧ ∃ r, (tree.compileFile o q.text).result = .ok r := by
  rw [List.mem_map]
  constructor
  · rintro ⟨d, hd, rfl⟩
    obtain ⟨hq, hr⟩ := mem_compiledSources.mp hd
    exact ⟨hq, d.2, hr⟩
  · rintro ⟨hq, r, hr⟩
    exact ⟨(q, r), mem_compiledSources.mpr ⟨hq, hr⟩, rfl⟩

end Sources

/-! ## The loop -/

/-- Whether each of the sources compiles. -/
def AllCompile (tree : FileTree) (o : Options) (ps : List Path) : Prop :=
  ∀ q ∈ ps, ∃ r, (tree.compileFile o q.text).result = .ok r

/-- How the loop over sources ends: with the tree that delivering those that compile leaves. If they
all can be delivered, each of them is announced and the status tells whether there were others; else
the status is that of the fault. -/
structure EndsDelivered (tree : FileTree) (a : Arguments) (o : Options) (w : Transcript)
    (failures : Nat) (ps : List Path) (e : Ending) : Prop where
  tree_eq : e.transcript.tree = (deliverEach a w.tree (compiledSources tree o ps)).1
  stdout_eq : (deliverEach a w.tree (compiledSources tree o ps)).2 = none →
    e.transcript.stdout =
      w.stdout ++ String.join ((compiledSources tree o ps).map fun d => announcement a d.1)
  status_eq : (deliverEach a w.tree (compiledSources tree o ps)).2 = none →
    (failures = 0 ∧ AllCompile tree o ps → e.status = .success) ∧
      (¬(failures = 0 ∧ AllCompile tree o ps) → e.status = .buildError)
  fault_eq : ∀ f, (deliverEach a w.tree (compiledSources tree o ps)).2 = some f →
    e.status = (Trouble.ofFault f).status

section Loop

variable {tree t' : FileTree} {a : Arguments} {o : Options} {w w' : Transcript} {failures : Nat}
  {ps : List Path} {q : Path} {r : Compiled} {f : FileFault} {e : Ending}

theorem allCompile_cons_ok (h : (tree.compileFile o q.text).result = .ok r) :
    AllCompile tree o (q :: ps) ↔ AllCompile tree o ps := by
  simp [AllCompile, h]

theorem not_allCompile_cons (h : (tree.compileFile o q.text).result = .error f) :
    ¬AllCompile tree o (q :: ps) := by
  simp [AllCompile, h]

theorem EndsDelivered.failed (hresult : (tree.compileFile o q.text).result = .error f)
    (htree : w'.tree = w.tree) (hstdout : w'.stdout = w.stdout)
    (h : EndsDelivered tree a o w' (failures + 1) ps e) :
    EndsDelivered tree a o w failures (q :: ps) e := by
  have hsame := compiledSources_cons_error ps hresult
  refine ⟨?_, ?_, ?_, ?_⟩ <;> rw [hsame, ← htree]
  · exact h.tree_eq
  · rw [← hstdout]
    exact h.stdout_eq
  · intro hfree
    refine ⟨fun hall => absurd hall.2 (not_allCompile_cons hresult), fun _ => ?_⟩
    exact (h.status_eq hfree).2 (by omega)
  · exact h.fault_eq

theorem EndsDelivered.delivered (hresult : (tree.compileFile o q.text).result = .ok r)
    (hdeliver : deliver w.tree a q (codePath a q) r = (w'.tree, none))
    (hstdout : w'.stdout = w.stdout ++ announcement a q)
    (h : EndsDelivered tree a o w' failures ps e) :
    EndsDelivered tree a o w failures (q :: ps) e := by
  have hmore := compiledSources_cons_ok ps hresult
  have hfirst : deliverEach a w.tree (compiledSources tree o (q :: ps)) =
      deliverEach a w'.tree (compiledSources tree o ps) := by
    rw [hmore, deliverEach, hdeliver]
  refine ⟨?_, ?_, ?_, ?_⟩ <;> rw [hfirst]
  · exact h.tree_eq
  · intro hfree
    rw [h.stdout_eq hfree, hstdout, hmore, List.map_cons, String.join_cons, String.append_assoc]
  · rw [allCompile_cons_ok hresult]
    exact h.status_eq
  · exact h.fault_eq

theorem EndsDelivered.hindered (hresult : (tree.compileFile o q.text).result = .ok r)
    (hdeliver : deliver w.tree a q (codePath a q) r = (t', some f))
    (htree : e.transcript.tree = t') (hstatus : e.status = (Trouble.ofFault f).status) :
    EndsDelivered tree a o w failures (q :: ps) e := by
  have hfirst : deliverEach a w.tree (compiledSources tree o (q :: ps)) = (t', some f) := by
    rw [compiledSources_cons_ok ps hresult, deliverEach, hdeliver]
  refine ⟨?_, ?_, ?_, ?_⟩ <;> rw [hfirst]
  · exact htree
  · intro h
    cases h
  · intro h
    cases h
  · rintro f' hf
    obtain rfl := Option.some.inj hf
    exact hstatus

/-- Such a fault ends the loop as it is. -/
theorem compileEach_ended (total failures : Nat) {f : FileFault}
    (hresult : (w.tree.compileFile o q.text).result = .error f)
    (hfault : ∀ d, f ≠ .source (.diagnostic d)) (rest : List Path) :
    let ending := compileEach a o true total w failures (q :: rest)
    ending.transcript.tree = w.tree ∧ ending.status = (Trouble.ofFault f).status := by
  obtain ⟨e, hone, htree, hstatus⟩ := compileOne_ended (a := a) true hresult hfault
  simp [compileEach, hone, htree, hstatus]

/-- A misread source ends the loop. -/
theorem compileEach_misread (total failures : Nat) {dir : Path} (hq : IsSource w.tree dir q)
    (hmisread : IsMisread w.tree o q) (rest : List Path) :
    (compileEach a o true total w failures (q :: rest)).transcript.tree = w.tree ∧
      (compileEach a o true total w failures (q :: rest)).status = .internalError := by
  obtain ⟨digits, why, hresult⟩ := hq.compileFile_misread hmisread
  exact compileEach_ended total failures hresult (fun d h => by cases h) rest

/-- The sources are compiled as if they had all been compiled at first and then delivered. -/
theorem compileEach_delivered {dir : Path} (total : Nat) (hps : ∀ q ∈ ps, IsSource tree dir q)
    (hread : ∀ q ∈ ps, ¬IsMisread tree o q) (hkept : SourcesKept tree w.tree) :
    EndsDelivered tree a o w failures ps (compileEach a o true total w failures ps) := by
  induction ps generalizing w failures with
  | nil =>
      by_cases hfailures : failures = 0
      · refine ⟨?_, ?_, ?_, ?_⟩ <;>
          simp [compileEach, hfailures, compiledSources, deliverEach, AllCompile]
      · refine ⟨?_, ?_, ?_, ?_⟩ <;>
          simp [compileEach, hfailures, compiledSources, deliverEach, Transcript.warn]
  | cons q ps ih =>
      obtain ⟨hq, hlater⟩ := List.forall_mem_cons.mp hps
      obtain ⟨hqread, hread⟩ := List.forall_mem_cons.mp hread
      -- What has been delivered so far has no influence on how the next source compiles.
      have hturn := hkept.compileFile hq o
      rw [compileEach]
      cases hresult : (tree.compileFile o q.text).result with
      | error f =>
          obtain ⟨d, rfl⟩ := hq.diagnostic hqread hresult
          obtain ⟨w', hone, htree, hstdout⟩ := compileOne_failed (a := a) (hturn.trans hresult)
          rw [hone]
          exact .failed hresult htree hstdout (ih hlater hread (htree ▸ hkept))
      | ok r =>
          cases hdeliver : deliver w.tree a q (codePath a q) r with
          | mk t' fault =>
              cases fault with
              | none =>
                  obtain ⟨w', hone, rfl, hstdout⟩ :=
                    compileOne_delivered hq.name_ne (hturn.trans hresult) hdeliver
                  rw [hone]
                  exact .delivered hresult hdeliver hstdout
                    (ih hlater hread (hkept.deliver hdeliver))
              | some f =>
                  obtain ⟨e, hone, htree, hstatus⟩ :=
                    compileOne_hindered hq.name_ne (hturn.trans hresult) hdeliver
                  rw [hone]
                  exact .hindered hresult hdeliver htree hstatus

end Loop

/-! ## The whole run -/

/-- A file of a directory with the suffix of sources. -/
def IsSourceFile (tree : FileTree) (dir q : Path) : Prop :=
  ∃ n, q = dir.child n ∧ (Path.splitName n).2 = sourceSuffix ∧ tree.isFile q = true

section Run

variable {tree : FileTree} {a : Arguments} {given : String} {sources : List Path} {q : Path}

theorem mem_findSources (hdir : tree.isDirectory (.ofString given) = true)
    (hsources : tree.findSources given = .ok sources) :
    q ∈ sources ↔ IsSourceFile tree (.ofString given) q := by
  unfold FileTree.findSources at hsources
  simp only [FileTree.status_of_isDirectory hdir] at hsources
  obtain rfl := Except.ok.inj hsources
  simp only [List.mem_filter, List.mem_map, List.mem_mergeSort, Bool.and_eq_true, beq_iff_eq]
  constructor
  · rintro ⟨⟨n, -, rfl⟩, hsuffix, hfile⟩
    exact ⟨n, rfl, by simpa [Path.suffix] using hsuffix, hfile⟩
  · rintro ⟨n, rfl, hsuffix, hfile⟩
    have hmem := FileTree.mem_names (ne_dots (getLast?_of_suffix hsuffix) (by decide)) hfile
    exact ⟨⟨n, hmem, rfl⟩, by simpa [Path.suffix] using hsuffix, hfile⟩

/-- A name with the suffix of sources is a part of paths. -/
theorem isPart_of_suffix {n : String} (hsuffix : (Path.splitName n).2 = sourceSuffix)
    (hslash : '/' ∉ n.toList) : Path.IsPart n := by
  have hlast := getLast?_of_suffix hsuffix
  refine ⟨?_, ?_, hslash⟩
  · rintro rfl
    exact absurd hlast (by decide)
  · rintro rfl
    exact absurd hlast (by decide)

theorem IsSourceFile.normal {dir : Path} (hnormal : dir.Normal)
    (hslash : ∀ e ∈ tree.entries, ∀ n ∈ e.1, '/' ∉ n.toList) (h : IsSourceFile tree dir q) :
    q.Normal := by
  obtain ⟨n, rfl, hsuffix, hfile⟩ := h
  have hmem := FileTree.mem_names (ne_dots (getLast?_of_suffix hsuffix) (by decide)) hfile
  obtain ⟨e, he, hn⟩ := FileTree.mem_entries_of_mem_names hmem
  exact Path.normal_child hnormal (isPart_of_suffix hsuffix (hslash e he n hn))

theorem isSource_of_isSourceFile {dir : Path} (hnormal : dir.Normal)
    (hslash : ∀ e ∈ tree.entries, ∀ n ∈ e.1, '/' ∉ n.toList)
    (hutf8 : ∀ bytes, tree.read q = .ok bytes → ∃ cs, Text.Utf8.decode bytes = .ok cs)
    (h : IsSourceFile tree dir q) : IsSource tree dir q := by
  have hq := h.normal hnormal hslash
  obtain ⟨n, rfl, hsuffix, hfile⟩ := h
  obtain ⟨bytes, hbytes⟩ := FileTree.isFile_iff.mp hfile
  obtain ⟨cs, hcs⟩ := hutf8 bytes hbytes
  exact ⟨⟨n, rfl, hsuffix⟩, hq, String.ofList (Text.foldLineEnds cs),
    by simp [FileTree.readText, hbytes, hcs]⟩

theorem isSource_of_mem (hdir : tree.isDirectory (.ofString given) = true)
    (hslash : ∀ e ∈ tree.entries, ∀ n ∈ e.1, '/' ∉ n.toList)
    (hsources : tree.findSources given = .ok sources)
    (hutf8 : ∀ q, IsSourceFile tree (.ofString given) q →
      ∀ bytes, tree.read q = .ok bytes → ∃ cs, Text.Utf8.decode bytes = .ok cs)
    (hq : q ∈ sources) : IsSource tree (.ofString given) q := by
  have hfile := (mem_findSources hdir hsources).mp hq
  exact isSource_of_isSourceFile (Path.normal_ofString given) hslash (hutf8 q hfile) hfile

theorem run_eq_compileEach {arguments : List String}
    (hread : Arguments.read {} arguments = .ok a) (hinquiry : a.inquiry = none)
    (hoperands : a.operands = [given]) (hgiven : given ≠ "")
    (hdir : tree.isDirectory (.ofString given) = true)
    (hsources : tree.findSources given = .ok sources) (hsome : sources ≠ []) :
    run tree arguments =
      compileEach a (directoryOptions a sources) true sources.length { tree := tree } 0 sources := by
  have hcompile : run tree arguments = compileAll a given { tree := tree } := by
    simp [run, hread, hinquiry, hoperands, FileTree.holdsTyped_of_isDirectory hgiven hdir]
  rw [hcompile]
  unfold compileAll
  simp only [hsources, hdir, if_true]
  rfl

/-- What a source of a directory compiles to on its own: from its text in the tree, with the stems
of all sources known. -/
def Yields (tree : FileTree) (a : Arguments) (sources : List Path) (q : Path) (r : Compiled) :
    Prop :=
  ∃ text, tree.readText q = .ok text ∧
    (compileSource { knownClasses := sources.map Path.stem, strict := a.strict } text
      q.text).result = .ok r

theorem IsSource.compileFile_iff {dir : Path} {o : Options} {r : Compiled}
    (hq : IsSource tree dir q) :
    (tree.compileFile o q.text).result = .ok r ↔
      ∃ text, tree.readText q = .ok text ∧ (compileSource o text q.text).result = .ok r := by
  obtain ⟨text, htext⟩ := hq.text
  rw [FileTree.compileFile_eq hq.normal o htext]
  simp only [htext, Except.ok.injEq, exists_eq_left']
  cases (compileSource o text q.text).result with
  | error f =>
      constructor
      · intro h
        cases h
      · intro h
        cases h
  | ok r' =>
      show Except.ok r' = Except.ok r ↔ _
      rw [Except.ok.injEq, Except.ok.injEq]

/-- A source that compiles on its own does so with the listings asked for, to the same code. -/
theorem Yields.compileFile {dir : Path} {r : Compiled} (hq : IsSource tree dir q)
    (h : Yields tree a sources q r) :
    ∃ r', (tree.compileFile (directoryOptions a sources) q.text).result = .ok r' ∧
      r'.codeText = r.codeText := by
  obtain ⟨text, htext, hresult⟩ := h
  obtain ⟨r', hr', hcode⟩ := compileSource_listings hresult (directoryOptions a sources) rfl rfl
  exact ⟨r', hq.compileFile_iff.mpr ⟨text, htext, hr'⟩, congrArg Instruction.listing hcode⟩

theorem distinct_compiledSources {dir : Path} {o : Options}
    (hgenuine : ∀ q ∈ sources, IsSource tree dir q) :
    ∀ d ∈ compiledSources tree o sources, ∀ d' ∈ compiledSources tree o sources,
      d.1.stem = d'.1.stem → d = d' := by
  rintro ⟨q, r⟩ hd ⟨q', r'⟩ hd' hstem
  obtain ⟨hq, hr⟩ := mem_compiledSources.mp hd
  obtain ⟨hq', hr'⟩ := mem_compiledSources.mp hd'
  obtain rfl := (hgenuine q hq).eq_of_stem (hgenuine q' hq') hstem
  exact congrArg (Prod.mk q) (Except.ok.inj (hr.symm.trans hr'))

theorem exists_yields_iff {dir : Path} (hq : IsSource tree dir q) :
    (∃ r, Yields tree a sources q r) ↔
      ∃ r, (tree.compileFile (directoryOptions a sources) q.text).result = .ok r := by
  constructor
  · rintro ⟨r, hr⟩
    obtain ⟨r', hr', -⟩ := hr.compileFile hq
    exact ⟨r', hr'⟩
  · rintro ⟨r', hr'⟩
    obtain ⟨text, htext, hresult⟩ := hq.compileFile_iff.mp hr'
    obtain ⟨r, hr, -⟩ := compileSource_listings hresult
      { knownClasses := sources.map Path.stem, strict := a.strict } rfl rfl
    exact ⟨r, text, htext, hr⟩

theorem allCompile_iff {dir : Path} (hgenuine : ∀ q ∈ sources, IsSource tree dir q) :
    AllCompile tree (directoryOptions a sources) sources ↔
      ∀ q ∈ sources, ∃ r, Yields tree a sources q r :=
  forall₂_congr fun q hq => (exists_yields_iff (hgenuine q hq)).symm

theorem mem_compiled_iff {dir : Path} (hgenuine : ∀ q ∈ sources, IsSource tree dir q) :
    q ∈ (compiledSources tree (directoryOptions a sources) sources).map Prod.fst ↔
      q ∈ sources ∧ ∃ r, Yields tree a sources q r := by
  rw [mem_map_compiledSources]
  exact and_congr_right fun hq => (exists_yields_iff (hgenuine q hq)).symm

/-- The code that a source yields is where it belongs once it is delivered with others. -/
theorem Yields.read_code {dir : Path} {r : Compiled} {ps : List Path} {after : FileTree}
    (h : Yields tree a sources q r) (hgenuine : ∀ q ∈ ps, IsSource tree dir q) (hq : q ∈ ps)
    (hdeliver : deliverEach a tree (compiledSources tree (directoryOptions a sources) ps) =
      (after, none)) :
    after.read (codePath a q) = .ok (Text.Utf8.encode (codeFile r.codeText)) := by
  obtain ⟨r', hr', htext⟩ := h.compileFile (hgenuine q hq)
  have hmem : (q, r') ∈ compiledSources tree (directoryOptions a sources) ps :=
    mem_compiledSources.mpr ⟨hq, hr'⟩
  rw [← htext]
  exact read_of_deliverEach (distinct_compiledSources hgenuine) hdeliver hmem

/-- A run on a directory compiles every source as if it were alone. Let the sources be texts in
which no integer is misread, and let every delivery of those that compile succeed. Then no file with
the suffix of sources changes; those sources are announced that compile on their own; their code is
where it belongs at the end; the tree is the one that their deliveries leave, so nothing is done for
the others; and the status tells whether there are others. -/
theorem run_directory {arguments : List String}
    (hread : Arguments.read {} arguments = .ok a) (hinquiry : a.inquiry = none)
    (hoperands : a.operands = [given]) (hgiven : given ≠ "")
    (hdir : tree.isDirectory (.ofString given) = true)
    (hslash : ∀ e ∈ tree.entries, ∀ n ∈ e.1, '/' ∉ n.toList)
    (hsources : tree.findSources given = .ok sources)
    (hsome : ∃ q, IsSourceFile tree (.ofString given) q)
    (hutf8 : ∀ q, IsSourceFile tree (.ofString given) q →
      ∀ bytes, tree.read q = .ok bytes → ∃ cs, Text.Utf8.decode bytes = .ok cs)
    (hdigits : ∀ q ∈ sources, ¬IsMisread tree (directoryOptions a sources) q)
    (hfree : (deliverEach a tree
      (compiledSources tree (directoryOptions a sources) sources)).2 = none) :
    let ending := run tree arguments
    let after := ending.transcript.tree
    let compiled := compiledSources tree (directoryOptions a sources) sources
    (∀ q, q ∈ sources ↔ IsSourceFile tree (.ofString given) q) ∧
      (∀ place n content, place.getLast? = some n → (Path.splitName n).2 = sourceSuffix →
        (after.node? place = some (.file content) ↔ tree.node? place = some (.file content))) ∧
      ending.transcript.stdout = String.join (compiled.map fun d => announcement a d.1) ∧
      (∀ q, q ∈ compiled.map Prod.fst ↔ q ∈ sources ∧ ∃ r, Yields tree a sources q r) ∧
      (∀ q ∈ sources, ∀ r, Yields tree a sources q r →
        after.read (codePath a q) = .ok (Text.Utf8.encode (codeFile r.codeText))) ∧
      after = (deliverEach a tree compiled).1 ∧
      ((∀ q ∈ sources, ∃ r, Yields tree a sources q r) → ending.status.code = 0) ∧
      ((∃ q ∈ sources, ∀ r, ¬Yields tree a sources q r) → ending.status.code = 1) := by
  intro ending after compiled
  have hfound : ∀ q, q ∈ sources ↔ IsSourceFile tree (.ofString given) q :=
    fun q => mem_findSources hdir hsources
  have hgenuine : ∀ q ∈ sources, IsSource tree (.ofString given) q :=
    fun q => isSource_of_mem hdir hslash hsources hutf8
  have hnonempty : sources ≠ [] := by
    obtain ⟨q, hq⟩ := hsome
    exact List.ne_nil_of_mem ((hfound q).mpr hq)
  have hrun : ending = compileEach a (directoryOptions a sources) true sources.length
      { tree := tree } 0 sources :=
    run_eq_compileEach hread hinquiry hoperands hgiven hdir hsources hnonempty
  have hunchanged : SourcesKept tree tree := ⟨[], .refl _ _, nofun⟩
  have hends : EndsDelivered tree a (directoryOptions a sources) { tree := tree } 0 sources
      ending := hrun ▸ compileEach_delivered _ hgenuine hdigits hunchanged
  have hdeliver : deliverEach a tree compiled = (after, none) :=
    Prod.ext hends.tree_eq.symm hfree
  obtain ⟨hsuccess, hfailure⟩ := hends.status_eq hfree
  rw [allCompile_iff hgenuine] at hsuccess hfailure
  refine ⟨hfound, fun place n content hlast hn => ?_, by simpa using hends.stdout_eq hfree,
    fun q => mem_compiled_iff hgenuine, fun q hq r hr => hr.read_code hgenuine hq hdeliver,
    hends.tree_eq, fun hevery => ?_, ?_⟩
  · exact (hunchanged.deliverEach hdeliver).node?_iff hlast hn content
  · rw [hsuccess ⟨rfl, hevery⟩]
    rfl
  · rintro ⟨q, hq, hnone⟩
    rw [hfailure fun hevery => (hevery.2 q hq).elim hnone]
    rfl

end Run

/-! ## A directory with a class and another source -/

def fragmentPath : Path := .ofString "src/Broken.jack"

def counterPath : Path := .ofString "src/Counter.jack"

/-- A directory with a class, and another source in front of it. -/
def treeBeside (other : List UInt8) : FileTree where
  entries :=
    [(["src"], .directory), (["src", "Broken.jack"], .file other),
      (["src", "Counter.jack"], .file (Text.Utf8.encode counterSource))]

theorem sourcePath_eq : Path.ofString "src" = ⟨.relative, ["src"]⟩ := by decide

theorem treeBeside_directory (other : List UInt8) :
    (treeBeside other).isDirectory (.ofString "src") = true := by
  rw [sourcePath_eq]
  rfl

theorem treeBeside_names (other : List UInt8) :
    ∀ e ∈ (treeBeside other).entries, ∀ n ∈ e.1, '/' ∉ n.toList := by
  simp [treeBeside]

theorem treeBeside_sources (other : List UInt8) :
    (treeBeside other).findSources "src" = .ok [fragmentPath, counterPath] := by
  have hstatus : (treeBeside other).status (.ofString "src") = .ok .directory := by
    rw [sourcePath_eq]
    rfl
  have hnames : (treeBeside other).names (.ofString "src") = ["Broken.jack", "Counter.jack"] := by
    rw [sourcePath_eq]
    rfl
  unfold FileTree.findSources
  simp only [hstatus, hnames]
  rw [List.mergeSort_of_pairwise (by decide)]
  rfl

theorem fragmentPath_named :
    ∃ n, fragmentPath = (Path.ofString "src").child n ∧ (Path.splitName n).2 = sourceSuffix :=
  ⟨"Broken.jack", by decide⟩

theorem counter_text (other : List UInt8) :
    (treeBeside other).readText counterPath = .ok counterSource :=
  FileTree.readText_of_plain rfl (by decide +kernel)

theorem counter_isSource (other : List UInt8) :
    IsSource (treeBeside other) (.ofString "src") counterPath where
  named := ⟨"Counter.jack", by decide⟩
  normal := Path.normal_ofString _
  text := ⟨counterSource, counter_text other⟩

/-- The class compiles, whatever other classes there are. -/
theorem counter_compiles (known : List String) :
    ∃ r, (compileSource { knownClasses := known, strict := true } counterSource
        counterPath.text).result = .ok r ∧
      r.code = Compile.counter.code := by
  obtain ⟨hscan, hspells⟩ := counterSource_scan counterPath.text
  exact Compile.compileSource_iff.mpr
    ⟨hscan, Compile.counter, hspells, Compile.counter_obeys _, rfl⟩

/-- The code is to go beside the sources. -/
def besideArguments : Arguments where
  strict := true
  operands := ["src"]

/-- There is no code beside the sources. -/
theorem treeBeside_read (other : List UInt8) :
    (treeBeside other).read (codePath besideArguments counterPath) = .error .noEntry := by
  have hcode : codePath besideArguments counterPath = ⟨.relative, ["src", "Counter.vm"]⟩ := by
    decide
  rw [hcode]
  rfl

theorem counter_yields_beside (other : List UInt8) :
    ∃ r, Yields (treeBeside other) besideArguments [fragmentPath, counterPath] counterPath r := by
  obtain ⟨r, hr, -⟩ := counter_compiles ([fragmentPath, counterPath].map Path.stem)
  exact ⟨r, counterSource, counter_text other, hr⟩

/-- Where the other source ends the loop, the code of the class is not there at the end. -/
theorem run_stopped_beside {other : List UInt8}
    (hstop : (compileEach besideArguments
          (directoryOptions besideArguments [fragmentPath, counterPath]) true 2
          { tree := treeBeside other } 0 [fragmentPath, counterPath]).transcript.tree =
        treeBeside other ∧
      (compileEach besideArguments
          (directoryOptions besideArguments [fragmentPath, counterPath]) true 2
          { tree := treeBeside other } 0 [fragmentPath, counterPath]).status = .internalError) :
    (run (treeBeside other) ["src", "--strict-classes"]).transcript.tree.read
        (codePath besideArguments counterPath) = .error .noEntry ∧
      (run (treeBeside other) ["src", "--strict-classes"]).status.code = 3 := by
  obtain ⟨htree, hstatus⟩ := hstop
  have hread : Arguments.read {} ["src", "--strict-classes"] = .ok besideArguments := by decide
  rw [run_eq_compileEach hread rfl rfl (by decide) (treeBeside_directory other)
    (treeBeside_sources other) (by simp)]
  exact ⟨(congrArg (FileTree.read · _) htree).trans (treeBeside_read other),
    congrArg ExitStatus.code hstatus⟩

/-! ### A fragment of a class -/

def counterTree : FileTree := treeBeside (Text.Utf8.encode "class")

/-- The code is to go into another directory, which is not there yet. -/
def counterArguments : Arguments where
  output := some "out"
  strict := true
  operands := ["src"]

theorem fragment_text : counterTree.readText fragmentPath = .ok "class" :=
  FileTree.readText_of_plain rfl (by decide)

theorem fragment_isSource : IsSource counterTree (.ofString "src") fragmentPath where
  named := fragmentPath_named
  normal := Path.normal_ofString _
  text := ⟨"class", fragment_text⟩

theorem fragment_scan (file : String) :
    (Token.scan "class" file).fault = none ∧
      (Token.scan "class" file).tokens.map Token.lexeme = [.word "class"] :=
  Token.scan_of_cutAll (by decide +kernel) file

theorem fragment_yields_nothing (r : Compiled) :
    ¬Yields counterTree counterArguments [fragmentPath, counterPath] fragmentPath r := by
  rintro ⟨text, htext, hresult⟩
  obtain rfl := Except.ok.inj (htext.symm.trans fragment_text)
  obtain ⟨-, cd, hspells, -⟩ := Compile.compileSource_iff.mp ⟨r, hresult, rfl⟩
  rw [(fragment_scan _).2] at hspells
  cases hspells

theorem counter_yields : ∃ r,
    Yields counterTree counterArguments [fragmentPath, counterPath] counterPath r ∧
      r.code = Compile.counter.code := by
  obtain ⟨r, hr, hcode⟩ := counter_compiles ([fragmentPath, counterPath].map Path.stem)
  exact ⟨r, ⟨counterSource, counter_text _, hr⟩, hcode⟩

/-- The code of the class can be delivered, whatever it is. -/
theorem counter_deliverable (r : Compiled) :
    (deliver counterTree counterArguments counterPath (codePath counterArguments counterPath)
      r).2 = none := by
  have hcode : codePath counterArguments counterPath = ⟨.relative, ["out", "Counter.vm"]⟩ := by
    decide
  have hmade : counterTree.makePath (codePath counterArguments counterPath).parent =
      (counterTree.put ["out"] .directory, none) := by
    rw [hcode]
    rfl
  have hplace : (counterTree.put ["out"] .directory).place
      (codePath counterArguments counterPath) = .ok ["out", "Counter.vm"] := by
    rw [hcode]
    rfl
  have hfree : (counterTree.put ["out"] .directory).node? ["out", "Counter.vm"] = none := rfl
  have htokens : counterArguments.tokens = false := rfl
  have htree : counterArguments.tree = false := rfl
  simp [deliver, hmade, outputs, htokens, htree, writeAll, FileTree.writeText, FileTree.write,
    hplace, hfree, bind, Except.bind]

theorem counterTree_deliverable :
    (deliverEach counterArguments counterTree (compiledSources counterTree
      (directoryOptions counterArguments [fragmentPath, counterPath])
      [fragmentPath, counterPath])).2 = none := by
  obtain ⟨r, hyields, -⟩ := counter_yields
  have hsource : IsSource counterTree (.ofString "src") counterPath := counter_isSource _
  obtain ⟨r', hr', -⟩ := hyields.compileFile hsource
  have hdeliver := counter_deliverable r'
  cases hfragment : (counterTree.compileFile
      (directoryOptions counterArguments [fragmentPath, counterPath]) fragmentPath.text).result with
  | ok r =>
      obtain ⟨r, hr⟩ := (exists_yields_iff fragment_isSource).mpr ⟨r, hfragment⟩
      exact absurd hr (fragment_yields_nothing r)
  | error f =>
      rw [compiledSources_cons_error _ hfragment, compiledSources_cons_ok _ hr', deliverEach]
      split
      · next heq =>
          rw [heq] at hdeliver
          exact hdeliver
      · rfl

/-- A text without long numerals is read. -/
theorem not_isMisread {tree : FileTree} {o : Options} {q : Path} {text : String}
    (htext : tree.readText q = .ok text)
    (hshort : ∀ l ∈ (Token.scan text q.text).tokens.map Token.lexeme, l.kind = .integer →
      l.text.length ≤ Text.maxDigits) :
    ¬IsMisread tree o q := by
  intro hmisread
  obtain ⟨text', htext', t, ht, hkind, hlong⟩ := hmisread.exists_long
  obtain rfl := Except.ok.inj (htext.symm.trans htext')
  exact Nat.not_lt.mpr (hshort t.lexeme (List.mem_map_of_mem ht) hkind) hlong

theorem fragment_read (o : Options) : ¬IsMisread counterTree o fragmentPath := by
  refine not_isMisread fragment_text ?_
  rw [(fragment_scan _).2]
  decide

theorem counter_read (other : List UInt8) (o : Options) :
    ¬IsMisread (treeBeside other) o counterPath := by
  refine not_isMisread (counter_text other) ?_
  rw [(counterSource_scan _).2]
  decide

theorem counterTree_compiled :
    (run counterTree ["src", "--strict-classes", "-o", "out"]).status.code = 1 ∧
      (run counterTree ["src", "--strict-classes", "-o", "out"]).transcript.tree.read
          (.ofString "out/Counter.vm") =
        .ok (Text.Utf8.encode (codeFile (Instruction.listing Compile.counter.code))) := by
  have hread : Arguments.read {} ["src", "--strict-classes", "-o", "out"] =
      .ok counterArguments := by decide
  have hdir : counterTree.isDirectory (.ofString "src") = true := treeBeside_directory _
  have hsources : counterTree.findSources "src" = .ok [fragmentPath, counterPath] :=
    treeBeside_sources _
  have hfound : ∀ q, IsSourceFile counterTree (.ofString "src") q →
      q ∈ [fragmentPath, counterPath] := fun q hq =>
    (mem_findSources hdir hsources).mpr hq
  have hutf8 : ∀ q, IsSourceFile counterTree (.ofString "src") q →
      ∀ bytes, counterTree.read q = .ok bytes → ∃ cs, Text.Utf8.decode bytes = .ok cs := by
    intro q hq bytes hbytes
    have hsource : IsSource counterTree (.ofString "src") q := by
      rcases List.mem_pair.mp (hfound q hq) with rfl | rfl
      · exact fragment_isSource
      · exact counter_isSource _
    exact hsource.decodes hbytes
  have hcounter : ¬IsMisread counterTree
      (directoryOptions counterArguments [fragmentPath, counterPath]) counterPath := counter_read _ _
  obtain ⟨-, -, -, -, hcode, -, -, hstatus⟩ :=
    run_directory hread rfl rfl (by decide) hdir (treeBeside_names _) hsources
      ⟨fragmentPath, (mem_findSources hdir hsources).mp (by simp)⟩ hutf8
      (by simp [fragment_read, hcounter]) counterTree_deliverable
  obtain ⟨r, hyields, hr⟩ := counter_yields
  have hpath : codePath counterArguments counterPath = .ofString "out/Counter.vm" := by
    decide
  refine ⟨hstatus ⟨fragmentPath, by simp, fragment_yields_nothing⟩, ?_⟩
  have h := hcode counterPath (by simp) r hyields
  rwa [hpath, Compiled.codeText, hr] at h

/-! ### A long numeral -/

/-- The source of a class that returns an integer. -/
def returnSource (digits : String) : String :=
  String.ofList (Token.spaced (Compile.returning digits).spelling)

theorem compileSource_returning (o : Options) (file : String) {digits : String}
    (hvalid : Lexeme.valid ⟨.integer, digits⟩ = true) (hlong : Text.maxDigits < digits.length) :
    (compileSource o (returnSource digits) file).result =
      .error (.misread digits (.tooLong digits.length)) := by
  have hprinted : Token.Printed (Compile.returning digits).spelling
      (returnSource digits).toList := by
    rw [returnSource, String.toList_ofList]
    exact Token.printed_spaced _
  obtain ⟨hscan, hlexemes⟩ := Token.scan_printed hprinted (Compile.returning_valid hvalid) file
  rw [compileSource_eq_error_iff hscan]
  let o' := { o with knownClasses := o.allKnown }
  let lines := Text.linesOf (returnSource digits)
  -- The places of the tokens do not matter.
  let tokens := Compile.tokensAt ⟨file, 1, 1⟩ (Compile.returning digits).spelling
  have hfault : (Compile.compileTokens o' file lines tokens).fault = _ :=
    Compile.compileTokens_returning o' file lines hvalid hlong ⟨file, 1, 1⟩
  rcases Compile.compileTokens_layout o' o' rfl rfl file file lines lines _ tokens
    (hlexemes.trans (Compile.lexemes_tokensAt ..).symm) with
    ⟨-, hnone, -⟩ | ⟨f, f', hf, hf', hcomplaint, -⟩
  · cases hnone.symm.trans hfault
  · obtain rfl := Option.some.inj (hf'.symm.trans hfault)
    cases f with
    | diagnostic d => cases hcomplaint
    | misread text why =>
        cases hcomplaint
        exact hf

theorem isPlain_of_isDigit {c : Char} (h : c.isDigit = true) : FileTree.isPlain c = true := by
  simp only [Char.isDigit, ge_iff_le, Bool.and_eq_true, decide_eq_true_eq] at h
  have hhi : c.toNat ≤ 57 := UInt32.le_iff_toNat_le.mp h.2
  have hreturn : c ≠ '\r' := by
    rintro rfl
    exact absurd h.1 (by decide)
  simp only [FileTree.isPlain, Bool.and_eq_true, decide_eq_true_eq, bne_iff_ne]
  exact ⟨by omega, hreturn⟩

theorem plain_returnSource {digits : String} (hdigits : digits.toList.all Char.isDigit = true) :
    (returnSource digits).toList.all FileTree.isPlain = true := by
  have hplain : digits.toList.all FileTree.isPlain = true :=
    List.all_eq_true.mpr fun c hc => isPlain_of_isDigit (List.all_eq_true.mp hdigits c hc)
  rw [returnSource, String.toList_ofList]
  refine Token.all_spaced (by decide) ?_
  have hnumeral : (Lexeme.source ⟨.integer, digits⟩).all FileTree.isPlain = true := hplain
  rw [Compile.returning_spelling, List.all_append, Bool.and_eq_true]
  refine ⟨by decide, ?_⟩
  rw [List.all_cons, hnumeral]
  decide

def onesTree : FileTree :=
  treeBeside (Text.Utf8.encode (returnSource (Compile.repdigit '1' 4301)))

theorem ones_text :
    onesTree.readText fragmentPath = .ok (returnSource (Compile.repdigit '1' 4301)) :=
  FileTree.readText_of_plain rfl
    (plain_returnSource (Compile.digits_repdigit (d := '1') (by decide) 4301))

theorem ones_isSource : IsSource onesTree (.ofString "src") fragmentPath where
  named := fragmentPath_named
  normal := Path.normal_ofString _
  text := ⟨_, ones_text⟩

theorem ones_isMisread (o : Options) : IsMisread onesTree o fragmentPath := by
  have hvalid := Compile.valid_repdigit (d := '1') (by decide) (by decide : 0 < 4301)
  have hlong : Text.maxDigits < (Compile.repdigit '1' 4301).length := by
    rw [Compile.length_repdigit]
    decide
  exact ⟨_, _, _, ones_text, compileSource_returning o _ hvalid hlong⟩

/-- Both sources are texts, and the second compiles. But its code is not there at the end, since the
first is misread, and the status is not the one for sources that do not compile. -/
theorem ones_stop_counter :
    onesTree.findSources "src" = .ok [fragmentPath, counterPath] ∧
      (∀ q ∈ [fragmentPath, counterPath], ∃ text, onesTree.readText q = .ok text) ∧
      (∃ r, Yields onesTree besideArguments [fragmentPath, counterPath] counterPath r) ∧
      (run onesTree ["src", "--strict-classes"]).transcript.tree.read
          (codePath besideArguments counterPath) =
        .error .noEntry ∧
      (run onesTree ["src", "--strict-classes"]).status.code = 3 := by
  have hsources : onesTree.findSources "src" = .ok [fragmentPath, counterPath] :=
    treeBeside_sources _
  have htext : onesTree.readText counterPath = .ok counterSource := counter_text _
  refine ⟨hsources, by simp [ones_text, htext], counter_yields_beside _,
    run_stopped_beside (compileEach_misread 2 0 ones_isSource (ones_isMisread _) [counterPath])⟩

end CommandLine

end Jack
