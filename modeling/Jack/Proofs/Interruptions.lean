import Jack.Proofs.DirectoryRuns

/-!
# Sources that end a run

A source that does not compile is passed over if there is something to complain about. But a source
whose bytes are no text ends the run, and so does one with a numeral that is not read because it has
too many digits: these faults are not complaints about the class (`EndsRun`). So the sources of a
directory fall apart into those in front of the first such file (`reachedSources`) and the others.
The former are compiled and delivered as if they were alone. Of the latter nothing is delivered,
whether they compile or not (`run_interrupted`).
-/

namespace Jack.CommandLine

open Compile (Options)

/-- A source of a directory whose bytes are no text. -/
structure IsUnreadable (tree : FileTree) (dir q : Path) : Prop where
  named : ∃ n, q = dir.child n ∧ (Path.splitName n).2 = sourceSuffix
  normal : q.Normal
  bytes : ∃ bytes f, tree.read q = .ok bytes ∧ Text.Utf8.decode bytes = .error f

/-- A source behind which the run does not go on: it is no text, or it is misread. -/
def EndsRun (tree : FileTree) (o : Options) (dir q : Path) : Prop :=
  IsUnreadable tree dir q ∨ IsSource tree dir q ∧ IsMisread tree o q

/-- Whether the run goes on behind a source: its bytes are a text, and no integer in it is misread.
-/
def goesOn (tree : FileTree) (o : Options) (q : Path) : Bool :=
  match tree.readText q with
  | .error _ => false
  | .ok text =>
    match (compileSource o text q.text).result with
    | .error (.misread _ _) => false
    | _ => true

/-- The sources in front of the first one that ends the run. -/
def reachedSources (tree : FileTree) (o : Options) (sources : List Path) : List Path :=
  sources.takeWhile (goesOn tree o)

section Reading

variable {tree t : FileTree} {a : Arguments} {o : Options} {dir q : Path} {sources : List Path}

theorem isSource_or_isUnreadable (hnormal : dir.Normal)
    (hslash : ∀ e ∈ tree.entries, ∀ n ∈ e.1, '/' ∉ n.toList) (h : IsSourceFile tree dir q) :
    IsSource tree dir q ∨ IsUnreadable tree dir q := by
  obtain ⟨n, hq, hsuffix, hfile⟩ := id h
  obtain ⟨bytes, hbytes⟩ := FileTree.isFile_iff.mp hfile
  cases hdecode : Text.Utf8.decode bytes with
  | ok cs =>
      refine .inl (isSource_of_isSourceFile hnormal hslash (fun bytes' hbytes' => ⟨cs, ?_⟩) h)
      obtain rfl := Except.ok.inj (hbytes.symm.trans hbytes')
      exact hdecode
  | error f =>
      exact .inr ⟨⟨n, hq, hsuffix⟩, h.normal hnormal hslash, bytes, f, hbytes, hdecode⟩

theorem IsUnreadable.readText (h : IsUnreadable tree dir q) :
    ∃ f, tree.readText q = .error (.encoding f) := by
  obtain ⟨bytes, f, hbytes, hdecode⟩ := h.bytes
  exact ⟨f, by simp [FileTree.readText, hbytes, hdecode]⟩

theorem goesOn_iff (h : IsSource tree dir q) : goesOn tree o q = true ↔ ¬IsMisread tree o q := by
  obtain ⟨text, htext⟩ := h.text
  unfold goesOn
  simp only [htext]
  split
  · next digits why hresult => simp [IsMisread, htext, hresult]
  · next hresult =>
      refine ⟨fun _ hmisread => ?_, fun _ => rfl⟩
      obtain ⟨text', digits, why, htext', hmisread⟩ := hmisread
      obtain rfl := Except.ok.inj (htext.symm.trans htext')
      exact hresult digits why hmisread

theorem EndsRun.goesOn_eq (h : EndsRun tree o dir q) : goesOn tree o q = false := by
  rcases h with h | ⟨hq, hmisread⟩
  · obtain ⟨f, hf⟩ := h.readText
    simp only [goesOn, hf]
  · rw [Bool.eq_false_iff]
    exact fun hgoes => (goesOn_iff hq).mp hgoes hmisread

/-- What has been delivered for other sources does not make it go on. -/
theorem SourcesKept.endsRun (h : SourcesKept tree t) (hq : EndsRun tree o dir q) :
    EndsRun t o dir q := by
  rcases hq with hq | ⟨hq, text, digits, why, htext, hresult⟩
  · obtain ⟨ns, halters, hns⟩ := h
    obtain ⟨n, rfl, hn⟩ := hq.named
    obtain ⟨bytes, f, hbytes, hdecode⟩ := hq.bytes
    have hlast := getLast?_of_suffix hn
    have hread := halters.read (ne_dots hlast (by decide)) (fun hmem => hns n hmem hlast) hbytes
    exact .inl ⟨⟨n, rfl, hn⟩, hq.normal, bytes, f, hread, hdecode⟩
  · have htext := h.readText hq htext
    exact .inr ⟨⟨hq.named, hq.normal, text, htext⟩, text, digits, why, htext, hresult⟩

theorem reachedSources_split (o : Options)
    (h : ∀ q ∈ sources, IsSource tree dir q ∨ IsUnreadable tree dir q) :
    (∀ q ∈ reachedSources tree o sources, IsSource tree dir q ∧ ¬IsMisread tree o q) ∧
      (reachedSources tree o sources = sources ∨
        ∃ q rest, sources = reachedSources tree o sources ++ q :: rest ∧
          EndsRun tree o dir q) := by
  induction sources with
  | nil => exact ⟨nofun, .inl rfl⟩
  | cons q sources ih =>
      obtain ⟨hq, hmore⟩ := List.forall_mem_cons.mp h
      obtain ⟨hsources, hrest⟩ := ih hmore
      by_cases hends : EndsRun tree o dir q
      · have hstop : reachedSources tree o (q :: sources) = [] :=
          List.takeWhile_cons_of_neg (by rw [hends.goesOn_eq]; exact Bool.false_ne_true)
        rw [hstop]
        exact ⟨nofun, .inr ⟨q, sources, rfl, hends⟩⟩
      · have hsource : IsSource tree dir q := hq.resolve_right fun hq => hends (.inl hq)
        have hread : ¬IsMisread tree o q := fun hmisread => hends (.inr ⟨hsource, hmisread⟩)
        have hon : reachedSources tree o (q :: sources) = q :: reachedSources tree o sources :=
          List.takeWhile_cons_of_pos ((goesOn_iff hsource).mpr hread)
        rw [hon]
        refine ⟨List.forall_mem_cons.mpr ⟨⟨hsource, hread⟩, hsources⟩, ?_⟩
        rcases hrest with hall | ⟨p, rest, hsplit, hp⟩
        · exact .inl (congrArg (q :: ·) hall)
        · exact .inr ⟨p, rest, congrArg (q :: ·) hsplit, hp⟩

end Reading

/-! ## The loop -/

section Loop

variable {tree : FileTree} {a : Arguments} {o : Options} {w : Transcript} {dir q : Path}
  {front : List Path}

/-- A source that ends the run leaves everything as it is. -/
theorem compileEach_stopped (total failures : Nat) (h : EndsRun w.tree o dir q)
    (rest : List Path) :
    (compileEach a o true total w failures (q :: rest)).transcript.tree = w.tree ∧
      (compileEach a o true total w failures (q :: rest)).status = .internalError := by
  rcases h with h | ⟨hq, hmisread⟩
  · obtain ⟨bytes, -, hbytes, -⟩ := h.bytes
    obtain ⟨f, hf⟩ := h.readText
    have hresult : (w.tree.compileFile o q.text).result = .error (.encoding f) := by
      simp [FileTree.compileFile, Path.ofString_text h.normal, FileTree.read_eq_ok.mp hbytes, hf]
    exact compileEach_ended total failures hresult (fun d h => by cases h) rest
  · exact compileEach_misread total failures hq hmisread rest

/-- The loop goes on behind sources that are texts and not misread, delivers those that compile and
counts the others. -/
theorem compileEach_append (total failures : Nat) (rest : List Path)
    (hfront : ∀ q ∈ front, IsSource tree dir q ∧ ¬IsMisread tree o q)
    (hkept : SourcesKept tree w.tree)
    (hfree : (deliverEach a w.tree (compiledSources tree o front)).2 = none) :
    ∃ w' failures',
      compileEach a o true total w failures (front ++ rest) =
        compileEach a o true total w' failures' rest ∧
      deliverEach a w.tree (compiledSources tree o front) = (w'.tree, none) ∧
      (failures' = 0 ↔ failures = 0 ∧ AllCompile tree o front) := by
  induction front generalizing w failures with
  | nil => exact ⟨w, failures, rfl, rfl, by simp [AllCompile]⟩
  | cons q front ih =>
      obtain ⟨⟨hq, hread⟩, hlater⟩ := List.forall_mem_cons.mp hfront
      have hturn := hkept.compileFile hq o
      rw [List.cons_append, compileEach]
      cases hresult : (tree.compileFile o q.text).result with
      | error f =>
          obtain ⟨d, rfl⟩ := hq.diagnostic hread hresult
          obtain ⟨w₁, hone, htree, -⟩ := compileOne_failed (a := a) (hturn.trans hresult)
          rw [compiledSources_cons_error front hresult, ← htree] at hfree ⊢
          obtain ⟨w', failures', hloop, hdelivered, hcount⟩ :=
            ih (failures + 1) hlater (htree ▸ hkept) hfree
          refine ⟨w', failures', by rw [hone]; exact hloop, hdelivered, ?_⟩
          rw [hcount]
          have hnot : ¬AllCompile tree o (q :: front) := not_allCompile_cons hresult
          constructor
          · exact fun h => absurd h.1 (Nat.succ_ne_zero failures)
          · exact fun h => absurd h.2 hnot
      | ok r =>
          rw [compiledSources_cons_ok front hresult, deliverEach] at hfree ⊢
          cases hdeliver : deliver w.tree a q (codePath a q) r with
          | mk t' fault =>
              rw [hdeliver] at hfree
              cases fault with
              | some f => cases hfree
              | none =>
                  obtain ⟨w₁, hone, rfl, -⟩ :=
                    compileOne_delivered hq.name_ne (hturn.trans hresult) hdeliver
                  obtain ⟨w', failures', hloop, hdelivered, hcount⟩ :=
                    ih failures hlater (hkept.deliver hdeliver) hfree
                  refine ⟨w', failures', by rw [hone]; exact hloop, hdelivered, ?_⟩
                  rw [hcount, allCompile_cons_ok hresult]

end Loop

/-! ## The whole run -/

section Run

variable {tree : FileTree} {a : Arguments} {given : String} {sources : List Path}

/-- The files with the name of the code of a source are left alone if others are delivered. -/
theorem node?_iff_of_deliverEach {dir : Path} {o : Options} {ps : List Path} {after : FileTree}
    {q : Path} (hps : ∀ p ∈ ps, IsSource tree dir p) (hq : IsSourceFile tree dir q) (hnot : q ∉ ps)
    (hdeliver : deliverEach a tree (compiledSources tree o ps) = (after, none)) {place : Place}
    (hplace : place.getLast? = some (q.stem ++ codeSuffix)) (content : List UInt8) :
    after.node? place = some (.file content) ↔ tree.node? place = some (.file content) := by
  refine (alters_of_deliverEach hdeliver).files place _ hplace (fun hmem => hnot ?_) content
  obtain ⟨⟨p, r⟩, hp, hname⟩ := List.mem_flatMap.mp hmem
  have hin := (mem_compiledSources.mp hp).1
  obtain ⟨n, rfl, hn, -⟩ := hq
  obtain ⟨m, rfl, hm⟩ := (hps p hin).named
  rw [child_eq_of_stem hn hm (stem_of_mem_deliveredNames hname)]
  exact hin

/-- How the loop ends on sources that are any bytes. -/
theorem compileEach_reached {dir : Path} {o : Options} (total : Nat)
    (heach : ∀ q ∈ sources, IsSource tree dir q ∨ IsUnreadable tree dir q)
    (hfree : (deliverEach a tree (compiledSources tree o (reachedSources tree o sources))).2 =
      none) :
    let ending := compileEach a o true total { tree := tree } 0 sources
    deliverEach a tree (compiledSources tree o (reachedSources tree o sources)) =
        (ending.transcript.tree, none) ∧
      (reachedSources tree o sources = sources →
        (AllCompile tree o sources → ending.status = .success) ∧
          (¬AllCompile tree o sources → ending.status = .buildError)) ∧
      (reachedSources tree o sources ≠ sources → ending.status = .internalError) := by
  intro ending
  obtain ⟨hgenuine, hend⟩ := reachedSources_split o heach
  have hunchanged : SourcesKept tree tree := ⟨[], .refl _ _, nofun⟩
  have hloop := fun rest =>
    compileEach_append (w := { tree := tree }) total 0 rest hgenuine hunchanged hfree
  rcases hend with hall | ⟨q, rest, hsplit, hq⟩
  · obtain ⟨w', failures, hturns, hdelivered, hcount⟩ := hloop []
    rw [hall, List.append_nil] at hturns
    have hending : ending = compileEach a o true total w' failures [] := hturns
    rw [hdelivered, hending]
    rw [hall, eq_self_iff_true, true_and] at hcount
    by_cases hfailures : failures = 0
    · simp [compileEach, hfailures, hcount.mp hfailures, hall]
    · simp [compileEach, hfailures, mt hcount.mpr hfailures, hall, Transcript.warn]
  · obtain ⟨w', failures, hturns, hdelivered, -⟩ := hloop (q :: rest)
    rw [← hsplit] at hturns
    have hending : ending = compileEach a o true total w' failures (q :: rest) := hturns
    have hkept := hunchanged.deliverEach hdelivered
    obtain ⟨htree, hstatus⟩ := compileEach_stopped (a := a) total failures (hkept.endsRun hq) rest
    rw [hending, htree, hstatus]
    refine ⟨hdelivered, fun hall => ?_, fun _ => rfl⟩
    rw [hall] at hsplit
    have hlength := congrArg List.length hsplit
    simp at hlength

/-- A run on a directory whose sources are any bytes. Let every delivery of those that compile, in
front of the first source that ends the run, succeed. Then the code of each of these is where it
belongs at the end, and the tree is the one that their deliveries leave; so no file with the name of
the code of another source is made or changed. If no source ends the run, the status tells whether
some do not compile. Otherwise it is that of an internal error, and the first source that is not
reached is no text or misread. -/
theorem run_interrupted {arguments : List String}
    (hread : Arguments.read {} arguments = .ok a) (hinquiry : a.inquiry = none)
    (hoperands : a.operands = [given]) (hgiven : given ≠ "")
    (hdir : tree.isDirectory (.ofString given) = true)
    (hslash : ∀ e ∈ tree.entries, ∀ n ∈ e.1, '/' ∉ n.toList)
    (hsources : tree.findSources given = .ok sources)
    (hsome : ∃ q, IsSourceFile tree (.ofString given) q)
    (hfree : (deliverEach a tree (compiledSources tree (directoryOptions a sources)
      (reachedSources tree (directoryOptions a sources) sources))).2 = none) :
    let ending := run tree arguments
    let after := ending.transcript.tree
    let reached := reachedSources tree (directoryOptions a sources) sources
    (∀ q ∈ reached, ∀ r, Yields tree a sources q r →
        after.read (codePath a q) = .ok (Text.Utf8.encode (codeFile r.codeText))) ∧
      after = (deliverEach a tree
        (compiledSources tree (directoryOptions a sources) reached)).1 ∧
      (∀ q ∈ sources, q ∉ reached → ∀ place content,
        place.getLast? = some (q.stem ++ codeSuffix) →
        (after.node? place = some (.file content) ↔ tree.node? place = some (.file content))) ∧
      (reached = sources →
        ((∀ q ∈ sources, ∃ r, Yields tree a sources q r) → ending.status.code = 0) ∧
          ((∃ q ∈ sources, ∀ r, ¬Yields tree a sources q r) → ending.status.code = 1)) ∧
      (reached ≠ sources → ending.status.code = 3 ∧ ∃ q rest, sources = reached ++ q :: rest ∧
        EndsRun tree (directoryOptions a sources) (.ofString given) q) := by
  intro ending after reached
  have hfound : ∀ q ∈ sources, IsSourceFile tree (.ofString given) q :=
    fun q => (mem_findSources hdir hsources).mp
  have heach : ∀ q ∈ sources,
      IsSource tree (.ofString given) q ∨ IsUnreadable tree (.ofString given) q :=
    fun q hq => isSource_or_isUnreadable (Path.normal_ofString given) hslash (hfound q hq)
  obtain ⟨hreached, hend⟩ := reachedSources_split (directoryOptions a sources) heach
  have hgenuine : ∀ q ∈ reached, IsSource tree (.ofString given) q := fun q hq => (hreached q hq).1
  have hnonempty : sources ≠ [] := by
    obtain ⟨q, hq⟩ := hsome
    exact List.ne_nil_of_mem ((mem_findSources hdir hsources).mpr hq)
  have hrun : ending = compileEach a (directoryOptions a sources) true sources.length
      { tree := tree } 0 sources :=
    run_eq_compileEach hread hinquiry hoperands hgiven hdir hsources hnonempty
  obtain ⟨hdeliver, hstatus, hinternal⟩ := compileEach_reached sources.length heach hfree
  rw [← hrun] at hdeliver hstatus hinternal
  refine ⟨fun q hq r hr => hr.read_code hgenuine hq hdeliver, (congrArg Prod.fst hdeliver).symm,
    fun q hq hnot place content hplace =>
      node?_iff_of_deliverEach hgenuine (hfound q hq) hnot hdeliver hplace content,
    fun hall => ?_, fun hnot => ?_⟩
  · obtain ⟨hsuccess, hfailure⟩ := hstatus hall
    have hall : reached = sources := hall
    rw [hall] at hgenuine
    rw [allCompile_iff hgenuine] at hsuccess hfailure
    constructor
    · intro hevery
      rw [hsuccess hevery]
      rfl
    · rintro ⟨q, hq, hnone⟩
      rw [hfailure fun hevery => (hevery q hq).elim hnone]
      rfl
  · refine ⟨?_, hend.resolve_left hnot⟩
    rw [hinternal hnot]
    rfl

end Run

theorem counterTree_interrupted :
    (run counterTree ["src", "--strict-classes", "-o", "out"]).status.code = 1 ∧
      (run counterTree ["src", "--strict-classes", "-o", "out"]).transcript.tree.read
          (codePath counterArguments counterPath) =
        .ok (Text.Utf8.encode (codeFile (Instruction.listing Compile.counter.code))) := by
  have hread : Arguments.read {} ["src", "--strict-classes", "-o", "out"] =
      .ok counterArguments := by decide
  have hdir : counterTree.isDirectory (.ofString "src") = true := treeBeside_directory _
  have hsources : counterTree.findSources "src" = .ok [fragmentPath, counterPath] :=
    treeBeside_sources _
  have hcounter : IsSource counterTree (.ofString "src") counterPath := counter_isSource _
  have hgoes : ¬IsMisread counterTree
      (directoryOptions counterArguments [fragmentPath, counterPath]) counterPath := counter_read _ _
  have hreached : reachedSources counterTree
      (directoryOptions counterArguments [fragmentPath, counterPath]) [fragmentPath, counterPath] =
      [fragmentPath, counterPath] := by
    refine List.takeWhile_eq_self_iff.mpr ?_
    simp [goesOn_iff fragment_isSource, goesOn_iff hcounter, fragment_read, hgoes]
  obtain ⟨hcode, -, -, hstatus, -⟩ :=
    run_interrupted hread rfl rfl (by decide) hdir (treeBeside_names _) hsources
      ⟨fragmentPath, (mem_findSources hdir hsources).mp (by simp)⟩
      (hreached.symm ▸ counterTree_deliverable)
  obtain ⟨r, hyields, hr⟩ := counter_yields
  refine ⟨(hstatus hreached).2 ⟨fragmentPath, by simp, fragment_yields_nothing⟩, ?_⟩
  have h := hcode counterPath (by simp [hreached]) r hyields
  rwa [Compiled.codeText, hr] at h

/-! ## A directory with a file that is no text -/

def brokenTree : FileTree := treeBeside [0xff]

theorem broken_isUnreadable : IsUnreadable brokenTree (.ofString "src") fragmentPath where
  named := fragmentPath_named
  normal := Path.normal_ofString _
  bytes := ⟨[0xff], ⟨0, 0xff, 1, .badStart⟩, rfl, by decide +kernel⟩

/-- The first source is no text. The second compiles, but its code is not there at the end, and the
status is not the one for sources that do not compile. -/
theorem broken_stops_counter :
    brokenTree.findSources "src" = .ok [fragmentPath, counterPath] ∧
      (∃ r, Yields brokenTree besideArguments [fragmentPath, counterPath] counterPath r) ∧
      (run brokenTree ["src", "--strict-classes"]).transcript.tree.read
          (codePath besideArguments counterPath) =
        .error .noEntry ∧
      (run brokenTree ["src", "--strict-classes"]).status.code = 3 := by
  have hsources : brokenTree.findSources "src" = .ok [fragmentPath, counterPath] :=
    treeBeside_sources _
  exact ⟨hsources, counter_yields_beside _,
    run_stopped_beside (compileEach_stopped 2 0 (.inl broken_isUnreadable) [counterPath])⟩

end Jack.CommandLine
