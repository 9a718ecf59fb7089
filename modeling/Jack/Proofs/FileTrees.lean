import Jack.Proofs.Paths
import Jack.SourceFile

/-!
# What writing leaves alone

Writing a file and making directories change a tree in a limited way: directories stay, and files
stay as they are unless they have a name that was written (`Alters`). Whatever path led to a place
still leads there (`Alters.place`), so a file with another name reads as before (`Alters.read`). And
a plain text is read as it was written (`readText_of_plain`).
-/

namespace Jack.FileTree

variable {t t' t'' : FileTree} {p : Path} {q : Place} {n : String} {ns ms : List String}
  {content : List UInt8}

/-! ## Nodes -/

theorem lookup_put (entries : List (Place × Node)) (p q : Place) (n : Node) :
    (entries.filter (fun e => e.1 != p) ++ [(p, n)]).lookup q =
      if q = p then some n else entries.lookup q := by
  induction entries with
  | nil =>
      by_cases h : q = p
      · simp [h]
      · simp [List.lookup_cons, beq_eq_false_iff_ne.mpr h, h]
  | cons e entries ih =>
      obtain ⟨r, m⟩ := e
      by_cases hr : r = p
      · subst hr
        by_cases hq : q = r
        · simpa [hq] using ih
        · simp only [bne_self_eq_false, Bool.false_eq_true, not_false_eq_true, List.filter_cons_of_neg,
            ih, if_neg hq, List.lookup_cons, beq_eq_false_iff_ne.mpr hq]
      · have hkept : (r != p) = true := bne_iff_ne.mpr hr
        by_cases hq : q = r
        · subst hq
          simp [hkept, hr]
        · simp only [List.filter_cons, hkept, if_true, List.cons_append, List.lookup_cons,
            beq_eq_false_iff_ne.mpr hq, ih]

theorem node?_put {r : Place} (hr : r ≠ []) (n : Node) (q : Place) :
    (t.put r n).node? q = if q = r then some n else t.node? q := by
  unfold node? put
  by_cases hq : q = []
  · subst hq
    simp [Ne.symm hr]
  · simp only [if_neg hq, lookup_put]

theorem node?_nil (t : FileTree) : t.node? [] = some .directory := if_pos rfl

/-! ## Places -/

/-- The last step of a walk starts in a directory. -/
theorem walk_concat {start : Place} {cs : List String} {c : String}
    (h : t.walk start (cs ++ [c]) = .ok q) :
    ∃ r, t.walk start cs = .ok r ∧ t.node? r = some .directory ∧
      q = if c = ".." then r.dropLast else r ++ [c] := by
  induction cs generalizing start with
  | nil =>
      simp only [List.nil_append, walk] at h
      split at h
      · cases h
      · cases h
      · next hnode => exact ⟨start, rfl, hnode, (Except.ok.inj h).symm⟩
  | cons b cs ih =>
      simp only [List.cons_append, walk] at h ⊢
      split at h
      · cases h
      · cases h
      · exact ih h

theorem walk_append (t : FileTree) (start : Place) (cs ds : List String) :
    t.walk start (cs ++ ds) = (t.walk start cs).bind (t.walk · ds) := by
  induction cs generalizing start with
  | nil => rfl
  | cons c cs ih =>
      simp only [List.cons_append, walk]
      split
      · rfl
      · rfl
      · exact ih _

/-- A path leads where its last part leads from the place of the path above. -/
theorem place_eq_of_parts (t : FileTree) (hparts : p.parts ≠ []) :
    t.place p = (t.place p.parent).bind (t.walk · [p.parts.getLast hparts]) := by
  unfold place
  rw [← walk_append]
  exact congrArg (t.walk _) (List.dropLast_concat_getLast hparts).symm

theorem place_child (h : t.place (p.child n) = .ok q) (hn : n ≠ "..") :
    ∃ r, t.place p = .ok r ∧ q = r ++ [n] := by
  obtain ⟨r, hwalk, -, hq⟩ := walk_concat h
  exact ⟨r, hwalk, hq.trans (if_neg hn)⟩

/-- Whatever has a name stands below a directory. -/
theorem parent_of_place (hparts : p.parts ≠ []) (h : t.place p = .ok q) :
    ∃ r, t.place p.parent = .ok r ∧ t.node? r = some .directory := by
  unfold place at h
  rw [← List.dropLast_concat_getLast hparts] at h
  obtain ⟨r, hwalk, hnode, -⟩ := walk_concat h
  exact ⟨r, hwalk, hnode⟩

theorem place_of_parent {r : Place} (hparts : p.parts ≠ []) (h : t.place p.parent = .ok r)
    (hnode : t.node? r = some .directory) :
    t.place p = .ok (if p.name = ".." then r.dropLast else r ++ [p.name]) := by
  have hname : p.name = p.parts.getLast hparts := by
    rw [Path.name, List.getLast?_eq_some_getLast hparts, Option.getD_some]
  rw [place_eq_of_parts t hparts, h, hname]
  simp [Except.bind, walk, hnode]

theorem place_child_of_directory {r : Place} (h : t.place p = .ok r)
    (hnode : t.node? r = some .directory) (hn : n ≠ "..") :
    t.place (p.child n) = .ok (r ++ [n]) := by
  have hparts : (p.child n).parts ≠ [] := by simp [Path.child]
  have hplace := place_of_parent hparts ((Path.parent_child p n).symm ▸ h) hnode
  rwa [Path.name_child, if_neg hn] at hplace

theorem status_eq_ok {m : Node} :
    t.status p = .ok m ↔ ∃ q, t.place p = .ok q ∧ t.node? q = some m := by
  unfold status
  cases hq : t.place p with
  | error e => simp [bind, Except.bind]
  | ok q =>
      simp only [bind, Except.bind, Except.ok.injEq, exists_eq_left']
      cases t.node? q <;> simp

theorem read_eq_ok : t.read p = .ok content ↔ t.status p = .ok (.file content) := by
  unfold read
  cases t.status p with
  | error e => simp [bind, Except.bind]
  | ok m => cases m <;> simp [bind, Except.bind]

theorem isFile_iff : t.isFile p = true ↔ ∃ content, t.read p = .ok content := by
  simp only [read_eq_ok]
  unfold isFile
  split
  · next c h => simp [h]
  · next h =>
      simp only [Bool.false_eq_true, false_iff, not_exists]
      exact fun c hc => h c hc

theorem status_of_isDirectory (h : t.isDirectory p = true) : t.status p = .ok .directory := by
  unfold isDirectory at h
  split at h
  · assumption
  · cases h

/-- A directory is there as it was typed. -/
theorem holdsTyped_of_isDirectory {given : String} (hgiven : given ≠ "")
    (h : t.isDirectory (.ofString given) = true) : t.holdsTyped given = true := by
  have hholds : t.holds (.ofString given) = true := by
    rw [holds, status_of_isDirectory h]
    rfl
  unfold holdsTyped
  dsimp only
  split
  · next hfields =>
      have hempty := Path.fields_eq_singleton_nil hfields
      exact absurd (String.toList_eq_nil_iff.mp hempty) hgiven
  · split
    · exact h
    · exact h
    · exact h
    · exact hholds

/-! ## Names -/

/-- A directory has the names of its files. -/
theorem mem_names (hdots : n ≠ "..") (h : t.isFile (p.child n) = true) : n ∈ t.names p := by
  obtain ⟨content, hread⟩ := isFile_iff.mp h
  obtain ⟨q, hq, hnode⟩ := status_eq_ok.mp (read_eq_ok.mp hread)
  obtain ⟨r, hr, rfl⟩ := place_child hq hdots
  have hlookup : t.entries.lookup (r ++ [n]) = some (.file content) := by
    simpa [node?] using hnode
  obtain ⟨before, after, hentries, -⟩ := List.lookup_eq_some_iff.mp hlookup
  unfold names
  rw [hr, hentries]
  simp

theorem mem_entries_of_mem_names (h : n ∈ t.names p) : ∃ e ∈ t.entries, n ∈ e.1 := by
  unfold names at h
  split at h
  · cases h
  · obtain ⟨e, he, hn⟩ := List.mem_filterMap.mp h
    split at hn
    · exact ⟨e, he, List.mem_of_getLast? hn⟩
    · cases hn

/-! ## What is left alone -/

/-- Directories have stayed, and so have files, apart from those with the names given. -/
structure Alters (ns : List String) (t t' : FileTree) : Prop where
  here : t'.here = t.here
  directories : ∀ q, t.node? q = some .directory → t'.node? q = some .directory
  files : ∀ q n, q.getLast? = some n → n ∉ ns →
    ∀ content, t'.node? q = some (.file content) ↔ t.node? q = some (.file content)

namespace Alters

theorem refl (ns : List String) (t : FileTree) : Alters ns t t :=
  ⟨rfl, fun _ h => h, fun _ _ _ _ _ => Iff.rfl⟩

theorem trans (h : Alters ns t t') (h' : Alters ms t' t'') : Alters (ns ++ ms) t t'' where
  here := h'.here.trans h.here
  directories q hq := h'.directories q (h.directories q hq)
  files q n hq hn content := by
    rw [List.mem_append, not_or] at hn
    rw [h'.files q n hq hn.2, h.files q n hq hn.1]

theorem walk (h : Alters ns t t') {start : Place} {cs : List String}
    (hwalk : t.walk start cs = .ok q) : t'.walk start cs = .ok q := by
  induction cs generalizing start with
  | nil => exact hwalk
  | cons c cs ih =>
      simp only [FileTree.walk] at hwalk ⊢
      split at hwalk
      · cases hwalk
      · cases hwalk
      · next hnode =>
          rw [h.directories start hnode]
          exact ih hwalk

theorem place (h : Alters ns t t') (hplace : t.place p = .ok q) : t'.place p = .ok q := by
  unfold FileTree.place at hplace ⊢
  rw [h.here]
  exact h.walk hplace

/-- A file with another name reads as before. -/
theorem read (h : Alters ns t t') (hdots : n ≠ "..") (hn : n ∉ ns)
    (hread : t.read (p.child n) = .ok content) : t'.read (p.child n) = .ok content := by
  obtain ⟨q, hq, hnode⟩ := status_eq_ok.mp (read_eq_ok.mp hread)
  obtain ⟨r, -, rfl⟩ := place_child hq hdots
  have hnode' := (h.files (r ++ [n]) n List.getLast?_concat hn content).mpr hnode
  exact read_eq_ok.mpr (status_eq_ok.mpr ⟨r ++ [n], h.place hq, hnode'⟩)

theorem readText (h : Alters ns t t') (hdots : n ≠ "..") (hn : n ∉ ns) {text : String}
    (hread : t.readText (p.child n) = .ok text) : t'.readText (p.child n) = .ok text := by
  unfold FileTree.readText at hread ⊢
  split at hread
  · cases hread
  · next bytes hbytes =>
      rw [h.read hdots hn hbytes]
      exact hread

/-- Something is put where no directory stands. -/
theorem put (hq : q.getLast? = some n) (hfree : t.node? q ≠ some .directory) (m : Node) :
    Alters [n] t (t.put q m) := by
  have hne : q ≠ [] := by
    rintro rfl
    exact hfree (node?_nil t)
  refine ⟨rfl, fun r hr => ?_, fun r k hr hk content => ?_⟩
  · rw [node?_put hne, if_neg]
    · exact hr
    · rintro rfl
      exact hfree hr
  · rw [node?_put hne, if_neg]
    rintro rfl
    exact hk (List.mem_singleton.mpr (Option.some.inj (hr.symm.trans hq)))

/-- A directory is put where nothing stands. -/
theorem putDirectory (hfree : t.node? q = none) : Alters [] t (t.put q .directory) := by
  have hne : q ≠ [] := by
    rintro rfl
    rw [node?_nil] at hfree
    cases hfree
  refine ⟨rfl, fun r hr => ?_, fun r k _ _ content => ?_⟩
  · rw [node?_put hne]
    split
    · rfl
    · exact hr
  · rw [node?_put hne]
    split
    · next heq => simp [heq, hfree]
    · exact Iff.rfl

end Alters

/-! ## Writing -/

theorem write_eq_ok (h : t.write p content = .ok t') :
    ∃ q, t.place p = .ok q ∧ t.node? q ≠ some .directory ∧ t' = t.put q (.file content) := by
  unfold write at h
  cases hq : t.place p with
  | error e => simp [hq, bind, Except.bind] at h
  | ok q =>
      simp only [hq, bind, Except.bind] at h
      split at h
      · cases h
      · next hfree => exact ⟨q, rfl, hfree, (Except.ok.inj h).symm⟩

theorem write_of_place (hplace : t.place p = .ok q) (hfree : t.node? q ≠ some .directory)
    (content : List UInt8) : t.write p content = .ok (t.put q (.file content)) := by
  unfold write
  simp only [hplace, bind, Except.bind]

/-- What has been written is read back. -/
theorem read_of_write (h : t.write p content = .ok t') : t'.read p = .ok content := by
  obtain ⟨q, hq, hfree, rfl⟩ := write_eq_ok h
  have hne : q ≠ [] := by
    rintro rfl
    exact hfree (node?_nil t)
  have halters := Alters.put (List.getLast?_eq_some_getLast hne) hfree (.file content)
  refine read_eq_ok.mpr (status_eq_ok.mpr ⟨q, halters.place hq, ?_⟩)
  rw [node?_put hne, if_pos rfl]

theorem alters_of_write (hdots : n ≠ "..") (h : t.write (p.child n) content = .ok t') :
    Alters [n] t t' ∧ t'.read (p.child n) = .ok content := by
  obtain ⟨q, hq, hfree, rfl⟩ := write_eq_ok h
  obtain ⟨r, -, rfl⟩ := place_child hq hdots
  have halters : Alters [n] t (t.put (r ++ [n]) (.file content)) :=
    .put List.getLast?_concat hfree _
  refine ⟨halters, read_eq_ok.mpr (status_eq_ok.mpr ⟨r ++ [n], halters.place hq, ?_⟩)⟩
  rw [node?_put (by simp), if_pos rfl]

theorem writeText_eq_ok {text : String} (h : t.writeText p text = .ok t') :
    t.write p (Text.Utf8.encode text) = .ok t' := by
  unfold writeText at h
  split at h
  · cases h
  · next hwrite => rw [hwrite, Except.ok.inj h]

theorem alters_of_ensureDirectory (h : t.ensureDirectory p = .ok t') : Alters [] t t' := by
  unfold ensureDirectory at h
  split at h
  · next made hmade =>
      obtain rfl := Except.ok.inj h
      unfold makeDirectory at hmade
      cases hq : t.place p with
      | error e => simp [hq, bind, Except.bind] at hmade
      | ok q =>
          simp only [hq, bind, Except.bind] at hmade
          split at hmade
          · cases hmade
          · next hfree =>
              obtain rfl := Except.ok.inj hmade
              exact .putDirectory hfree
  · cases h
  · split at h
    · obtain rfl := Except.ok.inj h
      exact .refl [] t
    · cases h

theorem alters_makePathUp (t : FileTree) (anchor : Anchor) (parts : List String) :
    Alters [] t (t.makePathUp anchor parts).1 := by
  induction parts with
  | nil =>
      unfold makePathUp
      split
      · next h => exact alters_of_ensureDirectory h
      · exact .refl [] t
  | cons c above ih =>
      unfold makePathUp
      dsimp only
      split
      · next h => exact alters_of_ensureDirectory h
      · cases habove : t.makePathUp anchor above with
        | mk made fault =>
            rw [habove] at ih
            cases fault with
            | some e => exact ih
            | none =>
                dsimp only
                split
                · next h => exact ih.trans (alters_of_ensureDirectory h)
                · exact ih
      · exact .refl [] t

theorem makeDirectory_of_status {m : Node} (h : t.status p = .ok m) :
    t.makeDirectory p = .error .alreadyThere := by
  obtain ⟨q, hq, hnode⟩ := status_eq_ok.mp h
  simp only [makeDirectory, hq, hnode, bind, Except.bind]

/-- The directories above are looked at only if one of them is missing. -/
theorem makePath_eq (h : ∀ q, t.ensureDirectory p ≠ .error (.noEntry, q)) :
    t.makePath p =
      match t.ensureDirectory p with
      | .ok t' => (t', none)
      | .error e => (t, some e) := by
  obtain ⟨anchor, parts⟩ := p
  unfold makePath
  cases hparts : parts.reverse with
  | nil =>
      obtain rfl := List.reverse_eq_nil_iff.mp hparts
      unfold makePathUp
      cases t.ensureDirectory ⟨anchor, []⟩ <;> rfl
  | cons c above =>
      obtain rfl : parts = (c :: above).reverse := by rw [← hparts, List.reverse_reverse]
      simp only [makePathUp]
      split
      · simp_all only
      · next q hnone => exact absurd hnone (h q)
      · simp_all only

/-- A directory that is there need not be made. -/
theorem makePath_of_isDirectory (h : t.isDirectory p = true) : t.makePath p = (t, none) := by
  have hensure : t.ensureDirectory p = .ok t := by
    unfold ensureDirectory
    simp only [makeDirectory_of_status (status_of_isDirectory h), h, if_true]
  simp [makePath_eq, hensure]

/-- Where a file stands, no directory is made. -/
theorem makePath_of_isFile (h : t.isFile p = true) :
    t.makePath p = (t, some (.alreadyThere, p)) := by
  obtain ⟨content, hread⟩ := isFile_iff.mp h
  have hstatus := read_eq_ok.mp hread
  have hensure : t.ensureDirectory p = .error (.alreadyThere, p) := by
    unfold ensureDirectory isDirectory
    simp [makeDirectory_of_status hstatus, hstatus]
  simp [makePath_eq, hensure]

/-- Making directories touches no file. -/
theorem alters_makePath (t : FileTree) (p : Path) : Alters [] t (t.makePath p).1 :=
  alters_makePathUp t p.anchor p.parts.reverse

/-! ## Reading plain text -/

/-- A character that is written as one byte and ends no line, unless it is a newline. -/
def isPlain (c : Char) : Bool :=
  decide (c.toNat < 0x80) && c != '\r'

theorem encodeChar_of_ascii {c : Char} (h : c.toNat < 0x80) :
    String.utf8EncodeChar c = [UInt8.ofNat c.toNat] := by
  have hle : c.val.toNat ≤ 0x7f := Nat.le_of_lt_succ h
  simp only [String.utf8EncodeChar, hle, if_true]
  rfl

theorem decodeFrom_of_ascii {cs : List Char} (h : ∀ c ∈ cs, c.toNat < 0x80) (offset : Nat) :
    Text.Utf8.decodeFrom offset (cs.flatMap String.utf8EncodeChar) = .ok cs := by
  induction cs generalizing offset with
  | nil => rw [List.flatMap_nil, Text.Utf8.decodeFrom]
  | cons c cs ih =>
      obtain ⟨hc, hcs⟩ := List.forall_mem_cons.mp h
      have hbyte : (UInt8.ofNat c.toNat).toNat = c.toNat := by
        rw [UInt8.toNat_ofNat']
        omega
      rw [List.flatMap_cons, encodeChar_of_ascii hc, List.singleton_append, Text.Utf8.decodeFrom]
      simp only [Text.Utf8.lead?, hbyte, hc, if_true, Text.Utf8.readTail, ih hcs, Except.map,
        Char.ofNat_toNat]

theorem foldLineEnds_of_notMem {cs : List Char} (h : '\r' ∉ cs) : Text.foldLineEnds cs = cs := by
  induction cs with
  | nil => rfl
  | cons c cs ih =>
      rw [List.mem_cons, not_or] at h
      rw [Text.foldLineEnds, if_neg (Ne.symm h.1), ih h.2]
      rintro cs' heq -
      exact h.1 heq.symm

/-- A plain text is read as it was written. -/
theorem readText_of_plain {text : String} (hread : t.read p = .ok (Text.Utf8.encode text))
    (hplain : text.toList.all isPlain = true) : t.readText p = .ok text := by
  simp only [List.all_eq_true, isPlain, Bool.and_eq_true, decide_eq_true_eq, bne_iff_ne] at hplain
  have hdecode : Text.Utf8.decode (Text.Utf8.encode text) = .ok text.toList :=
    decodeFrom_of_ascii (fun c hc => (hplain c hc).1) 0
  have hreturn : '\r' ∉ text.toList := fun hc => (hplain _ hc).2 rfl
  simp only [readText, hread, hdecode, foldLineEnds_of_notMem hreturn, String.ofList_toList]

end Jack.FileTree
