import Jack.Proofs.Interruptions
import Jack.Proofs.Jumps
import Jack.Proofs.Listings
import Jack.Proofs.SingleFiles

/-!
# The files that a run makes

Without an output named, a compiled source makes its files beside itself: its code and the listings
asked for, named by its stem and an ending of their own. The names say which file of which source is
meant, with one exception: the token listing of a class `A` and the listing of the derivation of a
class `AT` have the same name (`append_ending_eq`). And no file is a source, unless the source is a
single one that is named like code or like a listing (`name_eq_iff`).

Sources come in the order of their names, so `A` is delivered before `AT`. Of the two listings the
one of the tokens is lost; apart from that, whatever a run makes is there at the end
(`run_outputs`).
-/

namespace Jack

open Compile (Options)

namespace FileTree

variable {t t' t'' : FileTree} {p : Path} {q : Place}

/-- The directories are the same as before. -/
structure SameDirectories (t t' : FileTree) : Prop where
  here : t'.here = t.here
  node?_iff : ∀ q, t'.node? q = some .directory ↔ t.node? q = some .directory

theorem walk_cons_eq_ok {start : Place} {c : String} {cs : List String} :
    t.walk start (c :: cs) = .ok q ↔ t.node? start = some .directory ∧
      t.walk (if c = ".." then start.dropLast else start ++ [c]) cs = .ok q := by
  simp only [walk]
  split <;> simp_all

theorem isDirectory_iff :
    t.isDirectory p = true ↔ ∃ q, t.place p = .ok q ∧ t.node? q = some .directory := by
  rw [← status_eq_ok]
  refine ⟨status_of_isDirectory, fun h => ?_⟩
  simp [isDirectory, h]

namespace SameDirectories

theorem refl (t : FileTree) : SameDirectories t t :=
  ⟨rfl, fun _ => Iff.rfl⟩

theorem trans (h : SameDirectories t t') (h' : SameDirectories t' t'') : SameDirectories t t'' :=
  ⟨h'.here.trans h.here, fun q => (h'.node?_iff q).trans (h.node?_iff q)⟩

theorem walk_iff (h : SameDirectories t t') {start : Place} {cs : List String} :
    t'.walk start cs = .ok q ↔ t.walk start cs = .ok q := by
  induction cs generalizing start with
  | nil => exact Iff.rfl
  | cons c cs ih => rw [walk_cons_eq_ok, walk_cons_eq_ok, h.node?_iff, ih]

theorem isDirectory (h : SameDirectories t t') (p : Path) : t'.isDirectory p = t.isDirectory p := by
  rw [Bool.eq_iff_iff, isDirectory_iff, isDirectory_iff]
  simp only [place, h.here, h.walk_iff, h.node?_iff]

end SameDirectories

theorem sameDirectories_of_writeText {text : String} (h : t.writeText p text = .ok t') :
    t.SameDirectories t' := by
  obtain ⟨q, -, hfree, rfl⟩ := write_eq_ok (writeText_eq_ok h)
  have hne : q ≠ [] := by
    rintro rfl
    exact hfree t.node?_nil
  refine ⟨rfl, fun r => ?_⟩
  rw [node?_put hne]
  split
  · next heq =>
      rw [heq]
      simp [hfree]
  · exact Iff.rfl

end FileTree

namespace CommandLine

/-- The kinds of files that a compiled source makes. -/
inductive Product where
  | code
  | tokenListing
  | treeListing
  deriving Repr, DecidableEq

namespace Product

/-- All kinds, in the order in which they are written. -/
def all : List Product := [code, tokenListing, treeListing]

/-- What stands behind the stem of the source in the name of the file. -/
def ending : Product → String
  | code => codeSuffix
  | tokenListing => "T.xml"
  | treeListing => ".xml"

/-- Whether the file is to be made. -/
def asked (a : Arguments) : Product → Bool
  | code => true
  | tokenListing => a.tokens
  | treeListing => a.tree

/-- The text of the file. -/
def content (r : Compiled) : Product → String
  | code => codeFile r.codeText
  | tokenListing => r.tokenListing ++ "\n"
  | treeListing => r.treeListing ++ "\n"

/-- The file beside a source. -/
def file (k : Product) (source : Path) : Path := source.withName (source.stem ++ k.ending)

end Product

/-- The files to be made for each source. -/
def products (a : Arguments) : List Product := Product.all.filter (Product.asked a)

/-- The files that a compiled source makes, by their names. -/
def productFiles (a : Arguments) (source : Path) (r : Compiled) : List (String × String) :=
  (products a).map fun k => (source.stem ++ k.ending, k.content r)

/-! ## Names -/

theorem append_tokenEnding (s : String) :
    s ++ Product.tokenListing.ending = s ++ "T" ++ Product.treeListing.ending := by
  rw [String.append_assoc]
  rfl

theorem getLast?_ending (s : String) (k : Product) :
    (s ++ k.ending).toList.getLast? = some (if k = .code then 'm' else 'l') := by
  cases k with
  | code => exact getLast?_append_vm s
  | tokenListing =>
      rw [append_tokenEnding]
      exact getLast?_append_xml _
  | treeListing => exact getLast?_append_xml s

theorem append_ending_ne_dots (s : String) (k : Product) : s ++ k.ending ≠ ".." := by
  refine ne_dots (getLast?_ending s k) ?_
  split <;> decide

/-- The first file is the token listing of a source, and the second one the listing of the
derivation of a source whose stem has one letter `T` more. -/
structure Clash (q : Path) (k : Product) (q' : Path) (k' : Product) : Prop where
  first : k = .tokenListing
  second : k' = .treeListing
  stem : q'.stem = q.stem ++ "T"

instance (q : Path) (k : Product) (q' : Path) (k' : Product) : Decidable (Clash q k q' k') :=
  decidable_of_iff (k = .tokenListing ∧ k' = .treeListing ∧ q'.stem = q.stem ++ "T")
    ⟨fun h => ⟨h.1, h.2.1, h.2.2⟩, fun h => ⟨h.first, h.second, h.stem⟩⟩

/-- The stem and the kind can be told from the name of a file, unless listings clash. -/
theorem append_ending_eq {q q' : Path} {k k' : Product}
    (h : q.stem ++ k.ending = q'.stem ++ k'.ending) :
    (q.stem = q'.stem ∧ k = k') ∨ Clash q k q' k' ∨ Clash q' k' q k := by
  have hlast := congrArg (fun n => n.toList.getLast?) h
  rw [getLast?_ending, getLast?_ending] at hlast
  cases k <;> cases k'
  case code.code | tokenListing.tokenListing | treeListing.treeListing =>
    exact .inl ⟨(String.append_left_inj _).mp h, rfl⟩
  case tokenListing.treeListing =>
    rw [append_tokenEnding] at h
    exact .inr (.inl ⟨rfl, rfl, ((String.append_left_inj _).mp h).symm⟩)
  case treeListing.tokenListing =>
    rw [append_tokenEnding] at h
    exact .inr (.inr ⟨rfl, rfl, (String.append_left_inj _).mp h⟩)
  all_goals exact absurd hlast (by decide)

theorem Clash.names_eq {q q' : Path} {k k' : Product} (h : Clash q k q' k') :
    q.stem ++ k.ending = q'.stem ++ k'.ending := by
  obtain ⟨rfl, rfl, hstem⟩ := h
  rw [append_tokenEnding, hstem]

/-- A suffix is empty or starts with a dot. -/
theorem suffix_cases (n : String) :
    (Path.splitName n).2 = "" ∨ ∃ cs, (Path.splitName n).2 = String.ofList ('.' :: cs) := by
  unfold Path.splitName
  dsimp only
  split
  · exact .inl rfl
  · exact .inr ⟨_, rfl⟩

/-- A source that has the name of one of its files is named like code or like a listing. -/
theorem name_eq_iff {q : Path} {k : Product} :
    q.name = q.stem ++ k.ending ↔
      (k = .code ∧ q.suffix = ".vm") ∨ (k = .treeListing ∧ q.suffix = ".xml") := by
  have hsuffix : q.name = q.stem ++ k.ending ↔ q.suffix = k.ending := by
    rw [← Path.stem_append_suffix q]
    exact String.append_right_inj _
  rw [hsuffix]
  cases k with
  | code => simp [Product.ending, codeSuffix]
  | treeListing => simp [Product.ending]
  | tokenListing =>
      suffices q.suffix ≠ "T.xml" by simp [Product.ending, this]
      intro htoken
      rcases suffix_cases q.name with hempty | ⟨cs, hdot⟩
      · exact absurd (htoken.symm.trans hempty) (by decide)
      · have hhead := congrArg (fun n => n.toList.head?) (htoken.symm.trans hdot)
        simp at hhead

/-! ## Places -/

/-- The sources of a run: all in one directory, which stands at `home`, and there are several only
if they have the suffix of sources. They come in the order of their names. -/
structure Siblings (t : FileTree) (sources : List Path) (dir : Path) (home : Place) : Prop where
  place : t.place dir = .ok home
  node : t.node? home = some .directory
  parent : ∀ q ∈ sources, q.parent = dir
  parts : ∀ q ∈ sources, q.parts ≠ []
  alone : (∃ q, sources = [q]) ∨ ∀ q ∈ sources, q.suffix = sourceSuffix
  ordered : sources.Pairwise fun q q' => q.stem ≠ q'.stem ++ "T"

theorem name_lt_name {q q' : Path} (hq : q.suffix = sourceSuffix) (hq' : q'.suffix = sourceSuffix)
    (hstem : q.stem = q'.stem ++ "T") : q'.name < q.name := by
  rw [← Path.stem_append_suffix q, ← Path.stem_append_suffix q', hq, hq', hstem, String.lt_iff,
    String.toList_append, String.toList_append, String.toList_append, List.append_assoc]
  exact List.append_left_lt (by decide)

theorem pairwise_sorted (names : List String) :
    (names.mergeSort fun a b => !(b < a)).Pairwise fun a b => ¬b < a := by
  refine (List.pairwise_mergeSort ?_ ?_ names).imp (by simp)
  · intro a b c hab hbc
    simp only [Bool.not_eq_true', decide_eq_false_iff_not, String.not_lt] at *
    exact String.le_trans hab hbc
  · intro a b
    rw [Bool.or_eq_true, Bool.not_eq_true', Bool.not_eq_true', decide_eq_false_iff_not,
      decide_eq_false_iff_not, String.not_lt, String.not_lt]
    exact String.le_total a b

theorem mem_of_mem_compiled {t : FileTree} {o : Options} {sources : List Path}
    {d : Path × Compiled} (h : d ∈ compiledSources t o (reachedSources t o sources)) :
    d.1 ∈ sources :=
  (List.takeWhile_sublist _).mem (mem_compiledSources.mp h).1

section Found

variable {t : FileTree} {given : String} {sources : List Path}

theorem holds_of_findSources (hfound : t.findSources given = .ok sources) :
    t.holds (.ofString given) = true := by
  unfold FileTree.findSources at hfound
  unfold FileTree.holds
  dsimp only at hfound
  split at hfound
  · cases hfound
  all_goals
    next hstatus =>
      rw [hstatus]
      rfl

theorem sorted_of_findSources (hdir : t.isDirectory (.ofString given) = true)
    (hfound : t.findSources given = .ok sources) :
    sources.Pairwise fun q q' => ¬q'.name < q.name := by
  simp only [FileTree.findSources, FileTree.status_of_isDirectory hdir] at hfound
  obtain rfl := Except.ok.inj hfound
  refine List.Pairwise.filter _ (List.pairwise_map.mpr ?_)
  simpa using pairwise_sorted (t.names (.ofString given))

theorem suffix_of_findSources (hdir : t.isDirectory (.ofString given) = true)
    (hfound : t.findSources given = .ok sources) : ∀ q ∈ sources, q.suffix = sourceSuffix := by
  intro q hq
  obtain ⟨n, rfl, hsuffix, -⟩ := (mem_findSources hdir hfound).mp hq
  rwa [Path.suffix, Path.name_child]

theorem exists_siblings (hhere : t.node? t.here = some .directory)
    (hfound : t.findSources given = .ok sources) : ∃ dir home, Siblings t sources dir home := by
  rcases FileTree.isDirectory_or_isFile (holds_of_findSources hfound) with hdir | hfile
  · obtain ⟨home, hhome, hnode⟩ := FileTree.status_eq_ok.mp (FileTree.status_of_isDirectory hdir)
    have hsuffix := suffix_of_findSources hdir hfound
    refine ⟨.ofString given, home, hhome, hnode, fun q hq => ?_, fun q hq => ?_, .inr hsuffix, ?_⟩
    · obtain ⟨n, rfl, -⟩ := (mem_findSources hdir hfound).mp hq
      exact Path.parent_child _ n
    · obtain ⟨n, rfl, -⟩ := (mem_findSources hdir hfound).mp hq
      simp [Path.child]
    · refine (sorted_of_findSources hdir hfound).imp_of_mem fun hq hq' hle hstem => ?_
      exact hle (name_lt_name (hsuffix _ hq) (hsuffix _ hq') hstem)
  · obtain rfl := Except.ok.inj ((FileTree.findSources_of_isFile hfile).symm.trans hfound)
    have hparts : (Path.ofString given).parts ≠ [] :=
      FileTree.parts_ne_nil hhere (FileTree.isDirectory_of_isFile hfile)
    obtain ⟨content, hstatus⟩ := FileTree.status_of_isFile hfile
    obtain ⟨q, hq, -⟩ := FileTree.status_eq_ok.mp hstatus
    obtain ⟨home, hhome, hnode⟩ := FileTree.parent_of_place hparts hq
    exact ⟨_, home, hhome, hnode, by simp, by simpa using hparts, .inl ⟨_, rfl⟩,
      List.pairwise_singleton ..⟩

end Found

namespace Siblings

variable {t : FileTree} {sources : List Path} {dir : Path} {home : Place} {q q' : Path}
  {k k' : Product}

theorem eq_of_name (h : Siblings t sources dir home) (hq : q ∈ sources) (hq' : q' ∈ sources)
    (hname : q.name = q'.name) : q = q' := by
  rw [← Path.withName_name (h.parts q hq), ← Path.withName_name (h.parts q' hq'), Path.withName,
    Path.withName, h.parent q hq, h.parent q' hq', hname]

theorem eq_of_stem (h : Siblings t sources dir home) (hq : q ∈ sources) (hq' : q' ∈ sources)
    (hstem : q.stem = q'.stem) : q = q' := by
  rcases h.alone with ⟨p, rfl⟩ | hall
  · rw [List.mem_singleton.mp hq, List.mem_singleton.mp hq']
  · refine h.eq_of_name hq hq' ?_
    rw [← Path.stem_append_suffix q, ← Path.stem_append_suffix q', hstem, hall q hq, hall q' hq']

/-- Every file to be made has a place in the directory of the sources. -/
theorem place_file (h : Siblings t sources dir home) (hq : q ∈ sources) (k : Product) :
    t.place (k.file q) = .ok (home ++ [q.stem ++ k.ending]) := by
  have hplace : t.place q.parent = .ok home := by rw [h.parent q hq, h.place]
  exact FileTree.place_child_of_directory hplace h.node (append_ending_ne_dots _ k)

/-- Files to be made have the same place only if they are the same, or if listings clash. -/
theorem place_file_eq_iff (h : Siblings t sources dir home) (hq : q ∈ sources)
    (hq' : q' ∈ sources) :
    t.place (k.file q) = t.place (k'.file q') ↔
      (q = q' ∧ k = k') ∨ Clash q k q' k' ∨ Clash q' k' q k := by
  have hnames : t.place (k.file q) = t.place (k'.file q') ↔
      q.stem ++ k.ending = q'.stem ++ k'.ending := by
    rw [h.place_file hq, h.place_file hq']
    simp
  rw [hnames]
  constructor
  · intro heq
    exact (append_ending_eq heq).imp_left fun hsame => ⟨h.eq_of_stem hq hq' hsame.1, hsame.2⟩
  · rintro (⟨rfl, rfl⟩ | hclash | hclash)
    · rfl
    · exact hclash.names_eq
    · exact hclash.names_eq.symm

/-- A file to be made takes the place of a source only if that is a single one with its name. -/
theorem place_file_eq_source_iff (h : Siblings t sources dir home) (hq : q ∈ sources)
    (hq' : q' ∈ sources) :
    t.place (k.file q) = t.place q' ↔
      q = q' ∧ ((k = .code ∧ q.suffix = ".vm") ∨ (k = .treeListing ∧ q.suffix = ".xml")) := by
  rw [← name_eq_iff]
  constructor
  · intro heq
    have hplace : t.place q'.parent = .ok home := by rw [h.parent q' hq', h.place]
    rw [h.place_file hq, FileTree.place_of_parent (h.parts q' hq') hplace h.node] at heq
    have hname : q'.name = q.stem ++ k.ending := by
      have heq := Except.ok.inj heq
      split at heq
      · have hlength := congrArg List.length heq
        simp at hlength
        omega
      · simpa using heq.symm
    rcases h.alone with ⟨p, rfl⟩ | hall
    · obtain rfl := List.mem_singleton.mp hq
      obtain rfl := List.mem_singleton.mp hq'
      exact ⟨rfl, hname⟩
    · have hlast := getLast?_of_suffix (hall q' hq')
      rw [hname, getLast?_ending] at hlast
      cases k <;> exact absurd hlast (by decide)
  · rintro ⟨rfl, hname⟩
    rw [Product.file, ← hname, Path.withName_name (h.parts q hq)]

theorem file_eq_of_clash (h : Siblings t sources dir home) (hq : q ∈ sources) (hq' : q' ∈ sources)
    (hclash : Clash q k q' k') : k.file q = k'.file q' := by
  simp only [Product.file, Path.withName, h.parent q hq, h.parent q' hq', hclash.names_eq]

theorem isDirectory_parent (h : Siblings t sources dir home) (hq : q ∈ sources) :
    t.isDirectory q.parent = true :=
  FileTree.isDirectory_iff.mpr ⟨home, by rw [h.parent q hq, h.place], h.node⟩

theorem distinct_compiled (h : Siblings t sources dir home) {o : Options} :
    ∀ d ∈ compiledSources t o (reachedSources t o sources),
      ∀ d' ∈ compiledSources t o (reachedSources t o sources), d.1.stem = d'.1.stem → d = d' := by
  rintro ⟨q, r⟩ hd ⟨q', r'⟩ hd' hstem
  have hr := (mem_compiledSources.mp hd).2
  have hr' := (mem_compiledSources.mp hd').2
  obtain rfl := h.eq_of_stem (mem_of_mem_compiled hd) (mem_of_mem_compiled hd') hstem
  exact congrArg (Prod.mk q) (Except.ok.inj (hr.symm.trans hr'))

theorem ordered_compiled (h : Siblings t sources dir home) {o : Options} :
    (compiledSources t o (reachedSources t o sources)).Pairwise
      fun d d' => d.1.stem ≠ d'.1.stem ++ "T" := by
  have hreached : (reachedSources t o sources).Pairwise fun q q' => q.stem ≠ q'.stem ++ "T" :=
    h.ordered.sublist (List.takeWhile_sublist _)
  refine List.pairwise_filterMap.mpr (hreached.imp fun hstem d hd d' hd' => ?_)
  obtain ⟨r, -, rfl⟩ := Option.map_eq_some_iff.mp hd
  obtain ⟨r', -, rfl⟩ := Option.map_eq_some_iff.mp hd'
  exact hstem

end Siblings

/-! ## Deliveries -/

section Deliveries

variable {t t' : FileTree} {a : Arguments} {p q : Path} {r : Compiled} {k : Product}
  {ds : List (Path × Compiled)} {d : Path × Compiled}

theorem products_nodup (a : Arguments) : (products a).Nodup := by
  refine List.Nodup.filter _ ?_
  decide

theorem productFiles_eq (a : Arguments) (q : Path) (r : Compiled) :
    productFiles a q r = (q.stem ++ codeSuffix, codeFile r.codeText) :: listingFiles a q r := by
  have hproducts : products a = .code :: ((if a.tokens then [.tokenListing] else []) ++
      (if a.tree then [.treeListing] else [])) := by
    simp only [products, Product.all, List.filter_cons, List.filter_nil, Product.asked, if_true]
    split <;> rfl
  have hending : q.stem ++ "T" ++ ".xml" = q.stem ++ Product.tokenListing.ending :=
    (append_tokenEnding q.stem).symm
  rw [productFiles, hproducts, listingFiles, hending]
  split <;> split <;> rfl

theorem outputs_eq (a : Arguments) (q p : Path) (r : Compiled) :
    outputs a q (p.child (q.stem ++ codeSuffix)) r =
      (productFiles a q r).map fun f => (p.child f.1, f.2) := by
  rw [outputs_child, productFiles_eq, List.map_cons]

theorem deliveredNames_eq (a : Arguments) (q : Path) (r : Compiled) :
    deliveredNames a q r = (products a).map fun k => q.stem ++ k.ending := by
  have hnames : deliveredNames a q r = (productFiles a q r).map Prod.fst := by
    rw [productFiles_eq, List.map_cons, deliveredNames]
  rw [hnames, productFiles, List.map_map]
  rfl

theorem ending_injective (s : String) :
    Function.Injective fun k : Product => s ++ k.ending := by
  intro k k' h
  have hending : k.ending = k'.ending := (String.append_right_inj _).mp h
  revert hending
  cases k <;> cases k' <;> decide

/-- Files with different names are all there once they have been written. -/
theorem read_of_writeAll {files : List (String × String)} (hdots : ∀ f ∈ files, f.1 ≠ "..")
    (hnodup : (files.map Prod.fst).Nodup)
    (h : writeAll t (files.map fun f => (p.child f.1, f.2)) = (t', none)) {f : String × String}
    (hf : f ∈ files) : t'.read (p.child f.1) = .ok (Text.Utf8.encode f.2) := by
  induction files generalizing t with
  | nil => cases hf
  | cons g files ih =>
      have hlater := fun f hf => hdots f (List.mem_cons_of_mem _ hf)
      obtain ⟨hfresh, hnodup⟩ := List.nodup_cons.mp hnodup
      rw [List.map_cons, writeAll] at h
      split at h
      · cases (Prod.mk.inj h).2
      · next t₁ hwrite =>
          rcases List.mem_cons.mp hf with rfl | hf
          · have hfirst := hdots f (List.mem_cons_self ..)
            obtain ⟨-, hread⟩ :=
              FileTree.alters_of_write hfirst (FileTree.writeText_eq_ok hwrite)
            exact (alters_of_writeAll hlater h).read hfirst hfresh hread
          · exact ih hlater hnodup h hf

theorem outputs_beside (houtput : a.output = none) (q : Path) (r : Compiled) :
    outputs a q (codePath a q) r =
      (productFiles a q r).map fun f => (q.parent.child f.1, f.2) := by
  rw [codePath, houtput]
  exact outputs_eq a q q.parent r

/-- What a source makes is there once it is delivered. -/
theorem read_of_deliver (houtput : a.output = none)
    (h : deliver t a q (codePath a q) r = (t', none)) (hk : k ∈ products a) :
    t'.read (k.file q) = .ok (Text.Utf8.encode (k.content r)) := by
  unfold deliver at h
  split at h
  · cases (Prod.mk.inj h).2
  · next t₁ hmade =>
      rw [outputs_beside houtput] at h
      have hdots : ∀ f ∈ productFiles a q r, f.1 ≠ ".." := by
        intro f hf
        obtain ⟨k', -, rfl⟩ := List.mem_map.mp hf
        exact append_ending_ne_dots _ k'
      have hnodup : ((productFiles a q r).map Prod.fst).Nodup := by
        rw [productFiles, List.map_map]
        exact List.Nodup.map (ending_injective q.stem) (products_nodup a)
      have hfile : (q.stem ++ k.ending, k.content r) ∈ productFiles a q r :=
        List.mem_map_of_mem hk
      have hread := read_of_writeAll hdots hnodup h hfile
      exact hread

/-- What a source makes is there once it is delivered with others, unless it is a token listing that
clashes with a listing of theirs. -/
theorem read_product_of_deliverEach (houtput : a.output = none)
    (hdistinct : ∀ d ∈ ds, ∀ d' ∈ ds, d.1.stem = d'.1.stem → d = d')
    (hordered : ds.Pairwise fun d d' => d.1.stem ≠ d'.1.stem ++ "T")
    (h : deliverEach a t ds = (t', none)) (hd : d ∈ ds) (hk : k ∈ products a)
    (hfree : ∀ d' ∈ ds, ∀ k' ∈ products a, ¬Clash d.1 k d'.1 k') :
    t'.read (k.file d.1) = .ok (Text.Utf8.encode (k.content d.2)) := by
  induction ds generalizing t with
  | nil => cases hd
  | cons d₀ ds ih =>
      rw [deliverEach] at h
      split at h
      · cases (Prod.mk.inj h).2
      · next t₁ hdeliver =>
          have hlater := fun d hd d' hd' =>
            hdistinct d (List.mem_cons_of_mem _ hd) d' (List.mem_cons_of_mem _ hd')
          have hothers := fun d' hd' => hfree d' (List.mem_cons_of_mem _ hd')
          obtain ⟨hfirst, hordered⟩ := List.pairwise_cons.mp hordered
          by_cases hmem : d ∈ ds
          · exact ih hlater hordered h hmem hothers
          · obtain rfl : d = d₀ := (List.mem_cons.mp hd).resolve_right hmem
            refine (alters_of_deliverEach h).read (append_ending_ne_dots _ k) ?_
              (read_of_deliver houtput hdeliver hk)
            intro hname
            obtain ⟨d', hd', hname⟩ := List.mem_flatMap.mp hname
            rw [deliveredNames_eq] at hname
            obtain ⟨k', hk', hname⟩ := List.mem_map.mp hname
            rcases append_ending_eq hname with ⟨hstem, -⟩ | hclash | hclash
            · have hsame := hdistinct d hd d' (List.mem_cons_of_mem _ hd') hstem.symm
              exact hmem (hsame ▸ hd')
            · exact hfirst d' hd' hclash.stem
            · exact hothers d' hd' k' hk' hclash

/-- Files are written if no directory stands where they should. -/
theorem writeAll_free {files : List (String × String)} (hdir : t.isDirectory p = true)
    (hfree : ∀ f ∈ files, t.isDirectory (p.child f.1) = false) :
    ∃ t', writeAll t (files.map fun f => (p.child f.1, f.2)) = (t', none) ∧
      t.SameDirectories t' := by
  induction files generalizing t with
  | nil => exact ⟨t, rfl, .refl t⟩
  | cons f files ih =>
      obtain ⟨hfirst, hlater⟩ := List.forall_mem_cons.mp hfree
      have hparts : (p.child f.1).parts ≠ [] := by simp [Path.child]
      have hparent : t.isDirectory (p.child f.1).parent = true := by rwa [Path.parent_child]
      obtain ⟨t₁, hwrite⟩ := FileTree.exists_writeText hparts hparent hfirst f.2
      have hsame := FileTree.sameDirectories_of_writeText hwrite
      obtain ⟨t₂, hrest, hsame'⟩ := ih (t := t₁) (by rwa [hsame.isDirectory])
        fun g hg => by rw [hsame.isDirectory, hlater g hg]
      refine ⟨t₂, ?_, hsame.trans hsame'⟩
      rw [List.map_cons, writeAll, hwrite]
      exact hrest

theorem deliver_free (houtput : a.output = none) (hdir : t.isDirectory q.parent = true)
    (hfree : ∀ k ∈ products a, t.isDirectory (k.file q) = false) (r : Compiled) :
    ∃ t', deliver t a q (codePath a q) r = (t', none) ∧ t.SameDirectories t' := by
  have hparent : (codePath a q).parent = q.parent := by
    rw [codePath, houtput]
    exact Path.parent_child ..
  have hnames : ∀ f ∈ productFiles a q r, t.isDirectory (q.parent.child f.1) = false := by
    intro f hf
    obtain ⟨k, hk, rfl⟩ := List.mem_map.mp hf
    exact hfree k hk
  unfold deliver
  rw [hparent, FileTree.makePath_of_isDirectory hdir, outputs_beside houtput]
  exact writeAll_free hdir hnames

/-- No delivery fails if no directory stands where a file should. -/
theorem deliverEach_free (houtput : a.output = none)
    (hfree : ∀ d ∈ ds, t.isDirectory d.1.parent = true ∧
      ∀ k ∈ products a, t.isDirectory (k.file d.1) = false) :
    (deliverEach a t ds).2 = none := by
  induction ds generalizing t with
  | nil => rfl
  | cons d ds ih =>
      obtain ⟨hfirst, hlater⟩ := List.forall_mem_cons.mp hfree
      obtain ⟨t₁, hdeliver, hsame⟩ := deliver_free houtput hfirst.1 hfirst.2 d.2
      rw [deliverEach, hdeliver]
      refine ih fun d' hd' => ?_
      simp only [hsame.isDirectory]
      exact hlater d' hd'

end Deliveries

/-! ## The two listings -/

theorem compileSource_of_compileFile {t : FileTree} {o : Options} {given : String} {r : Compiled}
    (h : (t.compileFile o given).result = .ok r) :
    ∃ text, t.readText (.ofString given) = .ok text ∧
      (compileSource o text (Path.ofString given).text).result = .ok r := by
  unfold FileTree.compileFile at h
  dsimp only at h
  split at h
  · cases h
  · split at h
    · cases h
    · next text htext =>
        refine ⟨text, htext, ?_⟩
        dsimp only at h
        cases hresult : (compileSource o text (Path.ofString given).text).result with
        | error f =>
            rw [hresult] at h
            cases h
        | ok r' =>
            rw [hresult] at h
            obtain rfl := Except.ok.inj h
            rfl

theorem compileSource_eq_listings {o : Options} {source file : String} {r : Compiled}
    (h : (compileSource o source file).result = .ok r) :
    r.tokenListing = (if o.listTokens then Token.listing (Token.scan source file).tokens else "") ∧
      r.treeListing = Listing.render
        ((Compile.compileTokens { o with knownClasses := o.allKnown } file (Text.linesOf source)
          (Token.scan source file).tokens).state.marks.getD []) := by
  unfold compileSource at h
  dsimp only at h
  split at h
  · cases h
  · split at h
    · cases h
    · obtain rfl := Except.ok.inj h
      exact ⟨rfl, rfl⟩

/-- The listing of a derivation, where it was asked for, is that of a class. -/
theorem treeListing_of_compileSource {o : Options} (hlist : o.listTree = true)
    {source file : String} {r : Compiled} (h : (compileSource o source file).result = .ok r) :
    ∃ cd : Syntax.ClassDecl, r.treeListing = cd.derivation.render := by
  obtain ⟨hfault, -⟩ := compileSource_outcome h
  obtain ⟨-, htree⟩ := compileSource_eq_listings h
  let tokens := (Token.scan source file).tokens
  let setting : Token.Setting := .ofTokens file (Text.linesOf source) tokens
  let start : Compile.State :=
    { rest := tokens, known := o.allKnown, recorded := if o.listTree then some [] else none }
  have hstart : start.marks = some [] := by simp [start, Compile.State.marks, hlist]
  have hsound : start.Sound := ⟨Token.scan_valid source file, Int.le_refl 0⟩
  obtain ⟨ms, hmarks, -, hwrites⟩ := Compile.run_records (l := ⟨file, 1, 1⟩)
    (c := { setting with strict := o.strict }) Compile.Goal.wholeClass start hsound
  rw [hstart] at hmarks
  obtain ⟨cd, hcd⟩ := Compile.writesAll_wholeClass (hwrites hfault)
  have hrecorded : (Compile.compileTokens { o with knownClasses := o.allKnown } file
      (Text.linesOf source) tokens).state.marks = some ms := hmarks
  refine ⟨cd, ?_⟩
  rw [htree, hrecorded]
  exact (Compile.listing_of_derivation hcd).2.1

/-- The listing of tokens is never that of a derivation, not even of another class. -/
theorem listings_differ {o o' : Options} {source source' file file' : String} {r r' : Compiled}
    (htokens : o.listTokens = true) (h : (compileSource o source file).result = .ok r)
    (htree : o'.listTree = true) (h' : (compileSource o' source' file').result = .ok r') :
    r.tokenListing ≠ r'.treeListing := by
  obtain ⟨cd, hcd⟩ := treeListing_of_compileSource htree h'
  rw [(compileSource_eq_listings h).1, if_pos htokens, hcd]
  intro heq
  -- One starts with `<tokens>`, the other with `<class>`.
  have hopening : s!"<{Element.classDecl.tag}>" = "<class>" := rfl
  have hsecond := congrArg (fun text => text.toList[1]?) heq
  rw [Token.listing, List.cons_append, String.intercalate_cons_of_ne_nil (by simp),
    Derivation.render, Syntax.ClassDecl.derivation, Derivation.lines, List.cons_append,
    String.intercalate_cons_of_ne_nil (by simp), hopening] at hsecond
  simp at hsecond

/-! ## The whole run -/

/-- How the sources of a run are compiled. Only those of a directory know each other. -/
def runOptions (tree : FileTree) (a : Arguments) (given : String) (sources : List Path) : Options :=
  if tree.isDirectory (.ofString given) then directoryOptions a sources else fileOptions a

theorem runOptions_asked (tree : FileTree) (a : Arguments) (given : String) (sources : List Path) :
    (runOptions tree a given sources).strict = a.strict ∧
      (runOptions tree a given sources).listTokens = a.tokens ∧
      (runOptions tree a given sources).listTree = a.tree := by
  unfold runOptions
  split <;> exact ⟨rfl, rfl, rfl⟩

/-- The sources that a run compiles, with what they compile to: the first one behind which it does
not go on ends it, and others that do not compile are passed over. -/
def runCompiled (tree : FileTree) (a : Arguments) (given : String) (sources : List Path) :
    List (Path × Compiled) :=
  let o := runOptions tree a given sources
  compiledSources tree o (reachedSources tree o sources)

/-- The run goes on behind a source that compiles. -/
theorem goesOn_of_compiled {t : FileTree} {o : Options} {q : Path} {r : Compiled}
    (hq : q.Normal) (hresult : (t.compileFile o q.text).result = .ok r) : goesOn t o q = true := by
  obtain ⟨text, htext, hsource⟩ := compileSource_of_compileFile hresult
  rw [Path.ofString_text hq] at htext hsource
  simp only [goesOn, htext, hsource]

theorem encode_injective {s s' : String} (h : Text.Utf8.encode s = Text.Utf8.encode s') :
    s = s' := by
  rw [← String.toByteArray_inj, ← String.ofList_toList (s := s), ← String.ofList_toList (s := s')]
  exact congrArg List.toByteArray h

/-- Listings that clash have different contents. -/
theorem content_ne_of_clash {tree : FileTree} {a : Arguments} {given : String}
    {sources : List Path} {d d' : Path × Compiled} {k k' : Product} (hk : k ∈ products a)
    (hk' : k' ∈ products a) (hclash : Clash d.1 k d'.1 k')
    (hr : (tree.compileFile (runOptions tree a given sources) d.1.text).result = .ok d.2)
    (hr' : (tree.compileFile (runOptions tree a given sources) d'.1.text).result = .ok d'.2) :
    k.content d.2 ≠ k'.content d'.2 := by
  obtain ⟨rfl, rfl, -⟩ := hclash
  have htokens : a.tokens = true := (List.mem_filter.mp hk).2
  have htree : a.tree = true := (List.mem_filter.mp hk').2
  obtain ⟨text, -, hsource⟩ := compileSource_of_compileFile hr
  obtain ⟨text', -, hsource'⟩ := compileSource_of_compileFile hr'
  obtain ⟨-, htokens', htree'⟩ := runOptions_asked tree a given sources
  have hdiffer := listings_differ (htokens'.trans htokens) hsource (htree'.trans htree) hsource'
  exact fun heq => hdiffer ((String.append_left_inj _).mp heq)

/-- A file or a directory is to be compiled, and no output is named. Arguments may be in any order,
and listings may be asked for. -/
structure Beside (tree : FileTree) (arguments : List String) (a : Arguments) (given : String)
    (sources : List Path) : Prop where
  read : Arguments.read {} arguments = .ok a
  inquiry : a.inquiry = none
  operands : a.operands = [given]
  output_eq : a.output = none
  here : tree.node? tree.here = some .directory
  slash : ∀ e ∈ tree.entries, ∀ n ∈ e.1, '/' ∉ n.toList
  typed : tree.holdsTyped given = true
  found : tree.findSources given = .ok sources

theorem outputPath_beside (t : FileTree) {a : Arguments} {q : Path} (asDirectory : Bool)
    (houtput : a.output = none) (hname : q.name ≠ "") :
    t.outputPath q (a.output.map Path.ofString) asDirectory = .ok (codePath a q) := by
  rw [codePath, houtput, FileTree.outputPath, if_neg hname]
  rfl

namespace Beside

variable {tree : FileTree} {arguments : List String} {a : Arguments} {given : String}
  {sources : List Path}

theorem given_ne (h : Beside tree arguments a given sources) : given ≠ "" := by
  rintro rfl
  have htyped := h.typed
  simp [FileTree.holdsTyped, Path.fields] at htyped

theorem deliver_directory (h : Beside tree arguments a given sources)
    (hdir : tree.isDirectory (.ofString given) = true)
    (hfree : (deliverEach a tree (runCompiled tree a given sources)).2 = none) :
    deliverEach a tree (runCompiled tree a given sources) =
      ((run tree arguments).transcript.tree, none) := by
  have hcompiled : runCompiled tree a given sources =
      compiledSources tree (directoryOptions a sources)
        (reachedSources tree (directoryOptions a sources) sources) := by
    rw [runCompiled, runOptions, if_pos hdir]
  rw [hcompiled] at hfree ⊢
  by_cases hsome : sources = []
  · subst hsome
    have hrun : (run tree arguments).transcript.tree = tree := by
      simp [run, h.read, h.inquiry, h.operands, h.typed, compileAll, h.found, Transcript.warn]
    rw [hrun]
    rfl
  · rw [run_eq_compileEach h.read h.inquiry h.operands h.given_ne hdir h.found hsome]
    have heach : ∀ q ∈ sources,
        IsSource tree (.ofString given) q ∨ IsUnreadable tree (.ofString given) q := fun q hq =>
      isSource_or_isUnreadable (Path.normal_ofString given) h.slash
        ((mem_findSources hdir h.found).mp hq)
    exact (compileEach_reached sources.length heach hfree).1

theorem deliver_file (h : Beside tree arguments a given sources)
    (hfile : tree.isFile (.ofString given) = true)
    (hfree : (deliverEach a tree (runCompiled tree a given sources)).2 = none) :
    deliverEach a tree (runCompiled tree a given sources) =
      ((run tree arguments).transcript.tree, none) := by
  have hdir := FileTree.isDirectory_of_isFile hfile
  obtain rfl := Except.ok.inj ((FileTree.findSources_of_isFile hfile).symm.trans h.found)
  have hnormal := Path.normal_ofString given
  have hname := Path.name_ne_empty hnormal (FileTree.parts_ne_nil h.here hdir)
  have hoptions : runOptions tree a given [.ofString given] = fileOptions a := by
    rw [runOptions, hdir]
    rfl
  rw [run_eq_compileEach_file h.read h.inquiry h.operands h.typed hfile]
  rw [runCompiled, hoptions] at hfree ⊢
  cases hresult : (tree.compileFile (fileOptions a) (Path.ofString given).text).result with
  | error f =>
      have hnone : compiledSources tree (fileOptions a)
          (reachedSources tree (fileOptions a) [.ofString given]) = [] := by
        refine List.eq_nil_iff_forall_not_mem.mpr fun d hd => ?_
        have hr := (mem_compiledSources.mp hd).2
        rw [List.mem_singleton.mp (mem_of_mem_compiled hd), hresult] at hr
        cases hr
      obtain ⟨-, htree⟩ := compileEach_refused (w := { tree := tree }) a false 1 hresult
      rw [hnone, htree]
      rfl
  | ok r =>
      have hread : reachedSources tree (fileOptions a) [.ofString given] = [.ofString given] :=
        List.takeWhile_cons_of_pos (goesOn_of_compiled hnormal hresult)
      have hone : compiledSources tree (fileOptions a) [.ofString given] =
          [(.ofString given, r)] := compiledSources_cons_ok [] hresult
      rw [hread, hone, deliverEach] at hfree ⊢
      cases hdeliver : deliver tree a (.ofString given) (codePath a (.ofString given)) r with
      | mk t' fault =>
          rw [hdeliver] at hfree
          cases fault with
          | some f => cases hfree
          | none =>
              have htarget := outputPath_beside tree false h.output_eq hname
              obtain ⟨-, htree⟩ :=
                compileEach_written (w := { tree := tree }) 1 hresult htarget hdeliver
              rw [htree]
              rfl

/-- A run without a failed write does what delivering the compiled sources does. -/
theorem deliverEach_eq (h : Beside tree arguments a given sources)
    (hfree : (deliverEach a tree (runCompiled tree a given sources)).2 = none) :
    deliverEach a tree (runCompiled tree a given sources) =
      ((run tree arguments).transcript.tree, none) := by
  rcases FileTree.isDirectory_or_isFile (holds_of_findSources h.found) with hdir | hfile
  · exact h.deliver_directory hdir hfree
  · exact h.deliver_file hfile hfree

/-- A run fails to write only if a directory stands where a file should. -/
theorem deliverEach_clear (h : Beside tree arguments a given sources)
    (hclear : ∀ q ∈ sources, ∀ k ∈ products a, tree.isDirectory (k.file q) = false) :
    (deliverEach a tree (runCompiled tree a given sources)).2 = none := by
  obtain ⟨dir, home, hsiblings⟩ := exists_siblings h.here h.found
  refine deliverEach_free h.output_eq fun d hd => ?_
  have hq := mem_of_mem_compiled hd
  exact ⟨hsiblings.isDirectory_parent hq, hclear d.1 hq⟩

/-- What a compiled source makes is there at the end, unless it clashes with what others make. -/
theorem read_iff (h : Beside tree arguments a given sources)
    (hfree : (deliverEach a tree (runCompiled tree a given sources)).2 = none)
    {d : Path × Compiled} (hd : d ∈ runCompiled tree a given sources) {k : Product}
    (hk : k ∈ products a) :
    (run tree arguments).transcript.tree.read (k.file d.1) =
        .ok (Text.Utf8.encode (k.content d.2)) ↔
      ∀ d' ∈ runCompiled tree a given sources, ∀ k' ∈ products a, ¬Clash d.1 k d'.1 k' := by
  obtain ⟨dir, home, hsiblings⟩ := exists_siblings h.here h.found
  have hread := fun d hd k hk => read_product_of_deliverEach (d := d) (k := k) h.output_eq
    hsiblings.distinct_compiled hsiblings.ordered_compiled (h.deliverEach_eq hfree) hd hk
  refine ⟨fun hown d' hd' k' hk' hclash => ?_, hread d hd k hk⟩
  -- The file is read as the listing of the other class, which is a listing of another kind.
  have hother := hread d' hd' k' hk' fun e _ j _ hclash' => by
    cases hclash'.first.symm.trans hclash.second
  rw [← hsiblings.file_eq_of_clash (mem_of_mem_compiled hd) (mem_of_mem_compiled hd') hclash,
    hown] at hother
  exact content_ne_of_clash hk hk' hclash (mem_compiledSources.mp hd).2
    (mem_compiledSources.mp hd').2 (encode_injective (Except.ok.inj hother))

end Beside

/-- Without an output named, the files that a run makes stand beside the sources, and two of them
are the same only where the token listing of a class clashes with another listing. None of them is
a source of a directory; a single source may be named like its own code, or like the listing of its
own derivation. No write fails unless a directory is in its way. And if none fails, whatever a
compiled source makes is there at the end with its own content, but for token listings that
clash. -/
theorem run_outputs {tree : FileTree} {arguments : List String} {a : Arguments} {given : String}
    {sources : List Path} (h : Beside tree arguments a given sources) :
    let after := (run tree arguments).transcript.tree
    let compiled := runCompiled tree a given sources
    (∀ q ∈ sources, ∀ k ∈ products a, ∃ place, tree.place (k.file q) = .ok place) ∧
      (∀ q ∈ sources, ∀ k ∈ products a, ∀ q' ∈ sources, ∀ k' ∈ products a,
        (tree.place (k.file q) = tree.place (k'.file q') ↔
          (q = q' ∧ k = k') ∨ Clash q k q' k' ∨ Clash q' k' q k)) ∧
      (∀ q ∈ sources, ∀ k ∈ products a, ∀ q' ∈ sources,
        (tree.place (k.file q) = tree.place q' ↔
          q = q' ∧ ((k = .code ∧ q.suffix = ".vm") ∨ (k = .treeListing ∧ q.suffix = ".xml")))) ∧
      (tree.isDirectory (.ofString given) = true → ∀ q ∈ sources, q.suffix = ".jack") ∧
      ((∀ q ∈ sources, ∀ k ∈ products a, tree.isDirectory (k.file q) = false) →
        (deliverEach a tree compiled).2 = none) ∧
      ((deliverEach a tree compiled).2 = none → ∀ d ∈ compiled, ∀ k ∈ products a,
        (after.read (k.file d.1) = .ok (Text.Utf8.encode (k.content d.2)) ↔
          ∀ d' ∈ compiled, ∀ k' ∈ products a, ¬Clash d.1 k d'.1 k')) := by
  intro after compiled
  obtain ⟨dir, home, hsiblings⟩ := exists_siblings h.here h.found
  exact ⟨fun q hq k _ => ⟨_, hsiblings.place_file hq k⟩,
    fun q hq k _ q' hq' k' _ => hsiblings.place_file_eq_iff hq hq',
    fun q hq k _ q' hq' => hsiblings.place_file_eq_source_iff hq hq',
    fun hdir => suffix_of_findSources hdir h.found, h.deliverEach_clear,
    fun hfree d hd k hk => h.read_iff hfree hd hk⟩

/-! ## Two classes without code -/

def twinTree : FileTree where
  entries :=
    [(["A.jack"], .file (Text.Utf8.encode "class A \x7b \x7d")),
      (["AT.jack"], .file (Text.Utf8.encode "class AT \x7b \x7d"))]

def twinArguments : Arguments where
  tokens := true
  tree := true
  operands := ["."]

def firstTwin : Path := .ofString "A.jack"

def secondTwin : Path := .ofString "AT.jack"

theorem twinTree_sources : twinTree.findSources "." = .ok [firstTwin, secondTwin] := by
  have hstatus : twinTree.status (.ofString ".") = .ok .directory := by decide
  have hnames : twinTree.names (.ofString ".") = ["A.jack", "AT.jack"] := by decide
  unfold FileTree.findSources
  simp only [hstatus, hnames]
  rw [List.mergeSort_of_pairwise (by decide)]
  decide

theorem twinTree_beside : Beside twinTree [".", "--tokens", "--xml"] twinArguments "."
    [firstTwin, secondTwin] := by
  constructor
  case found => exact twinTree_sources
  all_goals decide

theorem twin_compiles {q : Path} {text : String} {o : Options} (name : String)
    (hstrict : o.strict = false) (hnormal : q.Normal) (htext : twinTree.readText q = .ok text)
    (hcut : (Token.cutAll text.toList).unclosed = none ∧
      (Token.cutAll text.toList).pieces.filterMap Token.Piece.lexeme? =
        (emptyClass name).spelling) :
    ∃ r, (twinTree.compileFile o q.text).result = .ok r := by
  obtain ⟨r, hr, -⟩ := emptyClass_compiles hstrict hcut q.text
  exact ⟨r, by rw [FileTree.compileFile_eq hnormal o htext, hr]; rfl⟩

theorem twinTree_compiled : ∃ r r',
    runCompiled twinTree twinArguments "." [firstTwin, secondTwin] =
      [(firstTwin, r), (secondTwin, r')] := by
  have hfirst : twinTree.readText firstTwin = .ok "class A \x7b \x7d" :=
    FileTree.readText_of_plain rfl (by decide)
  have hsecond : twinTree.readText secondTwin = .ok "class AT \x7b \x7d" :=
    FileTree.readText_of_plain rfl (by decide)
  obtain ⟨hstrict, -⟩ := runOptions_asked twinTree twinArguments "." [firstTwin, secondTwin]
  have hnormal : firstTwin.Normal := Path.normal_ofString _
  have hnormal' : secondTwin.Normal := Path.normal_ofString _
  obtain ⟨r, hr⟩ := twin_compiles "A" hstrict hnormal hfirst (by decide +kernel)
  obtain ⟨r', hr'⟩ := twin_compiles "AT" hstrict hnormal' hsecond (by decide +kernel)
  have hreached : reachedSources twinTree
      (runOptions twinTree twinArguments "." [firstTwin, secondTwin]) [firstTwin, secondTwin] =
      [firstTwin, secondTwin] := by
    refine List.takeWhile_eq_self_iff.mpr ?_
    simp [goesOn_of_compiled hnormal hr, goesOn_of_compiled hnormal' hr']
  refine ⟨r, r', ?_⟩
  rw [runCompiled, hreached, compiledSources_cons_ok _ hr, compiledSources_cons_ok _ hr']
  rfl

/-- The files of the two classes, apart from one listing of tokens, clash with no other. -/
theorem twinTree_clashes : ∀ q ∈ [firstTwin, secondTwin], ∀ k ∈ products twinArguments,
    (∀ q' ∈ [firstTwin, secondTwin], ∀ k' ∈ products twinArguments, ¬Clash q k q' k') ↔
      ¬(q = firstTwin ∧ k = .tokenListing) := by
  decide +kernel

theorem twinTree_clear : ∀ q ∈ [firstTwin, secondTwin], ∀ k ∈ products twinArguments,
    twinTree.isDirectory (k.file q) = false := by
  decide

theorem twinTree_outputs : ∃ r r' : Compiled,
    runCompiled twinTree twinArguments "." [firstTwin, secondTwin] =
        [(firstTwin, r), (secondTwin, r')] ∧
      ∀ d ∈ [(firstTwin, r), (secondTwin, r')], ∀ k : Product,
        ((run twinTree [".", "--tokens", "--xml"]).transcript.tree.read (k.file d.1) =
            .ok (Text.Utf8.encode (k.content d.2)) ↔
          ¬(d.1 = firstTwin ∧ k = .tokenListing)) := by
  obtain ⟨r, r', hcompiled⟩ := twinTree_compiled
  obtain ⟨-, -, -, -, hclear, hown⟩ := run_outputs twinTree_beside
  refine ⟨r, r', hcompiled, fun d hd k => ?_⟩
  have hk : k ∈ products twinArguments := by cases k <;> decide
  have hq : d.1 ∈ [firstTwin, secondTwin] := List.mem_map_of_mem hd
  rw [hown (hclear twinTree_clear) d (hcompiled ▸ hd) k hk, hcompiled,
    ← twinTree_clashes d.1 hq k hk]
  simp

/-- Two sources of a directory have listings of one name, and the one of the tokens is not there at
the end. A single source may have the place of its own code or of its own listing. -/
theorem twinTree_written : ∃ r r' : Compiled,
    runCompiled twinTree twinArguments "." [firstTwin, secondTwin] =
        [(firstTwin, r), (secondTwin, r')] ∧
      (deliverEach twinArguments twinTree [(firstTwin, r), (secondTwin, r')]).2 = none ∧
      Product.tokenListing.file firstTwin = Product.treeListing.file secondTwin ∧
      (run twinTree [".", "--tokens", "--xml"]).transcript.tree.read
          (Product.tokenListing.file firstTwin) ≠
        .ok (Text.Utf8.encode (Product.tokenListing.content r)) ∧
      (∃ t : FileTree, t.findSources "Main.vm" = .ok [.ofString "Main.vm"] ∧
        t.place (Product.code.file (.ofString "Main.vm")) = t.place (.ofString "Main.vm")) ∧
      ∃ t : FileTree, t.findSources "Main.xml" = .ok [.ofString "Main.xml"] ∧
        t.place (Product.treeListing.file (.ofString "Main.xml")) =
          t.place (.ofString "Main.xml") := by
  obtain ⟨r, r', hcompiled⟩ := twinTree_compiled
  have hfree := twinTree_beside.deliverEach_clear twinTree_clear
  refine ⟨r, r', hcompiled, hcompiled ▸ hfree, by decide +kernel, fun hown => ?_,
    ⟨{ entries := [(["Main.vm"], .file [])] }, by decide, by decide⟩,
    ⟨{ entries := [(["Main.xml"], .file [])] }, by decide, by decide⟩⟩
  have hfirst : (firstTwin, r) ∈
      runCompiled twinTree twinArguments "." [firstTwin, secondTwin] := by
    simp [hcompiled]
  have hsecond : (secondTwin, r') ∈
      runCompiled twinTree twinArguments "." [firstTwin, secondTwin] := by
    simp [hcompiled]
  have hclash : Clash firstTwin .tokenListing secondTwin .treeListing := by decide
  exact (twinTree_beside.read_iff hfree hfirst (by decide)).mp hown _ hsecond _ (by decide) hclash

end CommandLine

end Jack
