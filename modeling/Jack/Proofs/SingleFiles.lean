import Jack.Proofs.Constants
import Jack.Proofs.Decoding
import Jack.Proofs.DirectoryRuns

/-!
# Compiling one file

One file can be compiled by the command with an output named (`run`), or directly
(`compileFileTo`). Both fail on the same files and write nothing then, and both write the code of
the others, with one exception: a class without code makes an empty file in one case and an empty
line in the other (`run_file`).
-/

namespace Jack

open Compile (Options)

/-- Only the listing of no instructions is empty. -/
theorem Instruction.listing_eq_empty_iff (code : List Instruction) :
    Instruction.listing code = "" ↔ code = [] := by
  cases code with
  | nil => simp [Instruction.listing]
  | cons i code =>
      have htext := i.text_ne_empty
      cases code <;> simp [Instruction.listing, String.intercalate_cons_cons, htext]

namespace FileTree

variable {t : FileTree} {p : Path} {given : String} {o : Options}

theorem status_of_isFile (h : t.isFile p = true) : ∃ content, t.status p = .ok (.file content) := by
  obtain ⟨content, hread⟩ := isFile_iff.mp h
  exact ⟨content, read_eq_ok.mp hread⟩

theorem isDirectory_of_isFile (h : t.isFile p = true) : t.isDirectory p = false := by
  obtain ⟨content, hstatus⟩ := status_of_isFile h
  simp [isDirectory, hstatus]

theorem isDirectory_or_isFile (h : t.holds p = true) :
    t.isDirectory p = true ∨ t.isFile p = true := by
  unfold holds at h
  unfold isDirectory isFile
  cases hstatus : t.status p with
  | error e =>
      rw [hstatus] at h
      cases h
  | ok m => cases m <;> simp

/-- A file that is there compiles alike, however its path is spelled. -/
theorem compileFile_text (h : t.isFile (.ofString given) = true) :
    t.compileFile o (Path.ofString given).text = t.compileFile o given := by
  obtain ⟨content, hstatus⟩ := status_of_isFile h
  simp only [compileFile, Path.ofString_text (Path.normal_ofString given), hstatus]

theorem findSources_of_isFile (h : t.isFile (.ofString given) = true) :
    t.findSources given = .ok [.ofString given] := by
  obtain ⟨content, hstatus⟩ := status_of_isFile h
  simp only [findSources, hstatus]

/-- A path without parts leads to the root or to the working directory. -/
theorem isDirectory_of_parts (hhere : t.node? t.here = some .directory) (hparts : p.parts = []) :
    t.isDirectory p = true := by
  have hstatus : t.status p = .ok .directory := by
    refine status_eq_ok.mpr ⟨if p.anchor = .relative then t.here else [], ?_, ?_⟩
    · rw [place, hparts, walk]
    · split
      · exact hhere
      · exact t.node?_nil
  simp [isDirectory, hstatus]

theorem parts_ne_nil (hhere : t.node? t.here = some .directory) (h : t.isDirectory p = false) :
    p.parts ≠ [] := by
  intro hparts
  rw [isDirectory_of_parts hhere hparts] at h
  cases h

/-- A path with a name leads somewhere below a directory, and nowhere below a file. -/
theorem exists_place (hparts : p.parts ≠ []) (hparent : t.isDirectory p.parent = true) :
    ∃ q, t.place p = .ok q := by
  obtain ⟨r, hr, hnode⟩ := status_eq_ok.mp (status_of_isDirectory hparent)
  exact ⟨_, place_of_parent hparts hr hnode⟩

theorem place_below_file (hparts : p.parts ≠ []) (hparent : t.isFile p.parent = true) :
    t.place p = .error .notDirectory := by
  obtain ⟨content, hstatus⟩ := status_of_isFile hparent
  obtain ⟨r, hr, hnode⟩ := status_eq_ok.mp hstatus
  rw [place_eq_of_parts t hparts, hr]
  simp [Except.bind, walk, hnode]

/-- Any text can be written below a directory, unless a directory stands in its place. -/
theorem exists_writeText (hparts : p.parts ≠ []) (hparent : t.isDirectory p.parent = true)
    (hfree : t.isDirectory p = false) (text : String) : ∃ t', t.writeText p text = .ok t' := by
  obtain ⟨q, hq⟩ := exists_place hparts hparent
  have hnode : t.node? q ≠ some .directory := by
    intro hnode
    have hstatus := status_eq_ok.mpr ⟨q, hq, hnode⟩
    simp [isDirectory, hstatus] at hfree
  refine ⟨t.put q (.file (Text.Utf8.encode text)), ?_⟩
  simp only [writeText, write_of_place hq hnode]

theorem writeText_below_file (hparts : p.parts ≠ []) (hparent : t.isFile p.parent = true)
    (text : String) : t.writeText p text = .error (.tree .notDirectory p) := by
  simp [writeText, write, place_below_file hparts hparent, bind, Except.bind]

end FileTree

namespace CommandLine

/-! ## A run on one file -/

/-- How a file is compiled that is no part of a directory being compiled. -/
def fileOptions (a : Arguments) : Options where
  strict := a.strict
  listTokens := a.tokens
  listTree := a.tree

theorem status_ne_success (t : Trouble) : t.status ≠ .success := by
  cases t <;> exact nofun

section OneFile

variable {tree : FileTree} {a : Arguments} {o : Options} {asDirectory : Bool} {w : Transcript}
  {q target : Path} {r : Compiled} {t' : FileTree} {given : String} {arguments : List String}
  {f : FileFault}

theorem run_eq_compileEach_file (hread : Arguments.read {} arguments = .ok a)
    (hinquiry : a.inquiry = none) (hoperands : a.operands = [given])
    (htyped : tree.holdsTyped given = true) (hfile : tree.isFile (.ofString given) = true) :
    run tree arguments =
      compileEach a (fileOptions a) false 1 { tree := tree } 0 [.ofString given] := by
  have hcompile : run tree arguments = compileAll a given { tree := tree } := by
    simp [run, hread, hinquiry, hoperands, htyped]
  rw [hcompile]
  unfold compileAll
  simp only [FileTree.findSources_of_isFile hfile, FileTree.isDirectory_of_isFile hfile]
  rfl

/-- A file that does not compile leaves the tree alone, whether the command goes on or not. -/
theorem compileOne_refused (a : Arguments) (asDirectory : Bool)
    (hresult : (w.tree.compileFile o q.text).result = .error f) :
    (∃ w', compileOne a o asDirectory w q = .failed w' ∧ w'.tree = w.tree) ∨
      ∃ e, compileOne a o asDirectory w q = .ended e ∧ e.transcript.tree = w.tree ∧
        e.status ≠ .success := by
  by_cases hfault : ∃ d, f = .source (.diagnostic d)
  · obtain ⟨d, rfl⟩ := hfault
    exact .inl (by simp [compileOne, hresult, Transcript.warn])
  · obtain ⟨e, hone, htree, hstatus⟩ :=
      compileOne_ended (a := a) asDirectory hresult fun d hd => hfault ⟨d, hd⟩
    exact .inr ⟨e, hone, htree, hstatus ▸ status_ne_success (.ofFault f)⟩

theorem compileEach_refused (a : Arguments) (asDirectory : Bool) (total : Nat)
    (hresult : (w.tree.compileFile o q.text).result = .error f) :
    let ending := compileEach a o asDirectory total w 0 [q]
    ending.status ≠ .success ∧ ending.transcript.tree = w.tree := by
  rcases compileOne_refused a asDirectory hresult with
    ⟨w', hone, htree⟩ | ⟨e, hone, htree, hstatus⟩
  · simp [compileEach, hone, Transcript.warn, htree]
  · simp [compileEach, hone, htree, hstatus]

theorem compileEach_written (total : Nat) (hresult : (w.tree.compileFile o q.text).result = .ok r)
    (htarget : w.tree.outputPath q (a.output.map Path.ofString) asDirectory = .ok target)
    (hdeliver : deliver w.tree a q target r = (t', none)) :
    let ending := compileEach a o asDirectory total w 0 [q]
    ending.status = .success ∧ ending.transcript.tree = t' := by
  simp [compileEach, compileOne, hresult, htarget, hdeliver, Transcript.say]

theorem compileEach_hindered (total : Nat)
    (hresult : (w.tree.compileFile o q.text).result = .ok r)
    (htarget : w.tree.outputPath q (a.output.map Path.ofString) asDirectory = .ok target)
    (hdeliver : deliver w.tree a q target r = (t', some f)) :
    let ending := compileEach a o asDirectory total w 0 [q]
    ending.status ≠ .success ∧ ending.transcript.tree = t' := by
  simp [compileEach, compileOne, hresult, htarget, hdeliver, Transcript.giveUp, Transcript.warn,
    status_ne_success]

end OneFile

/-! ## With an output named -/

theorem codeFile_codeText (r : Compiled) :
    codeFile r.codeText = if r.code = [] then "" else r.codeText ++ "\n" := by
  simp only [codeFile, Compiled.codeText, Instruction.listing_eq_empty_iff]

section TwoWays

variable {t : FileTree} {a : Arguments} {given output : String} {arguments : List String}
  {r : Compiled} {f : FileFault}

theorem compileFileTo_error (h : (t.compileFile {} given).result = .error f)
    (out : Option String) : t.compileFileTo given out = .error f := by
  simp [FileTree.compileFileTo, h, bind, Except.bind]

theorem compileFileTo_ok (h : (t.compileFile {} given).result = .ok r) (hnamed : output ≠ "") :
    t.compileFileTo given (some output) =
      (t.writeText (.ofString output) (r.codeText ++ "\n")).map (r.codeText, ·) := by
  have hfilter : (some output).filter (· != "") = some output := by simp [hnamed]
  simp only [FileTree.compileFileTo, h, hfilter, bind, Except.bind]
  cases t.writeText (.ofString output) (r.codeText ++ "\n") <;> rfl

/-- One file is to be compiled as usual, and its code to be written to a place where no directory
stands. Arguments may be in any order, and notes may be asked for. -/
structure Asks (t : FileTree) (arguments : List String) (a : Arguments) (given output : String) :
    Prop where
  read : Arguments.read {} arguments = .ok a
  inquiry : a.inquiry = none
  operands : a.operands = [given]
  output_eq : a.output = some output
  strict : a.strict = false
  tokens : a.tokens = false
  tree : a.tree = false
  here : t.node? t.here = some .directory
  typed : t.holdsTyped given = true
  file : t.isFile (.ofString given) = true
  free : t.isDirectory (.ofString output) = false

namespace Asks

theorem run_eq (h : Asks t arguments a given output) :
    run t arguments = compileEach a {} false 1 { tree := t } 0 [.ofString given] := by
  have hoptions : fileOptions a = {} := by
    simp only [fileOptions, h.strict, h.tokens, h.tree]
  rw [run_eq_compileEach_file h.read h.inquiry h.operands h.typed h.file, hoptions]

theorem result_eq (h : Asks t arguments a given output) :
    (t.compileFile {} (Path.ofString given).text).result = (t.compileFile {} given).result := by
  rw [FileTree.compileFile_text h.file]

theorem parts (h : Asks t arguments a given output) : (Path.ofString output).parts ≠ [] :=
  FileTree.parts_ne_nil h.here h.free

theorem named (h : Asks t arguments a given output) : output ≠ "" := by
  rintro rfl
  exact h.parts rfl

theorem target (h : Asks t arguments a given output) :
    t.outputPath (.ofString given) (a.output.map Path.ofString) false =
      .ok (.ofString output) := by
  have hparts : (Path.ofString given).parts ≠ [] :=
    FileTree.parts_ne_nil h.here (FileTree.isDirectory_of_isFile h.file)
  have hname := Path.name_ne_empty (Path.normal_ofString given) hparts
  simp [FileTree.outputPath, hname, h.output_eq, h.free]

theorem outputs_eq (h : Asks t arguments a given output) (source target : Path) (r : Compiled) :
    outputs a source target r = [(target, codeFile r.codeText)] := by
  simp [outputs, h.tokens, h.tree]

/-- A file that does not compile is refused both ways. -/
theorem refused (h : Asks t arguments a given output)
    (hresult : (t.compileFile {} given).result = .error f) :
    t.compileFileTo given (some output) = .error f ∧ (run t arguments).status ≠ .success ∧
      (run t arguments).transcript.tree = t := by
  refine ⟨compileFileTo_error hresult _, ?_⟩
  rw [h.run_eq]
  exact compileEach_refused (w := { tree := t }) a false 1 (h.result_eq.trans hresult)

/-- Below a file nothing can be written either way. -/
theorem hindered (h : Asks t arguments a given output)
    (hresult : (t.compileFile {} given).result = .ok r)
    (hparent : t.isFile (Path.ofString output).parent = true) :
    (∃ f, t.compileFileTo given (some output) = .error f) ∧ (run t arguments).status ≠ .success ∧
      (run t arguments).transcript.tree = t := by
  have hwrite := FileTree.writeText_below_file h.parts hparent (r.codeText ++ "\n")
  have hdeliver : deliver t a (.ofString given) (.ofString output) r =
      (t, some (.tree .alreadyThere (Path.ofString output).parent)) := by
    simp only [deliver, FileTree.makePath_of_isFile hparent]
  refine ⟨⟨_, by rw [compileFileTo_ok hresult h.named, hwrite]; rfl⟩, ?_⟩
  rw [h.run_eq]
  exact compileEach_hindered (w := { tree := t }) 1 (h.result_eq.trans hresult) h.target hdeliver

/-- Below a directory the code is written both ways. -/
theorem written (h : Asks t arguments a given output)
    (hresult : (t.compileFile {} given).result = .ok r)
    (hparent : t.isDirectory (Path.ofString output).parent = true) :
    (∃ after, t.compileFileTo given (some output) = .ok (r.codeText, after) ∧
        t.writeText (.ofString output) (r.codeText ++ "\n") = .ok after) ∧
      (run t arguments).status = .success ∧
      t.writeText (.ofString output) (codeFile r.codeText) =
        .ok (run t arguments).transcript.tree := by
  obtain ⟨after, hafter⟩ :=
    FileTree.exists_writeText h.parts hparent h.free (r.codeText ++ "\n")
  obtain ⟨t', ht'⟩ := FileTree.exists_writeText h.parts hparent h.free (codeFile r.codeText)
  have hdeliver : deliver t a (.ofString given) (.ofString output) r = (t', none) := by
    simp only [deliver, FileTree.makePath_of_isDirectory hparent, h.outputs_eq, writeAll, ht']
  obtain ⟨hstatus, htree⟩ : (run t arguments).status = .success ∧
      (run t arguments).transcript.tree = t' := by
    rw [h.run_eq]
    exact compileEach_written (w := { tree := t }) 1 (h.result_eq.trans hresult) h.target hdeliver
  refine ⟨⟨after, ?_, hafter⟩, hstatus, by rw [htree, ht']⟩
  rw [compileFileTo_ok hresult h.named, hafter]
  rfl

end Asks

/-- The two ways to compile a file agree, but for the file that a class without code makes. Either
the file does not compile, and both ways refuse it and write nothing; or a file stands where the
directory of the output should, and both fail to write; or both write the output. Directly written,
it is the code with an end to the last line, and so it is when the command writes it, unless there
is no code, for which the command writes an empty file and the other an empty line. -/
theorem run_file (h : Asks t arguments a given output)
    (hparent : t.holds (Path.ofString output).parent = true) :
    let direct := t.compileFileTo given (some output)
    let ending := run t arguments
    (∃ f, (t.compileFile {} given).result = .error f ∧ direct = .error f ∧
        ending.status ≠ .success ∧ ending.transcript.tree = t) ∨
      (t.isFile (Path.ofString output).parent = true ∧ (∃ f, direct = .error f) ∧
        ending.status ≠ .success ∧ ending.transcript.tree = t) ∨
      ∃ r after, (t.compileFile {} given).result = .ok r ∧ direct = .ok (r.codeText, after) ∧
        ending.status = .success ∧
        after.read (.ofString output) = .ok (Text.Utf8.encode (r.codeText ++ "\n")) ∧
        ending.transcript.tree.read (.ofString output) =
          .ok (Text.Utf8.encode (if r.code = [] then "" else r.codeText ++ "\n")) ∧
        (ending.transcript.tree = after ↔ r.code ≠ []) := by
  intro direct ending
  cases hresult : (t.compileFile {} given).result with
  | error f => exact .inl ⟨f, rfl, h.refused hresult⟩
  | ok r =>
      rcases FileTree.isDirectory_or_isFile hparent with hdir | hfile
      · obtain ⟨⟨after, hdirect, hafter⟩, hstatus, hwritten⟩ := h.written hresult hdir
        rw [codeFile_codeText] at hwritten
        have hread := FileTree.read_of_write (FileTree.writeText_eq_ok hafter)
        have hread' := FileTree.read_of_write (FileTree.writeText_eq_ok hwritten)
        refine .inr (.inr ⟨r, after, rfl, hdirect, hstatus, hread, hread', ?_, ?_⟩)
        · intro hsame hcode
          have hsame : (run t arguments).transcript.tree = after := hsame
          rw [if_pos hcode, hsame, hread, Compiled.codeText, hcode] at hread'
          exact absurd (Except.ok.inj hread') (by decide)
        · intro hcode
          rw [if_neg hcode, hafter] at hwritten
          exact (Except.ok.inj hwritten).symm
      · exact .inr (.inl ⟨hfile, h.hindered hresult hfile⟩)

end TwoWays

/-! ## A class with code, and one without -/

def quotationTree : FileTree where
  entries := [(["Main.jack"], .file (Text.Utf8.encode (quotationSource "hi")))]

def emptyClass (name : String) : Syntax.ClassDecl where
  name := name
  vars := []
  subroutines := []

def emptyTree : FileTree where
  entries := [(["Main.jack"], .file (Text.Utf8.encode "class Main \x7b \x7d"))]

theorem quotationTree_asks : Asks quotationTree ["Main.jack", "-o", "Main.vm"]
    { output := some "Main.vm", operands := ["Main.jack"] } "Main.jack" "Main.vm" := by
  constructor <;> decide

theorem emptyTree_asks : Asks emptyTree ["Main.jack", "-o", "Main.vm"]
    { output := some "Main.vm", operands := ["Main.jack"] } "Main.jack" "Main.vm" := by
  constructor <;> decide

theorem compileFile_mainText {t : FileTree} {text : String}
    (h : t.readText (.ofString "Main.jack") = .ok text) :
    (t.compileFile {} "Main.jack").result =
      (compileSource {} text "Main.jack").result.mapError FileFault.source := by
  have htext : (Path.ofString "Main.jack").text = "Main.jack" := by decide
  have hresult := FileTree.compileFile_eq (Path.normal_ofString "Main.jack") {} h
  rwa [htext] at hresult

theorem quotationTree_compiles : ∃ r, (quotationTree.compileFile {} "Main.jack").result = .ok r ∧
    r.code = (quotation "hi").code := by
  have htext : quotationTree.readText (.ofString "Main.jack") = .ok (quotationSource "hi") :=
    FileTree.readText_of_plain rfl (by decide)
  have hliteral : ∀ c ∈ "hi".toList, Token.isLiteral c = true :=
    List.all_eq_true.mp (by decide)
  obtain ⟨r, hr, hcode⟩ := quotationSource_compiles hliteral
  exact ⟨r, by rw [compileFile_mainText htext, hr]; rfl, hcode⟩

theorem quotationTree_written :
    ∃ (r : Compiled) (after : FileTree),
      quotationTree.compileFileTo "Main.jack" (some "Main.vm") = .ok (r.codeText, after) ∧
      (run quotationTree ["Main.jack", "-o", "Main.vm"]).status = .success ∧
      (run quotationTree ["Main.jack", "-o", "Main.vm"]).transcript.tree = after ∧
      after.read (.ofString "Main.vm") = .ok (Text.Utf8.encode (r.codeText ++ "\n")) := by
  obtain ⟨r, hr, hcode⟩ := quotationTree_compiles
  rcases run_file quotationTree_asks (by decide) with
    ⟨f, hf, -⟩ | ⟨hfile, -⟩ | ⟨r', after, hr', hdirect, hstatus, hread, -, hsame⟩
  · cases hr.symm.trans hf
  · exact absurd hfile (by decide)
  · obtain rfl := Except.ok.inj (hr.symm.trans hr')
    have hsome : r.code ≠ [] := by
      rw [hcode]
      decide
    exact ⟨r, after, hdirect, hstatus, hsame.mpr hsome, hread⟩

theorem emptyClass_obeys (name : String) (known : List String) :
    (emptyClass name).Obeys known false where
  vars := List.nodup_nil
  subroutines := List.Pairwise.nil
  bodies _ s later h := absurd (List.append_eq_nil_iff.mp h.symm).2 (List.cons_ne_nil s later)

theorem emptyClass_compiles {o : Options} {name source : String} (hstrict : o.strict = false)
    (hcut : (Token.cutAll source.toList).unclosed = none ∧
      (Token.cutAll source.toList).pieces.filterMap Token.Piece.lexeme? =
        (emptyClass name).spelling) (file : String) :
    ∃ r, (compileSource o source file).result = .ok r ∧ r.code = [] := by
  obtain ⟨hscan, hspells⟩ := Token.scan_of_cutAll hcut file
  exact Compile.compileSource_iff.mpr
    ⟨hscan, emptyClass name, hspells, hstrict ▸ emptyClass_obeys name _, rfl⟩

theorem emptyTree_compiles :
    ∃ r, (emptyTree.compileFile {} "Main.jack").result = .ok r ∧ r.code = [] := by
  have htext : emptyTree.readText (.ofString "Main.jack") = .ok "class Main \x7b \x7d" :=
    FileTree.readText_of_plain rfl (by decide)
  have hcut : (Token.cutAll "class Main \x7b \x7d".toList).unclosed = none ∧
      (Token.cutAll "class Main \x7b \x7d".toList).pieces.filterMap Token.Piece.lexeme? =
        (emptyClass "Main").spelling := by decide +kernel
  obtain ⟨r, hr, hcode⟩ := emptyClass_compiles (o := {}) rfl hcut "Main.jack"
  exact ⟨r, by rw [compileFile_mainText htext, hr]; rfl, hcode⟩

/-- Of a class without code the command makes an empty file, and the other way an empty line. -/
theorem emptyTree_written :
    (run emptyTree ["Main.jack", "-o", "Main.vm"]).status = .success ∧
      (run emptyTree ["Main.jack", "-o", "Main.vm"]).transcript.tree.read (.ofString "Main.vm") =
        .ok (Text.Utf8.encode "") ∧
      ∃ after, emptyTree.compileFileTo "Main.jack" (some "Main.vm") = .ok ("", after) ∧
        after.read (.ofString "Main.vm") = .ok (Text.Utf8.encode "\n") := by
  obtain ⟨r, hr, hcode⟩ := emptyTree_compiles
  have htext : r.codeText = "" := by
    rw [Compiled.codeText, hcode]
    exact (Instruction.listing_eq_empty_iff []).mpr rfl
  obtain ⟨⟨after, hdirect, hafter⟩, hstatus, hwritten⟩ :=
    emptyTree_asks.written hr (by decide)
  rw [htext] at hdirect hafter hwritten
  exact ⟨hstatus, FileTree.read_of_write (FileTree.writeText_eq_ok hwritten), after, hdirect,
    FileTree.read_of_write (FileTree.writeText_eq_ok hafter)⟩

end CommandLine

end Jack
