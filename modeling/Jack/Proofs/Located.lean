import Jack.Proofs.Writable
import Jack.Source

/-!
# Located complaints

Compiling the tokens of a source succeeds, or it ends with a complaint about the grammar or the
meaning of the source that names a place in it, or at a numeral with more digits than are read.
Nothing else can stop it, although a step refuses instructions with unfit names and integers that
are no numerals, and says of neither where it stands: a source holds no token from which they could
come.

What rules them out is kept from step to step. The tokens ahead are genuine, that is, valid and at
a place in the file; so are the tokens in the goals that are due, and the names that have been
taken from tokens hold no blanks (`State.Genuine`, `Goal.Genuine`). A step from there stays there
or ends with a fault of the two kinds (`step_genuine`), and so does a whole run (`run_genuine`).
-/

namespace Jack

/-- A place in a file, its line and column counted from one. -/
structure Location.In (file : String) (l : Location) : Prop where
  file : l.file = file
  line : 1 ≤ l.line
  column : 1 ≤ l.column

/-- A complaint about the grammar or the meaning of a file, with its place there. -/
def Diagnostic.Located (file : String) (d : Diagnostic) : Prop :=
  (d.problem.category = .grammar ∨ d.problem.category = .meaning) ∧
    ∃ l, d.location = some l ∧ l.In file

namespace Token

/-! ## Places of tokens -/

/-- A token that can have been cut from a file. -/
structure Genuine (file : String) (t : Token) : Prop where
  valid : t.lexeme.valid = true
  location : t.location.In file

theorem Genuine.isLineName {file : String} {t : Token} (h : t.Genuine file)
    (hname : t.isIdentifier = true) : isLineName t.text = true :=
  isLineName_of_valid (isIdentifier_iff.mp hname ▸ h.valid)

/-- Line and column count from one. -/
def Position.Counted (p : Position) : Prop := 1 ≤ p.line ∧ 1 ≤ p.column

theorem Position.Counted.after {p : Position} (h : p.Counted) (c : Char) : (p.after c).Counted := by
  unfold Position.after Position.Counted
  have hline := h.1
  split <;> constructor <;> dsimp only <;> omega

theorem Position.Counted.afterAll {p : Position} (h : p.Counted) (cs : List Char) :
    (p.afterAll cs).Counted := by
  induction cs generalizing p with
  | nil => exact h
  | cons c cs ih => exact ih (h.after c)

theorem Position.Counted.inFile {p : Position} (h : p.Counted) (file : String) :
    (p.inFile file).In file :=
  ⟨rfl, Int.ofNat_le.mpr h.1, Int.ofNat_le.mpr h.2⟩

/-- Tokens are placed in the file, and so is what comes behind them. -/
theorem place_counted (file : String) (ps : List Piece) {pos : Position} (h : pos.Counted) :
    (∀ t ∈ (place file pos ps).1, t.location.In file) ∧ (place file pos ps).2.Counted := by
  induction ps generalizing pos with
  | nil => exact ⟨fun t ht => (List.not_mem_nil ht).elim, h⟩
  | cons p ps ih =>
      obtain ⟨htokens, hend⟩ := ih (h.afterAll p.source)
      cases p with
      | gap cs => exact ⟨htokens, hend⟩
      | lexeme kind text => exact ⟨List.forall_mem_cons.mpr ⟨h.inFile file, htokens⟩, hend⟩

theorem counted_start : Position.Counted {} := ⟨Nat.le_refl 1, Nat.le_refl 1⟩

theorem scan_genuine (source file : String) :
    ∀ t ∈ (scan source file).tokens, t.Genuine file :=
  fun t ht => ⟨scan_valid source file t ht, (place_counted file _ counted_start).1 t ht⟩

/-- What is left open is reported at the place where it starts. -/
theorem scan_located {source file : String} {d : Diagnostic}
    (h : (scan source file).fault = some d) : d.Located file := by
  obtain ⟨⟨u, rest⟩, -, rfl⟩ := Option.map_eq_some_iff.mp h
  have hend := (place_counted file (cutAll source.toList).pieces counted_start).2
  cases u with
  | comment => exact ⟨.inl rfl, _, rfl, hend.inFile file⟩
  | string => exact ⟨.inl rfl, _, rfl, hend.inFile file⟩

theorem endOf_in {file : String} {tokens : List Token} (h : ∀ t ∈ tokens, t.location.In file) :
    (Setting.endOf file tokens).In file := by
  unfold Setting.endOf
  split
  · exact ⟨rfl, Int.le_refl 1, Int.le_refl 1⟩
  · next t ht =>
      have hlast := h t (List.mem_of_getLast? ht)
      have hcolumn := hlast.column
      exact ⟨hlast.file, hlast.line, by dsimp only; omega⟩

end Token

namespace Compile

open Syntax

/-! ## The invariant -/

/-- What can stop a compilation of genuine tokens: a complaint with its place, or a numeral with
more digits than are read. -/
def Fault.Genuine (file : String) : Fault → Prop
  | diagnostic d => d.Located file
  | misread text why => Text.maxDigits < text.length ∧ why = .tooLong text.length

/-- The token is a name that can have been cut from a file. -/
def IsName (file : String) (t : Token) : Prop := t.Genuine file ∧ t.isIdentifier = true

theorem IsName.unbroken {file : String} {t : Token} (h : IsName file t) : Unbroken t.text :=
  unbroken_of_isLineName (h.1.isLineName h.2)

/-- What a goal has taken over from tokens that were read. -/
def Goal.Genuine (file : String) : Goal → Prop
  | emit i => i.fault? = none
  | nameClass x => Unbroken x
  | varName _ _ type | moreNames _ type => Unbroken type
  | declare t type _ => IsName file t ∧ Unbroken type
  | beginSubroutine _ t | assign t | identifierTail t | load t | callSign t | localCall t
  | qualifiedCall t => IsName file t
  | dispatch q t => IsName file q ∧ IsName file t
  | integer t => t.Genuine file ∧ t.kind = .integer
  | this t => t.Genuine file
  | firstArgument target _ | moreArguments target _ => isLineName target = true
  | _ => True

def AllGenuine (file : String) (gs : List Goal) : Prop := ∀ g ∈ gs, g.Genuine file

structure State.Genuine (file : String) (s : State) : Prop where
  rest : ∀ t ∈ s.rest, t.Genuine file
  labels : 0 ≤ s.labels
  calls : ∀ t ∈ s.localCalls, t.location.In file
  className : Unbroken s.className
  subroutineName : Unbroken s.subroutineName
  classTypes : ∀ d ∈ s.scope.classLevel, Unbroken d.type
  types : ∀ d ∈ s.scope.subroutine, Unbroken d.type

/-- The result of a step: all that is due is genuine again, or the fault is. -/
def Keeps (file : String) : StepResult → Prop
  | .ok (next, s') => AllGenuine file next ∧ s'.Genuine file
  | .error f => f.Genuine file

variable {file : String} {c : Setting} {s : State}

@[simp] theorem allGenuine_nil : AllGenuine file [] := fun _ hg => (List.not_mem_nil hg).elim

@[simp] theorem allGenuine_cons {g : Goal} {gs : List Goal} :
    AllGenuine file (g :: gs) ↔ g.Genuine file ∧ AllGenuine file gs :=
  List.forall_mem_cons

@[simp] theorem allGenuine_append {gs hs : List Goal} :
    AllGenuine file (gs ++ hs) ↔ AllGenuine file gs ∧ AllGenuine file hs :=
  List.forall_mem_append

theorem allGenuine_emits {code : List Instruction} (h : Writable code) :
    AllGenuine file (code.map Goal.emit) := by
  intro g hg
  obtain ⟨i, hi, rfl⟩ := List.mem_map.mp hg
  exact h i hi

/-! ## Complaints -/

theorem genuine_fault {p : Problem} (hp : p.category = .meaning) {t : Token}
    (ht : t.location.In file) (hint : Option String) : (c.fault p t hint).Genuine file :=
  ⟨.inr hp, t.location, rfl, ht⟩

theorem State.Genuine.unexpected (hs : s.Genuine file) (hc : c.endLocation.In file)
    (expected : String) : (c.unexpectedAt s expected).Genuine file := by
  unfold Setting.unexpectedAt State.peek
  cases hts : s.rest with
  | nil => exact ⟨.inl rfl, _, rfl, hc⟩
  | cons t ts =>
      have ht := hs.rest t (hts ▸ List.mem_cons_self ..)
      exact ⟨.inl rfl, _, rfl, ht.location⟩

theorem State.Genuine.sound (hs : s.Genuine file) : s.Sound :=
  ⟨fun t ht => (hs.rest t ht).valid, hs.labels⟩

/-! ## Looking at a token -/

theorem State.Genuine.read (hs : s.Genuine file) {t : Token} {ts : List Token}
    (hts : s.rest = t :: ts) : t.Genuine file ∧ (s.read t ts).Genuine file := by
  have hrest := List.forall_mem_cons.mp (hts ▸ hs.rest)
  exact ⟨hrest.1, { hs with rest := hrest.2 }⟩

theorem keeps_expect (hs : s.Genuine file) (hc : c.endLocation.In file) {expected : String}
    {select : Token → Option (List Goal)}
    (h : ∀ t next, t.Genuine file → select t = some next → AllGenuine file next) :
    Keeps file (c.expect s expected select) := by
  unfold Setting.expect
  split
  · exact hs.unexpected hc expected
  · next t ts hts =>
      obtain ⟨ht, hread⟩ := hs.read hts
      split
      · next next hselect => exact ⟨h t next ht hselect, hread⟩
      · exact hs.unexpected hc expected

theorem keeps_choose (hs : s.Genuine file) {select : Token → Option (List Goal)}
    {otherwise : List Goal}
    (h : ∀ t next, t.Genuine file → select t = some next → AllGenuine file next)
    (hotherwise : AllGenuine file otherwise) : Keeps file (.ok (s.choose select otherwise)) := by
  unfold State.choose
  split
  · exact ⟨hotherwise, hs⟩
  · next t ts hts =>
      obtain ⟨ht, hread⟩ := hs.read hts
      split
      · next next hselect => exact ⟨h t next ht hselect, hread⟩
      · exact ⟨hotherwise, hs⟩

theorem keeps_openElement (hs : s.Genuine file) {select : Token → Option (Element × List Goal)}
    (h : ∀ t e next, t.Genuine file → select t = some (e, next) → AllGenuine file next) :
    Keeps file (.ok (s.openElement select)) := by
  unfold State.openElement
  split
  · exact ⟨allGenuine_nil, hs⟩
  · next t ts hts =>
      obtain ⟨ht, hread⟩ := hs.read hts
      split
      · next e next hselect => exact ⟨h t e next ht hselect, { hread with }⟩
      · exact ⟨allGenuine_nil, hs⟩

/-- Where a table of words decides, it is enough to look at its entries. -/
theorem Selects.genuine {select : Token → Option (List Goal)} {table : List (String × List Goal)}
    (h : Selects select table) (hall : ∀ e ∈ table, AllGenuine file e.2) (t : Token)
    (next : List Goal) (ht : t.Genuine file) (hnext : select t = some next) :
    AllGenuine file next := by
  obtain ⟨w, hmem, -⟩ := (h t ht.valid next).mp hnext
  exact hall _ hmem

theorem Selects.genuine_element {select : Token → Option (Element × List Goal)}
    {table : List (String × Element × List Goal)} (h : Selects select table)
    (hall : ∀ e ∈ table, AllGenuine file e.2.2) (t : Token) (e : Element) (next : List Goal)
    (ht : t.Genuine file) (hnext : select t = some (e, next)) : AllGenuine file next := by
  obtain ⟨w, hmem, -⟩ := (h t ht.valid (e, next)).mp hnext
  exact hall _ hmem

theorem onWord_genuine (w : String) {gs : List Goal} (hgs : AllGenuine file gs) (t : Token)
    (next : List Goal) (ht : t.Genuine file) (hnext : Goal.onWord w gs t = some next) :
    AllGenuine file next :=
  (selects_onWord w gs).genuine (fun _ he => List.mem_singleton.mp he ▸ hgs) t next ht hnext

theorem onName_genuine {f : Token → List Goal} (hf : ∀ t, IsName file t → AllGenuine file (f t))
    (t : Token) (next : List Goal) (ht : t.Genuine file) (h : Goal.onName f t = some next) :
    AllGenuine file next := by
  unfold Goal.onName at h
  split at h
  · next hname =>
      cases h
      exact hf t ⟨ht, hname⟩
  · cases h

theorem unbroken_keyword {t : Token} (ht : t.Genuine file) {ws : List String}
    (h : t.isKeyword ws = true) : Unbroken t.text := by
  have hkind : t.kind = .keyword := by
    simp only [Token.isKeyword, Bool.and_eq_true, beq_iff_eq] at h
    exact h.1
  have hvalid : Lexeme.valid ⟨.keyword, t.text⟩ = true := hkind ▸ ht.valid
  have hrun := keywords_all_isRun hvalid
  rw [Unbroken, List.any_eq_false]
  intro x hx
  rw [isBlank_eq_false_of_isRun (List.all_eq_true.mp hrun x hx)]
  exact Bool.false_ne_true

theorem onType_genuine {ws : List String} {f : String → List Goal}
    (hf : ∀ type, Unbroken type → AllGenuine file (f type)) (t : Token) (next : List Goal)
    (ht : t.Genuine file) (h : Goal.onType ws f t = some next) : AllGenuine file next := by
  unfold Goal.onType at h
  split at h
  · next hkeyword =>
      cases h
      exact hf t.text (unbroken_keyword ht hkeyword)
  · split at h
    · next hname =>
        cases h
        exact allGenuine_cons.mpr ⟨trivial, hf t.text (IsName.unbroken ⟨ht, hname⟩)⟩
    · cases h

theorem onTerm_genuine (t : Token) (next : List Goal) (ht : t.Genuine file)
    (h : Goal.onTerm t = some next) : AllGenuine file next := by
  unfold Goal.onTerm at h
  split at h
  · next hkind =>
      cases h
      exact allGenuine_cons.mpr ⟨⟨ht, hkind⟩, allGenuine_nil⟩
  · cases h
    rw [stringLiteral_eq]
    exact allGenuine_emits (writable_stringCode t.text)
  · next hkind =>
      cases h
      exact allGenuine_cons.mpr ⟨⟨ht, by simp [Token.isIdentifier, hkind]⟩, allGenuine_nil⟩
  · split at h
    · cases h
      simp [Goal.Genuine]
    · split at h
      · cases h
        simp [Goal.Genuine]
      · split at h
        · cases h
          exact allGenuine_cons.mpr ⟨ht, allGenuine_nil⟩
        · cases h
  · split at h
    · cases h
      simp [Goal.Genuine]
    · split at h
      · cases h
        simp [Goal.Genuine]
      · split at h
        · cases h
          simp [Goal.Genuine]
        · cases h

/-! ## Resolving names -/

theorem State.Genuine.type_unbroken (hs : s.Genuine file) {x : String} {d : Declaration}
    (h : s.scope.lookup x = some d) : Unbroken d.type := by
  rw [Scope.lookup, Option.or_eq_some_iff] at h
  rcases h with h | ⟨-, h⟩
  · exact hs.types d (List.mem_of_find?_eq_some h)
  · exact hs.classTypes d (List.mem_of_find?_eq_some h)

/-- A name resolves to a declaration in scope, or the complaint stands at the name. -/
theorem resolve_genuine {name : Token} (hname : IsName file name) :
    match c.resolve s name with
    | .ok d => s.scope.lookup name.text = some d
    | .error f => f.Genuine file := by
  unfold Setting.resolve
  cases hlookup : s.scope.lookup name.text with
  | none => exact genuine_fault rfl hname.1.location _
  | some d =>
      by_cases hfield : d.storage = .field ∧ s.subroutineKind = some .function
      · simp only [if_pos hfield]
        exact genuine_fault rfl hname.1.location _
      · simp only [if_neg hfield]

theorem keeps_declare (hs : s.Genuine file) {name : Token} (hname : IsName file name)
    {type : String} (htype : Unbroken type) (k : Storage) :
    Keeps file (c.declare s name type k) := by
  unfold Setting.declare Scope.define
  by_cases htaken : ((s.scope.layer k).any fun d => d.name == name.text) = true
  · simp only [if_pos htaken]
    exact genuine_fault rfl hname.1.location _
  · simp only [if_neg htaken]
    refine ⟨allGenuine_nil, ?_⟩
    have hclass : ∀ ds : List Declaration, (∀ d ∈ ds, Unbroken d.type) →
        ∀ d ∈ ds ++ [⟨name.text, type, k, s.scope.count k⟩], Unbroken d.type := by
      intro ds hds
      exact List.forall_mem_append.mpr ⟨hds, fun d hd => List.mem_singleton.mp hd ▸ htype⟩
    unfold Scope.add
    split
    · exact { hs with classTypes := hclass _ hs.classTypes }
    · exact { hs with types := hclass _ hs.types }

theorem keeps_beginSubroutine (hs : s.Genuine file) (kind : SubroutineKind) {name : Token}
    (hname : IsName file name) : Keeps file (c.beginSubroutine s kind name) := by
  rw [Setting.beginSubroutine_eq]
  split
  · exact genuine_fault rfl hname.1.location _
  · refine ⟨allGenuine_nil,
      { hs with subroutineName := hname.unbroken, classTypes := ?_, types := ?_ }⟩
    · simp only [State.entered]
      split <;> exact hs.classTypes
    · simp only [State.entered]
      split
      · exact fun d hd => List.mem_singleton.mp hd ▸ hs.className
      · exact fun d hd => (List.not_mem_nil hd).elim

theorem keeps_dispatch (hs : s.Genuine file) {q callee : Token} (hq : IsName file q)
    (hcallee : IsName file callee) : Keeps file (c.dispatch s q callee) := by
  unfold Setting.dispatch
  split
  · have hresolve := resolve_genuine (c := c) (s := s) hq
    split
    · next f hf =>
        rw [hf] at hresolve
        exact hresolve
    · next d hd =>
        rw [hd] at hresolve
        split
        · exact genuine_fault rfl hq.1.location _
        · have htarget := isLineName_of_unbroken (hs.type_unbroken hresolve) hcallee.unbroken
          refine ⟨?_, hs⟩
          simp only [Goal.arguments, allGenuine_cons]
          exact ⟨rfl, trivial, htarget, allGenuine_nil⟩
  · split
    · have htarget := isLineName_of_unbroken hq.unbroken hcallee.unbroken
      refine ⟨?_, hs⟩
      simp only [Goal.arguments, allGenuine_cons]
      exact ⟨trivial, htarget, allGenuine_nil⟩
    · exact genuine_fault rfl hq.1.location _

theorem keeps_localCall (hs : s.Genuine file) {name : Token} (hname : IsName file name) :
    Keeps file (c.localCall s name) := by
  unfold Setting.localCall
  split
  · exact genuine_fault rfl hname.1.location _
  · have htarget := isLineName_of_unbroken hs.className hname.unbroken
    refine ⟨?_, { hs with calls := ?_ }⟩
    · simp only [Goal.arguments, allGenuine_cons]
      exact ⟨rfl, trivial, htarget, allGenuine_nil⟩
    · refine List.forall_mem_append.mpr ⟨hs.calls, fun t ht => ?_⟩
      exact List.mem_singleton.mp ht ▸ hname.1.location

/-- The digits of a genuine integer are a numeral, and not a negative one. -/
theorem keeps_integer (hs : s.Genuine file) {t : Token} (ht : t.Genuine file)
    (hkind : t.kind = .integer) : Keeps file (c.integer s t) := by
  have hvalid : Lexeme.valid ⟨.integer, t.text⟩ = true := hkind ▸ ht.valid
  by_cases hlong : Text.maxDigits < t.text.length
  · simp only [Setting.integer, readInteger_of_long hvalid hlong]
    exact ⟨hlong, rfl⟩
  simp only [Setting.integer, readInteger_of_short hvalid (Nat.le_of_not_lt hlong)]
  split
  · exact genuine_fault rfl ht.location _
  · split
    · next hneg => exact absurd hneg (Int.not_lt.mpr (Int.natCast_nonneg _))
    · exact ⟨allGenuine_cons.mpr ⟨rfl, allGenuine_nil⟩, hs⟩

theorem genuine_callFault? {t : Token} (ht : t.location.In file) {f : Fault}
    (h : c.callFault? s t = some f) : f.Genuine file := by
  unfold Setting.callFault? at h
  split at h
  · cases h
    exact genuine_fault rfl ht _
  · cases h
  · cases h
    exact genuine_fault rfl ht _

/-! ## Every step -/

theorem header_genuine (hs : s.Genuine file) : AllGenuine file s.header := by
  have hname := isLineName_of_unbroken hs.className hs.subroutineName
  have hlibrary : isLineName "Memory.alloc" = true := by decide
  refine allGenuine_cons.mpr ⟨fault?_function.mpr hname, ?_⟩
  cases s.subroutineKind with
  | none => exact allGenuine_nil
  | some kind => cases kind <;> simp [Goal.prologue, Goal.Genuine, hlibrary]

theorem isLineName_labelText {n : Int} (h : 0 ≤ n) : isLineName (State.labelText n) = true := by
  obtain ⟨k, rfl⟩ := Int.eq_ofNat_of_zero_le h
  exact isLineName_label k

/-- Two labels have been drawn. -/
theorem State.Genuine.drawn (hs : s.Genuine file) :
    State.Genuine file { s with labels := s.labels + 1 + 1 } := by
  have hlabels := hs.labels
  exact { hs with labels := by dsimp only; omega }

/-- Every step keeps what is due genuine, or complains about a place in the file. -/
theorem step_genuine (hc : c.endLocation.In file) (hs : s.Genuine file) {g : Goal}
    (hg : g.Genuine file) : Keeps file (step c s g) := by
  have hlabels := hs.labels
  cases g with
  | word w => exact keeps_expect hs hc (onWord_genuine w allGenuine_nil)
  | enter | leave | noteClass => exact ⟨allGenuine_nil, { hs with }⟩
  | emit i =>
      simp only [step]
      rw [show i.fault? = none from hg]
      exact ⟨allGenuine_nil, { hs with }⟩
  | className =>
      exact keeps_expect hs hc
        (onName_genuine fun t ht => allGenuine_cons.mpr ⟨ht.unbroken, allGenuine_nil⟩)
  | nameClass x => exact ⟨allGenuine_nil, { hs with className := hg }⟩
  | classVars =>
      exact keeps_openElement hs (selects_onClassVar.genuine_element (by simp [Goal.Genuine]))
  | varType k =>
      refine keeps_expect hs hc (onType_genuine fun type htype => ?_)
      exact allGenuine_cons.mpr ⟨htype, allGenuine_cons.mpr ⟨htype, allGenuine_nil⟩⟩
  | varName what k type =>
      refine keeps_expect hs hc (onName_genuine fun t ht => ?_)
      exact allGenuine_cons.mpr ⟨⟨ht, hg⟩, allGenuine_nil⟩
  | moreNames k type =>
      refine keeps_choose hs (onWord_genuine _ ?_) allGenuine_nil
      exact allGenuine_cons.mpr ⟨hg, allGenuine_cons.mpr ⟨hg, allGenuine_nil⟩⟩
  | declare name type k => exact keeps_declare hs hg.1 hg.2 k
  | subroutines =>
      refine keeps_openElement hs (selects_onSubroutine.genuine_element ?_)
      simp [Goal.subroutineRest, Goal.Genuine]
  | returnType => exact keeps_expect hs hc (onType_genuine fun _ _ => allGenuine_nil)
  | subroutineName kind =>
      refine keeps_expect hs hc (onName_genuine fun t ht => ?_)
      exact allGenuine_cons.mpr ⟨ht, allGenuine_nil⟩
  | beginSubroutine kind name => exact keeps_beginSubroutine hs kind hg
  | parameters =>
      refine ⟨?_, hs⟩
      split <;> simp [Goal.Genuine]
  | parameter =>
      refine keeps_expect hs hc (onType_genuine fun type htype => ?_)
      exact allGenuine_cons.mpr ⟨htype, allGenuine_nil⟩
  | moreParameters =>
      exact keeps_choose hs (onWord_genuine _ (by simp [Goal.Genuine])) allGenuine_nil
  | localVars =>
      exact keeps_openElement hs (selects_onLocalVar.genuine_element (by simp [Goal.Genuine]))
  | header => exact ⟨header_genuine hs, hs⟩
  | endOfInput =>
      simp only [step]
      split
      · exact ⟨allGenuine_nil, hs⟩
      · exact hs.unexpected hc _
  | verifyCalls =>
      simp only [step]
      split
      · next f hf =>
          obtain ⟨t, ht, hfault⟩ := List.exists_of_findSome?_eq_some hf
          exact genuine_callFault? (hs.calls t ht) hfault
      · exact ⟨allGenuine_nil, hs⟩
  | statements => exact ⟨by simp [Goal.Genuine], hs⟩
  | statementList =>
      refine keeps_openElement hs (selects_onStatement.genuine_element ?_)
      simp [statementTable, Goal.Genuine]
  | letTarget | doTarget =>
      refine keeps_expect hs hc (onName_genuine fun t ht => ?_)
      exact allGenuine_cons.mpr ⟨ht, allGenuine_nil⟩
  | assign name | load name =>
      have hresolve := resolve_genuine (c := c) (s := s) hg
      simp only [step]
      split
      · next f hf =>
          rw [hf] at hresolve
          exact hresolve
      · exact ⟨by simp [Goal.Genuine, Goal.pushVariable], hs⟩
  | assignTail d =>
      refine keeps_choose hs (onWord_genuine _ ?_) ?_
      · simp [Goal.assignElement, Goal.pushVariable, Goal.Genuine]
      · simp [Goal.assignVariable, Goal.popVariable, Goal.Genuine]
  | ifBody =>
      have hfirst := isLineName_labelText (n := s.labels + 1) (by omega)
      have hsecond := isLineName_labelText (n := s.labels + 1 + 1) (by omega)
      refine ⟨?_, hs.drawn⟩
      simp [Goal.conditional, Goal.block, Goal.Genuine, hfirst, hsecond]
  | whileBody =>
      have hfirst := isLineName_labelText (n := s.labels + 1) (by omega)
      have hsecond := isLineName_labelText (n := s.labels + 1 + 1) (by omega)
      refine ⟨?_, hs.drawn⟩
      simp [Goal.loop, Goal.block, Goal.Genuine, hfirst, hsecond]
  | elsePart =>
      exact keeps_choose hs (onWord_genuine _ (by simp [Goal.block, Goal.Genuine])) allGenuine_nil
  | returnValue =>
      refine ⟨?_, hs⟩
      split <;> simp [Goal.Genuine]
  | expression => exact ⟨by simp [Goal.Genuine], hs⟩
  | term =>
      simp only [step]
      split
      · exact hs.unexpected hc _
      · exact ⟨by simp [Goal.Genuine], hs⟩
  | termBody => exact keeps_expect hs hc onTerm_genuine
  | operators =>
      have hwritable : ∀ e ∈ Goal.operatorTable, e.2.fault? = none := by decide
      refine keeps_choose hs (selects_onOperator.genuine fun e he => ?_) allGenuine_nil
      obtain ⟨e, hmem, rfl⟩ := List.mem_map.mp he
      simp [Goal.Genuine, hwritable e hmem]
  | integer t => exact keeps_integer hs hg.1 hg.2
  | this t =>
      simp only [step, Setting.this]
      split
      · exact ⟨by simp [Goal.Genuine, Goal.pushVariable], hs⟩
      · split
        · exact ⟨by simp [Goal.Genuine], hs⟩
        · exact genuine_fault rfl (Token.Genuine.location hg) _
  | identifierTail name =>
      have hname : IsName file name := hg
      refine keeps_choose hs (onWord_genuine _ ?_) ?_
      · simp [Goal.elementRest, Goal.Genuine, hname]
      · split <;> simp [Goal.Genuine, hname]
  | callSign name =>
      have hname : IsName file name := hg
      refine keeps_expect hs hc ((selects_onCallSign name).genuine ?_)
      simp [Goal.Genuine, hname]
  | localCall name => exact keeps_localCall hs hg
  | qualifiedCall q =>
      refine keeps_expect hs hc (onName_genuine fun t ht => ?_)
      exact allGenuine_cons.mpr ⟨trivial, allGenuine_cons.mpr ⟨⟨hg, ht⟩, allGenuine_nil⟩⟩
  | dispatch q callee => exact keeps_dispatch hs hg.1 hg.2
  | firstArgument target count =>
      have htarget : isLineName target = true := hg
      refine ⟨?_, hs⟩
      split <;> simp [Goal.callEnd, Goal.Genuine, htarget]
  | moreArguments target count =>
      have htarget : isLineName target = true := hg
      refine keeps_choose hs (onWord_genuine _ ?_) ?_
      · simp [Goal.Genuine, htarget]
      · simp [Goal.callEnd, Goal.Genuine, htarget]

/-! ## Whole runs -/

/-- A run from a genuine state ends without a fault or with a genuine one. -/
theorem run_genuine (hc : c.endLocation.In file) (hs : s.Genuine file) {gs : List Goal}
    (hgs : AllGenuine file gs) : ∀ f, (run c s gs).fault = some f → f.Genuine file := by
  fun_induction run c s gs with
  | case1 s => exact fun f h => by cases h
  | case2 s g gs f hstep =>
      have hkeeps := step_genuine hc hs (allGenuine_cons.mp hgs).1
      rw [hstep] at hkeeps
      intro f' h
      cases h
      exact hkeeps
  | case3 s g gs next s' hstep ih =>
      obtain ⟨hg, hgs⟩ := allGenuine_cons.mp hgs
      have hkeeps := step_genuine hc hs hg
      rw [hstep] at hkeeps
      exact ih hkeeps.2 (allGenuine_append.mpr ⟨hkeeps.1, hgs⟩)

theorem compileTokens_genuine (o : Options) (lines : List String) {tokens : List Token}
    (h : ∀ t ∈ tokens, t.Genuine file) {f : Fault}
    (hf : (compileTokens o file lines tokens).fault = some f) : f.Genuine file := by
  have hempty : Unbroken "" := rfl
  refine run_genuine (Token.endOf_in fun t ht => (h t ht).location) ?_ ?_ f hf
  · exact {
      rest := h
      labels := Int.le_refl 0
      calls := fun t ht => (List.not_mem_nil ht).elim
      className := hempty
      subroutineName := hempty
      classTypes := fun d hd => (List.not_mem_nil hd).elim
      types := fun d hd => (List.not_mem_nil hd).elim }
  · simp [Goal.wholeClass, Goal.Genuine]

end Compile

end Jack
