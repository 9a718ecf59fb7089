import Jack.Compile.Outcome
import Jack.Proofs.StaticRules

/-!
# Views of a compilation

A `View` is the state of a compilation without the places of its tokens and without the recorded
derivation. Whether a compilation succeeds, and with what code, depends on views alone, so the
meaning of goals is stated as a relation between views.

Two kinds of transition occur over and over:

- `Reads v ls code n calls v'`: the lexemes `ls` are read and `code` is emitted, `n` labels are
  drawn and `calls` are noted. Expressions and statements do no more than that.
- `Declares v ls ds types v'`: the lexemes `ls` are read, `ds` are declared and `types` are noted
  as classes.

Both compose by appending their lists (`Reads.append`, `Declares.append`) and can be cut at any
place (`Reads.split`, `Declares.split`).
-/

namespace Jack

/-- What a declaration makes its name stand for. -/
def Declaration.binding (d : Declaration) : Syntax.Binding :=
  ⟨d.type, ⟨d.storage.segment, d.slot⟩⟩

namespace Compile

open Syntax

structure View where
  rest : List Lexeme
  className : String
  kind : Option SubroutineKind
  subroutineName : String
  /-- How many labels have been drawn. -/
  labels : Nat
  subroutines : List (String × SubroutineKind)
  /-- The names of the unqualified calls so far. -/
  calls : List String
  scope : Scope
  known : List String
  code : List Instruction

def State.view (s : State) : View where
  rest := s.rest.map Token.lexeme
  className := s.className
  kind := s.subroutineKind
  subroutineName := s.subroutineName
  labels := s.labels.toNat
  subroutines := s.subroutines
  calls := s.localCalls.map Token.text
  scope := s.scope
  known := s.known
  code := s.code

def View.at (v : View) (ls : List Lexeme) : View := { v with rest := ls }

@[simp] theorem view_mark (s : State) (m : Mark) : (s.mark m).view = s.view := rfl

@[simp] theorem view_read (s : State) (t : Token) (ts : List Token) :
    (s.read t ts).view = s.view.at (ts.map Token.lexeme) := rfl

@[simp] theorem view_emit (s : State) (i : Instruction) :
    (s.emit i).view = { s.view with code := s.view.code ++ [i] } := by
  simp [State.view, State.emit, State.code]

@[simp] theorem view_know (s : State) (x : String) :
    (s.know x).view = { s.view with known := x :: s.view.known } := rfl

theorem view_rest (s : State) : s.view.rest = s.rest.map Token.lexeme := rfl

/-! ## The environment of a view -/

namespace View

def env (v : View) : Env where
  className := v.className
  inFunction := v.kind = some .function
  self :=
    match v.scope.lookup "this" with
    | some d => some d.binding.cell
    | none => if v.kind = some .constructor then some ⟨.pointer, 0⟩ else none
  resolve x := (v.scope.lookup x).map Declaration.binding

def rules (c : Setting) (v : View) : Rules where
  env := v.env
  isClass q := q ∈ v.known ∨ (c.strict = false ∧ Text.startsUpper q = true)

@[simp] theorem at_rest (v : View) (ls : List Lexeme) : (v.at ls).rest = ls := rfl

@[simp] theorem at_env (v : View) (ls : List Lexeme) : (v.at ls).env = v.env := rfl

@[simp] theorem at_rules (c : Setting) (v : View) (ls : List Lexeme) :
    (v.at ls).rules c = v.rules c := rfl

@[simp] theorem at_labels (v : View) (ls : List Lexeme) : (v.at ls).labels = v.labels := rfl

def drawn (v : View) (n : Nat) : View := { v with labels := v.labels + n }

@[simp] theorem drawn_labels (v : View) (n : Nat) : (v.drawn n).labels = v.labels + n := rfl

@[simp] theorem drawn_env (v : View) (n : Nat) : (v.drawn n).env = v.env := rfl

@[simp] theorem drawn_rules (c : Setting) (v : View) (n : Nat) :
    (v.drawn n).rules c = v.rules c := rfl

end View

/-! ## Reading phrases -/

/-- Reading `ls` and emitting `code` leads from `v` to `v'`. -/
structure Reads (v : View) (ls : List Lexeme) (code : List Instruction) (n : Nat)
    (calls : List String) (v' : View) : Prop where
  rest : v.rest = ls ++ v'.rest
  writable : ∀ i ∈ code, i.fault? = none
  result : v' = { v with
    rest := v'.rest
    code := v.code ++ code
    labels := v.labels + n
    calls := v.calls ++ calls }

namespace Reads

variable {v w u : View} {l k : List Lexeme} {i j : List Instruction} {n m : Nat}
  {f g : List String}

theorem env (h : Reads v l i n f w) : w.env = v.env := by
  rw [h.result]
  rfl

theorem rules (h : Reads v l i n f w) (c : Setting) : w.rules c = v.rules c := by
  rw [h.result]
  rfl

theorem labels (h : Reads v l i n f w) : w.labels = v.labels + n := by
  rw [h.result]

theorem refl (v : View) : Reads v [] [] 0 [] v :=
  ⟨rfl, fun _ hi => (List.not_mem_nil hi).elim, by simp⟩

theorem nil_iff : Reads v [] [] 0 [] w ↔ w = v := by
  constructor
  · intro h
    have hrest : v.rest = w.rest := h.rest
    have hw := h.result
    rw [← hrest] at hw
    simpa using hw
  · intro heq
    subst heq
    exact refl _

theorem append (h₁ : Reads v l i n f w) (h₂ : Reads w k j m g u) :
    Reads v (l ++ k) (i ++ j) (n + m) (f ++ g) u := by
  refine ⟨?_, ?_, ?_⟩
  · rw [h₁.rest, h₂.rest, List.append_assoc]
  · intro x hx
    rcases List.mem_append.mp hx with hx | hx
    · exact h₁.writable x hx
    · exact h₂.writable x hx
  · have hw := h₁.result
    have hu := h₂.result
    rw [hw] at hu
    simpa [List.append_assoc, Nat.add_assoc] using hu

theorem split (h : Reads v (l ++ k) (i ++ j) (n + m) (f ++ g) u) :
    ∃ w, Reads v l i n f w ∧ Reads w k j m g u := by
  refine ⟨{ v with
    rest := k ++ u.rest
    code := v.code ++ i
    labels := v.labels + n
    calls := v.calls ++ f }, ⟨?_, ?_, rfl⟩, ⟨rfl, ?_, ?_⟩⟩
  · rw [h.rest, List.append_assoc]
  · exact fun x hx => h.writable x (List.mem_append_left _ hx)
  · exact fun x hx => h.writable x (List.mem_append_right _ hx)
  · have hu := h.result
    simpa [List.append_assoc, Nat.add_assoc] using hu

/-- The first lexeme can be read on its own. -/
theorem cons_iff {x : Lexeme} :
    Reads v (x :: l) i n f w ↔ ∃ ls, v.rest = x :: ls ∧ Reads (v.at ls) l i n f w := by
  constructor
  · intro h
    exact ⟨l ++ w.rest, h.rest, rfl, h.writable, h.result⟩
  · intro h
    rcases h with ⟨ls, hls, h⟩
    refine ⟨?_, h.writable, h.result⟩
    rw [hls, List.cons_append, ← h.rest]
    rfl

theorem word {x : Lexeme} {ls : List Lexeme} (h : v.rest = x :: ls) :
    Reads v [x] [] 0 [] (v.at ls) :=
  cons_iff.mpr ⟨ls, h, refl _⟩

/-- The first instruction can be emitted on its own. -/
theorem emit_iff {x : Instruction} :
    Reads v l (x :: i) n f w ↔
      x.fault? = none ∧ Reads { v with code := v.code ++ [x] } l i n f w := by
  constructor
  · intro h
    refine ⟨h.writable x (List.mem_cons_self ..), h.rest,
      fun y hy => h.writable y (List.mem_cons_of_mem _ hy), ?_⟩
    have hw := h.result
    simpa using hw
  · intro h
    rcases h with ⟨hx, h⟩
    refine ⟨h.rest, ?_, ?_⟩
    · intro y hy
      rcases List.mem_cons.mp hy with rfl | hy
      · exact hx
      · exact h.writable y hy
    · have hw := h.result
      simpa using hw

/-- The first call can be noted on its own. -/
theorem call_iff {x : String} :
    Reads v l i n (x :: f) w ↔ Reads { v with calls := v.calls ++ [x] } l i n f w := by
  constructor
  · intro h
    rcases h with ⟨hrest, hwritable, hw⟩
    exact ⟨hrest, hwritable, by simpa using hw⟩
  · intro h
    rcases h with ⟨hrest, hwritable, hw⟩
    exact ⟨hrest, hwritable, by simpa using hw⟩

/-- Labels can be drawn first. -/
theorem labels_iff : Reads v l i (n + m) f w ↔ Reads (v.drawn n) l i m f w := by
  constructor
  · intro h
    rcases h with ⟨hrest, hwritable, hw⟩
    exact ⟨hrest, hwritable, by simpa [View.drawn, Nat.add_assoc] using hw⟩
  · intro h
    rcases h with ⟨hrest, hwritable, hw⟩
    exact ⟨hrest, hwritable, by simpa [View.drawn, Nat.add_assoc] using hw⟩

end Reads

/-! ## Reading declarations -/

end Compile

/-- Declares names, each with its type and its storage, one after the other. -/
def Scope.defineAll (sc : Scope) : List (String × String × Storage) → Option Scope
  | [] => some sc
  | (x, type, k) :: ds =>
    match sc.define x type k with
    | .ok (_, sc') => sc'.defineAll ds
    | .error _ => none

theorem Scope.defineAll_append (sc : Scope) (ds es : List (String × String × Storage)) :
    sc.defineAll (ds ++ es) = (sc.defineAll ds).bind fun sc' => sc'.defineAll es := by
  induction ds generalizing sc with
  | nil => rfl
  | cons d ds ih =>
      obtain ⟨x, type, k⟩ := d
      rw [List.cons_append, Scope.defineAll, Scope.defineAll]
      split
      · exact ih _
      · rfl

namespace Compile

/-- Reading `ls` declares `ds` and makes `types` known as classes. -/
structure Declares (v : View) (ls : List Lexeme) (ds : List (String × String × Storage))
    (types : List String) (v' : View) : Prop where
  rest : v.rest = ls ++ v'.rest
  scope : v.scope.defineAll ds = some v'.scope
  result : v' = { v with
    rest := v'.rest
    scope := v'.scope
    known := types.reverse ++ v.known }

namespace Declares

variable {v w u : View} {l k : List Lexeme} {d e : List (String × String × Storage)}
  {f g : List String}

theorem refl (v : View) : Declares v [] [] [] v := ⟨rfl, rfl, rfl⟩

theorem append (h₁ : Declares v l d f w) (h₂ : Declares w k e g u) :
    Declares v (l ++ k) (d ++ e) (f ++ g) u := by
  refine ⟨?_, ?_, ?_⟩
  · rw [h₁.rest, h₂.rest, List.append_assoc]
  · rw [Scope.defineAll_append, h₁.scope]
    exact h₂.scope
  · have hw := h₁.result
    have hu := h₂.result
    rw [hw] at hu
    simpa [List.append_assoc] using hu

theorem split (h : Declares v (l ++ k) (d ++ e) (f ++ g) u) :
    ∃ w, Declares v l d f w ∧ Declares w k e g u := by
  have hscope := h.scope
  rw [Scope.defineAll_append] at hscope
  obtain ⟨sc, hd, he⟩ := Option.bind_eq_some_iff.mp hscope
  refine ⟨{ v with
    rest := k ++ u.rest
    scope := sc
    known := f.reverse ++ v.known }, ⟨?_, hd, rfl⟩, ⟨rfl, he, ?_⟩⟩
  · rw [h.rest, List.append_assoc]
  · have hu := h.result
    simpa [List.append_assoc] using hu

/-- The first lexeme can be read on its own. -/
theorem cons_iff {x : Lexeme} :
    Declares v (x :: l) d f w ↔ ∃ ls, v.rest = x :: ls ∧ Declares (v.at ls) l d f w := by
  constructor
  · intro h
    exact ⟨l ++ w.rest, h.rest, rfl, h.scope, h.result⟩
  · intro h
    rcases h with ⟨ls, hls, h⟩
    refine ⟨?_, h.scope, h.result⟩
    rw [hls, List.cons_append, ← h.rest]
    rfl

theorem word {x : Lexeme} {ls : List Lexeme} (h : v.rest = x :: ls) :
    Declares v [x] [] [] (v.at ls) :=
  cons_iff.mpr ⟨ls, h, refl _⟩

/-- Nothing is read or declared: classes become known. -/
theorem known_iff : Declares v [] [] f w ↔ w = { v with known := f.reverse ++ v.known } := by
  constructor
  · intro h
    rcases h with ⟨hrest, hscope, hw⟩
    have hrest : v.rest = w.rest := hrest
    have hscope : v.scope = w.scope := Option.some.inj hscope
    rw [← hrest, ← hscope] at hw
    exact hw
  · intro heq
    subst heq
    exact ⟨rfl, rfl, rfl⟩

/-- One name is declared. -/
theorem define_iff {x type : String} {k : Storage} :
    Declares v [] [(x, type, k)] [] w ↔
      ∃ d sc, v.scope.define x type k = .ok (d, sc) ∧ w = { v with scope := sc } := by
  constructor
  · intro h
    rcases h with ⟨hrest, hscope, hw⟩
    have hrest : v.rest = w.rest := hrest
    rw [← hrest] at hw
    rw [Scope.defineAll] at hscope
    split at hscope
    · next d sc hdefine =>
        obtain rfl := Option.some.inj hscope
        exact ⟨d, w.scope, hdefine, hw⟩
    · cases hscope
  · intro h
    rcases h with ⟨d, sc, hdefine, rfl⟩
    refine ⟨rfl, ?_, rfl⟩
    rw [Scope.defineAll, hdefine]
    rfl

end Declares

theorem reads_iff_declares {v w : View} {ls : List Lexeme} :
    Reads v ls [] 0 [] w ↔ Declares v ls [] [] w := by
  constructor
  · intro h
    rcases h with ⟨hrest, -, hw⟩
    rw [hw]
    exact ⟨hrest, rfl, by simp⟩
  · intro h
    rcases h with ⟨hrest, hscope, hw⟩
    have hsame : v.scope = w.scope := Option.some.inj hscope
    rw [← hsame] at hw
    exact ⟨hrest, fun _ hi => (List.not_mem_nil hi).elim, by simpa using hw⟩

/-! ## Sound states

The two facts about a state that its view does not show: the tokens ahead are valid, and no label
has a negative number. Every step keeps both, because it only reads tokens and draws labels. -/

structure State.Sound (s : State) : Prop where
  valid : ∀ t ∈ s.rest, t.lexeme.valid = true
  labels : 0 ≤ s.labels

/-- The tokens ahead and the label counter have moved forward, if at all. -/
structure Forward (s s' : State) : Prop where
  rest : s'.rest <:+ s.rest
  labels : s.labels ≤ s'.labels

theorem Forward.stay {s s' : State} (hr : s'.rest = s.rest) (hl : s'.labels = s.labels) :
    Forward s s' :=
  ⟨hr ▸ List.suffix_refl _, hl ▸ Int.le_refl _⟩

theorem Forward.read {s : State} {t : Token} {ts : List Token} (h : s.rest = t :: ts) :
    Forward s (s.read t ts) :=
  ⟨h ▸ List.suffix_cons t ts, Int.le_refl _⟩

theorem Forward.trans {s s' s'' : State} (h : Forward s s') (h' : Forward s' s'') :
    Forward s s'' :=
  ⟨h'.rest.trans h.rest, Int.le_trans h.labels h'.labels⟩

theorem Forward.sound {s s' : State} (h : Forward s s') (hs : s.Sound) : s'.Sound :=
  ⟨fun t ht => hs.valid t (h.rest.subset ht), Int.le_trans hs.labels h.labels⟩

theorem expect_forward {c : Setting} {s : State} {expected : String}
    {select : Token → Option (List Goal)} {r : List Goal × State}
    (h : c.expect s expected select = .ok r) : Forward s r.2 := by
  unfold Setting.expect at h
  split at h
  · cases h
  · next t ts hts =>
      split at h
      · cases h
        exact .read hts
      · cases h

theorem choose_forward (s : State) (select : Token → Option (List Goal))
    (otherwise : List Goal) : Forward s (s.choose select otherwise).2 := by
  unfold State.choose
  split
  · exact .stay rfl rfl
  · next t ts hts =>
      split
      · exact .read hts
      · exact .stay rfl rfl

theorem openElement_forward (s : State) (select : Token → Option (Element × List Goal)) :
    Forward s (s.openElement select).2 := by
  unfold State.openElement
  split
  · exact .stay rfl rfl
  · next t ts hts =>
      split
      · exact ⟨hts ▸ List.suffix_cons t ts, Int.le_refl _⟩
      · exact .stay rfl rfl

/-- No step moves back. -/
theorem step_forward {c : Setting} {s : State} {g : Goal} {r : List Goal × State}
    (h : step c s g = .ok r) : Forward s r.2 := by
  cases g with
  | word | className | varType | varName | returnType | subroutineName | parameter | letTarget
  | doTarget | termBody | callSign | qualifiedCall => exact expect_forward h
  | classVars | subroutines | localVars | statementList =>
      cases h
      exact openElement_forward s _
  | moreNames | moreParameters | elsePart | operators | assignTail | moreArguments
  | identifierTail =>
      cases h
      exact choose_forward s _ _
  | enter | leave | nameClass | noteClass | statements | expression | header | parameters
  | returnValue | firstArgument =>
      cases h
      exact .stay rfl rfl
  | ifBody | whileBody =>
      cases h
      exact ⟨List.suffix_refl _, show s.labels ≤ s.labels + 1 + 1 by omega⟩
  | emit | endOfInput | verifyCalls | assign | load | term =>
      simp only [step] at h
      split at h <;> cases h
      exact .stay rfl rfl
  | declare name type k =>
      simp only [step, Setting.declare] at h
      split at h <;> cases h
      exact .stay rfl rfl
  | beginSubroutine kind name =>
      simp only [step, Setting.beginSubroutine_eq] at h
      split at h <;> cases h
      exact .stay rfl rfl
  | integer t =>
      simp only [step, Setting.integer] at h
      repeat' (split at h)
      all_goals cases h
      exact .stay rfl rfl
  | this t =>
      simp only [step, Setting.this] at h
      repeat' (split at h)
      all_goals cases h
      all_goals exact .stay rfl rfl
  | localCall name =>
      simp only [step, Setting.localCall] at h
      split at h <;> cases h
      exact .stay rfl rfl
  | dispatch qualifier callee =>
      simp only [step, Setting.dispatch] at h
      repeat' (split at h)
      all_goals cases h
      all_goals exact .stay rfl rfl

/-- No run moves back. -/
theorem run_forward (c : Setting) (s : State) (gs : List Goal) :
    Forward s (run c s gs).state := by
  fun_induction run c s gs with
  | case1 s => exact .stay rfl rfl
  | case2 s g gs f hf => exact .stay rfl rfl
  | case3 s g gs next s' hok ih => exact (step_forward hok).trans ih

end Compile

end Jack
