import Jack.Proofs.View
import Mathlib.Data.List.Forall2

/-!
# Two compilations in step

Two compilations that have the same tokens ahead, apart from the places of the tokens, take the
same steps, whatever else is different about them: the classes and subroutines they know, the code
they have emitted before, and the number of labels they have drawn. `Alike` says that two states
agree in what steps depend on, and that the code emitted since two earlier states is the same once
its labels are counted from there (`Instruction.rebase`). If both compilations can take a step, it
leads to states that are alike again and reads a token in both or in neither (`step_alike`).

For a whole run the token in view matters as well. As long as a word is still due, not all of the
tokens that a run reads have been read, so two runs that read the same tokens have the same token
in view until both have read that word (`run_alongside`).
-/

namespace Jack

/-! ## Labels counted from a place -/

/-- The number in a label. -/
def labelNumber (x : String) : Nat := Nat.ofDigitChars 10 x.toList.tail 0

/-- The label with `n` subtracted from its number. -/
def relabel (n : Int) (x : String) : String := Compile.State.labelText (labelNumber x - n)

/-- An instruction with `n` subtracted from the number of the label in it. -/
def Instruction.rebase (n : Int) : Instruction → Instruction
  | label x => label (relabel n x)
  | goto x => goto (relabel n x)
  | ifGoto x => ifGoto (relabel n x)
  | i => i

theorem labelNumber_labelText (k : Nat) : labelNumber (Compile.State.labelText k) = k := by
  have hlist : (Compile.State.labelText k).toList = 'L' :: Nat.toDigits 10 k :=
    Syntax.toList_label k
  rw [labelNumber, hlist, List.tail_cons, Nat.ofDigitChars_ten_toDigits]

theorem relabel_labelText {n : Int} (hn : 0 ≤ n) (k : Nat) :
    relabel n (Compile.State.labelText (n + k)) = Compile.State.labelText k := by
  obtain ⟨m, rfl⟩ := Int.eq_ofNat_of_zero_le hn
  rw [relabel, ← Int.natCast_add, labelNumber_labelText]
  congr 1
  omega

namespace Compile

/-! ## What two compilations have in common -/

/-- The goal holds neither a token nor an instruction. -/
def Goal.isBare : Goal → Bool
  | emit _ | declare _ _ _ | beginSubroutine _ _ | assign _ | integer _ | this _
  | identifierTail _ | load _ | callSign _ | localCall _ | qualifiedCall _ | dispatch _ _ => false
  | _ => true

/-- The same goal, apart from the places of tokens and with labels counted from `m` and `n`. -/
inductive Goal.Alike (m n : Int) : Goal → Goal → Prop where
  | bare (g : Goal) (h : g.isBare = true) : Alike m n g g
  | emit {i j : Instruction} (h : i.rebase m = j.rebase n) : Alike m n (emit i) (emit j)
  | declare {t u : Token} (h : t.lexeme = u.lexeme) (type : String) (k : Storage) :
    Alike m n (declare t type k) (declare u type k)
  | beginSubroutine {t u : Token} (h : t.lexeme = u.lexeme) (kind : SubroutineKind) :
    Alike m n (beginSubroutine kind t) (beginSubroutine kind u)
  | assign {t u : Token} (h : t.lexeme = u.lexeme) : Alike m n (assign t) (assign u)
  | integer {t u : Token} (h : t.lexeme = u.lexeme) : Alike m n (integer t) (integer u)
  | this (t u : Token) : Alike m n (this t) (this u)
  | identifierTail {t u : Token} (h : t.lexeme = u.lexeme) :
    Alike m n (identifierTail t) (identifierTail u)
  | load {t u : Token} (h : t.lexeme = u.lexeme) : Alike m n (load t) (load u)
  | callSign {t u : Token} (h : t.lexeme = u.lexeme) : Alike m n (callSign t) (callSign u)
  | localCall {t u : Token} (h : t.lexeme = u.lexeme) : Alike m n (localCall t) (localCall u)
  | qualifiedCall {t u : Token} (h : t.lexeme = u.lexeme) :
    Alike m n (qualifiedCall t) (qualifiedCall u)
  | dispatch {p q t u : Token} (hp : p.lexeme = q.lexeme) (h : t.lexeme = u.lexeme) :
    Alike m n (dispatch p t) (dispatch q u)

def AlikeAll (m n : Int) : List Goal → List Goal → Prop := List.Forall₂ (Goal.Alike m n)

/-- `s₁` has come from `o₁` as `s₂` has come from `o₂`. -/
structure Alike (o₁ o₂ s₁ s₂ : State) : Prop where
  className : s₁.className = s₂.className
  subroutineKind : s₁.subroutineKind = s₂.subroutineKind
  subroutineName : s₁.subroutineName = s₂.subroutineName
  scope : s₁.scope = s₂.scope
  labels : ∃ k : Nat, s₁.labels = o₁.labels + k ∧ s₂.labels = o₂.labels + k
  code : ∃ b₁ b₂, s₁.code = o₁.code ++ b₁ ∧ s₂.code = o₂.code ++ b₂ ∧
    b₁.map (Instruction.rebase o₁.labels) = b₂.map (Instruction.rebase o₂.labels)

/-- The tokens in view spell the same lexeme, or there is none in either. -/
def SameView (s₁ s₂ : State) : Prop :=
  s₁.rest.head?.map Token.lexeme = s₂.rest.head?.map Token.lexeme

/-- Both steps leave behind goals and states that are alike, and have read as many tokens. -/
structure Agree (o₁ o₂ s₁ s₂ : State) (r₁ r₂ : List Goal × State) : Prop where
  goals : AlikeAll o₁.labels o₂.labels r₁.1 r₂.1
  states : Alike o₁ o₂ r₁.2 r₂.2
  read : ∃ j ≤ 1, r₁.2.rest = s₁.rest.drop j ∧ r₂.2.rest = s₂.rest.drop j

/-! ## Goals that are alike -/

variable {m n : Int}

/-- A goal that is the same wherever labels are counted from. -/
def Goal.isSteady : Goal → Bool
  | emit (.label _) | emit (.goto _) | emit (.ifGoto _) => false
  | emit _ => true
  | g => g.isBare

theorem Goal.Alike.refl {g : Goal} (h : g.isSteady = true) : Goal.Alike m n g g := by
  cases g with
  | emit i =>
      refine .emit ?_
      cases i with
      | label | goto | ifGoto => cases h
      | _ => rfl
  | _ => exact .bare _ h

theorem AlikeAll.refl {gs : List Goal} (h : gs.all Goal.isSteady = true) : AlikeAll m n gs gs := by
  induction gs with
  | nil => exact .nil
  | cons g gs ih =>
      rw [List.all_cons, Bool.and_eq_true] at h
      exact .cons (.refl h.1) (ih h.2)

theorem AlikeAll.single {g h : Goal} (hgh : Goal.Alike m n g h) : AlikeAll m n [g] [h] :=
  .cons hgh .nil

theorem AlikeAll.append {gs gs' hs hs' : List Goal} (h : AlikeAll m n gs hs)
    (h' : AlikeAll m n gs' hs') : AlikeAll m n (gs ++ gs') (hs ++ hs') :=
  List.rel_append h h'

theorem isSteady_stringLiteral (text : String) :
    (Goal.stringLiteral text).all Goal.isSteady = true := by
  simp only [Goal.stringLiteral, List.all_cons, Goal.isSteady, Bool.true_and]
  induction text.toList with
  | nil => rfl
  | cons c cs ih => simp [Goal.isSteady]

/-- What one test selects, or else the tests behind it. -/
theorem steady_of_ite {p : Prop} [Decidable p] {e e' : Element} {gs gs' : List Goal}
    {otherwise : Option (Element × List Goal)} (hgs : gs.all Goal.isSteady = true)
    (hotherwise : otherwise = some (e', gs') → gs'.all Goal.isSteady = true)
    (h : (if p then some (e, gs) else otherwise) = some (e', gs')) :
    gs'.all Goal.isSteady = true := by
  split at h
  · cases h
    exact hgs
  · exact hotherwise h

theorem isSteady_header (s : State) : s.header.all Goal.isSteady = true := by
  unfold State.header
  cases s.subroutineKind with
  | none => rfl
  | some kind => cases kind <;> rfl

/-! ## Looking at a token -/

/-- Tokens with the same lexeme select goals that are alike. -/
def SelectAlike (m n : Int) (f g : Token → Option (List Goal)) : Prop :=
  ∀ t u, t.lexeme = u.lexeme → Option.Rel (AlikeAll m n) (f t) (g u)

/-- The selection sees only the lexeme of a token. -/
def Blind {β : Type} (select : Token → Option β) : Prop :=
  ∀ t u : Token, t.lexeme = u.lexeme → select t = select u

theorem eq_relocated {t u : Token} (h : t.lexeme = u.lexeme) :
    ∃ l, u = { t with location := l } := by
  obtain ⟨kind, text, l⟩ := t
  obtain ⟨kind', text', l'⟩ := u
  obtain ⟨rfl, rfl⟩ := Lexeme.mk.inj h
  exact ⟨l', rfl⟩

theorem text_eq {t u : Token} (h : t.lexeme = u.lexeme) : t.text = u.text :=
  congrArg Lexeme.text h

theorem isWord_eq {t u : Token} (h : t.lexeme = u.lexeme) (w : String) :
    t.isWord w = u.isWord w := by
  obtain ⟨l, rfl⟩ := eq_relocated h
  rfl

theorem isIdentifier_eq {t u : Token} (h : t.lexeme = u.lexeme) :
    t.isIdentifier = u.isIdentifier := by
  obtain ⟨l, rfl⟩ := eq_relocated h
  rfl

theorem selectAlike_onWord {w : String} {gs hs : List Goal} (h : AlikeAll m n gs hs) :
    SelectAlike m n (Goal.onWord w gs) (Goal.onWord w hs) := by
  intro t u htu
  simp only [Goal.onWord, isWord_eq htu]
  by_cases hw : u.isWord w = true
  · rw [if_pos hw, if_pos hw]
    exact .some h
  · rw [if_neg hw, if_neg hw]
    exact .none

theorem selectAlike_onName {f g : Token → List Goal}
    (h : ∀ t u, t.lexeme = u.lexeme → AlikeAll m n (f t) (g u)) :
    SelectAlike m n (Goal.onName f) (Goal.onName g) := by
  intro t u htu
  simp only [Goal.onName, isIdentifier_eq htu]
  by_cases hname : u.isIdentifier = true
  · rw [if_pos hname, if_pos hname]
    exact .some (h t u htu)
  · rw [if_neg hname, if_neg hname]
    exact .none

/-- A selection that sees only the lexeme, and selects goals without tokens and labels. -/
theorem selectAlike_of_blind {select : Token → Option (List Goal)} (hblind : Blind select)
    (h : ∀ t gs, select t = some gs → gs.all Goal.isSteady = true) :
    SelectAlike m n select select := by
  intro t u htu
  rw [← hblind t u htu]
  cases hselect : select t with
  | none => exact .none
  | some gs => exact .some (.refl (h t gs hselect))

theorem selectAlike_onType {ws : List String} {f : String → List Goal}
    (h : ∀ type, (f type).all Goal.isSteady = true) :
    SelectAlike m n (Goal.onType ws f) (Goal.onType ws f) := by
  refine selectAlike_of_blind (fun t u htu => ?_) fun t gs hgs => ?_
  · obtain ⟨l, rfl⟩ := eq_relocated htu
    rfl
  · unfold Goal.onType at hgs
    split at hgs
    · cases hgs
      exact h t.text
    · split at hgs
      · cases hgs
        exact h t.text
      · cases hgs

theorem selectAlike_onTerm : SelectAlike m n Goal.onTerm Goal.onTerm := by
  intro t u htu
  obtain ⟨l, rfl⟩ := eq_relocated htu
  obtain ⟨kind, text, l'⟩ := t
  cases kind with
  | integer => exact .some (.single (.integer rfl))
  | string => exact .some (.refl (isSteady_stringLiteral text))
  | identifier => exact .some (.single (.identifierTail rfl))
  | keyword =>
      simp only [Goal.onTerm]
      split
      · exact .some (.refl rfl)
      · split
        · exact .some (.refl rfl)
        · split
          · exact .some (.single (.this _ _))
          · exact .none
  | symbol =>
      simp only [Goal.onTerm]
      split
      · exact .some (.refl rfl)
      · split
        · exact .some (.refl rfl)
        · split
          · exact .some (.refl rfl)
          · exact .none

theorem selectAlike_onOperator : SelectAlike m n Goal.onOperator Goal.onOperator := by
  refine selectAlike_of_blind (fun t u htu => ?_) fun t gs hgs => ?_
  · obtain ⟨l, rfl⟩ := eq_relocated htu
    rfl
  · obtain ⟨e, he, rfl⟩ := Option.map_eq_some_iff.mp hgs
    have hsteady : ∀ e ∈ Goal.operatorTable, Goal.isSteady (.emit e.2) = true := by decide
    have hmem := hsteady e (List.mem_of_find?_eq_some he)
    simp only [List.all_cons, hmem]
    rfl

theorem selectAlike_onCallSign {p q : Token} (h : p.lexeme = q.lexeme) :
    SelectAlike m n (Goal.onCallSign p) (Goal.onCallSign q) := by
  intro t u htu
  simp only [Goal.onCallSign, isWord_eq htu]
  by_cases hparen : u.isWord "(" = true
  · rw [if_pos hparen, if_pos hparen]
    exact .some (.single (.localCall h))
  · rw [if_neg hparen, if_neg hparen]
    by_cases hdot : u.isWord "." = true
    · rw [if_pos hdot, if_pos hdot]
      exact .some (.single (.qualifiedCall h))
    · rw [if_neg hdot, if_neg hdot]
      exact .none

section

variable {o₁ o₂ s₁ s₂ : State} {c₁ c₂ : Setting} {r₁ r₂ : List Goal × State}

/-! ## States that are alike -/

theorem Alike.mark (h : Alike o₁ o₂ s₁ s₂) (a b : Mark) :
    Alike o₁ o₂ (s₁.mark a) (s₂.mark b) :=
  { h with }

theorem Alike.read (h : Alike o₁ o₂ s₁ s₂) (t u : Token) (ts us : List Token) :
    Alike o₁ o₂ (s₁.read t ts) (s₂.read u us) :=
  { h with }

theorem Alike.emit (h : Alike o₁ o₂ s₁ s₂) {i j : Instruction}
    (hij : i.rebase o₁.labels = j.rebase o₂.labels) : Alike o₁ o₂ (s₁.emit i) (s₂.emit j) := by
  obtain ⟨b₁, b₂, h₁, h₂, hb⟩ := h.code
  refine { h with code := ⟨b₁ ++ [i], b₂ ++ [j], ?_, ?_, ?_⟩ }
  · rw [State.code_emit, h₁, List.append_assoc]
  · rw [State.code_emit, h₂, List.append_assoc]
  · rw [List.map_append, List.map_append, hb, List.map_singleton, List.map_singleton, hij]

theorem Alike.qualify (h : Alike o₁ o₂ s₁ s₂) (x : String) : s₁.qualify x = s₂.qualify x := by
  unfold State.qualify
  rw [h.className]

theorem Alike.header (h : Alike o₁ o₂ s₁ s₂) : s₁.header = s₂.header := by
  unfold State.header State.qualifiedName
  rw [h.qualify, h.subroutineName, h.scope, h.subroutineKind]

theorem Agree.stay {next₁ next₂ : List Goal} {s₁' s₂' : State}
    (hgoals : AlikeAll o₁.labels o₂.labels next₁ next₂) (hstates : Alike o₁ o₂ s₁' s₂')
    (hr₁ : s₁'.rest = s₁.rest) (hr₂ : s₂'.rest = s₂.rest) :
    Agree o₁ o₂ s₁ s₂ (next₁, s₁') (next₂, s₂') :=
  ⟨hgoals, hstates, 0, Nat.zero_le 1, hr₁, hr₂⟩

theorem SameView.cases (h : SameView s₁ s₂) :
    (s₁.rest = [] ∧ s₂.rest = []) ∨
      ∃ t ts u us, s₁.rest = t :: ts ∧ s₂.rest = u :: us ∧ t.lexeme = u.lexeme := by
  unfold SameView at h
  cases h₁ : s₁.rest with
  | nil =>
      cases h₂ : s₂.rest with
      | nil => exact .inl ⟨rfl, rfl⟩
      | cons u us =>
          rw [h₁, h₂] at h
          cases h
  | cons t ts =>
      cases h₂ : s₂.rest with
      | nil =>
          rw [h₁, h₂] at h
          cases h
      | cons u us =>
          rw [h₁, h₂] at h
          exact .inr ⟨t, ts, u, us, rfl, rfl, Option.some.inj h⟩

theorem SameView.sees (h : SameView s₁ s₂) (w : String) : s₁.sees w = s₂.sees w := by
  unfold State.sees
  rcases h.cases with ⟨h₁, h₂⟩ | ⟨t, ts, u, us, h₁, h₂, htu⟩
  · rw [h₁, h₂]
  · obtain ⟨l, rfl⟩ := eq_relocated htu
    rw [h₁, h₂]
    rfl

/-- Both compilations read the token in view. -/
theorem Agree.read_view {t u : Token} {ts us : List Token} {next₁ next₂ : List Goal}
    {s₁' s₂' : State} (h₁ : s₁.rest = t :: ts) (h₂ : s₂.rest = u :: us)
    (hgoals : AlikeAll o₁.labels o₂.labels next₁ next₂) (hstates : Alike o₁ o₂ s₁' s₂')
    (hr₁ : s₁'.rest = ts) (hr₂ : s₂'.rest = us) :
    Agree o₁ o₂ s₁ s₂ (next₁, s₁') (next₂, s₂') :=
  ⟨hgoals, hstates, 1, Nat.le_refl 1, by rw [h₁]; exact hr₁, by rw [h₂]; exact hr₂⟩

theorem agree_choose (hs : Alike o₁ o₂ s₁ s₂) (hview : SameView s₁ s₂)
    {f g : Token → Option (List Goal)} (hfg : SelectAlike o₁.labels o₂.labels f g)
    {gs hs' : List Goal} (hotherwise : AlikeAll o₁.labels o₂.labels gs hs') :
    Agree o₁ o₂ s₁ s₂ (s₁.choose f gs) (s₂.choose g hs') := by
  unfold State.choose
  rcases hview.cases with ⟨h₁, h₂⟩ | ⟨t, ts, u, us, h₁, h₂, htu⟩
  · simp only [h₁, h₂]
    exact .stay hotherwise hs rfl rfl
  · simp only [h₁, h₂]
    have hselect := hfg t u htu
    generalize f t = a, g u = b at hselect ⊢
    cases hselect with
    | none => exact .stay hotherwise hs rfl rfl
    | some hgoals => exact .read_view h₁ h₂ hgoals (hs.read t u ts us) rfl rfl

/-- An optional element; its first token is read in both compilations or in neither. -/
theorem agree_openElement (hs : Alike o₁ o₂ s₁ s₂) (hview : SameView s₁ s₂)
    {select : Token → Option (Element × List Goal)} (hblind : Blind select)
    (hsteady : ∀ t e gs, select t = some (e, gs) → gs.all Goal.isSteady = true) :
    Agree o₁ o₂ s₁ s₂ (s₁.openElement select) (s₂.openElement select) := by
  unfold State.openElement
  rcases hview.cases with ⟨h₁, h₂⟩ | ⟨t, ts, u, us, h₁, h₂, htu⟩
  · simp only [h₁, h₂]
    exact .stay .nil hs rfl rfl
  · simp only [h₁, h₂, ← hblind t u htu]
    cases hselect : select t with
    | none => exact .stay .nil hs rfl rfl
    | some r =>
        have hgoals := hsteady t r.1 r.2 hselect
        exact .read_view h₁ h₂ (.refl hgoals) ((hs.mark _ _).read t u ts us) rfl rfl

theorem agree_expect {expected₁ expected₂ : String} {f g : Token → Option (List Goal)}
    (h₁ : c₁.expect s₁ expected₁ f = .ok r₁) (h₂ : c₂.expect s₂ expected₂ g = .ok r₂)
    (hs : Alike o₁ o₂ s₁ s₂) (hview : SameView s₁ s₂)
    (hfg : SelectAlike o₁.labels o₂.labels f g) : Agree o₁ o₂ s₁ s₂ r₁ r₂ := by
  unfold Setting.expect at h₁ h₂
  rcases hview.cases with ⟨hr₁, hr₂⟩ | ⟨t, ts, u, us, hr₁, hr₂, htu⟩
  · simp only [hr₁] at h₁
    cases h₁
  · simp only [hr₁, hr₂] at h₁ h₂
    have hselect := hfg t u htu
    generalize f t = a, g u = b at hselect h₁ h₂
    cases hselect with
    | none => cases h₁
    | some hgoals =>
        cases h₁
        cases h₂
        exact .read_view hr₁ hr₂ hgoals (hs.read t u ts us) rfl rfl

/-! ## Resolving names -/

theorem lookup_of_resolve {c : Setting} {s : State} {name : Token} {d : Declaration}
    (h : c.resolve s name = .ok d) : s.scope.lookup name.text = some d := by
  unfold Setting.resolve at h
  split at h
  · cases h
  · next e he =>
      split at h
      · cases h
      · cases h
        exact he

/-- Names with the same text resolve to the same variable, if both resolve. -/
theorem Alike.resolve (hs : Alike o₁ o₂ s₁ s₂) {t u : Token} (htu : t.lexeme = u.lexeme)
    {d e : Declaration} (hd : c₁.resolve s₁ t = .ok d) (he : c₂.resolve s₂ u = .ok e) : d = e := by
  have hd := lookup_of_resolve hd
  have he := lookup_of_resolve he
  rw [← hs.scope, ← text_eq htu, hd] at he
  exact Option.some.inj he

theorem agree_declare (hs : Alike o₁ o₂ s₁ s₂) {t u : Token} (htu : t.lexeme = u.lexeme)
    {type : String} {k : Storage} (h₁ : c₁.declare s₁ t type k = .ok r₁)
    (h₂ : c₂.declare s₂ u type k = .ok r₂) : Agree o₁ o₂ s₁ s₂ r₁ r₂ := by
  unfold Setting.declare at h₁ h₂
  rw [← hs.scope, ← text_eq htu] at h₂
  cases hdefine : s₁.scope.define t.text type k with
  | error p =>
      rw [hdefine] at h₁
      cases h₁
  | ok d =>
      rw [hdefine] at h₁ h₂
      cases h₁
      cases h₂
      exact .stay .nil { hs with scope := rfl } rfl rfl

theorem agree_beginSubroutine (hs : Alike o₁ o₂ s₁ s₂) {t u : Token} (htu : t.lexeme = u.lexeme)
    {kind : SubroutineKind} (h₁ : c₁.beginSubroutine s₁ kind t = .ok r₁)
    (h₂ : c₂.beginSubroutine s₂ kind u = .ok r₂) : Agree o₁ o₂ s₁ s₂ r₁ r₂ := by
  have hscope :
      (s₁.entered kind t.text).scope = (s₂.entered kind u.text).scope := by
    simp only [State.entered, hs.scope, hs.className]
  rw [Setting.beginSubroutine_eq] at h₁ h₂
  split at h₁
  · cases h₁
  · split at h₂
    · cases h₂
    · cases h₁
      cases h₂
      exact .stay .nil
        { hs with subroutineKind := rfl, subroutineName := text_eq htu, scope := hscope } rfl rfl

theorem agree_integer (hs : Alike o₁ o₂ s₁ s₂) {t u : Token} (htu : t.lexeme = u.lexeme)
    (h₁ : c₁.integer s₁ t = .ok r₁) (h₂ : c₂.integer s₂ u = .ok r₂) :
    Agree o₁ o₂ s₁ s₂ r₁ r₂ := by
  simp only [Setting.integer, ← text_eq htu] at h₁ h₂
  split at h₁
  · cases h₁
  · split at h₁
    · cases h₁
    · next v hv hmax =>
        simp only [hv, if_neg hmax] at h₂
        split at h₁
        · cases h₁
        · next hneg =>
            rw [if_neg hneg] at h₂
            cases h₁
            cases h₂
            exact .stay (.refl rfl) hs rfl rfl

theorem agree_this (hs : Alike o₁ o₂ s₁ s₂) {t u : Token} (h₁ : c₁.this s₁ t = .ok r₁)
    (h₂ : c₂.this s₂ u = .ok r₂) : Agree o₁ o₂ s₁ s₂ r₁ r₂ := by
  simp only [Setting.this, ← hs.scope, ← hs.subroutineKind] at h₁ h₂
  split at h₁
  · next d hd =>
      simp only [hd] at h₂
      cases h₁
      cases h₂
      exact .stay (.refl rfl) hs rfl rfl
  · next hnone =>
      simp only [hnone] at h₂
      split at h₁
      · next hkind =>
          rw [if_pos hkind] at h₂
          cases h₁
          cases h₂
          exact .stay (.refl rfl) hs rfl rfl
      · cases h₁

theorem agree_localCall (hs : Alike o₁ o₂ s₁ s₂) {t u : Token} (htu : t.lexeme = u.lexeme)
    (h₁ : c₁.localCall s₁ t = .ok r₁) (h₂ : c₂.localCall s₂ u = .ok r₂) :
    Agree o₁ o₂ s₁ s₂ r₁ r₂ := by
  unfold Setting.localCall at h₁ h₂
  rw [← hs.qualify, ← text_eq htu] at h₂
  split at h₁
  · cases h₁
  · split at h₂
    · cases h₂
    · cases h₁
      cases h₂
      exact .stay (.refl rfl) { hs with } rfl rfl

/-- What a call is qualified with is a variable in both compilations or in neither; so it does not
matter which classes they know. -/
theorem agree_dispatch (hs : Alike o₁ o₂ s₁ s₂) {p q t u : Token} (hpq : p.lexeme = q.lexeme)
    (htu : t.lexeme = u.lexeme) (h₁ : c₁.dispatch s₁ p t = .ok r₁)
    (h₂ : c₂.dispatch s₂ q u = .ok r₂) : Agree o₁ o₂ s₁ s₂ r₁ r₂ := by
  unfold Setting.dispatch at h₁ h₂
  rw [← hs.scope, ← text_eq hpq, ← text_eq htu] at h₂
  split at h₁
  · next hsome =>
      rw [if_pos hsome] at h₂
      split at h₁
      · cases h₁
      · next d hd =>
          split at h₂
          · cases h₂
          · next e he =>
              obtain rfl := hs.resolve hpq hd he
              split at h₁
              · cases h₁
              · next hclass =>
                  rw [if_neg hclass] at h₂
                  cases h₁
                  cases h₂
                  exact .stay (.refl rfl) hs rfl rfl
  · next hnone =>
      rw [if_neg hnone] at h₂
      split at h₁
      · split at h₂
        · cases h₁
          cases h₂
          exact .stay (.refl rfl) hs rfl rfl
        · cases h₂
      · cases h₁

/-! ## Labels -/

/-- A condition that is tested. -/
theorem alikeAll_condition {x x' : String} (hx : relabel m x = relabel n x') :
    AlikeAll m n
      [.word "(", .expression, .word ")", .emit (.arithmetic .not), .emit (.ifGoto x)]
      [.word "(", .expression, .word ")", .emit (.arithmetic .not), .emit (.ifGoto x')] := by
  have hstart : AlikeAll m n [.word "(", .expression, .word ")", .emit (.arithmetic .not)]
      [.word "(", .expression, .word ")", .emit (.arithmetic .not)] := .refl rfl
  exact hstart.append (.single (.emit (congrArg Instruction.ifGoto hx)))

theorem alikeAll_conditional {x x' y y' : String} (hx : relabel m x = relabel n x')
    (hy : relabel m y = relabel n y') :
    AlikeAll m n (Goal.conditional x y) (Goal.conditional x' y') := by
  refine ((alikeAll_condition hx).append (.refl rfl)).append ?_
  refine .cons (.emit (congrArg Instruction.goto hy)) (.cons (.emit ?_) ?_)
  · exact congrArg Instruction.label hx
  · exact .cons (.bare _ rfl) (AlikeAll.single (.emit (congrArg Instruction.label hy)))

theorem alikeAll_loop {x x' y y' : String} (hx : relabel m x = relabel n x')
    (hy : relabel m y = relabel n y') : AlikeAll m n (Goal.loop x y) (Goal.loop x' y') := by
  refine .append (.append (.cons (.emit ?_) (alikeAll_condition hy)) (.refl rfl)) ?_
  · exact congrArg Instruction.label hx
  · exact .cons (.emit (congrArg Instruction.goto hx))
      (AlikeAll.single (.emit (congrArg Instruction.label hy)))

/-- The labels that are drawn next have the same distance from where they are counted. -/
theorem Alike.relabel (hs : Alike o₁ o₂ s₁ s₂) (h₁ : 0 ≤ o₁.labels) (h₂ : 0 ≤ o₂.labels) :
    relabel o₁.labels s₁.drawLabel.1 = relabel o₂.labels s₂.drawLabel.1 := by
  obtain ⟨k, hk₁, hk₂⟩ := hs.labels
  have hnext₁ : s₁.labels + 1 = o₁.labels + (k + 1 : Nat) := by omega
  have hnext₂ : s₂.labels + 1 = o₂.labels + (k + 1 : Nat) := by omega
  simp only [State.drawLabel]
  rw [hnext₁, hnext₂, relabel_labelText h₁, relabel_labelText h₂]

theorem Alike.drawLabel (hs : Alike o₁ o₂ s₁ s₂) : Alike o₁ o₂ s₁.drawLabel.2 s₂.drawLabel.2 := by
  obtain ⟨k, hk₁, hk₂⟩ := hs.labels
  refine { hs with labels := ⟨k + 1, ?_, ?_⟩ }
  · simp only [State.drawLabel]
    omega
  · simp only [State.drawLabel]
    omega

/-! ## Every step -/

/-- Goals without tokens and instructions. -/
theorem step_alike_bare (hs : Alike o₁ o₂ s₁ s₂) (hview : SameView s₁ s₂) (hl₁ : 0 ≤ o₁.labels)
    (hl₂ : 0 ≤ o₂.labels) {g : Goal} (hg : g.isBare = true) (h₁ : step c₁ s₁ g = .ok r₁)
    (h₂ : step c₂ s₂ g = .ok r₂) : Agree o₁ o₂ s₁ s₂ r₁ r₂ := by
  have hblind : ∀ {β : Type} (select : Token → Option β),
      (∀ (k : Token.Kind) (x : String) (l l' : Location), select ⟨k, x, l⟩ = select ⟨k, x, l'⟩) →
      Blind select := by
    intro β select h t u htu
    obtain ⟨l, rfl⟩ := eq_relocated htu
    exact h _ _ _ _
  cases g with
  | emit | declare | beginSubroutine | assign | integer | this | identifierTail | load | callSign
  | localCall | qualifiedCall | dispatch => cases hg
  | word w => exact agree_expect h₁ h₂ hs hview (selectAlike_onWord .nil)
  | enter | leave =>
      cases h₁
      cases h₂
      exact .stay .nil (hs.mark _ _) rfl rfl
  | className =>
      refine agree_expect h₁ h₂ hs hview (selectAlike_onName fun t u htu => ?_)
      rw [text_eq htu]
      exact .refl rfl
  | nameClass x =>
      cases h₁
      cases h₂
      exact .stay .nil { hs with className := rfl } rfl rfl
  | noteClass x =>
      cases h₁
      cases h₂
      exact .stay .nil { hs with } rfl rfl
  | classVars =>
      cases h₁
      cases h₂
      refine agree_openElement hs hview (hblind _ fun _ _ _ _ => rfl) fun t e gs h => ?_
      exact steady_of_ite rfl (steady_of_ite rfl (fun h => by cases h)) h
  | varType | returnType | parameter =>
      exact agree_expect h₁ h₂ hs hview (selectAlike_onType fun _ => rfl)
  | varName what k type =>
      refine agree_expect h₁ h₂ hs hview (selectAlike_onName fun t u htu => ?_)
      exact .single (.declare htu type k)
  | moreNames | moreParameters | elsePart | assignTail | moreArguments =>
      cases h₁
      cases h₂
      exact agree_choose hs hview (selectAlike_onWord (.refl rfl)) (.refl rfl)
  | subroutines =>
      cases h₁
      cases h₂
      refine agree_openElement hs hview (hblind _ fun _ _ _ _ => rfl) fun t e gs h => ?_
      obtain ⟨kind, -, heq⟩ := Option.map_eq_some_iff.mp h
      cases heq
      rfl
  | subroutineName kind =>
      refine agree_expect h₁ h₂ hs hview (selectAlike_onName fun t u htu => ?_)
      exact .single (.beginSubroutine htu kind)
  | parameters | returnValue | firstArgument =>
      cases h₁
      cases h₂
      rw [hview.sees]
      exact .stay (.refl (by split <;> rfl)) hs rfl rfl
  | localVars =>
      cases h₁
      cases h₂
      refine agree_openElement hs hview (hblind _ fun _ _ _ _ => rfl) fun t e gs h => ?_
      exact steady_of_ite rfl (fun h => by cases h) h
  | header =>
      cases h₁
      cases h₂
      rw [hs.header]
      exact .stay (.refl (isSteady_header s₂)) hs rfl rfl
  | endOfInput =>
      simp only [step] at h₁ h₂
      split at h₁
      · split at h₂
        · cases h₁
          cases h₂
          exact .stay .nil hs rfl rfl
        · cases h₂
      · cases h₁
  | verifyCalls | term =>
      simp only [step] at h₁ h₂
      split at h₁
      · cases h₁
      · split at h₂
        · cases h₂
        · cases h₁
          cases h₂
          exact .stay (.refl rfl) hs rfl rfl
  | statements | expression =>
      cases h₁
      cases h₂
      exact .stay (.refl rfl) hs rfl rfl
  | statementList =>
      cases h₁
      cases h₂
      refine agree_openElement hs hview (hblind _ fun _ _ _ _ => rfl) fun t e gs h => ?_
      exact steady_of_ite rfl (steady_of_ite rfl (steady_of_ite rfl (steady_of_ite rfl
        (steady_of_ite rfl (fun h => by cases h))))) h
  | letTarget =>
      refine agree_expect h₁ h₂ hs hview (selectAlike_onName fun t u htu => ?_)
      exact .single (.assign htu)
  | ifBody =>
      cases h₁
      cases h₂
      have hfirst := hs.relabel hl₁ hl₂
      have hsecond := hs.drawLabel.relabel hl₁ hl₂
      exact .stay (alikeAll_conditional hfirst hsecond) hs.drawLabel.drawLabel rfl rfl
  | whileBody =>
      cases h₁
      cases h₂
      have hfirst := hs.relabel hl₁ hl₂
      have hsecond := hs.drawLabel.relabel hl₁ hl₂
      exact .stay (alikeAll_loop hfirst hsecond) hs.drawLabel.drawLabel rfl rfl
  | doTarget =>
      refine agree_expect h₁ h₂ hs hview (selectAlike_onName fun t u htu => ?_)
      exact .single (.callSign htu)
  | termBody => exact agree_expect h₁ h₂ hs hview selectAlike_onTerm
  | operators =>
      cases h₁
      cases h₂
      exact agree_choose hs hview selectAlike_onOperator .nil

/-- Both compilations take a goal up that is the same in both. -/
theorem step_alike (hs : Alike o₁ o₂ s₁ s₂) (hview : SameView s₁ s₂) (hl₁ : 0 ≤ o₁.labels)
    (hl₂ : 0 ≤ o₂.labels) {g₁ g₂ : Goal} (hg : Goal.Alike o₁.labels o₂.labels g₁ g₂)
    (h₁ : step c₁ s₁ g₁ = .ok r₁) (h₂ : step c₂ s₂ g₂ = .ok r₂) : Agree o₁ o₂ s₁ s₂ r₁ r₂ := by
  cases hg with
  | bare g hbare => exact step_alike_bare hs hview hl₁ hl₂ hbare h₁ h₂
  | emit hij =>
      simp only [step] at h₁ h₂
      split at h₁
      · cases h₁
      · split at h₂
        · cases h₂
        · cases h₁
          cases h₂
          exact .stay .nil (hs.emit hij) rfl rfl
  | declare htu type k => exact agree_declare hs htu h₁ h₂
  | beginSubroutine htu kind => exact agree_beginSubroutine hs htu h₁ h₂
  | assign htu | load htu =>
      simp only [step] at h₁ h₂
      split at h₁
      · cases h₁
      · next d hd =>
          split at h₂
          · cases h₂
          · next e he =>
              obtain rfl := hs.resolve htu hd he
              cases h₁
              cases h₂
              exact .stay (.refl rfl) hs rfl rfl
  | integer htu => exact agree_integer hs htu h₁ h₂
  | this t u => exact agree_this hs h₁ h₂
  | identifierTail htu =>
      cases h₁
      cases h₂
      rw [hview.sees "(", hview.sees "."]
      refine agree_choose hs hview (selectAlike_onWord (.cons (.load htu) (AlikeAll.refl rfl))) ?_
      split
      · exact .single (.callSign htu)
      · exact .single (.load htu)
  | callSign htu => exact agree_expect h₁ h₂ hs hview (selectAlike_onCallSign htu)
  | localCall htu => exact agree_localCall hs htu h₁ h₂
  | qualifiedCall hpq =>
      refine agree_expect h₁ h₂ hs hview (selectAlike_onName fun t u htu => ?_)
      exact .cons (.bare _ rfl) (AlikeAll.single (.dispatch hpq htu))
  | dispatch hpq htu => exact agree_dispatch hs hpq htu h₁ h₂

/-! ## Whole runs -/

theorem run_cons_succeeds {c : Setting} {s f : State} {g : Goal} {gs : List Goal}
    (h : run c s (g :: gs) = ⟨f, none⟩) :
    ∃ next s', step c s g = .ok (next, s') ∧ run c s' (next ++ gs) = ⟨f, none⟩ := by
  cases hstep : step c s g with
  | error e =>
      rw [run_cons_error gs hstep] at h
      cases h
  | ok r =>
      rw [run_cons_ok gs hstep] at h
      exact ⟨r.1, r.2, rfl, h⟩

theorem run_length_le {c : Setting} {s f : State} {gs : List Goal} (h : run c s gs = ⟨f, none⟩) :
    f.rest.length ≤ s.rest.length := by
  have hforward := (run_forward c s gs).rest.length_le
  rwa [h] at hforward

/-- A token is read that is selected. -/
theorem expect_succeeds {c : Setting} {s s' : State} {expected : String}
    {select : Token → Option (List Goal)} {next : List Goal}
    (h : c.expect s expected select = .ok (next, s')) :
    ∃ t ts, s.rest = t :: ts ∧ select t = some next ∧ s' = s.read t ts := by
  unfold Setting.expect at h
  split at h
  · cases h
  · next t ts hts =>
      split at h
      · next hselect =>
          cases h
          exact ⟨t, ts, hts, hselect, rfl⟩
      · cases h

theorem step_word {c : Setting} {s s' : State} {w : String} {next : List Goal}
    (h : step c s (.word w) = .ok (next, s')) :
    ∃ t ts, s.rest = t :: ts ∧ next = [] ∧ s' = s.read t ts := by
  obtain ⟨t, ts, hts, hselect, rfl⟩ := expect_succeeds h
  refine ⟨t, ts, hts, ?_, rfl⟩
  unfold Goal.onWord at hselect
  split at hselect
  · exact (Option.some.inj hselect).symm
  · cases hselect

/-- A run that has a word to read reads at least one token. -/
theorem run_length_lt {c : Setting} {s f : State} {gs : List Goal} {w : String}
    (h : run c s gs = ⟨f, none⟩) (hw : .word w ∈ gs) : f.rest.length < s.rest.length := by
  fun_induction run c s gs with
  | case1 s => exact (List.not_mem_nil hw).elim
  | case2 s g gs e hstep => cases h
  | case3 s g gs next s' hstep ih =>
      have hle : f.rest.length ≤ s'.rest.length := run_length_le h
      rcases List.mem_cons.mp hw with rfl | hw
      · exact Nat.lt_of_le_of_lt hle (expect_lt hstep)
      · have hlt := ih h (List.mem_append_right next hw)
        exact Nat.lt_of_lt_of_le hlt (step_forward hstep).rest.length_le

/-- Two runs that read the same lexemes stay alike until both have read the word `w`, behind which
`ks₁` and `ks₂` are due. -/
theorem run_alongside (hl₁ : 0 ≤ o₁.labels) (hl₂ : 0 ≤ o₂.labels) {gs₁ gs₂ ks₁ ks₂ : List Goal}
    {w : String} {f₁ f₂ : State} {p₁ p₂ : List Token} (hs : Alike o₁ o₂ s₁ s₂)
    (hgs : AlikeAll o₁.labels o₂.labels gs₁ gs₂)
    (h₁ : run c₁ s₁ (gs₁ ++ .word w :: ks₁) = ⟨f₁, none⟩)
    (h₂ : run c₂ s₂ (gs₂ ++ .word w :: ks₂) = ⟨f₂, none⟩) (hp₁ : s₁.rest = p₁ ++ f₁.rest)
    (hp₂ : s₂.rest = p₂ ++ f₂.rest) (hp : p₁.map Token.lexeme = p₂.map Token.lexeme) :
    ∃ m₁ m₂ q₁ q₂, run c₁ m₁ ks₁ = ⟨f₁, none⟩ ∧ run c₂ m₂ ks₂ = ⟨f₂, none⟩ ∧
      m₁.rest = q₁ ++ f₁.rest ∧ m₂.rest = q₂ ++ f₂.rest ∧
      q₁.map Token.lexeme = q₂.map Token.lexeme ∧ q₁.length < p₁.length ∧
      Alike o₁ o₂ m₁ m₂ := by
  generalize hagenda : gs₁ ++ .word w :: ks₁ = agenda at h₁
  fun_induction run c₁ s₁ agenda generalizing s₂ gs₁ gs₂ p₁ p₂ with
  | case1 s => simp at hagenda
  | case2 s g agenda e hstep => cases h₁
  | case3 s₁ g agenda next₁ s₁' hstep₁ ih =>
      -- A word is still due, so there is a token in view, and it is one of those to be read.
      have hrun₁ : run c₁ s₁ (gs₁ ++ .word w :: ks₁) = ⟨f₁, none⟩ := by
        rw [hagenda, run_cons_ok agenda hstep₁]
        exact h₁
      have hlt := run_length_lt hrun₁ (List.mem_append_right gs₁ (List.mem_cons_self ..))
      obtain ⟨t, p₁, rfl⟩ : ∃ t p, p₁ = t :: p := by
        cases p₁ with
        | nil =>
            rw [hp₁] at hlt
            exact absurd hlt (Nat.lt_irrefl _)
        | cons t p => exact ⟨t, p, rfl⟩
      obtain ⟨u, p₂, rfl, hut, hp'⟩ := List.map_eq_cons_iff.mp hp.symm
      have hview : SameView s₁ s₂ := by
        rw [SameView, hp₁, hp₂]
        exact congrArg some hut.symm
      have hdrop : ∀ {j : Nat}, j ≤ 1 → ∀ {p ts : List Token} {x : Token},
          ((x :: p) ++ ts).drop j = (x :: p).drop j ++ ts := by
        intro j hj p ts x
        exact List.drop_append_of_le_length (Nat.le_trans hj (Nat.succ_le_succ (Nat.zero_le _)))
      cases hgs with
      | nil =>
          obtain ⟨rfl, rfl⟩ := List.cons.inj hagenda
          obtain ⟨next₂, s₂', hstep₂, h₂⟩ := run_cons_succeeds h₂
          have hagree := step_alike hs hview hl₁ hl₂ (.bare _ rfl) hstep₁ hstep₂
          obtain ⟨t', ts, hr₁, rfl, rfl⟩ := step_word hstep₁
          obtain ⟨u', us, hr₂, rfl, rfl⟩ := step_word hstep₂
          rw [hp₁] at hr₁
          rw [hp₂] at hr₂
          exact ⟨_, _, p₁, p₂, h₁, h₂, (List.cons.inj hr₁).2.symm, (List.cons.inj hr₂).2.symm,
            hp'.symm, Nat.lt_succ_self _, hagree.states⟩
      | cons hg hgs =>
          rw [List.cons_append] at hagenda h₂
          obtain ⟨rfl, rfl⟩ := List.cons.inj hagenda
          obtain ⟨next₂, s₂', hstep₂, h₂⟩ := run_cons_succeeds h₂
          have hagree := step_alike hs hview hl₁ hl₂ hg hstep₁ hstep₂
          obtain ⟨j, hj, hr₁, hr₂⟩ := hagree.read
          rw [hp₁, hdrop hj] at hr₁
          rw [hp₂, hdrop hj] at hr₂
          rw [← List.append_assoc] at h₂
          obtain ⟨m₁, m₂, q₁, q₂, hm₁, hm₂, hq₁, hq₂, hq, hlength, hm⟩ :=
            ih hagree.states (hagree.goals.append hgs) h₂ hr₁ hr₂
              (by rw [List.map_drop, List.map_drop, hp]) (List.append_assoc ..) h₁
          refine ⟨m₁, m₂, q₁, q₂, hm₁, hm₂, hq₁, hq₂, hq, ?_, hm⟩
          exact Nat.lt_of_lt_of_le hlength (List.drop_sublist j _).length_le

end

end Compile

end Jack
