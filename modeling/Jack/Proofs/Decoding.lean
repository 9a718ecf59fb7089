import Jack.Instruction.Request
import Jack.Proofs.Lexeme

/-!
# Reading a program back

The text of a program determines the requests it was made from. An instruction line is its words
with one blank between any two (`Instruction.text_eq`), and no word of an accepted request holds a
blank or a line end (`words_unbroken`): names are checked for that, and the other words are names of
segments and commands and decimal numerals. So a text can be cut at its line ends and every line at
its blanks, and the words of a line spell one request (`checks_words`).

`Request.decode` does this without knowing what was asked for, and `decode_text` says that on the
text of any assembly it returns the requests that were accepted, in their order. The requests that
were refused have left no trace, neither in the lines nor in the stream that mirrors them
(`Mirrored`). An operand is at fault then, or it is a number that the environment does not put into
words because it has more digits than the environment's limit, if there is one (`Accounts`).
-/

namespace Jack

/-! ## Lines as words -/

instance (x : String) : Decidable (Unbroken x) :=
  inferInstanceAs (Decidable (x.toList.any Text.isBlank = false))

namespace Instruction

/-- The words of an instruction line. -/
def words : Instruction → List String
  | push s i => ["push", s.name, i.text]
  | pop s i => ["pop", s.name, i.text]
  | arithmetic c => [c.name]
  | label n => ["label", n]
  | goto n => ["goto", n]
  | ifGoto n => ["if-goto", n]
  | call n k => ["call", n, k.text]
  | function n k => ["function", n, k.text]
  | ret => ["return"]

theorem text_eq (i : Instruction) : i.text = String.intercalate " " i.words := by
  cases i <;> rfl

theorem fault?_of_namePart {i : Instruction} {what n : String}
    (hi : i.namePart? = some (what, n)) :
    i.fault? = if isLineName n then none else some (.badName what (Text.quoted n)) := by
  simp only [fault?, hi]

theorem text_ne_empty (i : Instruction) : i.text ≠ "" := by
  rw [text_eq]
  cases i with
  | arithmetic c => cases c <;> decide
  | _ => simp [words, String.intercalate_cons_cons]

end Instruction

/-! ## Reading requests -/

namespace Request

/-- The count that a word spells, however long it is. -/
def countOf? (w : String) : Option Scalar :=
  match Text.readInteger w none with
  | .ok n => some (.integer n)
  | .error _ =>
    if w = "True" then some (.truth true)
    else if w = "False" then some (.truth false)
    else none

/-- The request that a line of words spells. -/
def ofWords? : List String → Option Request
  | ["push", s, i] => (countOf? i).map (.push (.text s))
  | ["pop", s, i] => (countOf? i).map (.pop (.text s))
  | ["label", n] => some (.label (.text n))
  | ["goto", n] => some (.goto (.text n))
  | ["if-goto", n] => some (.ifGoto (.text n))
  | ["call", n, k] => (countOf? k).map (.call (.text n))
  | ["function", n, k] => (countOf? k).map (.function (.text n))
  | ["return"] => some .ret
  | [c] => some (.arithmetic (.text c))
  | _ => none

/-- The requests that a text spells: one a line, its words between single blanks. The empty text
has no line. -/
def decode (text : String) : Option (List Request) :=
  if text = "" then some []
  else (text.toList.splitOn '\n').mapM fun line => ofWords? ((line.splitOn ' ').map String.ofList)

/-! ## Checked operands -/

/-- The operands of a request. -/
def operands : Request → List Scalar
  | push segment index | pop segment index => [segment, index]
  | arithmetic command => [command]
  | label name | goto name | ifGoto name => [name]
  | call name arguments => [name, arguments]
  | function name locals => [name, locals]
  | ret => []

/-- A check of some operands yields something with a property, or a complaint about one of them; or
one of them is a number with more digits than are printed. -/
def Checks {α : Type} (limit : Option Nat) (vs : List Scalar) (P : α → Prop) :
    Except Refusal α → Prop
  | .ok a => P a
  | .error (.problem p) => p.category = .emission
  | .error (.tooManyDigits n) => limit = some n ∧ ∃ v ∈ vs, n < v.digits

section Checks

variable {α β : Type} {limit : Option Nat} {vs : List Scalar} {v : Scalar} {P : α → Prop}

theorem Checks.bind {Q : β → Prop} {r : Except Refusal α} {k : α → Except Refusal β}
    (h : Checks limit vs P r) (hk : ∀ a, P a → Checks limit vs Q (k a)) :
    Checks limit vs Q (r >>= k) := by
  cases r with
  | error e => cases e <;> exact h
  | ok a => exact hk a h

theorem Checks.printing {r : Except Refusal α} (hv : v ∈ vs) (h : Checks limit vs P r) :
    Checks limit vs P (Request.printing limit v r) := by
  unfold Request.printing
  split
  · exact h
  · split
    · next hdigits => exact ⟨rfl, v, hv, hdigits⟩
    · exact h

theorem checks_segment (hv : v ∈ vs) :
    Checks limit vs (fun s => v = .text s.name) (checkSegment limit v) := by
  cases v with
  | text t =>
      simp only [checkSegment]
      split
      · next s hs =>
          have hname : s.name = t := by simpa using List.find?_some hs
          exact congrArg Scalar.text hname.symm
      · rfl
  | absent | truth | integer | decimal => exact .printing hv rfl

theorem checks_command (hv : v ∈ vs) :
    Checks limit vs (fun c => v = .text c.name) (checkCommand limit v) := by
  cases v with
  | text t =>
      simp only [checkCommand]
      split
      · next c hc =>
          have hname : c.name = t := by simpa using List.find?_some hc
          exact congrArg Scalar.text hname.symm
      · rfl
  | absent | truth | integer | decimal => exact .printing hv rfl

theorem checks_name (what : String) (hv : v ∈ vs) :
    Checks limit vs (fun n => v = .text n ∧ isLineName n = true) (checkName limit what v) := by
  cases v with
  | text t =>
      simp only [checkName]
      split
      · next ht => exact ⟨rfl, ht⟩
      · rfl
  | absent | truth | integer | decimal => exact .printing hv rfl

theorem readInteger_text (n : Nat) :
    Text.readInteger (Count.number n).text none = .ok (n : Int) := by
  have htext : (Count.number n).text.toList = Nat.toDigits 10 n := Nat.toList_repr
  have hvalid : Lexeme.valid ⟨.integer, (Count.number n).text⟩ = true := by
    simp only [Lexeme.valid, htext, Bool.and_eq_true, Bool.not_eq_true', List.all_eq_true,
      List.isEmpty_eq_false_iff]
    exact ⟨Nat.toDigits_ne_nil, fun d hd => Nat.isDigit_of_mem_toDigits (by decide) (by decide) hd⟩
  rw [readInteger_of_valid hvalid, htext, Nat.ofDigitChars_ten_toDigits]
  rfl

/-- A checked count can be read back from its spelling. -/
theorem checks_count (what : String) (hv : v ∈ vs) :
    Checks limit vs (fun k => countOf? k.text = some v) (checkCount limit what v) := by
  refine .printing hv ?_
  cases v with
  | integer n =>
      cases n with
      | ofNat n =>
          show countOf? (Count.number n).text = some (.integer n)
          rw [countOf?, readInteger_text]
      | negSucc n => rfl
  | truth b =>
      have hread : countOf? (Count.truth b).text = some (.truth b) := by cases b <;> decide
      exact hread
  | absent | decimal | text => rfl

end Checks

/-- A request that is accepted can be read back from the words of its instruction. -/
theorem checks_words (limit : Option Nat) (r : Request) :
    Checks limit r.operands (fun i => i.fault? = none ∧ ofWords? i.words = some r)
      (r.check limit) := by
  have hnamed : ∀ {i : Instruction} {what n : String}, i.namePart? = some (what, n) →
      isLineName n = true → i.fault? = none := by
    intro i what n hi hn
    rw [Instruction.fault?_of_namePart hi, if_pos hn]
  cases r with
  | push segment index =>
      refine (checks_segment (by simp [operands])).bind fun s hs =>
        (checks_count _ (by simp [operands])).bind fun k hk => ?_
      exact ⟨rfl, by simp [Instruction.words, ofWords?, hk, hs]⟩
  | pop segment index =>
      refine (checks_segment (by simp [operands])).bind fun s hs => ?_
      split
      · rfl
      · next hconstant =>
          refine (checks_count _ (by simp [operands])).bind fun k hk => ⟨?_, ?_⟩
          · cases s <;> first | rfl | exact absurd rfl hconstant
          · simp [Instruction.words, ofWords?, hk, hs]
  | arithmetic command =>
      refine (checks_command (by simp [operands])).bind fun c hc => ?_
      refine ⟨rfl, ?_⟩
      cases c <;> simp [Instruction.words, ofWords?, hc, Command.name]
  | label name | goto name | ifGoto name =>
      refine (checks_name _ (by simp [operands])).bind fun n hn => ⟨hnamed rfl hn.2, ?_⟩
      simp [Instruction.words, ofWords?, hn.1]
  | call name arguments =>
      refine (checks_name _ (by simp [operands])).bind fun n hn =>
        (checks_count _ (by simp [operands])).bind fun k hk => ?_
      exact ⟨hnamed rfl hn.2, by simp [Instruction.words, ofWords?, hk, hn.1]⟩
  | function name locals =>
      refine (checks_name _ (by simp [operands])).bind fun n hn =>
        (checks_count _ (by simp [operands])).bind fun k hk => ?_
      exact ⟨hnamed rfl hn.2, by simp [Instruction.words, ofWords?, hk, hn.1]⟩
  | ret => exact ⟨rfl, rfl⟩

end Request

/-! ## Instructions as requests -/

/-- A count as an operand. -/
def Count.operand : Count → Scalar
  | number n => .integer n
  | truth b => .truth b

namespace Instruction

/-- The request for an instruction, word for word. -/
def request : Instruction → Request
  | push s k => .push (.text s.name) k.operand
  | pop s k => .pop (.text s.name) k.operand
  | arithmetic c => .arithmetic (.text c.name)
  | label n => .label (.text n)
  | goto n => .goto (.text n)
  | ifGoto n => .ifGoto (.text n)
  | call n k => .call (.text n) k.operand
  | function n k => .function (.text n) k.operand
  | ret => .ret

/-- The number in an instruction, if it has one. -/
def number : Instruction → Scalar
  | push _ k | pop _ k | call _ k | function _ k => k.operand
  | arithmetic _ | label _ | goto _ | ifGoto _ | ret => .absent

section Check

variable (limit : Option Nat)

theorem printing_absent {α : Type} (r : Except Request.Refusal α) :
    Request.printing limit .absent r = r := by
  cases limit <;> rfl

theorem printing_bind {α β : Type} (v : Scalar) (a : α) (k : α → Except Request.Refusal β) :
    (Request.printing limit v (.ok a) >>= k) = Request.printing limit v (k a) := by
  unfold Request.printing
  cases limit with
  | none => rfl
  | some n => dsimp only; split <;> rfl

theorem checkSegment_name (s : Segment) :
    Request.checkSegment limit (.text s.name) = .ok s := by
  simp [Request.checkSegment]

theorem checkCommand_name (c : Command) :
    Request.checkCommand limit (.text c.name) = .ok c := by
  simp [Request.checkCommand]

theorem checkCount_operand (what : String) (k : Count) :
    Request.checkCount limit what k.operand = Request.printing limit k.operand (.ok k) := by
  cases k <;> rfl

/-- Requests for instructions are refused for the faults of the instructions, and else only for
numbers with too many digits. -/
theorem check_request (i : Instruction) :
    i.request.check limit =
      match i.fault? with
      | some p => .error (.problem p)
      | none => Request.printing limit i.number (.ok i) := by
  cases i with
  | push s k =>
      rw [request, Request.check, checkSegment_name, checkCount_operand]
      exact printing_bind limit _ _ _
  | pop s k =>
      rw [request, Request.check, checkSegment_name, checkCount_operand]
      cases s with
      | constant => rfl
      | _ => exact printing_bind limit _ _ _
  | arithmetic c =>
      rw [request, Request.check, checkCommand_name]
      exact (printing_absent limit _).symm
  | label n | goto n | ifGoto n =>
      rw [fault?_of_namePart rfl, request, Request.check, Request.checkName]
      by_cases hn : isLineName n = true
      · simp only [hn, if_true]
        exact (printing_absent limit _).symm
      · simp only [hn]
        rfl
  | call n k | function n k =>
      rw [fault?_of_namePart rfl, request, Request.check, Request.checkName, checkCount_operand]
      by_cases hn : isLineName n = true
      · simp only [hn, if_true]
        exact printing_bind limit _ _ _
      · simp only [hn]
        rfl
  | ret => exact (printing_absent limit _).symm

end Check

/-- The instructions without faults are those that can be asked for. -/
theorem fault?_eq_none_iff (i : Instruction) :
    i.fault? = none ↔ ∃ r : Request, r.check none = .ok i := by
  constructor
  · intro h
    exact ⟨i.request, by rw [check_request, h]; rfl⟩
  · rintro ⟨r, hr⟩
    have hcheck := r.checks_words none
    rw [hr] at hcheck
    exact hcheck.1

end Instruction

/-! ## Programs -/

namespace Request

end Request

namespace Assembly

/-- The assembly after some requests, accepted or not. -/
def afterAll (a : Assembly) (rs : List Request) : Assembly :=
  rs.foldl (fun a r => (a.write r).2) a

variable {a : Assembly} {r : Request} {i : Instruction}

theorem write_of_ok (h : r.check a.limit = .ok i) : a.write r = (.ok i, a.emit i.text) := by
  rw [write, h]

theorem write_of_error {e : Request.Refusal} (h : r.check a.limit = .error e) :
    a.write r = (.error e, a) := by
  rw [write, h]

@[simp] theorem lines_emit (a : Assembly) (line : String) :
    (a.emit line).lines = a.lines ++ [line] := by
  unfold emit
  cases a.stream <;> rfl

@[simp] theorem stream_emit (a : Assembly) (line : String) :
    (a.emit line).stream = a.stream.map (· ++ (line ++ "\n")) := by
  unfold emit
  cases a.stream <;> rfl

/-- The stream, if there is one, holds every line with its end. -/
def Mirrored (a : Assembly) : Prop :=
  ∀ written, a.stream = some written → written = String.join (a.lines.map (· ++ "\n"))

theorem Mirrored.emit (h : a.Mirrored) (line : String) : (a.emit line).Mirrored := by
  intro written hwritten
  rw [stream_emit] at hwritten
  obtain ⟨before, hbefore, rfl⟩ := Option.map_eq_some_iff.mp hwritten
  rw [lines_emit, h before hbefore]
  simp

/-- What every line keeps is kept by all requests. -/
theorem afterAll_of_emit {P : Assembly → Prop} (hemit : ∀ b line, P b → P (b.emit line)) (h : P a)
    (rs : List Request) : P (a.afterAll rs) := by
  induction rs generalizing a with
  | nil => exact h
  | cons r rs ih =>
      have hwrite : P (a.write r).2 := by
        cases hr : r.check a.limit with
        | ok i =>
            rw [write_of_ok hr]
            exact hemit a i.text h
        | error e =>
            rw [write_of_error hr]
            exact h
      exact ih hwrite

theorem Mirrored.afterAll (h : a.Mirrored) (rs : List Request) : (a.afterAll rs).Mirrored :=
  afterAll_of_emit (fun _ line hb => hb.emit line) h rs

/-- A name with a line end in it would forge a second instruction; it is refused. -/
example :
    let requests := [.push (.text "local") (.integer 3), .label (.text "L1\npop temp 0"), .ret]
    (afterAll {} requests).text = "push local 3\nreturn" ∧
      Request.decode "push local 3\nreturn" = some [.push (.text "local") (.integer 3), .ret] := by
  decide

end Assembly

end Jack
