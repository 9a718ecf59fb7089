/-!
# Control sequences

A text may hold instructions for a terminal, such as a change of colour. They have one form: the
escape character and an opening bracket, any number of parameter characters, any number of
intermediate characters, and one final character. The three classes have no character in common,
so there is one way at most to read a sequence.

`withoutControls` takes these sequences out, from left to right and once: what is left may form a
new one, and that one stays.
-/

namespace Jack.Text

/-- The character that starts a control sequence. -/
def escape : Char := '\x1b'

/-- The digits and the signs from the colon to the question mark. -/
def isParameter (c : Char) : Bool := 0x30 ≤ c.toNat && c.toNat ≤ 0x3F

/-- The space and the signs up to the slash. -/
def isIntermediate (c : Char) : Bool := 0x20 ≤ c.toNat && c.toNat ≤ 0x2F

/-- The letters and the signs among and behind them. -/
def isFinal (c : Char) : Bool := 0x40 ≤ c.toNat && c.toNat ≤ 0x7E

/-- What follows the control sequence at the start of `c :: cs`, if there is one. -/
def afterControl? (c : Char) (cs : List Char) : Option (List Char) :=
  if c = escape ∧ cs.head? = some '[' then
    match (cs.tail.dropWhile isParameter).dropWhile isIntermediate with
    | f :: rest => if isFinal f then some rest else none
    | [] => none
  else none

theorem afterControl?_length_le {c : Char} {cs rest : List Char}
    (h : afterControl? c cs = some rest) : rest.length ≤ cs.length := by
  unfold afterControl? at h
  split at h
  · split at h
    · next f behind hd =>
      split at h
      · obtain rfl := Option.some.inj h
        have hsuffix : f :: behind <:+ cs := by
          rw [← hd]
          exact ((List.dropWhile_suffix _).trans (List.dropWhile_suffix _)).trans
            (List.tail_suffix _)
        exact Nat.le_of_succ_le hsuffix.length_le
      · cases h
    · cases h
  · cases h

/-- A text without its control sequences. -/
def withoutControls : List Char → List Char
  | [] => []
  | c :: cs =>
    match _h : afterControl? c cs with
    | some rest => withoutControls rest
    | none => c :: withoutControls cs
  termination_by cs => cs.length
  decreasing_by
    · exact Nat.lt_succ_of_le (afterControl?_length_le _h)
    · exact Nat.lt_succ_self _

/-- A string without its control sequences. -/
def plainText (text : String) : String :=
  String.ofList (withoutControls text.toList)

end Jack.Text
