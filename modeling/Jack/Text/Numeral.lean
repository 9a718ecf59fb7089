import Jack.Text.Blank

/-!
# Decimal numerals

How the text of an integer constant is read. The digits of every script count, a single low line
may stand between two digits, a sign may stand in front, and blanks around the whole are ignored.
Text cut from a source is a plain run of ASCII digits; the wider rules matter for tokens that
arrive ready made.

Numbers with very many digits are not turned from text or into text: there is a limit, `maxDigits`
as a rule. It is a limit on the text and not on the value, so a long run of zeros goes beyond it
too.
-/

namespace Jack.Text

/-- The code points of the digit zero in each script; the digits one to nine follow each. -/
def digitZeros : Array Nat := #[
  0x30, 0x660, 0x6F0, 0x7C0, 0x966, 0x9E6, 0xA66, 0xAE6, 0xB66, 0xBE6, 0xC66, 0xCE6, 0xD66, 0xDE6,
  0xE50, 0xED0, 0xF20, 0x1040, 0x1090, 0x17E0, 0x1810, 0x1946, 0x19D0, 0x1A80, 0x1A90, 0x1B50,
  0x1BB0, 0x1C40, 0x1C50, 0xA620, 0xA8D0, 0xA900, 0xA9D0, 0xA9F0, 0xAA50, 0xABF0, 0xFF10, 0x104A0,
  0x10D30, 0x11066, 0x110F0, 0x11136, 0x111D0, 0x112F0, 0x11450, 0x114D0, 0x11650, 0x116C0, 0x11730,
  0x118E0, 0x11950, 0x11C50, 0x11D50, 0x11DA0, 0x16A60, 0x16AC0, 0x16B50, 0x1D7CE, 0x1D7D8, 0x1D7E2,
  0x1D7EC, 0x1D7F6, 0x1E140, 0x1E2F0, 0x1E950, 0x1FBF0]

/-- The value of a decimal digit, in any script. -/
def digitValue? (c : Char) : Option Nat :=
  (digitZeros.find? fun z => z ≤ c.toNat && c.toNat ≤ z + 9).map fun z => c.toNat - z

/-- Blanks that may surround a numeral: the six ASCII ones, and beyond ASCII every blank. -/
def isMargin (c : Char) : Bool :=
  c == ' ' || (0x09 ≤ c.toNat && c.toNat ≤ 0x0D) || (0x80 ≤ c.toNat && isBlank c)

/-- The values of the digits that a text starts with, and what is behind them. A low line between
two digits is passed over; any other low line that is come upon spoils the numeral. -/
def takeDigits : List Char → Option (List Nat × List Char)
  | [] => some ([], [])
  | ['_'] => none
  | '_' :: c :: cs => do
    let d ← digitValue? c
    let (ds, rest) ← takeDigits cs
    return (d :: ds, rest)
  | c :: cs =>
    match digitValue? c with
    | none => some ([], c :: cs)
    | some d => do
      let (ds, rest) ← takeDigits cs
      return (d :: ds, rest)

/-! ## The limit -/

/-- How many digits a number may have where it is turned from text or into text, unless another
limit is set. Zeros in front count. -/
def maxDigits : Nat := 4300

/-- Whether a number of digits goes beyond a limit, if there is one. -/
def beyond (limit : Option Nat) (digits : Nat) : Bool := limit.any (· < digits)

@[simp] theorem beyond_none (digits : Nat) : beyond none digits = false := rfl

@[simp] theorem beyond_some (limit digits : Nat) :
    beyond (some limit) digits = decide (limit < digits) := rfl

/-- The complaint about a number with too many digits, which tells how many there are if they have
been counted. -/
def limitMessage (limit : Nat) (digits : Option Nat) : String :=
  let counted :=
    match digits with
    | some n => String.join [": value has ", toString n, " digits"]
    | none => ""
  String.join
    ["Exceeds the limit (", toString limit, " digits) for integer string conversion", counted,
      "; use sys.set_int_max_str_digits() to increase the limit"]

/-! ## Reading -/

/-- Why a text is not read as a number. -/
inductive Misreading where
  /-- It is no numeral. -/
  | malformed
  /-- It starts with more digits than are turned into a number. What is behind them has not been
  looked at. -/
  | tooLong (digits : Nat)
  deriving Repr, DecidableEq

/-- Reads an unsigned numeral, which starts with a digit. The digits are counted before it is known
whether they are all there is. -/
def readNatural (limit : Option Nat) (cs : List Char) : Except Misreading Nat :=
  if cs.head? = some '_' then .error .malformed
  else
    match takeDigits cs with
    | none => .error .malformed
    | some (ds, rest) =>
      if beyond limit ds.length then .error (.tooLong ds.length)
      else if ds.isEmpty || !rest.isEmpty then .error .malformed
      else .ok (ds.foldl (10 * · + ·) 0)

/-- The text without the blanks on either side. -/
def trimMargins (cs : List Char) : List Char :=
  ((cs.dropWhile isMargin).reverse.dropWhile isMargin).reverse

/-- The whole number that a text spells. -/
def readInteger (text : String) (limit : Option Nat := some maxDigits) : Except Misreading Int :=
  match trimMargins text.toList with
  | '-' :: cs => (readNatural limit cs).map fun n => -(n : Int)
  | '+' :: cs => (readNatural limit cs).map Int.ofNat
  | cs => (readNatural limit cs).map Int.ofNat

end Jack.Text
