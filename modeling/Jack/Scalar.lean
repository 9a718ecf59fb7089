import Jack.Text.Quoted

/-!
# Scalar values

Operands of a requested instruction and names of storages may arrive as any plain value, not only
as text. A value that is refused is shown in the message that refuses it: text is shown quoted
where its ends matter (`Scalar.display`) and bare where a message supplies its own quotes
(`Scalar.plain`).
-/

namespace Jack

/-- A plain value: nothing, a truth value, a whole number, a decimal fraction or a text. -/
inductive Scalar where
  | absent
  | truth (b : Bool)
  | integer (n : Int)
  /-- The number `mantissa / 10 ^ places`. -/
  | decimal (mantissa : Int) (places : Nat)
  | text (s : String)
  deriving Repr, DecidableEq

namespace Scalar

/-- Drops zeros at the end of a fraction, keeping one digit. -/
def trimFraction (digits : List Char) : List Char :=
  match (digits.reverse.dropWhile (· == '0')).reverse with
  | [] => ['0']
  | ds => ds

/-- A decimal fraction in positional form, with at least one digit on each side of the point. -/
def decimalText (mantissa : Int) (places : Nat) : String :=
  let digits := Nat.toDigits 10 mantissa.natAbs
  let padded := List.replicate (places + 1 - digits.length) '0' ++ digits
  let whole := padded.take (padded.length - places)
  let fraction := trimFraction (padded.drop (padded.length - places))
  let sign := if mantissa < 0 then ['-'] else []
  String.ofList (sign ++ whole ++ '.' :: fraction)

/-- The value as it is shown when a message puts its own quotes around it. -/
def plain : Scalar → String
  | absent => "None"
  | truth true => "True"
  | truth false => "False"
  | integer n => toString n
  | decimal m p => decimalText m p
  | text s => s

/-- The value as it is shown bare in a message: a text stands between quotes. -/
def display : Scalar → String
  | text s => Text.quoted s
  | v => v.plain

end Scalar

end Jack
