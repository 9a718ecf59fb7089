import Jack.Text.Printable

/-!
# Quoted display of a text

How a piece of text is shown inside a message so that its ends and its invisible characters can be
seen: between quotes, with the backslash, the quote itself and every unprintable character written
as an escape. Apostrophes serve as quotes, unless the text holds an apostrophe and no quotation
mark.
-/

namespace Jack.Text

/-- The lower-case hexadecimal digits of `n`, filled with zeros up to `width`. -/
def hexDigits (width n : Nat) : List Char :=
  let digits := Nat.toDigits 16 n
  List.replicate (width - digits.length) '0' ++ digits

/-- The quotation character chosen for a text. -/
def quoteFor (cs : List Char) : Char :=
  if cs.contains '\'' && !cs.contains '"' then '"' else '\''

/-- One character of quoted text: two, four or eight hexadecimal digits name an unprintable one,
whichever is the least that suffices. -/
def escapeChar (quote c : Char) : List Char :=
  if c = quote ∨ c = '\\' then ['\\', c]
  else if c = '\t' then ['\\', 't']
  else if c = '\n' then ['\\', 'n']
  else if c = '\r' then ['\\', 'r']
  else if isPrintable c then [c]
  else if c.toNat < 0x100 then '\\' :: 'x' :: hexDigits 2 c.toNat
  else if c.toNat < 0x10000 then '\\' :: 'u' :: hexDigits 4 c.toNat
  else '\\' :: 'U' :: hexDigits 8 c.toNat

/-- A text between quotes. -/
def quoted (text : String) : String :=
  let cs := text.toList
  let q := quoteFor cs
  String.ofList (q :: cs.flatMap (escapeChar q) ++ [q])

end Jack.Text
