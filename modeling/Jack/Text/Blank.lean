/-!
# Blank characters

The characters that count as space inside a name. The set is that of Unicode's separators and
the control characters that move the print position; a name that holds one of them would fall
apart when an instruction line is read back word by word.
-/

namespace Jack.Text

/-- Spaces, tabs, line and paragraph separators, in every script. -/
def isBlank (c : Char) : Bool :=
  let n := c.toNat
  (0x09 ≤ n && n ≤ 0x0D) || (0x1C ≤ n && n ≤ 0x20) || n == 0x85 || n == 0xA0 || n == 0x1680
    || (0x2000 ≤ n && n ≤ 0x200A) || n == 0x2028 || n == 0x2029 || n == 0x202F || n == 0x205F
    || n == 0x3000

end Jack.Text
