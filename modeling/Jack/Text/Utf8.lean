/-!
# Strict UTF-8

Reading bytes as text, and saying exactly where and why that fails. A fault names the first byte of
the sequence that cannot be read and the length of the part of that sequence that was still good.
-/

namespace Jack.Text.Utf8

/-- Why a byte sequence is not UTF-8. -/
inductive Reason where
  /-- The byte starts no sequence. -/
  | badStart
  /-- A byte inside a sequence does not continue it. -/
  | badContinuation
  /-- The data end inside a sequence. -/
  | truncated
  deriving Repr, DecidableEq

/-- A place where reading failed: the offset of the offending sequence, its first byte, and how many
bytes of it were read before the failure showed. -/
structure Fault where
  offset : Nat
  byte : UInt8
  span : Nat
  reason : Reason
  deriving Repr, DecidableEq

/-- What the first byte of a sequence announces: its share of the code point, the number of bytes to
follow, and the range of the byte right after it. The range shuts out overlong forms, surrogates and
code points past the last one. -/
structure Lead where
  bits : Nat
  more : Nat
  low : Nat
  high : Nat
  deriving Repr, DecidableEq

/-- The announcement made by a byte, if it can start a sequence. -/
def lead? (b : UInt8) : Option Lead :=
  let n := b.toNat
  if n < 0x80 then some ⟨n, 0, 0x80, 0xBF⟩
  else if n < 0xC2 then none
  else if n < 0xE0 then some ⟨n - 0xC0, 1, 0x80, 0xBF⟩
  else if n = 0xE0 then some ⟨0, 2, 0xA0, 0xBF⟩
  else if n = 0xED then some ⟨0x0D, 2, 0x80, 0x9F⟩
  else if n < 0xF0 then some ⟨n - 0xE0, 2, 0x80, 0xBF⟩
  else if n = 0xF0 then some ⟨0, 3, 0x90, 0xBF⟩
  else if n < 0xF4 then some ⟨n - 0xF0, 3, 0x80, 0xBF⟩
  else if n = 0xF4 then some ⟨4, 3, 0x80, 0x8F⟩
  else none

/-- Reads `more` continuation bytes onto `value`, the first of them between `low` and `high`; `used`
counts the bytes of the sequence so far. -/
def readTail : (more low high value used : Nat) → List UInt8 →
    Except (Nat × Reason) (Nat × Nat × List UInt8)
  | 0, _, _, value, used, bs => .ok (value, used, bs)
  | _ + 1, _, _, _, used, [] => .error (used, .truncated)
  | more + 1, low, high, value, used, b :: bs =>
    if low ≤ b.toNat ∧ b.toNat ≤ high then
      readTail more 0x80 0xBF (value * 64 + b.toNat % 64) (used + 1) bs
    else .error (used, .badContinuation)

/-- Reading the rest of a sequence leaves no more bytes than there were. -/
theorem readTail_length_le {more low high value used : Nat} {bs rest : List UInt8} {v u : Nat}
    (h : readTail more low high value used bs = .ok (v, u, rest)) : rest.length ≤ bs.length := by
  induction more generalizing low high value used bs with
  | zero =>
    simp only [readTail, Except.ok.injEq, Prod.mk.injEq] at h
    exact Nat.le_of_eq (congrArg List.length h.2.2.symm)
  | succ more ih =>
    cases bs with
    | nil => simp [readTail] at h
    | cons b bs =>
      simp only [readTail] at h
      split at h
      · exact Nat.le_succ_of_le (ih h)
      · simp at h

/-- Reads the bytes from `offset` on. -/
def decodeFrom (offset : Nat) : List UInt8 → Except Fault (List Char)
  | [] => .ok []
  | b :: bs =>
    match lead? b with
    | none => .error ⟨offset, b, 1, .badStart⟩
    | some l =>
      match _h : readTail l.more l.low l.high l.bits 1 bs with
      | .error (used, reason) => .error ⟨offset, b, used, reason⟩
      | .ok (value, used, rest) =>
        (decodeFrom (offset + used) rest).map (Char.ofNat value :: ·)
  termination_by bs => bs.length
  decreasing_by
    have := readTail_length_le _h
    simp only [List.length_cons]
    omega

/-- The text that the bytes spell, or the first place where they spell none. -/
def decode (bs : List UInt8) : Except Fault (List Char) :=
  decodeFrom 0 bs

/-- The bytes of a text. -/
def encode (text : String) : List UInt8 :=
  text.toList.flatMap String.utf8EncodeChar

end Jack.Text.Utf8
