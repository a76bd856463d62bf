import TagReasoner.Text.Blank

/-!
# Text from bytes

Characters are encoded in one to four bytes, of which the first tells how many there are. The second
one has a range that depends on the first, so that each character has one encoding only and no
surrogate has any. `decode` reads as far as the bytes make sense and says how they end.
-/

namespace TagReasoner
namespace Text

/-- A character of which some bytes are missing: how many, the range of the next one, and the value
of those that have been seen. -/
structure OpenChar where
  left : Nat
  low : Nat
  high : Nat
  value : Nat

/-- The character that a first byte opens, if it is a first byte of several. -/
def openChar? (b : Nat) : Option OpenChar :=
  if 0xC2 ≤ b && b ≤ 0xDF then some ⟨1, 0x80, 0xBF, b - 0xC0⟩
  else if b = 0xE0 then some ⟨2, 0xA0, 0xBF, 0⟩
  else if b = 0xED then some ⟨2, 0x80, 0x9F, b - 0xE0⟩
  else if 0xE1 ≤ b && b ≤ 0xEF then some ⟨2, 0x80, 0xBF, b - 0xE0⟩
  else if b = 0xF0 then some ⟨3, 0x90, 0xBF, 0⟩
  else if b = 0xF4 then some ⟨3, 0x80, 0x8F, b - 0xF0⟩
  else if 0xF1 ≤ b && b ≤ 0xF3 then some ⟨3, 0x80, 0xBF, b - 0xF0⟩
  else none

/-- How bytes end. -/
inductive BytesEnd where
  /-- With a whole character. -/
  | whole
  /-- In the middle of a character. -/
  | cut
  /-- Before a byte, given by its place, that cannot stand there. -/
  | wrong (place : Nat)
  deriving DecidableEq

/-- The text that bytes encode, given the text before them in reverse, the place of the first byte,
and the character that is open. -/
def decodeFrom : Text → Nat → Option OpenChar → List UInt8 → Text × BytesEnd
  | found, _, none, [] => (found.reverse, .whole)
  | found, _, some _, [] => (found.reverse, .cut)
  | found, n, none, b :: r =>
    if b.toNat < 0x80 then decodeFrom (Char.ofNat b.toNat :: found) (n + 1) none r
    else
      match openChar? b.toNat with
      | some o => decodeFrom found (n + 1) (some o) r
      | none => (found.reverse, .wrong n)
  | found, n, some o, b :: r =>
    if o.low ≤ b.toNat && b.toNat ≤ o.high then
      let value := o.value * 64 + (b.toNat - 0x80)
      if o.left ≤ 1 then decodeFrom (Char.ofNat value :: found) (n + 1) none r
      else decodeFrom found (n + 1) (some ⟨o.left - 1, 0x80, 0xBF, value⟩) r
    else (found.reverse, .wrong n)

/-- The text that bytes encode, up to where they stop to make sense. -/
def decode (bytes : List UInt8) : Text × BytesEnd := decodeFrom [] 0 none bytes

end Text
end TagReasoner
