import TagReasoner.Text.Blank

/-!
# Code points

An escape may name a surrogate, which is a code point but no character. A text holds it by its
stand-in, a private character whose code ends in the same four hexadecimal digits. `codePoint` sees
through stand-ins (`codePoint_ofCodePoint_of_isSurrogate`). The 2048 private characters from
`U+FD800` to `U+FDFFF` are given up for this: a text that holds one of them is not told from the text
with the surrogate, and is displayed and sorted as that.
-/

namespace TagReasoner
namespace Text

/-- Is the code point half of a surrogate pair? -/
def isSurrogate (n : Nat) : Bool := 0xD800 ≤ n && n < 0xE000

/-- How far the stand-ins are from the surrogates. -/
def standInDistance : Nat := 0xF0000

/-- The character of a code point, or its stand-in. -/
def ofCodePoint (n : Nat) : Char :=
  if isSurrogate n then Char.ofNat (standInDistance + n) else Char.ofNat n

/-- The code point that a character is or stands in for. A private character from `U+FD800` to
`U+FDFFF` always counts as the surrogate, so it comes where that does in the order of code points. -/
def codePoint (c : Char) : Nat :=
  if isSurrogate (c.toNat - standInDistance) then c.toNat - standInDistance else c.toNat

theorem codePoint_ofCodePoint_of_isSurrogate {n : Nat} (h : isSurrogate n = true) :
    codePoint (ofCodePoint n) = n := by
  have hn : 0xD800 ≤ n ∧ n < 0xE000 := by simpa [isSurrogate] using h
  have hv : Nat.isValidChar (standInDistance + n) := by
    simp only [Nat.isValidChar, standInDistance]
    omega
  have hc : (Char.ofNat (standInDistance + n)).toNat = standInDistance + n := by
    rw [Char.ofNat, dif_pos hv]
    rfl
  simp only [codePoint, ofCodePoint, h, if_true, hc, Nat.add_sub_cancel_left]

end Text
end TagReasoner
