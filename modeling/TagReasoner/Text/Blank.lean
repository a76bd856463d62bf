/-!
# Text and white space

A text is a list of characters, so that parsers recurse on it directly and laws about it are
laws about lists. This module fixes which characters count as white space and how a text is
trimmed. Trimming removes blanks at the ends only (`strip_eq_nil_iff`).
-/

namespace TagReasoner

/-- A text is a list of characters. -/
abbrev Text := List Char

namespace Text

/-- White space: the ASCII blanks and separators, and the spaces and line separators of the
wider character set. Zero-width characters are not blank. -/
def isBlank (c : Char) : Bool :=
  let n := c.toNat
  (0x09 ≤ n && n ≤ 0x0D) || (0x1C ≤ n && n ≤ 0x20) || n == 0x85 || n == 0xA0 || n == 0x1680 ||
    (0x2000 ≤ n && n ≤ 0x200A) || n == 0x2028 || n == 0x2029 || n == 0x202F || n == 0x205F ||
    n == 0x3000

/-- The text without the blanks it starts with. -/
def stripStart (t : Text) : Text := t.dropWhile isBlank

/-- The text without the blanks it ends with. -/
def stripEnd (t : Text) : Text := (t.reverse.dropWhile isBlank).reverse

/-- The text without the blanks at either end. -/
def strip (t : Text) : Text := stripEnd (stripStart t)

/-- Every character is blank; true of the empty text. -/
def allBlank (t : Text) : Bool := t.all isBlank

@[simp] theorem stripStart_nil : stripStart [] = [] := rfl

@[simp] theorem stripEnd_nil : stripEnd [] = [] := rfl

theorem stripStart_cons (c : Char) (t : Text) :
    stripStart (c :: t) = if isBlank c then stripStart t else c :: t := by
  simp [stripStart, List.dropWhile_cons]

theorem stripStart_eq_nil_iff (t : Text) : stripStart t = [] ↔ allBlank t = true := by
  induction t with
  | nil => simp [allBlank]
  | cons c t ih => by_cases h : isBlank c <;> simp_all [stripStart_cons, allBlank]

theorem stripEnd_eq_nil_iff (t : Text) : stripEnd t = [] ↔ allBlank t = true := by
  rw [stripEnd, List.reverse_eq_nil_iff, allBlank, ← List.all_reverse]
  exact stripStart_eq_nil_iff t.reverse

/-- What is left after trimming the start begins with no blank. -/
theorem isBlank_of_stripStart_eq_cons {t r : Text} {c : Char} (h : stripStart t = c :: r) :
    isBlank c = false := by
  induction t with
  | nil => simp at h
  | cons d t ih =>
    by_cases hd : isBlank d
    · exact ih (by simpa [stripStart_cons, hd] using h)
    · simp only [stripStart_cons, hd] at h
      obtain ⟨rfl, -⟩ := List.cons.inj (by simpa using h)
      simpa using hd

theorem strip_eq_nil_iff (t : Text) : strip t = [] ↔ allBlank t = true := by
  rw [strip, stripEnd_eq_nil_iff, ← stripStart_eq_nil_iff t]
  cases h : stripStart t with
  | nil => simp [allBlank]
  | cons c r => simp [allBlank, isBlank_of_stripStart_eq_cons h]

end Text
end TagReasoner
