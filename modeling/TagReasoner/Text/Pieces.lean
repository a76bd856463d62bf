import TagReasoner.Text.Blank

/-!
# Cutting a text and putting it together

A text is cut at a separator into the pieces between its occurrences, of which there is always one
more than separators, and put together again with `join`. Lines end at a line feed, a carriage
return, or the two together; the last line may go without an end.
-/

namespace TagReasoner
namespace Text

/-- The pieces with a separator between any two. -/
def join (sep : Text) : List Text → Text
  | [] => []
  | [p] => p
  | p :: q :: ps => p ++ sep ++ join sep (q :: ps)

/-- Puts a character in front of the first piece. -/
def consPiece (c : Char) : List Text → List Text
  | [] => [[c]]
  | p :: ps => (c :: p) :: ps

/-- The pieces between the occurrences of one character. -/
def splitOn (sep : Char) : Text → List Text
  | [] => [[]]
  | c :: r => if c = sep then [] :: splitOn sep r else consPiece c (splitOn sep r)

/-- Cuts at the occurrences of `sep`, the first `skip` characters being dropped unread. -/
def splitOnTextFrom (sep : Text) : Nat → Text → List Text
  | _, [] => [[]]
  | skip + 1, _ :: r => splitOnTextFrom sep skip r
  | 0, c :: r =>
    if sep.isPrefixOf (c :: r) then [] :: splitOnTextFrom sep (sep.length - 1) r
    else consPiece c (splitOnTextFrom sep 0 r)

/-- The pieces between the occurrences of a text, found from the left and without overlap. An
empty separator cuts nothing out and has no pieces. -/
def splitOnText? (sep t : Text) : Option (List Text) :=
  if sep.isEmpty then none else some (splitOnTextFrom sep 0 t)

/-- The lines of a text without their ends. -/
def lines : Text → List Text
  | [] => []
  | '\r' :: '\n' :: r => [] :: lines r
  | c :: r => if c = '\n' || c = '\r' then [] :: lines r else consPiece c (lines r)

/-- The text with a line feed in place of every line end. -/
def unifyLineEnds : Text → Text
  | [] => []
  | '\r' :: '\n' :: r => '\n' :: unifyLineEnds r
  | c :: r => (if c = '\r' then '\n' else c) :: unifyLineEnds r

theorem splitOn_ne_nil (sep : Char) (t : Text) : splitOn sep t ≠ [] := by
  induction t with
  | nil => simp [splitOn]
  | cons c r ih =>
    rw [splitOn]
    split
    · simp
    · cases h : splitOn sep r <;> simp [consPiece]

/-- Nothing is lost by cutting: the pieces joined by the separator are the text. -/
theorem join_splitOn (sep : Char) (t : Text) : join [sep] (splitOn sep t) = t := by
  induction t with
  | nil => rfl
  | cons c r ih =>
    rw [splitOn]
    split
    next h =>
      obtain ⟨p, ps, hp⟩ := List.exists_cons_of_ne_nil (splitOn_ne_nil sep r)
      rw [hp] at ih ⊢
      simp [join, ih, h]
    next h =>
      cases hp : splitOn sep r with
      | nil => exact absurd hp (splitOn_ne_nil sep r)
      | cons p ps =>
        rw [hp] at ih
        cases ps <;> simp_all [consPiece, join]

end Text
end TagReasoner
