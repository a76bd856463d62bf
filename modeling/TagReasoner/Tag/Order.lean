import TagReasoner.Tag.Basic
import TagReasoner.Text.CodePoint

/-!
# The order of tags

A set of tags becomes the side of a rule in a fixed order: by the name of the kind, then by text,
characters compared by their code points. The sort is stable.
-/

namespace TagReasoner

/-- The first text comes before the second or is the same, by code points. -/
def Text.atMost : Text → Text → Bool
  | [], _ => true
  | _ :: _, [] => false
  | c :: s, d :: t => codePoint c < codePoint d || (c == d && Text.atMost s t)

namespace Tag

/-- The first tag may stand before the second. -/
def atMost (t u : Tag) : Bool :=
  if t.kindName = u.kindName then Text.atMost t.text u.text else Text.atMost t.kindName u.kindName

/-- The tags in order, those of one kind and text as they stood. -/
def sorted (ts : List Tag) : List Tag := ts.mergeSort atMost

/-- Sorting moves tags and keeps them all. -/
theorem sorted_perm (ts : List Tag) : (sorted ts).Perm ts := List.mergeSort_perm ts atMost

end Tag
end TagReasoner
