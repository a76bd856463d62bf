import TagReasoner.Document.Tree

/-!
# Reading documents

A document text is read by way of its tokens and its tree. Entries under the merge mark are replaced
by those of the maps that they hold; these come first, and the map's own entries win, as later
entries do. A list or a map is no key.

All scalars are read. Of several faults the one that is least deep counts, and of those the first.
-/

namespace TagReasoner
namespace Tree

/-! ## Merging -/

/-- A scalar with a meaning of its own as a key. -/
def isMark (mark : Text) : Tree → Bool
  | leaf true t => t = mark
  | _ => false

/-- The entries of a map. -/
def entries? : Tree → Option (List (Tree × Tree))
  | map entries => some entries
  | _ => none

/-- The entries of what stands under a merge mark: of a map, or of the maps in a list, the last
first. -/
def mergeable? : Tree → Option (List (Tree × Tree))
  | list items => (items.reverse.mapM entries?).map List.flatten
  | t => t.entries?

/-- The mark of a default stands for itself as a key. -/
def plainKey (key : Tree) : Tree :=
  if key.isMark Scalar.defaultMark then leaf false Scalar.defaultMark else key

/-- The entries of a map with the maps under its merge marks put in. A mark that holds no maps stays
as the only entry. -/
def mergedEntries (entries : List (Tree × Tree)) : List (Tree × Tree) :=
  let (marks, own) := entries.partition fun e => e.1.isMark Scalar.mergeMark
  let found := marks.flatMap fun e => (mergeable? e.2).getD [e]
  let own := own.map fun e => (plainKey e.1, e.2)
  match found.find? fun e => e.1.isMark Scalar.mergeMark with
  | some e => [e]
  | none => found ++ own

mutual

/-- The tree with all merge marks carried out. -/
def merged : Tree → Tree
  | leaf plain t => leaf plain t
  | list items => list (mergedItems items)
  | map entries => map (mergedEntries (mergedParts entries))

/-- The items of a list with the merge marks in them carried out. -/
def mergedItems : List Tree → List Tree
  | [] => []
  | t :: ts => merged t :: mergedItems ts

/-- The entries of a map with the merge marks in them carried out. -/
def mergedParts : List (Tree × Tree) → List (Tree × Tree)
  | [] => []
  | (k, v) :: es => (merged k, merged v) :: mergedParts es

end

/-! ## Values -/

/-- A value, or a fault with its depth. -/
abbrev Found (α : Type) := Except (Nat × Fault) α

/-- Both values; of two faults the second counts if it is less deep. -/
def both (a : Found α) (b : Found β) : Found (α × β) :=
  match a, b with
  | .ok x, .ok y => .ok (x, y)
  | .ok _, .error e => .error e
  | .error e, .ok _ => .error e
  | .error e, .error f => .error (if f.1 < e.1 then f else e)

/-- The value of a scalar. -/
def scalar (depth : Nat) (plain : Bool) (t : Text) : Found Document :=
  if plain then (Scalar.read t).mapError fun f => (depth, f) else .ok (.text t)

/-- The value of a key, which is a scalar. -/
def key (depth : Nat) : Tree → Found Document
  | leaf plain t => scalar depth plain t
  | _ => .error (depth, .brokenDocument)

mutual

/-- The value of a tree at a depth. -/
def read (depth : Nat) : Tree → Found Document
  | leaf plain t => scalar depth plain t
  | list items => (readItems (depth + 1) items).map .list
  | map entries =>
    (readEntries (depth + 1) entries).map fun es =>
      .map (es.foldl (fun found e => Document.putEntry e.1 e.2 found) [])

/-- The values of items. -/
def readItems (depth : Nat) : List Tree → Found (List Document)
  | [] => .ok []
  | t :: ts => (both (read depth t) (readItems depth ts)).map fun (d, ds) => d :: ds

/-- The values of entries. -/
def readEntries (depth : Nat) : List (Tree × Tree) → Found (List (Document × Document))
  | [] => .ok []
  | (k, v) :: es =>
    (both (both (key depth k) (read depth v)) (readEntries depth es)).map fun (e, es) => e :: es

end

/-- The document of a tree. -/
def value (t : Tree) : Except Fault Document := (t.merged.read 0).mapError (·.2)

end Tree

/-- The document of a text, which may be broken off. An empty text holds nothing. -/
def Document.read (brokenOff : Bool) (t : Text) : Except Fault Document := do
  match ← Tree.ofTokens (Token.ofText brokenOff t) with
  | none => return .null
  | some tree => tree.value

end TagReasoner
