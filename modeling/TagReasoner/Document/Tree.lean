import TagReasoner.Document.Layout

/-!
# The tree of a document

The tokens of a document are put together into a tree of lists and maps with scalars as leaves. What
is missing behind the mark of an item, a key or a value is an empty scalar.

* A block list is a sequence of items. As the value of an entry it need not be indented, and then
  ends before anything but an item.
* The entries of a block map have a key each and may have a value.
* In a flow there are commas between the parts, of which the last may be followed by one too. A key
  in a flow list stands for a map with a single entry; a part of a flow map without a key mark is an
  entry without a value.

A text holds at most one document. Every reader takes a bound on its depth; `Tree.ofTokens` gives
one that the number of tokens does not let it reach.
-/

namespace TagReasoner

/-- A document whose scalars have not been read. -/
inductive Tree where
  | leaf (plain : Bool) (text : Text)
  | list (items : List Tree)
  | map (entries : List (Tree × Tree))

namespace Tree

/-- A missing scalar. -/
def empty : Tree := leaf true []

/-- A reader takes tokens from the front of some and returns the others. -/
abbrev Reader (α : Type) := List Token → Except Fault (α × List Token)

/-- The fault where the grammar has no use for the next token. -/
def refuse : Reader α
  | .stop f :: _ => .error f
  | _ => .error .brokenDocument

/-- Is one of some tokens next? -/
def isNext (choices : List Token) : List Token → Bool
  | [] => false
  | t :: _ => choices.contains t

/-- Reads with `read` unless one of some tokens is next, which leaves an empty scalar. -/
def unlessNext (choices : List Token) (read : Reader Tree) : Reader Tree := fun ts =>
  if isNext choices ts then .ok (empty, ts) else read ts

mutual

/-- A node. Blocks are let in if `block`, and lists without indentation if `loose`. -/
def node (block loose : Bool) : Nat → Reader Tree
  | 0, ts => refuse ts
  | fuel + 1, ts =>
    match ts with
    | .scalar plain text :: r => .ok (leaf plain text, r)
    | .flowList :: r => do
      let (items, r) ← flowItems fuel true r
      return (list items, r)
    | .flowMap :: r => do
      let (entries, r) ← flowEntries fuel true r
      return (map entries, r)
    | .item :: _ => do
      let (items, r) ← if loose then looseItems fuel ts else refuse ts
      return (list items, r)
    | .blockList :: r => do
      let (items, r) ← if block then blockItems fuel r else refuse ts
      return (list items, r)
    | .blockMap :: r => do
      let (entries, r) ← if block then blockEntries fuel r else refuse ts
      return (map entries, r)
    | _ => refuse ts

/-- The items of a block list. -/
def blockItems : Nat → Reader (List Tree)
  | 0, ts => refuse ts
  | fuel + 1, ts =>
    match ts with
    | .blockEnd :: r => .ok ([], r)
    | .item :: r => do
      let (item, r) ← unlessNext [.item, .blockEnd] (node true false fuel) r
      let (items, r) ← blockItems fuel r
      return (item :: items, r)
    | _ => refuse ts

/-- The items of a list without indentation. -/
def looseItems : Nat → Reader (List Tree)
  | 0, ts => refuse ts
  | fuel + 1, ts =>
    match ts with
    | .item :: r => do
      let (item, r) ← unlessNext [.item, .key, .value, .blockEnd] (node true false fuel) r
      let (items, r) ← looseItems fuel r
      return (item :: items, r)
    | _ => .ok ([], ts)

/-- The entries of a block map. -/
def blockEntries : Nat → Reader (List (Tree × Tree))
  | 0, ts => refuse ts
  | fuel + 1, ts =>
    match ts with
    | .blockEnd :: r => .ok ([], r)
    | .key :: r => do
      let (key, r) ← unlessNext [.key, .value, .blockEnd] (node true true fuel) r
      let (value, r) ← blockValue fuel r
      let (entries, r) ← blockEntries fuel r
      return ((key, value) :: entries, r)
    | _ => refuse ts

/-- The value of an entry of a block map, if there is one. -/
def blockValue : Nat → Reader Tree
  | 0, ts => refuse ts
  | fuel + 1, ts =>
    match ts with
    | .value :: r => unlessNext [.key, .value, .blockEnd] (node true true fuel) r
    | _ => .ok (empty, ts)

/-- The items of a flow list, behind its mark if `first`, else behind an item. -/
def flowItems : Nat → Bool → Reader (List Tree)
  | 0, _, ts => refuse ts
  | fuel + 1, first, ts =>
    match first, ts with
    | _, .flowListEnd :: r => .ok ([], r)
    | false, .comma :: .flowListEnd :: r => .ok ([], r)
    | false, .comma :: r => flowItemThen fuel r
    | true, r => flowItemThen fuel r
    | false, r => refuse r

/-- An item of a flow list and those behind it. -/
def flowItemThen : Nat → Reader (List Tree)
  | 0, ts => refuse ts
  | fuel + 1, ts => do
    let (item, r) ← match ts with
      | .key :: r => do
        let (key, r) ← unlessNext [.value, .comma, .flowListEnd] (node false false fuel) r
        let (value, r) ← flowValue .flowListEnd fuel r
        pure (map [(key, value)], r)
      | _ => node false false fuel ts
    let (items, r) ← flowItems fuel false r
    return (item :: items, r)

/-- The entries of a flow map, behind its mark if `first`, else behind an entry. -/
def flowEntries : Nat → Bool → Reader (List (Tree × Tree))
  | 0, _, ts => refuse ts
  | fuel + 1, first, ts =>
    match first, ts with
    | _, .flowMapEnd :: r => .ok ([], r)
    | false, .comma :: .flowMapEnd :: r => .ok ([], r)
    | false, .comma :: r => flowEntryThen fuel r
    | true, r => flowEntryThen fuel r
    | false, r => refuse r

/-- An entry of a flow map and those behind it. -/
def flowEntryThen : Nat → Reader (List (Tree × Tree))
  | 0, ts => refuse ts
  | fuel + 1, ts => do
    let (entry, r) ← match ts with
      | .key :: r => do
        let (key, r) ← unlessNext [.value, .comma, .flowMapEnd] (node false false fuel) r
        let (value, r) ← flowValue .flowMapEnd fuel r
        pure ((key, value), r)
      | _ => do
        let (key, r) ← node false false fuel ts
        pure ((key, empty), r)
    let (entries, r) ← flowEntries fuel false r
    return (entry :: entries, r)

/-- The value of an entry in a flow, which `closing` ends, if there is one. -/
def flowValue (closing : Token) : Nat → Reader Tree
  | 0, ts => refuse ts
  | fuel + 1, ts =>
    match ts with
    | .value :: r => unlessNext [.comma, closing] (node false false fuel) r
    | _ => .ok (empty, ts)

end

/-- Only marks behind the document may follow it. -/
def alone (tree : Tree) : List Token → Except Fault Tree
  | [] => .ok tree
  | .documentEnd :: ts => alone tree ts
  | .stop f :: _ => .error f
  | _ => .error .brokenDocument

/-- The document of a text with these tokens, if it holds one. -/
def ofTokens (ts : List Token) : Except Fault (Option Tree) :=
  let content := node true false (4 * ts.length + 4)
  match ts with
  | [] => .ok none
  | [.documentStart] => .ok (some empty)
  | .documentStart :: ts => do
    let (tree, r) ← unlessNext [.documentStart, .documentEnd] content ts
    return some (← alone tree r)
  | ts => do
    let (tree, r) ← content ts
    return some (← alone tree r)

end Tree
end TagReasoner
