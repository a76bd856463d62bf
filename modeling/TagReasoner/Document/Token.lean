import TagReasoner.Error

/-!
# Tokens of documents

A document text is a sequence of tokens. Most of them are marks that are written; the others tell
where indentation opens or closes a list or a map, and where a key stands that no mark announces.
-/

namespace TagReasoner

/-- A token of a document. -/
inductive Token where
  /-- A scalar. A plain one has no quotes. -/
  | scalar (plain : Bool) (text : Text)
  /-- The mark in front of a document. -/
  | documentStart
  /-- The mark behind a document. -/
  | documentEnd
  /-- A list or a map begins with this indentation. -/
  | blockList
  | blockMap
  /-- A list or a map ends with the indentation that follows. -/
  | blockEnd
  /-- The mark of an item. -/
  | item
  /-- The key of an entry is next. -/
  | key
  /-- The mark in front of the value of an entry. -/
  | value
  | flowList
  | flowListEnd
  | flowMap
  | flowMapEnd
  /-- The mark between two items or entries in a flow. -/
  | comma
  /-- No more tokens can be told, for a fault. -/
  | stop (fault : Fault)
  deriving DecidableEq

end TagReasoner
