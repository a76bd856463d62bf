import TagReasoner.Error

/-!
# Notices

What an operation tells whoever watches the reasoner, apart from its result. A notice is an event
with its numbers; the wording and the level are decided here.
-/

namespace TagReasoner

/-- An event worth telling. -/
inductive Notice where
  /-- A run has ended. -/
  | thought (cycles derived recommended : Nat)
  /-- A run was cut off by the cycle cap while it still derived tags. -/
  | cutOff (cycles : Nat)
  /-- Composition passes have been made. -/
  | rested (passes : Int) (made : Nat)
  /-- Nodes were loaded from a data file. -/
  | loaded (nodes : Nat) (path : Text)
  /-- A record of a data file was left out. -/
  | skipped (record : ParseError)
  deriving DecidableEq

namespace Notice

/-- A notice about something gone wrong. -/
def isWarning : Notice → Bool
  | cutOff _ | skipped _ => true
  | _ => false

/-- The wording of a notice. -/
def message : Notice → Text
  | thought cycles derived recommended =>
    "Thought for ".toList ++ Text.ofNat cycles ++ " cycle(s): ".toList ++ Text.ofNat derived ++
      " tag(s) derived, ".toList ++ Text.ofNat recommended ++ " recommendation(s)".toList
  | cutOff cycles =>
    "Stopped thinking after ".toList ++ Text.ofNat cycles ++
      " cycles without reaching quiescence".toList
  | rested passes made =>
    "Rested for ".toList ++ Text.ofInt passes ++ " pass(es): ".toList ++ Text.ofNat made ++
      " new rule(s)".toList
  | loaded nodes path =>
    "Loaded ".toList ++ Text.ofNat nodes ++ " knowledge node(s) from ".toList ++ path
  | skipped record => "Skipping malformed record ".toList ++ record.message

end Notice

/-- The outcome of an operation: the state it leaves, what it told, and its result. -/
structure Outcome (σ α : Type) where
  state : σ
  notices : List Notice
  result : Except Fault α

end TagReasoner
