import TagReasoner.Binary64.Basic
import TagReasoner.Text.Blank

/-!
# Settings

The settings of the reasoner and their defaults. The three bounds on loops are positive.
-/

namespace TagReasoner

/-- The settings of the reasoner. -/
structure Settings where
  /-- The most cycles of a run without a limit. -/
  thinkCycleCap : Nat := 10000
  /-- Composition passes of a rest without a number. -/
  restCycles : Nat := 1
  /-- Seconds after creation before a node may be evicted. -/
  nodeMaxAge : Binary64 := Binary64.ofNat 60
  /-- The strength of new nodes. -/
  nodeStrength : Int := 1
  /-- Outputs weighted below this are not activated. -/
  outputWeightCutoff : Binary64 := .zero false
  /-- The depth of a breadth-first search without one. -/
  searchPly : Nat := 10
  /-- What separates the tokens of a record. -/
  recordDelimiter : Text := [';']
  logLevel : Text := "INFO".toList
  cap_pos : 0 < thinkCycleCap := by decide
  rest_pos : 0 < restCycles := by decide
  ply_pos : 0 < searchPly := by decide

/-- The settings where nothing is configured. -/
def Settings.standard : Settings := {}

end TagReasoner
