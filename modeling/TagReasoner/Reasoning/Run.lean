import TagReasoner.Notice
import TagReasoner.Reasoning.Cycle
import TagReasoner.Tag.Order

/-!
# Runs

A run repeats cycles until one derives nothing, which is quiescence, or until a number of cycles is
reached. Without a number from the caller the cycle cap of the reasoner ends the run.

Afterwards a run may be summed up by its *proven rule*, which leads from the facts at its start to
everything that it derived, and so replays it in one step.
-/

namespace TagReasoner

/-- A run in its course. -/
structure Run where
  memory : Memory
  /-- The tags derived so far. -/
  derived : WorkingSet Tag
  /-- The number of cycles made. -/
  cycles : Nat
  /-- The last cycle derived something. -/
  productive : Bool
  /-- The kind of the value at which a cycle stopped, if one did. -/
  refused : Option Text

namespace Run

/-- Before the first cycle. -/
def start (m : Memory) : Run := ⟨m, .empty, 0, false, none⟩

/-- Makes at most `limit` more cycles. -/
def extend (e : Enumeration) : Nat → Run → Run
  | 0, run => run
  | limit + 1, run =>
    let cycle := run.memory.cycle e
    if cycle.refused.isSome then { run with memory := cycle.memory, refused := cycle.refused }
    else
      let next : Run :=
        { memory := cycle.memory
          derived := run.derived.union cycle.derived
          cycles := run.cycles + 1
          productive := !cycle.derived.isEmpty
          refused := none }
      if next.productive then extend e limit next else next

/-- The recommendations among the derived tags. -/
def recommendations (run : Run) : List Recommendation :=
  run.derived.items.filterMap Tag.asRecommendation?

end Run

/-- The rule from some facts to some tags, each side in the order of tags. -/
def provenRule (facts : List Fact) (derived : List Tag) : Rule :=
  ⟨Tag.sorted (facts.map .fact), Tag.sorted derived⟩

/-- Adds the proven rule of a run that derived something from some facts, unless it is there. -/
def Memory.addProvenRule (m : Memory) (facts : List Fact) (derived : List Tag) : Memory :=
  if facts.isEmpty || derived.isEmpty then m
  else
    let proven := provenRule facts derived
    if m.hasRule proven then m else m.add proven.toTag

/-- Thinks for at most `limit` cycles, or up to the cap if there is no limit. The result is the
recommendations that were made. -/
def Memory.think (m : Memory) (e : Enumeration) (cap : Nat) (limit : Option Nat)
    (summarise : Bool) : Outcome Memory (List Recommendation) :=
  let bound := limit.getD cap
  let run := Run.extend e bound (.start m)
  match run.refused with
  | some kind => ⟨run.memory, [], .error (.notATag kind)⟩
  | none =>
    let cutOff := limit.isNone && bound ≤ run.cycles && run.productive
    let memory :=
      if summarise then run.memory.addProvenRule m.facts.items run.derived.items else run.memory
    { state := memory
      notices := (if cutOff then [.cutOff run.cycles] else []) ++
        [.thought run.cycles run.derived.size run.recommendations.length]
      result := .ok run.recommendations }

end TagReasoner
