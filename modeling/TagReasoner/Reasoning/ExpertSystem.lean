import TagReasoner.Composition.Passes
import TagReasoner.Reasoning.Run
import TagReasoner.Tag.Sentence

/-!
# The expert system

An expert system is a working memory with two settings: the cap on the cycles of a run without a
limit, and the number of composition passes of a rest without one. Everything that can be asked of
it is an `Operation`; `perform` carries one out and answers.
-/

namespace TagReasoner

/-- A working memory and the bounds on its use. -/
structure ExpertSystem where
  memory : Memory
  cycleCap : Nat
  restPasses : Nat

/-- A new system holds what it is given, and none of its rules is active. -/
def ExpertSystem.new (ready : List Rule) (facts : List Fact) (recommendations : List Recommendation)
    (cycleCap restPasses : Nat) : ExpertSystem where
  memory := ⟨.ofList ready, .empty, .ofList facts, .ofList recommendations⟩
  cycleCap := cycleCap
  restPasses := restPasses

/-- How long to think: until quiescence, for a number of cycles, or a truth value in place of a
number, which is refused. -/
inductive Duration where
  | quiescence
  | cycles (count : Int)
  | notCounted (flag : Bool)

/-- What can be asked of an expert system. -/
inductive Operation where
  | addTag (tag : Tag)
  | addTags (tags : List Tag)
  | addReadyRule (rule : Rule)
  | removeReadyRule (rule : Rule)
  | addFact (fact : Fact)
  | removeFact (fact : Fact)
  | addRecommendation (recommendation : Recommendation)
  | removeRecommendation (recommendation : Recommendation)
  | knows (pattern : Fact)
  | teach (sentence : Text)
  | think (duration : Duration) (summarise : Bool)
  | thinkCycle
  | rest (passes : Option Int)
  | deactivateRules
  | reset

/-- The answer to an operation. -/
inductive Answer where
  | done
  | flag (value : Bool)
  | tag (tag : Tag)
  | tags (tags : List Tag)

namespace ExpertSystem

/-- The system with another memory. -/
def withMemory (s : ExpertSystem) (m : Memory) : ExpertSystem := { s with memory := m }

/-- Answers with a memory left behind and nothing told. -/
def answer (s : ExpertSystem) (m : Memory) (a : Answer) : Outcome ExpertSystem Answer :=
  ⟨s.withMemory m, [], .ok a⟩

/-- Refuses and leaves the system as it is. -/
def refuse (s : ExpertSystem) (fault : Fault) : Outcome ExpertSystem Answer := ⟨s, [], .error fault⟩

/-- Is there no equal tag in the set that the tag would go to? -/
def isNew (m : Memory) : Tag → Bool
  | .fact f => !m.facts.contains f
  | .recommendation r => !m.recommendations.contains r
  | .rule i o => !m.ready.contains ⟨i, o⟩
  | .foreign .. => false

/-- Adds tags from left to right up to the first value that is no tag, whose kind is returned too.
The flag says whether every tag so far was new. -/
def addAll (m : Memory) : List Tag → Bool → Memory × Bool × Option Text
  | [], allNew => (m, allNew, none)
  | .foreign kind _ :: _, allNew => (m, allNew, some kind)
  | t :: ts, allNew => addAll (m.add t) ts (allNew && isNew m t)

/-- Adds tags and answers whether all were new. -/
def addTags (s : ExpertSystem) (ts : List Tag) : Outcome ExpertSystem Answer :=
  match addAll s.memory ts true with
  | (m, allNew, none) => s.answer m (.flag allNew)
  | (m, _, some kind) => ⟨s.withMemory m, [], .error (.notATag kind)⟩

/-- Thinks and answers with the recommendations made. -/
def think (s : ExpertSystem) (e : Enumeration) (limit : Option Nat) (summarise : Bool) :
    Outcome ExpertSystem Answer :=
  let outcome := s.memory.think e s.cycleCap limit summarise
  { state := s.withMemory outcome.state
    notices := outcome.notices
    result := outcome.result.map fun rs => .tags (rs.map .recommendation) }

/-- Makes one cycle and answers with the tags that it derived. -/
def thinkCycle (s : ExpertSystem) (e : Enumeration) : Outcome ExpertSystem Answer :=
  let cycle := s.memory.cycle e
  { state := s.withMemory cycle.memory
    notices := []
    result :=
      match cycle.refused with
      | some kind => .error (.notATag kind)
      | none => .ok (.tags cycle.derived.items) }

/-- Composes the ready rules in `passes` passes and adds the rules that were not ready before. -/
def rest (s : ExpertSystem) (passes : Int) : Outcome ExpertSystem Answer :=
  if passes < 0 then s.refuse (.negativeCycles passes)
  else
    match composedRulesChecked passes.toNat s.memory.ready.items with
    | .error fault => s.refuse fault
    | .ok composed =>
      let made := composed.diff s.memory.ready
      { state := s.withMemory { s.memory with ready := s.memory.ready.union made }
        notices := [.rested passes made.size]
        result := .ok (.tags (made.items.map Rule.toTag)) }

/-- Teaches a sentence and answers with the tag taught. -/
def teach (s : ExpertSystem) (sentence : Text) : Outcome ExpertSystem Answer :=
  match Sentence.parse sentence with
  | .error error => s.refuse (.parse error)
  | .ok tag => s.answer (s.memory.add tag) (.tag tag)

/-- Carries out an operation. -/
def perform (s : ExpertSystem) (e : Enumeration) : Operation → Outcome ExpertSystem Answer
  | .addTag tag => s.addTags [tag]
  | .addTags tags => s.addTags tags
  | .addReadyRule rule => s.addTags [rule.toTag]
  | .addFact fact => s.addTags [.fact fact]
  | .addRecommendation recommendation => s.addTags [.recommendation recommendation]
  | .removeReadyRule rule =>
    s.answer { s.memory with ready := s.memory.ready.erase rule }
      (.flag (s.memory.ready.contains rule))
  | .removeFact fact =>
    s.answer { s.memory with facts := s.memory.facts.erase fact }
      (.flag (s.memory.facts.contains fact))
  | .removeRecommendation recommendation =>
    s.answer { s.memory with recommendations := s.memory.recommendations.erase recommendation }
      (.flag (s.memory.recommendations.contains recommendation))
  | .knows pattern => s.answer s.memory (.flag (s.memory.knows pattern))
  | .teach sentence => s.teach sentence
  | .think (.notCounted _) _ => s.refuse .cyclesNotCounted
  | .think .quiescence summarise => s.think e none summarise
  | .think (.cycles count) summarise =>
    if count < 0 then s.refuse (.negativeCycles count) else s.think e (some count.toNat) summarise
  | .thinkCycle => s.thinkCycle e
  | .rest passes => s.rest (passes.getD s.restPasses)
  | .deactivateRules => s.answer s.memory.deactivateRules .done
  | .reset => s.answer .empty .done

/-- The sizes of the working sets on one line. -/
def summary (s : ExpertSystem) : Text :=
  "ExpertSystem(ready_rules=".toList ++ Text.ofNat s.memory.ready.size ++
    ", active_rules=".toList ++ Text.ofNat s.memory.active.size ++
    ", facts=".toList ++ Text.ofNat s.memory.facts.size ++
    ", recommendations=".toList ++ Text.ofNat s.memory.recommendations.size ++ [')']

end ExpertSystem
end TagReasoner
