import TagReasoner.Proofs.Reasoning.Run
import Mathlib.Data.List.Nodup

/-!
# Quiescence and runs in parts

A memory is quiescent when no ready rule is satisfiable over its facts; then nothing fires, in
whatever order it is tried, and thinking does nothing. A cycle that derives nothing may still make
rules active, but it leaves the facts as they were, and the rules that are still ready are those
that these facts did not satisfy: what it leaves is quiescent
(`OnlyTags.quiescent_of_unproductive`).

So a run that stops early may as well go on, and a run in two parts is the run in one
(`think_add_and_rests`).
-/

namespace TagReasoner

/-- No ready rule is satisfiable over the known facts. -/
def Memory.Quiescent (m : Memory) : Prop := ∀ r ∈ m.ready.items, ¬ m.Satisfies r

namespace Memory

variable {m : Memory}

theorem Quiescent.firings_eq_nil (h : m.Quiescent) (e : Enumeration) : m.firings e = [] := by
  refine List.eq_nil_iff_forall_not_mem.mpr fun f hf => ?_
  obtain ⟨hready, hsatisfied⟩ := exists_firing_iff.mp ⟨f, hf, rfl⟩
  exact h f.rule hready hsatisfied

theorem Quiescent.cycle_eq (h : m.Quiescent) (e : Enumeration) :
    m.cycle e = ⟨m, .empty, none⟩ := by
  rw [cycle, h.firings_eq_nil e]
  rfl

/-- A cycle that derives nothing leaves nothing to fire. -/
theorem OnlyTags.quiescent_of_unproductive (hm : m.OnlyTags) {e : Enumeration}
    (h : (m.cycle e).derived.isEmpty = true) : (m.cycle e).memory.Quiescent := by
  have hfires := hm.firesFrom e
  have hderived : (m.cycle e).derived.items = [] := List.isEmpty_iff.mp h
  have hfacts : (m.cycle e).memory.facts.items = m.facts.items := by
    rw [hfires.facts, hderived, List.filterMap_nil, List.append_nil]
  intro r hr hsatisfied
  rcases (hfires.ready r).mp hr with ⟨hready, hunfired⟩ | hnested
  · rw [Satisfies, hfacts] at hsatisfied
    exact hunfired ((hfires.satisfied r).mpr ⟨hready, hsatisfied⟩)
  · rw [hderived] at hnested
    cases hnested

/-- From no derived tags no rule is proven. -/
theorem addProvenRule_nil (m : Memory) (facts : List Fact) : m.addProvenRule facts [] = m := by
  rw [addProvenRule, List.isEmpty_nil, Bool.or_true, if_pos rfl]

end Memory

namespace Run

variable {e : Enumeration} {run : Run}

/-- A quiescent memory is left at the first cycle, if there is any. -/
theorem extend_start_of_quiescent {m : Memory} (h : m.Quiescent) (e : Enumeration) (limit : Nat) :
    extend e limit (start m) = { start m with cycles := min limit 1 } := by
  cases limit with
  | zero => rfl
  | succ limit =>
    have hcycle := h.cycle_eq e
    have hone : min (limit + 1) 1 = 1 := Nat.min_eq_right (Nat.succ_le_succ limit.zero_le)
    rw [extend_succ (congrArg Cycle.refused hcycle), hone]
    simp only [advance, start, hcycle]
    rfl

/-- A run that ends on a cycle without derived tags ends in a quiescent memory. -/
theorem quiescent_of_unproductive {m : Memory} (hm : m.OnlyTags) {limit : Nat}
    (hcycles : 0 < (extend e limit (start m)).cycles)
    (hproductive : (extend e limit (start m)).productive = false) :
    (extend e limit (start m)).memory.Quiescent := by
  refine extend_induct (motive := fun r => 0 < r.cycles → r.productive = false →
    r.memory.Quiescent) hm (fun r hr _ _ hlast => ?_) (fun h => absurd h (Nat.lt_irrefl 0)) limit
    hcycles hproductive
  exact hr.quiescent_of_unproductive ((Bool.not_eq_false' _).mp hlast)

/-- How the memory goes on does not depend on what the run has counted and collected so far. -/
theorem memory_extend_congr {run' : Run} (hmemory : run'.memory = run.memory)
    (hm : run.memory.OnlyTags) (limit : Nat) :
    (extend e limit run').memory = (extend e limit run).memory := by
  induction limit generalizing run run' with
  | zero => exact hmemory
  | succ limit ih =>
    have hproductive : (run'.advance e).productive = (run.advance e).productive := by
      rw [advance, advance, hmemory]
    have hnext : (run'.advance e).memory = (run.advance e).memory := by
      rw [advance, advance, hmemory]
    rw [extend_succ (hm.refused_eq_none e), extend_succ (hmemory ▸ hm.refused_eq_none e),
      hproductive]
    split
    · exact ih hnext (hm.cycle e)
    · exact hnext

/-- A run may be broken off and begun anew from the memory that it has reached. If it has stopped by
itself before, the second part finds nothing to do. -/
theorem memory_extend_add (hm : run.memory.OnlyTags) (n k : Nat) :
    (extend e (n + k) run).memory = (extend e k (start (extend e n run).memory)).memory := by
  induction n generalizing run with
  | zero =>
    rw [Nat.zero_add]
    refine memory_extend_congr ?_ ?_ k
    · rfl
    · exact hm
  | succ n ih =>
    rw [Nat.succ_add, extend_succ (hm.refused_eq_none e), extend_succ (hm.refused_eq_none e)]
    cases hproductive : (run.advance e).productive with
    | true => exact ih (hm.cycle e)
    | false =>
      have hquiescent : (run.advance e).memory.Quiescent :=
        hm.quiescent_of_unproductive ((Bool.not_eq_false' _).mp hproductive)
      simp only [Bool.false_eq_true, if_false, extend_start_of_quiescent hquiescent]
      rfl

/-- The recommendations that a run adds to those of its memory are the ones that it answers with. -/
theorem recommendations_memory {m : Memory} (hm : m.OnlyTags) (e : Enumeration) (limit : Nat) :
    (extend e limit (start m)).memory.recommendations.items =
      m.recommendations.items ++ (extend e limit (start m)).recommendations :=
  (collected_extend (refused_extend_start hm e limit)).recommendations

/-- The second part of a run makes the recommendations that the first has left. -/
theorem recommendations_extend_add {m : Memory} (hm : m.OnlyTags) (e : Enumeration) (n k : Nat) :
    (extend e (n + k) (start m)).recommendations =
      (extend e n (start m)).recommendations ++
        (extend e k (start (extend e n (start m)).memory)).recommendations := by
  have hmiddle : (extend e n (start m)).memory.OnlyTags := extend_onlyTags hm n
  have hsplit : (extend e (n + k) (start m)).memory = _ := memory_extend_add hm n k
  apply List.append_cancel_left
  rw [← recommendations_memory hm e (n + k), hsplit, recommendations_memory hmiddle e k,
    recommendations_memory hm e n, List.append_assoc]

end Run

/-- Where nothing fires, thinking changes and recommends nothing, and proves no rule. -/
theorem ExpertSystem.perform_think_of_quiescent {s : ExpertSystem} (h : s.memory.Quiescent)
    (e : Enumeration) (limit : Option Nat) (summarise : Bool) :
    (s.perform e (.think (.ofLimit limit) summarise)).state = s ∧
      (s.perform e (.think (.ofLimit limit) summarise)).result = .ok (.tags []) := by
  rw [perform_think limit (Run.extend_start_of_quiescent h e (limit.getD s.cycleCap)) rfl]
  refine ⟨?_, rfl⟩
  cases summarise with
  | false => rfl
  | true => exact congrArg s.withMemory (s.memory.addProvenRule_nil s.memory.facts.items)

/-- Thinking for `n` cycles and then for `k` is thinking for `n + k` cycles, and the first part
makes none of the recommendations that the second makes. If a run ends on a cycle that derives
nothing, no rule that is still ready is satisfiable, and thinking further changes and recommends
nothing. -/
theorem think_add_and_rests {s : ExpertSystem} (hs : s.memory.OnlyTags) (e : Enumeration) :
    (∀ n k : Nat,
      let first := s.perform e (.think (.cycles n) false)
      let second := first.state.perform e (.think (.cycles k) false)
      let whole := s.perform e (.think (.cycles ↑(n + k)) false)
      whole.state = second.state ∧ ∃ made made' : List Recommendation,
        first.result = .ok (.tags (made.map .recommendation)) ∧
        second.result = .ok (.tags (made'.map .recommendation)) ∧
        whole.result = .ok (.tags ((made ++ made').map .recommendation)) ∧ made.Disjoint made') ∧
    ∀ limit : Option Nat,
      let run := Run.extend e (limit.getD s.cycleCap) (.start s.memory)
      let rested := (s.perform e (.think (.ofLimit limit) false)).state
      rested.memory = run.memory ∧ (0 < run.cycles → run.productive = false →
        rested.memory.Quiescent ∧ ∀ e' limit' summarise,
          (rested.perform e' (.think (.ofLimit limit') summarise)).state = rested ∧
          (rested.perform e' (.think (.ofLimit limit') summarise)).result = .ok (.tags [])) := by
  constructor
  · intro n k first second whole
    let middle := (Run.extend e n (.start s.memory)).memory
    have hmiddle : middle.OnlyTags := Run.extend_onlyTags hs n
    obtain ⟨hfirst, hmade⟩ := ExpertSystem.perform_think_onlyTags hs e (some n)
    obtain ⟨hrest, hmade'⟩ :=
      ExpertSystem.perform_think_onlyTags (s := s.withMemory middle) hmiddle e (some k)
    obtain ⟨hwhole, hall⟩ := ExpertSystem.perform_think_onlyTags hs e (some (n + k))
    have hsecond : second = (s.withMemory middle).perform e (.think (.cycles k) false) :=
      congrArg (ExpertSystem.perform · e (.think (.cycles k) false)) hfirst
    have hsplit := Run.recommendations_extend_add hs e n k
    refine ⟨?_, _, _, hmade, (congrArg Outcome.result hsecond).trans hmade', hall.trans ?_, ?_⟩
    · calc whole.state
        _ = s.withMemory (Run.extend e (n + k) (.start s.memory)).memory := hwhole
        _ = s.withMemory (Run.extend e k (.start middle)).memory :=
          congrArg s.withMemory (Run.memory_extend_add hs n k)
        _ = second.state := ((congrArg Outcome.state hsecond).trans hrest).symm
    · rw [Option.getD_some, hsplit]
      rfl
    · have hnodup := (Run.extend e (n + k) (.start s.memory)).nodup_recommendations
      rw [hsplit] at hnodup
      exact List.disjoint_of_nodup_append hnodup
  · intro limit run rested
    have hrested : rested = s.withMemory run.memory :=
      (ExpertSystem.perform_think_onlyTags hs e limit).1
    rw [hrested]
    refine ⟨rfl, fun hcycles hproductive => ?_⟩
    have hquiescent : run.memory.Quiescent := Run.quiescent_of_unproductive hs hcycles hproductive
    exact ⟨hquiescent, ExpertSystem.perform_think_of_quiescent hquiescent⟩

/-- Of two recommendations the second is made by a rule that the first cycle derives, and a third
cycle derives nothing. -/
theorem think_add_and_rests_nested_rule :
    let fact := fun (p : Char) (a : Argument) => Tag.fact ⟨[p], [a], .certain⟩
    let x := Argument.named ['x'] .single []
    let go : Recommendation := ⟨['@', 'g', 'o'], rfl⟩
    let stop : Recommendation := ⟨['@', 's', 't', 'o', 'p'], rfl⟩
    let s : ExpertSystem :=
      { memory :=
          { ready := .ofList [⟨[fact 'A' x], [.recommendation go, fact 'B' x,
                .rule [fact 'B' x] [.recommendation stop]]⟩,
              ⟨[fact 'C' x], [.recommendation go]⟩]
            active := .empty
            facts := .ofList [⟨['A'], [.literal ['a']], .certain⟩]
            recommendations := .empty }
        cycleCap := 4
        restPasses := 1 }
    let think := fun (s : ExpertSystem) d => s.perform .oldestFirst (.think d false)
    (think s (.cycles 2)).state = (think (think s (.cycles 1)).state (.cycles 1)).state ∧
      (think s .quiescence).state.memory.Quiescent := by
  intro fact x go stop s think
  have h := think_add_and_rests (s := s) (by decide +kernel) .oldestFirst
  exact ⟨(h.1 1 1).1, ((h.2 none).2 (by decide +kernel) (by decide +kernel)).1⟩

end TagReasoner
