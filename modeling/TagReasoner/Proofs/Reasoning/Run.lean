import TagReasoner.Proofs.Reasoning.Snapshot

/-!
# Runs, a cycle at a time

Proofs about runs do not open `Run.extend`: `extend_succ` takes the first cycle off a run, and
`extend_memory` and `extend_induct` carry what each cycle keeps through the whole of it. What a
run has derived is what its memory has beyond the start (`Run.Collected`).
-/

namespace TagReasoner

/-- One cycle more, if nothing in it is refused. -/
def Run.advance (e : Enumeration) (run : Run) : Run where
  memory := (run.memory.cycle e).memory
  derived := run.derived.union (run.memory.cycle e).derived
  cycles := run.cycles + 1
  productive := !(run.memory.cycle e).derived.isEmpty
  refused := none

/-- The duration of a run with a limit, or without one. -/
def Duration.ofLimit : Option Nat → Duration
  | none => .quiescence
  | some n => .cycles n

namespace Run

variable {e : Enumeration} {run : Run}

theorem extend_succ (h : (run.memory.cycle e).refused = none) (limit : Nat) :
    extend e (limit + 1) run =
      if (run.advance e).productive then extend e limit (run.advance e) else run.advance e := by
  rw [extend]
  simp only [h, Option.isSome_none, Bool.false_eq_true, if_false]
  rfl

/-- What every cycle keeps of the memory, a run keeps. -/
theorem extend_memory {I : Memory → Prop} (hcycle : ∀ m, I m → I (m.cycle e).memory)
    (h : I run.memory) (limit : Nat) : I (extend e limit run).memory := by
  induction limit generalizing run with
  | zero => exact h
  | succ limit ih =>
    cases hrefused : (run.memory.cycle e).refused with
    | some kind =>
      rw [extend]
      simp only [hrefused, Option.isSome_some, if_true]
      exact hcycle run.memory h
    | none =>
      rw [extend_succ hrefused]
      split
      · exact ih (hcycle run.memory h)
      · exact hcycle run.memory h

theorem extend_onlyTags (h : run.memory.OnlyTags) (limit : Nat) :
    (extend e limit run).memory.OnlyTags :=
  extend_memory (I := Memory.OnlyTags) (fun _ hm => hm.cycle e) h limit

/-- What holds of a run and is kept by each further cycle holds in the end, if none is refused. -/
theorem extend_induct_of_completed {motive : Run → Prop} {limit : Nat}
    (hcompleted : (extend e limit run).refused = none)
    (hadvance : ∀ r : Run, (r.memory.cycle e).refused = none → motive r → motive (r.advance e))
    (h : motive run) : motive (extend e limit run) := by
  induction limit generalizing run with
  | zero => exact h
  | succ limit ih =>
    cases hrefused : (run.memory.cycle e).refused with
    | some kind =>
      rw [extend] at hcompleted
      simp only [hrefused, Option.isSome_some, if_true, reduceCtorEq] at hcompleted
    | none =>
      rw [extend_succ hrefused] at hcompleted ⊢
      split
      next hproductive =>
        rw [if_pos hproductive] at hcompleted
        exact ih hcompleted (hadvance run hrefused h)
      next => exact hadvance run hrefused h

/-- What holds of a run and is kept by each further cycle holds in the end. -/
theorem extend_induct {motive : Run → Prop} (hm : run.memory.OnlyTags)
    (hadvance : ∀ r : Run, r.memory.OnlyTags → motive r → motive (r.advance e))
    (h : motive run) (limit : Nat) : motive (extend e limit run) := by
  induction limit generalizing run with
  | zero => exact h
  | succ limit ih =>
    rw [extend_succ (hm.refused_eq_none e)]
    split
    · exact ih (hm.cycle e) (hadvance run hm h)
    · exact hadvance run hm h

theorem refused_extend_start {m : Memory} (hm : m.OnlyTags) (e : Enumeration) (limit : Nat) :
    (extend e limit (start m)).refused = none :=
  extend_induct (motive := fun r => r.refused = none) hm (fun _ _ _ => rfl) rfl limit

/-! ## What a run has collected -/

/-- The run started from the memory `m`. What it has derived holds, and the facts and the
recommendations among it are those that have come to the memory since. -/
structure Collected (m : Memory) (run : Run) : Prop where
  held : ∀ t, run.derived.contains t = true → run.memory.holds t = true
  facts : run.memory.facts.items = m.facts.items ++ run.derived.items.filterMap Tag.asFact?
  recommendations : run.memory.recommendations.items =
    m.recommendations.items ++ run.recommendations
  /-- Nothing was derived that is no tag. -/
  tags : ∀ kind text, Tag.foreign kind text ∉ run.derived.items

theorem collected_start (m : Memory) : (start m).Collected m where
  held := by simp [start, WorkingSet.empty, WorkingSet.contains]
  facts := by simp [start, WorkingSet.empty]
  recommendations := by simp [start, Run.recommendations, WorkingSet.empty]
  tags := by simp [start, WorkingSet.empty]

/-- What a cycle derives comes behind what the run has derived before. -/
theorem items_derived_advance
    (hheld : ∀ t, run.derived.contains t = true → run.memory.holds t = true) :
    (run.advance e).derived.items = run.derived.items ++ (run.memory.cycle e).derived.items := by
  rw [advance, WorkingSet.items_union, List.filter_eq_self.mpr]
  intro t ht
  have hnew : run.memory.holds t = false := (run.memory.cycle_after e).new t ht
  rw [Bool.not_eq_true', Bool.eq_false_iff]
  intro hcontains
  rw [hheld t hcontains] at hnew
  cases hnew

theorem Collected.advance {m : Memory} (h : run.Collected m) : (run.advance e).Collected m := by
  have hafter := run.memory.cycle_after e
  have hderived := items_derived_advance (e := e) h.held
  refine ⟨fun t ht => ?_, ?_, ?_, fun kind text hmem => ?_⟩
  · rcases WorkingSet.contains_union.mp ht with hbefore | hcycle
    · exact hafter.kept t (h.held t hbefore)
    · exact hafter.holds_of_derived hcycle
  · have hfacts : (run.advance e).memory.facts.items = _ := hafter.facts
    rw [hfacts, h.facts, hderived, List.filterMap_append, List.append_assoc]
  · have hmade : (run.advance e).memory.recommendations.items = _ := hafter.recommendations
    rw [hmade, h.recommendations, Run.recommendations, Run.recommendations, hderived,
      List.filterMap_append, List.append_assoc]
  · rw [hderived, List.mem_append] at hmem
    rcases hmem with hbefore | hcycle
    · exact h.tags kind text hbefore
    · cases (hafter.new _ hcycle : true = false)

theorem collected_extend {m : Memory} {limit : Nat}
    (hcompleted : (extend e limit (start m)).refused = none) :
    (extend e limit (start m)).Collected m :=
  extend_induct_of_completed (motive := fun run => run.Collected m) hcompleted
    (fun _ _ h => h.advance) (collected_start m)

/-- The recommendations of a run are those that it derived, each once. -/
theorem mem_recommendations_iff {c : Recommendation} :
    c ∈ run.recommendations ↔ .recommendation c ∈ run.derived.items :=
  Tag.mem_filterMap_asRecommendation?_iff

/-- The recommendations that a run has derived are the new ones of its memory. -/
theorem Collected.recommendation_mem_derived_iff {m : Memory} (h : run.Collected m)
    {c : Recommendation} : .recommendation c ∈ run.derived.items ↔
      c ∈ run.memory.recommendations.items ∧ c ∉ m.recommendations.items := by
  have hdistinct := run.memory.recommendations.distinct
  rw [h.recommendations, List.pairwise_append] at hdistinct
  rw [h.recommendations, List.mem_append, ← mem_recommendations_iff]
  refine ⟨fun hc => ⟨.inr hc, fun hknown => ?_⟩, fun hc => hc.1.resolve_left hc.2⟩
  have hne := hdistinct.2.2 c hknown c hc
  rw [BEq.refl] at hne
  cases hne

theorem nodup_recommendations (run : Run) : run.recommendations.Nodup := by
  rw [recommendations, List.nodup_iff_pairwise_ne, List.pairwise_filterMap]
  refine run.derived.distinct.imp fun {t u} htu c hc d hd hcd => ?_
  cases t <;> cases hc
  cases u <;> cases hd
  rw [hcd, BEq.refl] at htu
  cases htu

end Run

theorem ExpertSystem.perform_think_ofLimit (s : ExpertSystem) (e : Enumeration)
    (limit : Option Nat) (summarise : Bool) :
    s.perform e (.think (.ofLimit limit) summarise) = s.think e limit summarise := by
  cases limit with
  | none => rfl
  | some n =>
    rw [Duration.ofLimit, perform, if_neg (Int.not_lt.mpr (Int.natCast_nonneg n))]
    rfl

/-- Unless a cycle is refused, thinking leaves the memory of the run, with its proven rule if that
is asked for, and answers with the recommendations of the run. -/
theorem ExpertSystem.perform_think {s : ExpertSystem} {e : Enumeration} (limit : Option Nat)
    {run : Run} (hrun : Run.extend e (limit.getD s.cycleCap) (.start s.memory) = run)
    (hrefused : run.refused = none) (summarise : Bool) :
    s.perform e (.think (.ofLimit limit) summarise) =
      { state := s.withMemory <| if summarise then
          run.memory.addProvenRule s.memory.facts.items run.derived.items else run.memory
        notices := (if limit.isNone && decide (limit.getD s.cycleCap ≤ run.cycles) &&
            run.productive then [.cutOff run.cycles] else []) ++
          [.thought run.cycles run.derived.size run.recommendations.length]
        result := .ok (.tags (run.recommendations.map .recommendation)) } := by
  rw [perform_think_ofLimit, think, Memory.think]
  simp only [hrun, hrefused]
  rfl

/-- From rules that put out tags only, thinking without a proven rule leaves the memory of the run
and answers with its recommendations. -/
theorem ExpertSystem.perform_think_onlyTags {s : ExpertSystem} (hs : s.memory.OnlyTags)
    (e : Enumeration) (limit : Option Nat) :
    let run := Run.extend e (limit.getD s.cycleCap) (.start s.memory)
    (s.perform e (.think (.ofLimit limit) false)).state = s.withMemory run.memory ∧
      (s.perform e (.think (.ofLimit limit) false)).result =
        .ok (.tags (run.recommendations.map .recommendation)) := by
  rw [perform_think limit rfl (Run.refused_extend_start hs e (limit.getD s.cycleCap))]
  exact ⟨rfl, rfl⟩

end TagReasoner
