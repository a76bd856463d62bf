import TagReasoner.Proofs.Reasoning.Cycle
import TagReasoner.Proofs.Reasoning.Quiescence
import Mathlib.Order.Bounds.Defs

/-!
# Thinking computes a least closure

A set of facts closes a memory when it contains the known facts and, with the input facts of a ready
rule satisfiable over it, the rule's output facts. From a plain memory, thinking to quiescence ends
in the least such set (`think_isLeast_closure`). The run keeps two things: only rules that have to
fire in every closed set have fired (`Run.Justified`), and each productive cycle leaves fewer rules
ready. So with more cycles allowed than there are ready rules the last cycle is unproductive, and
what such a cycle leaves ready is satisfiable no more.
-/

namespace TagReasoner

/-- The set contains the known facts and the output facts of every ready rule that is satisfiable
over it. Like the known facts, it does not tell equal facts apart. -/
structure Memory.Closes (m : Memory) (X : Set Fact) : Prop where
  equal : ∀ f g, (f == g) = true → f ∈ X → g ∈ X
  known : ∀ f ∈ m.facts.items, f ∈ X
  fires : ∀ r ∈ m.ready.items, r.SatisfiableOver X → ∀ o ∈ r.outputFacts, o ∈ X

/-- In the course of the run the rules of `F` have fired, which do so over every closed set. -/
structure Run.Justified (m : Memory) (F : Set Rule) (run : Run) : Prop where
  fired : m.Fired F run.memory
  ready : ∀ r ∈ F, r ∈ m.ready.items
  satisfiable : ∀ X, m.Closes X → ∀ r ∈ F, r.SatisfiableOver X
  collected : run.Collected m
  refused : run.refused = none

/-! ## One cycle -/

/-- A productive cycle leaves fewer rules ready. -/
theorem Memory.ready_cycle_lt {m : Memory} (hm : m.Plain) {e : Enumeration}
    (hderived : (m.cycle e).derived.isEmpty = false) :
    (m.cycle e).memory.ready.size < m.ready.size := by
  have hfired := hm.fired_cycle e
  have hsome : m.firings e ≠ [] := by
    intro hnil
    rw [cycle, hnil] at hderived
    cases hderived
  obtain ⟨f, hf⟩ := List.exists_mem_of_ne_nil _ hsome
  have hfiring := (exists_mem_firings_iff hm e).mp ⟨f, hf, rfl⟩
  have hready : f.rule ∈ m.ready.items := hfiring.1
  have hgone : f.rule ∉ (m.cycle e).memory.ready.items := by
    rw [hfired.ready f.rule hready]
    exact fun hno => hno hfiring
  refine Nat.lt_of_le_of_ne hfired.sublist.length_le fun hlength => hgone ?_
  rw [hfired.sublist.eq_of_length hlength]
  exact hready

namespace Run

variable {m : Memory} {F : Set Rule} {run : Run} {e : Enumeration}

/-- What a justified run knows is in every closed set. -/
theorem Justified.factSet_subset (h : run.Justified m F) {X : Set Fact} (hX : m.Closes X) :
    run.memory.factSet ⊆ X := by
  intro f hf
  rcases (h.fired.facts f).mp hf with hknown | ⟨r, hr, o, ho, hof⟩
  · obtain ⟨g, hg, hgf⟩ := WorkingSet.contains_iff.mp hknown
    exact hX.equal g f hgf (hX.known g hg)
  · exact hX.equal o f hof (hX.fires r (h.ready r hr) (h.satisfiable X hX r hr) o ho)

theorem justified_start (m : Memory) : (start m).Justified m ∅ where
  fired := .refl m
  ready := by simp
  satisfiable := by simp
  collected := collected_start m
  refused := rfl

theorem Justified.advance (h : run.Justified m F) (hm : m.Plain) :
    (run.advance e).Justified m
      (F ∪ {r | r ∈ run.memory.ready.items ∧ r.SatisfiableOver run.memory.factSet}) := by
  have hfired := (h.fired.plain h.ready hm).fired_cycle e
  refine ⟨h.fired.trans hfired, ?_, ?_, h.collected.advance, rfl⟩
  · rintro r (hr | ⟨hr, -⟩)
    · exact h.ready r hr
    · exact h.fired.sublist.subset hr
  · rintro X hX r (hr | ⟨-, hr⟩)
    · exact h.satisfiable X hX r hr
    · exact hr.mono (h.factSet_subset hX)

/-- The new recommendations have been derived. -/
theorem Justified.recommendations (h : run.Justified m F) (c : Recommendation) :
    .recommendation c ∈ run.derived.items ↔
      c ∈ run.memory.recommendations.items ∧ c ∉ m.recommendations.items :=
  h.collected.recommendation_mem_derived_iff

/-- After an unproductive cycle no ready rule is satisfiable. -/
theorem not_satisfiable_of_unproductive (hm : run.memory.Plain)
    (hunproductive : (run.advance e).productive = false) :
    ∀ r ∈ (run.advance e).memory.ready.items,
      ¬ r.SatisfiableOver (run.advance e).memory.factSet := by
  have hderived : (run.memory.cycle e).derived.isEmpty = true :=
    (Bool.not_eq_false' _).mp hunproductive
  intro r hr hsatisfiable
  exact hm.onlyTags.quiescent_of_unproductive hderived r hr
    ((Memory.satisfies_iff (hm.facts_cycle e)).mpr hsatisfiable)

/-- What is known in the end of such a run is closed. -/
theorem Justified.closes (h : run.Justified m F)
    (hquiescent : ∀ r ∈ run.memory.ready.items, ¬ r.SatisfiableOver run.memory.factSet) :
    m.Closes run.memory.factSet where
  equal f g hfg hf := by
    show run.memory.facts.contains g = true
    rw [← WorkingSet.contains_congr hfg]
    exact hf
  known f hf := (h.fired.facts f).mpr (.inl (WorkingSet.contains_of_mem hf))
  fires r hr hsatisfiable o ho := by
    have hF : r ∈ F := by
      by_contra hno
      exact hquiescent r ((h.fired.ready r hr).mpr hno) hsatisfiable
    exact (h.fired.facts o).mpr (.inr ⟨r, hF, o, ho, BEq.refl o⟩)

/-- The rules that have fired in the end are those that are satisfiable then. -/
theorem Justified.mem_iff_satisfiable (h : run.Justified m F)
    (hquiescent : ∀ r ∈ run.memory.ready.items, ¬ r.SatisfiableOver run.memory.factSet) :
    ∀ r ∈ m.ready.items, r ∈ F ↔ r.SatisfiableOver run.memory.factSet := by
  intro r hr
  constructor
  · exact h.satisfiable _ (h.closes hquiescent) r
  · intro hsatisfiable
    by_contra hno
    exact hquiescent r ((h.fired.ready r hr).mpr hno) hsatisfiable

/-! ## The whole run -/

/-- With more cycles allowed than there are ready rules, a run ends where no rule that is still
ready is satisfiable. -/
theorem extend_spec (hm : m.Plain) (h : run.Justified m F) {limit : Nat}
    (hlimit : run.memory.ready.size < limit) :
    ∃ G, (extend e limit run).Justified m G ∧ ∀ r ∈ (extend e limit run).memory.ready.items,
      ¬ r.SatisfiableOver (extend e limit run).memory.factSet := by
  induction limit generalizing run F with
  | zero => omega
  | succ limit ih =>
    -- a productive cycle uses up one of the cycles left, but a ready rule as well
    have hplain := h.fired.plain h.ready hm
    rw [extend_succ (hplain.onlyTags.refused_eq_none e)]
    cases hproductive : (run.advance e).productive with
    | true =>
      have hlt : (run.advance e).memory.ready.size < run.memory.ready.size :=
        Memory.ready_cycle_lt hplain (by simpa [advance] using hproductive)
      rw [if_pos rfl]
      exact ih (h.advance hm) (by omega)
    | false =>
      rw [if_neg (by simp)]
      exact ⟨_, h.advance hm, not_satisfiable_of_unproductive hplain hproductive⟩

end Run

/-! ## Thinking to quiescence -/

/-- Unless a cycle is refused, thinking leaves the memory of the run and answers with its
recommendations. -/
theorem ExpertSystem.perform_think_quiescence {s : ExpertSystem} {e : Enumeration}
    (h : (Run.extend e s.cycleCap (.start s.memory)).refused = none) :
    (s.perform e (.think .quiescence false)).state.memory
        = (Run.extend e s.cycleCap (.start s.memory)).memory ∧
      (s.perform e (.think .quiescence false)).result
        = .ok (.tags ((Run.extend e s.cycleCap (.start s.memory)).recommendations.map
            .recommendation)) := by
  have hthink : s.perform e (.think (.ofLimit none) false) = _ := perform_think none rfl h false
  exact ⟨congrArg (·.state.memory) hthink, congrArg Outcome.result hthink⟩

/-- From plain facts and rules with plain outputs, and with fewer ready rules than the cycle cap,
thinking to quiescence makes the known facts the least closure of the memory. The rules that are
satisfiable over it become active, the others stay ready, and the answer is the recommendations
that the former put out and that were not made before. -/
theorem think_isLeast_closure {s : ExpertSystem} (e : Enumeration)
    (hfacts : ∀ f ∈ s.memory.facts.items, f.isPlain = true)
    (houtputs : ∀ r ∈ s.memory.ready.items, ∀ t ∈ r.outputs, t.isPlain = true)
    (hcap : s.memory.ready.size < s.cycleCap) :
    let outcome := s.perform e (.think .quiescence false)
    let m := outcome.state.memory
    IsLeast {X | s.memory.Closes X} m.factSet ∧
      m.ready.items.Sublist s.memory.ready.items ∧
      (∀ r ∈ s.memory.ready.items, r ∈ m.ready.items ↔ ¬ r.SatisfiableOver m.factSet) ∧
      (∀ r, m.active.contains r = true ↔ s.memory.active.contains r = true ∨
        ∃ q ∈ s.memory.ready.items, q.SatisfiableOver m.factSet ∧ (q == r) = true) ∧
      ∃ made : List Recommendation, outcome.result = .ok (.tags (made.map .recommendation)) ∧
        made.Nodup ∧ ∀ c, c ∈ made ↔ c ∉ s.memory.recommendations.items ∧
          ∃ q ∈ s.memory.ready.items, q.SatisfiableOver m.factSet ∧
            .recommendation c ∈ q.outputs := by
  intro outcome m
  obtain ⟨F, hrun, hquiescent⟩ :=
    Run.extend_spec (e := e) ⟨hfacts, houtputs⟩ (Run.justified_start s.memory) hcap
  obtain ⟨hmemory, hresult⟩ := ExpertSystem.perform_think_quiescence hrun.refused
  have hF := hrun.mem_iff_satisfiable hquiescent
  have hm : m = (Run.extend e s.cycleCap (.start s.memory)).memory := hmemory
  rw [← hm] at hF hquiescent
  have hfired := hrun.fired
  rw [← hm] at hfired
  refine ⟨⟨?_, fun X hX => ?_⟩, hfired.sublist, fun r hr => ?_, fun r => ?_, _, hresult,
    Run.nodup_recommendations _, fun c => ?_⟩
  · show s.memory.Closes m.factSet
    rw [hm]
    exact hrun.closes (hm ▸ hquiescent)
  · rw [hm]
    exact hrun.factSet_subset hX
  · rw [hfired.ready r hr, hF r hr]
  · rw [hfired.active]
    refine or_congr_right (exists_congr fun q => ?_)
    constructor
    · rintro ⟨hq, hqr⟩
      exact ⟨hrun.ready q hq, (hF q (hrun.ready q hq)).mp hq, hqr⟩
    · rintro ⟨hq, hsatisfiable, hqr⟩
      exact ⟨(hF q hq).mpr hsatisfiable, hqr⟩
  · rw [Run.mem_recommendations_iff, hrun.recommendations, ← hm, hfired.recommendations]
    constructor
    · rintro ⟨hc | ⟨q, hq, hqc⟩, hnew⟩
      · exact absurd hc hnew
      · exact ⟨hnew, q, hrun.ready q hq, (hF q (hrun.ready q hq)).mp hq, hqc⟩
    · rintro ⟨hnew, q, hq, hsatisfiable, hqc⟩
      exact ⟨.inr ⟨q, (hF q hq).mpr hsatisfiable, hqc⟩, hnew⟩

/-- A fact and a recommendation at the end of a chain, with an operator on the way and a rule that
stays ready. -/
theorem think_isLeast_closure_chain :
    let fact := fun (p : Char) (a : Argument) => Tag.fact ⟨[p], [a], .certain⟩
    let x := Argument.named ['x'] .single []
    let go : Recommendation := ⟨['@', 'g', 'o'], rfl⟩
    let first : Rule := ⟨[fact 'A' (.number (.ofNat 3) .gt)], [fact 'B' (.literal ['b'])]⟩
    let last : Rule :=
      ⟨[fact 'B' x, fact 'C' x], [.recommendation go, fact 'D' (.literal ['a'])]⟩
    let idle : Rule := ⟨[fact 'E' x], [fact 'A' (.literal ['e'])]⟩
    let s : ExpertSystem :=
      { memory :=
          { ready := .ofList [last, first, idle]
            active := .empty
            facts := .ofList [⟨['A'], [.number (.ofNat 5) .eq], .certain⟩,
              ⟨['C'], [.literal ['b']], .certain⟩]
            recommendations := .empty }
        cycleCap := 4
        restPasses := 1 }
    let outcome := s.perform .oldestFirst (.think .quiescence false)
    let m := outcome.state.memory
    m.facts.items.map Fact.text =
        ["A(5)".toList, "C(b)".toList, "B(b)".toList, "D(a)".toList] ∧
      IsLeast {X | s.memory.Closes X} m.factSet ∧
      first.SatisfiableOver m.factSet ∧ last.SatisfiableOver m.factSet ∧
      ¬ idle.SatisfiableOver m.factSet ∧
      m.active.items.map Rule.text = ["A(>3)=>B(b)".toList, "B(?x),C(?x)=>@go,D(a)".toList] ∧
      m.ready.items.map Rule.text = ["E(?x)=>A(e)".toList] ∧
      outcome.result = .ok (.tags [.recommendation go]) := by
  intro fact x go first last idle s outcome m
  obtain ⟨hleast, -, -, -, made, hresult, hnodup, hmade⟩ :=
    think_isLeast_closure (s := s) .oldestFirst (by decide +kernel) (by decide +kernel)
      (by decide +kernel)
  have hsearch (r : Rule) : r.SatisfiableOver m.factSet ↔
      (solve? m.facts.items r.inputFacts .empty).isSome = true :=
    Rule.satisfiableOver_factSet_iff (by decide +kernel) (.refl _)
  have hlast : last.SatisfiableOver m.factSet := (hsearch last).mpr (by decide +kernel)
  have hidle : ¬ idle.SatisfiableOver m.factSet := (hsearch idle).not.mpr (by decide +kernel)
  have hready : s.memory.ready.items = [last, first, idle] :=
    WorkingSet.items_ofList (by decide +kernel)
  have houtput : ∀ c, (∃ q ∈ s.memory.ready.items, .recommendation c ∈ q.outputs) → c = go := by
    intro c
    simp [hready, last, first, idle, fact]
  have hgo : made = [go] := by
    refine List.perm_singleton.mp ((List.perm_ext_iff_of_nodup hnodup (by simp)).mpr fun c => ?_)
    rw [hmade, List.mem_singleton]
    constructor
    · rintro ⟨-, q, hq, -, hqc⟩
      exact houtput c ⟨q, hq, hqc⟩
    · rintro rfl
      exact ⟨List.not_mem_nil, last, hready ▸ List.mem_cons_self .., hlast,
        List.mem_cons_self ..⟩
  subst hgo
  exact ⟨by decide +kernel, hleast, (hsearch first).mpr (by decide +kernel), hlast, hidle,
    by decide +kernel, by decide +kernel, hresult⟩

end TagReasoner
