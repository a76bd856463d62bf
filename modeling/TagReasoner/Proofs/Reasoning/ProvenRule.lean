import TagReasoner.Proofs.Reasoning.CycleBound

/-!
# The proven rule of a run

A run derives tags cycle by cycle, and what it has derived is what its memory has beyond the start
(`Run.Collected`). The proven rule leads from the facts at the start to all of that. Where these
facts and the derived ones are plain, it replays the run: over the same facts it fires without
binding anything, each of its outputs is new when its turn comes, and so one cycle derives just what
the run did (`provenRule_replays`).
-/

namespace TagReasoner

/-! ## Rules that lead from facts in one step -/

/-- The rule leads from the facts to all its outputs at once: its input facts are among them, and
its outputs are tags, no two of them equal, with plain facts that are not there yet. -/
structure Rule.LeadsFrom (facts : List Fact) (r : Rule) : Prop where
  known : ∀ f ∈ facts, f.isPlain = true
  inputs : ∀ p ∈ r.inputFacts, ∃ f ∈ facts, (f == p) = true
  tags : ∀ kind text, Tag.foreign kind text ∉ r.outputs
  distinct : r.outputs.Pairwise fun t u => (t == u) = false
  plain : ∀ f, .fact f ∈ r.outputs → f.isPlain = true
  new : ∀ f, .fact f ∈ r.outputs → ∀ g ∈ facts, (g == f) = false

namespace Rule.LeadsFrom

variable {facts : List Fact} {r : Rule}

/-- How the rule is spelled makes no difference. -/
theorem congr {q : Rule} (h : r.LeadsFrom facts) (hqr : (q == r) = true) : q.LeadsFrom facts := by
  obtain ⟨hinputs, houtputs⟩ := Rule.beq_iff.mp hqr
  have hfact : ∀ f, .fact f ∈ q.outputs → ∃ g, .fact g ∈ r.outputs ∧ (f == g) = true := by
    intro f hf
    obtain ⟨u, hu, hfu⟩ := exists_mem_of_forall₂ houtputs hf
    cases u with
    | fact g => exact ⟨g, hu, hfu⟩
    | recommendation | rule | foreign => cases hfu
  refine ⟨h.known, fun p hp => ?_, fun kind text hmem => ?_,
    pairwise_ne_of_forall₂ houtputs h.distinct, fun f hf => ?_, fun f hf g hg => ?_⟩
  · obtain ⟨u, hu, hpu⟩ := exists_mem_of_forall₂ hinputs (Tag.mem_filterMap_asFact?_iff.mp hp)
    cases u with
    | fact p' =>
      obtain ⟨f, hf, hfp⟩ := h.inputs p' (Tag.mem_filterMap_asFact?_iff.mpr hu)
      exact ⟨f, hf, BEq.trans hfp (BEq.symm hpu)⟩
    | recommendation | rule | foreign => cases hpu
  · obtain ⟨u, hu, htu⟩ := exists_mem_of_forall₂ houtputs hmem
    cases u with
    | foreign kind' text' => exact h.tags kind' text' hu
    | fact | recommendation | rule => cases htu
  · obtain ⟨g, hg, hfg⟩ := hfact f hf
    rw [Fact.isPlain_congr hfg, h.plain g hg]
  · obtain ⟨g', hg', hfg⟩ := hfact f hf
    rw [BEq.congr_right hfg]
    exact h.new g' hg' g hg

variable {m : Memory} {e : Enumeration}

/-- Over the facts, the rule fires and binds nothing. -/
theorem firings_eq (h : r.LeadsFrom facts) (hready : m.ready.items = [r])
    (hfacts : m.facts.items = facts) : m.firings e = [⟨r, .empty⟩] := by
  have hrules : e.rules m = [r] := List.perm_singleton.mp (hready ▸ e.rules_perm m)
  have hperm : (e.facts m).Perm facts := hfacts ▸ e.facts_perm m
  have hsolved : solve? (e.facts m) r.inputFacts .empty = some .empty := by
    refine solve?_of_known (fun f hf => h.known f (hperm.mem_iff.mp hf)) fun p hp => ?_
    obtain ⟨f, hf, hfp⟩ := h.inputs p hp
    exact ⟨f, hperm.mem_iff.mpr hf, hfp⟩
  rw [Memory.firings, hrules, List.filterMap_cons, hsolved]
  rfl

theorem refused_eq_none (h : r.LeadsFrom facts) (hready : m.ready.items = [r])
    (hfacts : m.facts.items = facts) : (m.cycle e).refused = none := by
  refine List.findSome?_eq_none_iff.mpr fun s hs => ?_
  rw [h.firings_eq hready hfacts, List.flatMap_singleton] at hs
  rcases List.mem_cons.mp hs with rfl | hs
  · rfl
  · obtain ⟨o, ho, rfl⟩ := List.mem_map.mp hs
    cases o with
    | foreign kind text => exact absurd ho (h.tags kind text)
    | fact | recommendation | rule => rfl

theorem after_cycle (h : r.LeadsFrom facts) (hready : m.ready.items = [r])
    (hfacts : m.facts.items = facts) :
    Progress.After m [r] r.outputs ⟨(m.cycle e).memory, (m.cycle e).derived⟩ := by
  have hafter := Memory.cycle_after_of_completed (h.refused_eq_none (e := e) hready hfacts)
  have htags : [Firing.mk r .empty].flatMap Firing.tags = r.outputs := by
    rw [List.flatMap_singleton, Firing.tags_eq, Tag.substituteAll_empty]
  rwa [h.firings_eq hready hfacts, htags] at hafter

/-- Each output is derived in its turn: that it holds in the end is not for what was there. -/
theorem contains_derived_cycle (h : r.LeadsFrom facts) (hready : m.ready.items = [r])
    (hactive : m.active.items = []) (hfacts : m.facts.items = facts)
    (hrecommendations : m.recommendations.items = []) :
    ∀ t ∈ r.outputs, (m.cycle e).derived.contains t = true := by
  intro t ht
  have hafter := h.after_cycle (e := e) hready hfacts
  have hheld := hafter.held t ht
  rw [WorkingSet.contains_iff]
  cases t with
  | fact f =>
    obtain ⟨g, hg, hgf⟩ := List.any_eq_true.mp hheld
    rw [hafter.facts, hfacts, List.mem_append, Tag.mem_filterMap_asFact?_iff] at hg
    rcases hg with hg | hg
    · rw [Fact.fits_eq_beq (h.known g hg) (h.plain f ht), h.new f ht g hg] at hgf
      cases hgf
    · have hplain := h.plain g (hafter.derived.subset hg)
      rw [Fact.fits_eq_beq hplain (h.plain f ht)] at hgf
      exact ⟨.fact g, hg, hgf⟩
  | recommendation c =>
    obtain ⟨d, hd, hdc⟩ := WorkingSet.contains_iff.mp hheld
    rw [hafter.recommendations, hrecommendations, List.nil_append,
      Tag.mem_filterMap_asRecommendation?_iff] at hd
    exact ⟨.recommendation d, hd, hdc⟩
  | rule i o =>
    rcases Bool.or_eq_true_iff.mp hheld with hheld | hheld
    · obtain ⟨q, hq, hqr⟩ := WorkingSet.contains_iff.mp hheld
      have hfired : [r].filter (fun q => !List.any [r] (q == ·)) = [] := by
        rw [List.filter_singleton, List.any_cons, BEq.refl]
        rfl
      rw [hafter.ready, hready, hfired, List.nil_append, Tag.mem_filterMap_asRule?_iff] at hq
      exact ⟨q.toTag, hq, hqr⟩
    · -- the only active rule is larger than what it puts out
      rw [hafter.active, WorkingSet.contains, hactive] at hheld
      rcases hheld with hnone | ⟨q, hq, hqr⟩
      · cases hnone
      · cases List.mem_singleton.mp hq
        have hsize : r.size = (Tag.rule i o).ruleSize := Tag.ruleSize_congr r.toTag (.rule i o) hqr
        have hle := Tag.ruleSize_le_of_mem ht
        rw [r.size_eq] at hsize
        omega
  | foreign kind text => exact absurd ht (h.tags kind text)

/-- A single cycle derives just the outputs of the rule, in their order. -/
theorem derived_cycle (h : r.LeadsFrom facts) (hready : m.ready.items = [r])
    (hactive : m.active.items = []) (hfacts : m.facts.items = facts)
    (hrecommendations : m.recommendations.items = []) :
    (m.cycle e).derived.items = r.outputs := by
  have hsublist : (m.cycle e).derived.items.Sublist r.outputs :=
    (h.after_cycle hready hfacts).derived
  have hnodup : r.outputs.Nodup := h.distinct.imp fun hne heq => by
    rw [heq, BEq.refl] at hne
    cases hne
  have hsubset : r.outputs ⊆ (m.cycle e).derived.items := by
    intro t ht
    obtain ⟨u, hu, hut⟩ := WorkingSet.contains_iff.mp
      (h.contains_derived_cycle (e := e) hready hactive hfacts hrecommendations t ht)
    have hsame : u = t :=
      WorkingSet.eq_of_beq_of_mem (s := ⟨r.outputs, h.distinct⟩) (hsublist.subset hu) ht hut
    rwa [← hsame]
  exact hsublist.eq_of_length_le (List.subperm_of_subset hnodup hsubset).length_le

end Rule.LeadsFrom

/-! ## The proven rule -/

/-- Over the facts at the start, the proven rule of a run leads to all that the run derived. -/
theorem Run.Collected.leadsFrom {m : Memory} {run : Run} (h : run.Collected m)
    (hknown : ∀ f ∈ m.facts.items, f.isPlain = true)
    (hplain : ∀ f, .fact f ∈ run.derived.items → f.isPlain = true) :
    (provenRule m.facts.items run.derived.items).LeadsFrom m.facts.items := by
  have houtputs := Tag.sorted_perm run.derived.items
  refine ⟨hknown, fun p hp => ?_, fun kind text hmem => ?_, ?_, fun f hf => ?_,
    fun f hf g hg => ?_⟩
  · have hsorted : .fact p ∈ Tag.sorted (m.facts.items.map .fact) :=
      Tag.mem_filterMap_asFact?_iff.mp hp
    obtain ⟨f, hf, hfp⟩ := List.mem_map.mp ((Tag.sorted_perm _).mem_iff.mp hsorted)
    cases hfp
    exact ⟨p, hf, BEq.refl p⟩
  · exact h.tags kind text (houtputs.mem_iff.mp hmem)
  · exact (houtputs.pairwise_iff fun hne => by rwa [BEq.comm]).mpr run.derived.distinct
  · exact hplain f (houtputs.mem_iff.mp hf)
  · have hdistinct := run.memory.facts.distinct
    rw [h.facts, List.pairwise_append] at hdistinct
    exact hdistinct.2.2 g hg f (Tag.mem_filterMap_asFact?_iff.mpr (houtputs.mem_iff.mp hf))

/-- Unless there is nothing to lead from or to, the proven rule is ready or active once it has been
added. -/
theorem Memory.exists_provenRule (m : Memory) {facts : List Fact} {derived : List Tag}
    (hfacts : facts ≠ []) (hderived : derived ≠ []) :
    ∃ q, (q ∈ (m.addProvenRule facts derived).ready.items ∨
        q ∈ (m.addProvenRule facts derived).active.items) ∧
      (q == provenRule facts derived) = true := by
  have hholds : (m.addProvenRule facts derived).holds (provenRule facts derived).toTag = true := by
    rw [addProvenRule, if_neg (by simp [hfacts, hderived])]
    show (if m.hasRule (provenRule facts derived) then m
      else m.add (provenRule facts derived).toTag).holds _ = true
    split
    next hthere => exact hthere
    next => exact m.holds_add_self _
  rcases Bool.or_eq_true_iff.mp hholds with hready | hactive
  · obtain ⟨q, hq, hqr⟩ := WorkingSet.contains_iff.mp hready
    exact ⟨q, .inl hq, hqr⟩
  · obtain ⟨q, hq, hqr⟩ := WorkingSet.contains_iff.mp hactive
    exact ⟨q, .inr hq, hqr⟩

/-- In a new system of some facts and a rule that leads from them, the first cycle derives the
outputs of the rule. -/
theorem Rule.LeadsFrom.perform_thinkCycle {facts : List Fact} {r : Rule} (h : r.LeadsFrom facts)
    (hdistinct : facts.Pairwise fun f g => (f == g) = false) (e : Enumeration)
    (cap passes : Nat) :
    ((ExpertSystem.new [r] facts [] cap passes).perform e .thinkCycle).result =
      .ok (.tags r.outputs) := by
  have hready : (WorkingSet.ofList [r]).items = [r] :=
    WorkingSet.items_ofList (List.pairwise_singleton ..)
  have hfacts : (WorkingSet.ofList facts).items = facts := WorkingSet.items_ofList hdistinct
  have hderived := h.derived_cycle (m := (ExpertSystem.new [r] facts [] cap passes).memory)
    (e := e) hready rfl hfacts rfl
  have hrefused := h.refused_eq_none (m := (ExpertSystem.new [r] facts [] cap passes).memory)
    (e := e) hready hfacts
  simp only [ExpertSystem.perform, ExpertSystem.thinkCycle, hrefused, hderived]

/-- Thinking that is asked for a proven rule and derives something from some facts, all of them
plain, leaves a rule from these facts to what it derived, each side in the order of tags. In a new
system of these facts and that rule, a single cycle derives just the same. -/
theorem provenRule_replays {s : ExpertSystem} {e : Enumeration} {limit : Option Nat} {run : Run}
    (hrun : Run.extend e (limit.getD s.cycleCap) (.start s.memory) = run)
    (hcompleted : run.refused = none)
    (hfacts : s.memory.facts.items ≠ []) (hderived : run.derived.items ≠ [])
    (hknown : ∀ f ∈ s.memory.facts.items, f.isPlain = true)
    (hplain : ∀ f, .fact f ∈ run.derived.items → f.isPlain = true) :
    let after := (s.perform e (.think (.ofLimit limit) true)).state.memory
    ∃ q, (q ∈ after.ready.items ∨ q ∈ after.active.items) ∧
      (q == provenRule s.memory.facts.items run.derived.items) = true ∧
      ∀ (e' : Enumeration) (cap passes : Nat), ∃ tags,
        ((ExpertSystem.new [q] s.memory.facts.items [] cap passes).perform e' .thinkCycle).result =
            .ok (.tags tags) ∧
          List.Forall₂ (fun t u => (t == u) = true) tags (Tag.sorted run.derived.items) := by
  intro after
  have hafter : after = run.memory.addProvenRule s.memory.facts.items run.derived.items := by
    exact congrArg (·.state.memory) (ExpertSystem.perform_think limit hrun hcompleted true)
  obtain ⟨q, hq, hproven⟩ := run.memory.exists_provenRule hfacts hderived
  rw [← hafter] at hq
  have hcollected : run.Collected s.memory := hrun ▸ Run.collected_extend (hrun ▸ hcompleted)
  have hleads := (hcollected.leadsFrom hknown hplain).congr hproven
  refine ⟨q, hq, hproven, fun e' cap passes => ⟨q.outputs, ?_, (Rule.beq_iff.mp hproven).2⟩⟩
  exact hleads.perform_thinkCycle s.memory.facts.distinct e' cap passes

/-- A rule that puts out a fact and a rule that this fact satisfies. -/
def ExpertSystem.nestedRules : ExpertSystem :=
  let fact := fun (p : Char) (a : Argument) => Tag.fact ⟨[p], [a], .certain⟩
  let x := Argument.named ['x'] .single []
  let go : Recommendation := ⟨['@', 'g', 'o'], rfl⟩
  .new [⟨[fact 'A' x], [fact 'B' x, .rule [fact 'B' x] [.recommendation go]]⟩]
    [⟨['C'], [.number (.ofNat 5) .eq], .certain⟩, ⟨['A'], [.literal ['a']], .certain⟩] [] 4 1

/-- Its run derives a fact and a rule in the first cycle and a recommendation in the second. -/
theorem provenRule_replays_nested_rule :
    ∃ run m, Run.extend .oldestFirst 4 (.start ExpertSystem.nestedRules.memory) = run ∧
      (ExpertSystem.nestedRules.perform .oldestFirst (.think (.ofLimit none) true)).state.memory
        = m ∧ run.derived.size = 3 ∧
      ∃ q, (q ∈ m.ready.items ∨ q ∈ m.active.items) ∧
        (q == provenRule ExpertSystem.nestedRules.memory.facts.items run.derived.items) = true ∧
        ∀ (e' : Enumeration) (cap passes : Nat), ∃ tags,
          ((ExpertSystem.new [q] ExpertSystem.nestedRules.memory.facts.items [] cap passes).perform
              e' .thinkCycle).result = .ok (.tags tags) ∧
            List.Forall₂ (fun t u => (t == u) = true) tags (Tag.sorted run.derived.items) := by
  refine ⟨_, _, rfl, rfl, by decide +kernel, ?_⟩
  have hplain : ∀ f ∈ (Run.extend .oldestFirst 4
      (.start ExpertSystem.nestedRules.memory)).derived.items.filterMap Tag.asFact?,
      f.isPlain = true := by decide +kernel
  refine provenRule_replays rfl (by decide +kernel) (by decide +kernel) ?_ (by decide +kernel)
    fun f hf => hplain f (Tag.mem_filterMap_asFact?_iff.mpr hf)
  rw [← List.length_pos_iff]
  decide +kernel

end TagReasoner
