import TagReasoner.Proofs.Reasoning.Snapshot
import Mathlib.Data.Set.Insert

/-!
# What a cycle does to a plain memory

A memory is *plain* when the known facts are and the ready rules put out nothing but recommendations
and plain facts. Such outputs stay as they are under any solution, and one of them holds when it is
there already. So all that matters of a cycle is which rules fire: `Memory.Fired` says what the
memory is after some rules have fired, and `Plain.fired_cycle` that in a cycle those fire whose
input facts are satisfiable over the known facts, whatever the order in which they are tried. What
satisfiable means is said without the search, by one assignment under which a known fact fits each
input fact (`Rule.SatisfiableOver`); that the search decides it is
`Rule.satisfiableOver_factSet_iff`.
-/

namespace TagReasoner

/-- A recommendation or a plain fact. -/
def Tag.isPlain : Tag → Bool
  | .fact f => f.isPlain
  | .recommendation _ => true
  | .rule .. | .foreign .. => false

/-- The known facts are plain, and so are the outputs of ready rules. -/
structure Memory.Plain (m : Memory) : Prop where
  facts : ∀ f ∈ m.facts.items, f.isPlain = true
  outputs : ∀ r ∈ m.ready.items, ∀ t ∈ r.outputs, t.isPlain = true

/-- The facts that are equal to a known one. -/
def Memory.factSet (m : Memory) : Set Fact := {f | m.facts.contains f = true}

/-- Under one assignment, some fact of the set fits each input fact of the rule. -/
def Rule.SatisfiableOver (r : Rule) (X : Set Fact) : Prop :=
  ∃ v : Assignment, ∀ p ∈ r.inputFacts, ∃ f ∈ X, f.FitsUnder v p

/-- The second memory is the first after the ready rules of `F` have fired. -/
structure Memory.Fired (m : Memory) (F : Set Rule) (m' : Memory) : Prop where
  sublist : m'.ready.items.Sublist m.ready.items
  ready : ∀ r ∈ m.ready.items, r ∈ m'.ready.items ↔ r ∉ F
  active : ∀ r, m'.active.contains r = true ↔
    m.active.contains r = true ∨ ∃ q ∈ F, (q == r) = true
  facts : ∀ f, m'.facts.contains f = true ↔
    m.facts.contains f = true ∨ ∃ q ∈ F, ∃ o ∈ q.outputFacts, (o == f) = true
  recommendations : ∀ c, c ∈ m'.recommendations.items ↔
    c ∈ m.recommendations.items ∨ ∃ q ∈ F, .recommendation c ∈ q.outputs

theorem Rule.mem_outputFacts_iff {r : Rule} {f : Fact} :
    f ∈ r.outputFacts ↔ .fact f ∈ r.outputs := Tag.mem_filterMap_asFact?_iff

/-! ## Satisfiability over the known facts -/

theorem Rule.SatisfiableOver.mono {r : Rule} {X Y : Set Fact} (h : r.SatisfiableOver X)
    (hXY : X ⊆ Y) : r.SatisfiableOver Y := by
  obtain ⟨v, hv⟩ := h
  refine ⟨v, fun p hp => ?_⟩
  obtain ⟨f, hf, hfit⟩ := hv p hp
  exact ⟨f, hXY hf, hfit⟩

/-- Satisfiability over the known facts is what the search decides, in whatever order it tries
them. -/
theorem Rule.satisfiableOver_factSet_iff {m : Memory} {r : Rule} {facts : List Fact}
    (hplain : ∀ f ∈ m.facts.items, f.isPlain = true) (hperm : facts.Perm m.facts.items) :
    r.SatisfiableOver m.factSet ↔ (solve? facts r.inputFacts .empty).isSome = true := by
  rw [solve?_isSome_iff fun f hf => hplain f (hperm.mem_iff.mp hf)]
  refine exists_congr fun v => forall₂_congr fun p _ => ?_
  constructor
  · -- a fact equal to a known one fits where the known one does
    rintro ⟨f, hf, hfit⟩
    obtain ⟨g, hg, hgf⟩ := WorkingSet.contains_iff.mp hf
    exact ⟨g, hperm.mem_iff.mpr hg, hfit.congr (BEq.symm hgf)⟩
  · rintro ⟨f, hf, hfit⟩
    exact ⟨f, WorkingSet.contains_of_mem (hperm.mem_iff.mp hf), hfit⟩

/-! ## Firing rules one after another -/

namespace Memory.Fired

variable {m m' m'' : Memory} {F G : Set Rule}

theorem refl (m : Memory) : m.Fired ∅ m where
  sublist := .refl _
  ready r hr := by simp [hr]
  active r := by simp
  facts f := by simp
  recommendations c := by simp

theorem trans (h : m.Fired F m') (h' : m'.Fired G m'') : m.Fired (F ∪ G) m'' where
  sublist := h'.sublist.trans h.sublist
  ready r hr := by
    rw [Set.mem_union, not_or, ← h.ready r hr]
    constructor
    · intro hr''
      have hr' := h'.sublist.subset hr''
      exact ⟨hr', (h'.ready r hr').mp hr''⟩
    · rintro ⟨hr', hG⟩
      exact (h'.ready r hr').mpr hG
  active r := by
    rw [h'.active, h.active, or_assoc]
    simp only [Set.mem_union, or_and_right, exists_or]
  facts f := by
    rw [h'.facts, h.facts, or_assoc]
    simp only [Set.mem_union, or_and_right, exists_or]
  recommendations c := by
    rw [h'.recommendations, h.recommendations, or_assoc]
    simp only [Set.mem_union, or_and_right, exists_or]

/-- A plain memory stays plain when rules of its own fire. -/
theorem plain (h : m.Fired F m') (hF : ∀ r ∈ F, r ∈ m.ready.items) (hm : m.Plain) : m'.Plain where
  facts f hf := by
    rcases (h.facts f).mp (WorkingSet.contains_of_mem hf) with hknown | ⟨q, hq, o, ho, hof⟩
    · obtain ⟨g, hg, hgf⟩ := WorkingSet.contains_iff.mp hknown
      rw [← Fact.isPlain_congr hgf]
      exact hm.facts g hg
    · rw [← Fact.isPlain_congr hof]
      exact hm.outputs q (hF q hq) (.fact o) (Rule.mem_outputFacts_iff.mp ho)
  outputs r hr := hm.outputs r (h.sublist.subset hr)

end Memory.Fired

/-! ## Asserting plain tags -/

theorem Tag.substitute_of_isPlain {t : Tag} (ht : t.isPlain = true) (θ : Substitution) :
    t.substitute θ = t := by
  cases t with
  | fact f => rw [substitute, Fact.substitute_of_isPlain ht]
  | recommendation c => rfl
  | rule | foreign => cases ht

theorem Tag.foreignKind?_of_isPlain {t : Tag} (ht : t.isPlain = true) :
    t.foreignKind? = none := by
  cases t with
  | fact | recommendation => rfl
  | rule | foreign => cases ht

/-- Among plain facts, one that is known is one that is there. -/
theorem Memory.knows_eq_contains {m : Memory} (hm : ∀ g ∈ m.facts.items, g.isPlain = true)
    {f : Fact} (hf : f.isPlain = true) : m.knows f = m.facts.contains f := by
  rw [Bool.eq_iff_iff, knows, List.any_eq_true, WorkingSet.contains_iff]
  refine exists_congr fun g => and_congr_right fun hg => ?_
  rw [Fact.fits_eq_beq (hm g hg) hf]

/-! ## Firing rules in a cycle -/

namespace Memory

variable {m : Memory}

theorem satisfies_iff (hm : ∀ f ∈ m.facts.items, f.isPlain = true) {r : Rule} :
    m.Satisfies r ↔ r.SatisfiableOver m.factSet := by
  rw [Rule.satisfiableOver_factSet_iff hm (.refl m.facts.items), solve?_eq_head?,
    List.isSome_head?]
  exact ⟨fun ⟨_, hθ⟩ => List.ne_nil_of_mem hθ, List.exists_mem_of_ne_nil _⟩

/-- The rules that fire in a cycle are the ready ones that are satisfiable over the known facts. -/
theorem exists_mem_firings_iff (hm : m.Plain) (e : Enumeration) {r : Rule} :
    (∃ f ∈ m.firings e, f.rule = r) ↔ r ∈ m.ready.items ∧ r.SatisfiableOver m.factSet := by
  rw [exists_firing_iff, satisfies_iff hm.facts]

theorem Plain.onlyTags (hm : m.Plain) : m.OnlyTags := fun r hr =>
  Tag.firstForeignKind?_eq_none_iff.mpr fun t ht =>
    Tag.foreignKind?_of_isPlain (hm.outputs r hr t ht)

/-- What a cycle derives from a plain memory is an output of a rule that fires, as it stands. -/
theorem Plain.exists_output (hm : m.Plain) (e : Enumeration) {t : Tag}
    (ht : t ∈ (m.cycle e).derived.items) :
    t.isPlain = true ∧ ∃ f ∈ m.firings e, t ∈ f.rule.outputs := by
  obtain ⟨f, hf, o, ho, rfl⟩ := Memory.exists_output ht
  have hplain := hm.outputs f.rule (mem_firings_iff.mp hf).1 o ho
  rw [Tag.substitute_of_isPlain hplain]
  exact ⟨hplain, f, hf, ho⟩

/-- Every output of a rule that fires holds in the end, as it stands. -/
theorem Plain.holds_output (hm : m.Plain) (e : Enumeration) {f : Firing} (hf : f ∈ m.firings e)
    {t : Tag} (ht : t ∈ f.rule.outputs) : (m.cycle e).memory.holds t = true := by
  have hheld := (hm.onlyTags.firesFrom e).held f hf t ht
  rwa [Tag.substitute_of_isPlain (hm.outputs f.rule (mem_firings_iff.mp hf).1 t ht)] at hheld

theorem Plain.facts_cycle (hm : m.Plain) (e : Enumeration) :
    ∀ f ∈ (m.cycle e).memory.facts.items, f.isPlain = true := by
  intro f hf
  rw [(hm.onlyTags.firesFrom e).facts, List.mem_append, Tag.mem_filterMap_asFact?_iff] at hf
  rcases hf with hf | hf
  · exact hm.facts f hf
  · exact (hm.exists_output e hf).1

/-- A cycle fires the ready rules whose input facts are satisfiable over the known facts. -/
theorem Plain.fired_cycle (hm : m.Plain) (e : Enumeration) :
    m.Fired {r | r ∈ m.ready.items ∧ r.SatisfiableOver m.factSet} (m.cycle e).memory := by
  have hfires := hm.onlyTags.firesFrom e
  have hfired : ∀ r, (∃ f ∈ m.firings e, f.rule = r) ↔
      r ∈ {r | r ∈ m.ready.items ∧ r.SatisfiableOver m.factSet} :=
    fun r => exists_mem_firings_iff hm e
  -- no rule is derived, so the ready rules are what the cycle has left of them
  have hready : (m.cycle e).memory.ready.items.Sublist m.ready.items := by
    have hnone : (m.cycle e).derived.items.filterMap Tag.asRule? = [] :=
      List.filterMap_eq_nil_iff.mpr fun t ht => by
        have hplain := (hm.exists_output e ht).1
        cases t with
        | fact | recommendation => rfl
        | rule | foreign => cases hplain
    have hitems : (m.cycle e).memory.ready.items = _ := (hm.onlyTags.cycle_after e).ready
    rw [hitems, hnone, List.append_nil]
    exact List.filter_sublist
  refine ⟨hready, fun r hr => ?_, fun r => ?_, fun f => ?_, fun c => ?_⟩
  · rw [← hfired, ← hfires.unfired r hr]
    refine ⟨WorkingSet.contains_of_mem, fun hcontains => ?_⟩
    obtain ⟨q, hq, hqr⟩ := WorkingSet.contains_iff.mp hcontains
    rwa [← WorkingSet.eq_of_beq_of_mem (hready.subset hq) hr hqr]
  · rw [hfires.active]
    simp only [← hfired, exists_exists_and_eq_and]
  · constructor
    · intro hcontains
      obtain ⟨g, hg, hgf⟩ := WorkingSet.contains_iff.mp hcontains
      rw [hfires.facts, List.mem_append, Tag.mem_filterMap_asFact?_iff] at hg
      rcases hg with hg | hg
      · exact .inl (WorkingSet.contains_iff.mpr ⟨g, hg, hgf⟩)
      · obtain ⟨-, q, hq, hqg⟩ := hm.exists_output e hg
        exact .inr ⟨q.rule, (hfired _).mp ⟨q, hq, rfl⟩, g, Rule.mem_outputFacts_iff.mpr hqg, hgf⟩
    · rintro (hknown | ⟨r, hr, o, ho, hof⟩)
      · obtain ⟨g, hg, hgf⟩ := WorkingSet.contains_iff.mp hknown
        refine WorkingSet.contains_iff.mpr ⟨g, ?_, hgf⟩
        rw [hfires.facts]
        exact List.mem_append_left _ hg
      · obtain ⟨q, hq, rfl⟩ := (hfired r).mpr hr
        have ho := Rule.mem_outputFacts_iff.mp ho
        have hheld := hm.holds_output e hq ho
        have hplain : o.isPlain = true := hm.outputs q.rule (mem_firings_iff.mp hq).1 _ ho
        rw [holds, knows_eq_contains (hm.facts_cycle e) hplain] at hheld
        rw [← WorkingSet.contains_congr hof, hheld]
  · constructor
    · intro hc
      rw [hfires.recommendations, List.mem_append, Tag.mem_filterMap_asRecommendation?_iff] at hc
      refine hc.imp_right fun hc => ?_
      obtain ⟨-, q, hq, hqc⟩ := hm.exists_output e hc
      exact ⟨q.rule, (hfired _).mp ⟨q, hq, rfl⟩, hqc⟩
    · rintro (hmade | ⟨r, hr, hrc⟩)
      · rw [hfires.recommendations]
        exact List.mem_append_left _ hmade
      · obtain ⟨q, hq, rfl⟩ := (hfired r).mpr hr
        exact WorkingSet.contains_iff_mem.mp (hm.holds_output e hq hrc)

end Memory

end TagReasoner
