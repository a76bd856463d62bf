import TagReasoner.Reasoning.ExpertSystem
import TagReasoner.Proofs.Collection.WorkingSet
import TagReasoner.Proofs.Matching.Satisfaction

/-!
# What a cycle does to any memory

Here the memory may hold facts with variables, rules that put out rules, and rules that are ready
and active at once. `Progress.After` says all that the steps of a cycle can do, a step at a time:
the four sets afterwards are written down in terms of the rules activated and of the tags derived.
Invariants of a cycle, of a run and of a system are read off it.

A cycle fires the ready rules that are satisfiable over the facts known at its start, each with the
first solution found, and reports exactly the tags that it has added
(`cycle_fires_snapshot`).
-/

namespace TagReasoner

/-! ## Tags of one kind -/

namespace Tag

variable {ts : List Tag}

theorem mem_filterMap_asFact?_iff {f : Fact} : f ∈ ts.filterMap asFact? ↔ .fact f ∈ ts := by
  rw [List.mem_filterMap]
  constructor
  · rintro ⟨t, ht, htf⟩
    cases t <;> cases htf
    exact ht
  · exact fun hf => ⟨.fact f, hf, rfl⟩

theorem mem_filterMap_asRecommendation?_iff {c : Recommendation} :
    c ∈ ts.filterMap asRecommendation? ↔ .recommendation c ∈ ts := by
  rw [List.mem_filterMap]
  constructor
  · rintro ⟨t, ht, htc⟩
    cases t <;> cases htc
    exact ht
  · exact fun hc => ⟨.recommendation c, hc, rfl⟩

theorem mem_filterMap_asRule?_iff {r : Rule} : r ∈ ts.filterMap asRule? ↔ r.toTag ∈ ts := by
  rw [List.mem_filterMap]
  constructor
  · rintro ⟨t, ht, htr⟩
    cases t <;> cases htr
    exact ht
  · exact fun hr => ⟨r.toTag, hr, rfl⟩

end Tag

/-! ## What holds, holds on -/

namespace Memory

variable {m : Memory} {t : Tag}

/-- A fact that is there is known. The converse fails: what is known may be more general. -/
theorem knows_of_contains {f : Fact} (h : m.facts.contains f = true) : m.knows f = true := by
  obtain ⟨g, hg, hgf⟩ := WorkingSet.contains_iff.mp h
  exact List.any_eq_true.mpr ⟨g, hg, Fact.fits_of_beq hgf⟩

/-- A tag holds once it has been added. -/
theorem holds_add_self (m : Memory) (t : Tag) : (m.add t).holds t = true := by
  cases t with
  | fact f => exact knows_of_contains (WorkingSet.contains_insert.mpr (.inr (BEq.refl f)))
  | recommendation r => exact WorkingSet.contains_insert.mpr (.inr (BEq.refl r))
  | rule i o =>
    show ((m.ready.insert ⟨i, o⟩).contains ⟨i, o⟩ || m.active.contains ⟨i, o⟩) = true
    rw [WorkingSet.contains_insert.mpr (.inr (BEq.refl _)), Bool.true_or]
  | foreign => rfl

theorem holds_add (h : m.holds t = true) (u : Tag) : (m.add u).holds t = true := by
  cases t with
  | fact f =>
    obtain ⟨g, hg, hgf⟩ := List.any_eq_true.mp h
    refine List.any_eq_true.mpr ⟨g, ?_, hgf⟩
    cases u with
    | fact f' => exact WorkingSet.subset_insert _ f' hg
    | recommendation | rule | foreign => exact hg
  | recommendation r =>
    cases u with
    | recommendation r' => exact WorkingSet.contains_insert.mpr (.inl h)
    | fact | rule | foreign => exact h
  | rule i o =>
    cases u with
    | rule i' o' =>
      rw [holds, hasRule, Bool.or_eq_true] at h ⊢
      exact h.imp (fun h => WorkingSet.contains_insert.mpr (.inl h)) id
    | fact | recommendation | foreign => exact h
  | foreign => rfl

/-- A rule that is activated goes from one of the two sets of rules to the other. -/
theorem holds_activate (h : m.holds t = true) (r : Rule) : (m.activate r).holds t = true := by
  cases t with
  | fact | recommendation => exact h
  | rule i o =>
    rw [holds, hasRule, Bool.or_eq_true] at h ⊢
    cases hr : r == ⟨i, o⟩ with
    | true => exact .inr (WorkingSet.contains_insert.mpr (.inr hr))
    | false =>
      exact h.imp (fun h => WorkingSet.contains_erase.mpr ⟨h, hr⟩)
        (fun h => WorkingSet.contains_insert.mpr (.inl h))
  | foreign => rfl

/-- A tag that does not hold comes last in its set. -/
theorem add_of_not_holds (h : m.holds t = false) :
    (m.add t).ready.items = m.ready.items ++ [t].filterMap Tag.asRule? ∧
      (m.add t).active = m.active ∧
      (m.add t).facts.items = m.facts.items ++ [t].filterMap Tag.asFact? ∧
      (m.add t).recommendations.items =
        m.recommendations.items ++ [t].filterMap Tag.asRecommendation? := by
  cases t with
  | fact f =>
    have hf : ¬ m.facts.contains f = true := fun hf => by
      rw [holds, knows_of_contains hf] at h
      cases h
    refine ⟨(List.append_nil _).symm, rfl, ?_, (List.append_nil _).symm⟩
    exact (WorkingSet.items_insert ..).trans (if_neg hf)
  | recommendation r =>
    refine ⟨(List.append_nil _).symm, rfl, (List.append_nil _).symm, ?_⟩
    exact (WorkingSet.items_insert ..).trans (if_neg (Bool.eq_false_iff.mp h))
  | rule i o =>
    have hr : m.ready.contains ⟨i, o⟩ = false := (Bool.or_eq_false_iff.mp h).1
    refine ⟨?_, rfl, (List.append_nil _).symm, (List.append_nil _).symm⟩
    exact (WorkingSet.items_insert ..).trans (if_neg (Bool.eq_false_iff.mp hr))
  | foreign => cases h

end Memory

/-! ## The steps of a cycle -/

/-- The rule that a step makes active. -/
def Step.activated? : Step → Option Rule
  | .activate rule => some rule
  | .assert .. => none

/-- The tag that a step asserts. -/
def Step.asserted? : Step → Option Tag
  | .activate _ => none
  | .assert solution output => some (output.substitute solution)

/-- The memory was `m`; since then the rules `rules` have been activated and the tags `tags`
asserted. -/
structure Progress.After (m : Memory) (rules : List Rule) (tags : List Tag) (p : Progress) :
    Prop where
  /-- The ready rules that were not activated, and after them the derived ones. -/
  ready : p.memory.ready.items =
    (m.ready.items.filter fun r => !rules.any (r == ·)) ++ p.derived.items.filterMap Tag.asRule?
  active : ∀ r, p.memory.active.contains r = true ↔
    m.active.contains r = true ∨ ∃ q ∈ rules, (q == r) = true
  facts : p.memory.facts.items = m.facts.items ++ p.derived.items.filterMap Tag.asFact?
  recommendations : p.memory.recommendations.items =
    m.recommendations.items ++ p.derived.items.filterMap Tag.asRecommendation?
  /-- What held before still holds. -/
  kept : ∀ t, m.holds t = true → p.memory.holds t = true
  /-- What has been asserted holds. -/
  held : ∀ t ∈ tags, p.memory.holds t = true
  /-- What has been derived did not hold before. -/
  new : ∀ t ∈ p.derived.items, m.holds t = false
  derived : p.derived.items.Sublist tags

namespace Progress.After

variable {m : Memory} {rules : List Rule} {tags : List Tag} {p : Progress}

theorem start (m : Memory) : After m [] [] ⟨m, .empty⟩ where
  ready := by simp [WorkingSet.empty]
  active r := by simp
  facts := by simp [WorkingSet.empty]
  recommendations := by simp [WorkingSet.empty]
  kept _ h := h
  held := by simp
  new := by simp [WorkingSet.empty]
  derived := .refl _

/-- A tag equal to a derived one holds. -/
theorem holds_of_derived (h : After m rules tags p) {t : Tag}
    (ht : p.derived.contains t = true) : p.memory.holds t = true := by
  obtain ⟨u, hu, hut⟩ := WorkingSet.contains_iff.mp ht
  cases u with
  | fact g =>
    cases t with
    | fact f =>
      have hg : g ∈ p.memory.facts.items := by
        rw [h.facts]
        exact List.mem_append_right _ (Tag.mem_filterMap_asFact?_iff.mpr hu)
      exact Memory.knows_of_contains (WorkingSet.contains_iff.mpr ⟨g, hg, hut⟩)
    | recommendation | rule | foreign => cases hut
  | recommendation d =>
    cases t with
    | recommendation c =>
      have hd : d ∈ p.memory.recommendations.items := by
        rw [h.recommendations]
        exact List.mem_append_right _ (Tag.mem_filterMap_asRecommendation?_iff.mpr hu)
      exact WorkingSet.contains_iff.mpr ⟨d, hd, hut⟩
    | fact | rule | foreign => cases hut
  | rule i o =>
    cases t with
    | rule j q =>
      have hr : ⟨i, o⟩ ∈ p.memory.ready.items := by
        rw [h.ready]
        exact List.mem_append_right _ (Tag.mem_filterMap_asRule?_iff.mpr hu)
      rw [Memory.holds, Memory.hasRule, WorkingSet.contains_iff.mpr ⟨⟨i, o⟩, hr, hut⟩]
      rfl
    | fact | recommendation | foreign => cases hut
  | foreign =>
    cases t with
    | foreign => rfl
    | fact | recommendation | rule => cases hut

/-- A ready rule is activated, which has not been before. -/
theorem activate (h : After m rules tags p) {r : Rule} (hr : r ∈ m.ready.items)
    (hnew : ∀ q ∈ rules, (r == q) = false) :
    After m (rules ++ [r]) tags (p.take (.activate r)) where
  ready := by
    have hready : r ∈ m.ready.items.filter fun r => !rules.any (r == ·) := by
      rw [List.mem_filter, Bool.not_eq_true', List.any_eq_false]
      exact ⟨hr, fun q hq => by rw [hnew q hq]; exact Bool.false_ne_true⟩
    -- a derived rule is none of those that were ready before, so it is not taken for `r`
    have hderived : ∀ q ∈ p.derived.items.filterMap Tag.asRule?, (r == q) = false := by
      have hdistinct := p.memory.ready.distinct
      rw [h.ready, List.pairwise_append] at hdistinct
      exact hdistinct.2.2 r hready
    show (p.memory.ready.items.filter fun x => !(x == r)) = _
    rw [h.ready, List.filter_append, List.filter_filter]
    congr 1
    · refine List.filter_congr fun q _ => ?_
      rw [List.any_append, List.any_cons, List.any_nil, Bool.or_false, Bool.not_or, Bool.and_comm]
    · refine List.filter_eq_self.mpr fun q hq => ?_
      rw [BEq.comm, hderived q hq]
      rfl
  active q := by
    show (p.memory.active.insert r).contains q = true ↔ _
    rw [WorkingSet.contains_insert, h.active, or_assoc]
    simp only [List.mem_append, List.mem_singleton, or_and_right, exists_or, exists_eq_left]
  facts := h.facts
  recommendations := h.recommendations
  kept t ht := Memory.holds_activate (h.kept t ht) r
  held t ht := Memory.holds_activate (h.held t ht) r
  new := h.new
  derived := h.derived

/-- A tag is asserted: it holds already, or it is added and derived. -/
theorem assert (h : After m rules tags p) (θ : Substitution) (o : Tag) :
    After m rules (tags ++ [o.substitute θ]) (p.take (.assert θ o)) := by
  rw [take]
  generalize o.substitute θ = t
  have hheld : ∀ m' : Memory, m'.holds t = true → (∀ u ∈ tags, m'.holds u = true) →
      ∀ u ∈ tags ++ [t], m'.holds u = true := fun m' ht htags => by
    rw [List.forall_mem_append, List.forall_mem_singleton]
    exact ⟨htags, ht⟩
  cases ht : p.memory.holds t with
  | true =>
    rw [if_pos rfl]
    exact { h with
      held := hheld p.memory ht h.held
      derived := h.derived.trans (List.sublist_append_left ..) }
  | false =>
    rw [if_neg Bool.false_ne_true]
    obtain ⟨hready, hactive, hfacts, hrecommendations⟩ := Memory.add_of_not_holds ht
    have hderived : (p.derived.insert t).items = p.derived.items ++ [t] := by
      rw [WorkingSet.items_insert, if_neg]
      intro hcontains
      rw [h.holds_of_derived hcontains] at ht
      cases ht
    refine ⟨?_, fun r => ?_, ?_, ?_, fun u hu => Memory.holds_add (h.kept u hu) t,
      hheld _ (Memory.holds_add_self p.memory t) (fun u hu => Memory.holds_add (h.held u hu) t),
      ?_, ?_⟩
    · rw [hready, h.ready, hderived, List.filterMap_append, List.append_assoc]
    · rw [hactive, h.active]
    · rw [hfacts, h.facts, hderived, List.filterMap_append, List.append_assoc]
    · rw [hrecommendations, h.recommendations, hderived, List.filterMap_append,
        List.append_assoc]
    · rw [hderived, List.forall_mem_append, List.forall_mem_singleton]
      -- what did hold at the start would still hold
      exact ⟨h.new, Bool.eq_false_iff.mpr fun hm => by rw [h.kept t hm] at ht; cases ht⟩
    · rw [hderived]
      exact h.derived.append (.refl _)

/-- Steps that activate different ready rules are taken. -/
theorem foldl (h : After m rules tags p) {steps : List Step}
    (hready : ∀ r ∈ steps.filterMap Step.activated?, r ∈ m.ready.items)
    (hdistinct : (rules ++ steps.filterMap Step.activated?).Pairwise fun q r => (q == r) = false) :
    After m (rules ++ steps.filterMap Step.activated?) (tags ++ steps.filterMap Step.asserted?)
      (steps.foldl take p) := by
  induction steps generalizing rules tags p with
  | nil => simpa using h
  | cons step steps ih =>
    cases step with
    | activate r =>
      have hrules : (Step.activate r :: steps).filterMap Step.activated? =
          r :: steps.filterMap Step.activated? := rfl
      rw [hrules, List.forall_mem_cons] at hready
      rw [hrules, List.append_cons] at hdistinct ⊢
      have hnew : ∀ q ∈ rules, (r == q) = false := fun q hq => by
        rw [BEq.comm]
        exact (List.pairwise_append.mp (List.pairwise_append.mp hdistinct).1).2.2 q hq r
          (List.mem_singleton_self r)
      exact ih (h.activate hready.1 hnew) hready.2 hdistinct
    | assert θ o =>
      have htags : (Step.assert θ o :: steps).filterMap Step.asserted? =
          o.substitute θ :: steps.filterMap Step.asserted? := rfl
      rw [htags, List.append_cons]
      exact ih (h.assert θ o) hready hdistinct

end Progress.After

/-! ## What fires -/

/-- The input facts of the rule have a solution over the known facts. -/
def Memory.Satisfies (m : Memory) (r : Rule) : Prop :=
  ∃ θ, θ ∈ solutions m.facts.items r.inputFacts .empty

/-- The steps that a cycle takes, which are those up to the first that is refused. -/
def Memory.stepsTaken (m : Memory) (e : Enumeration) : List Step :=
  ((m.firings e).flatMap Firing.steps).takeWhile fun s => s.refusal?.isNone

/-- The tags that a firing asserts. -/
def Firing.tags (f : Firing) : List Tag := f.rule.outputs.map (Tag.substitute f.solution)

theorem Firing.filterMap_activated? (f : Firing) :
    f.steps.filterMap Step.activated? = [f.rule] := by
  have hnone : (f.rule.outputs.map (Step.assert f.solution)).filterMap Step.activated? = [] := by
    rw [List.filterMap_map]
    exact List.filterMap_eq_nil_iff.mpr fun _ _ => rfl
  show f.rule :: (f.rule.outputs.map (Step.assert f.solution)).filterMap Step.activated? = _
  rw [hnone]

theorem Firing.filterMap_asserted? (f : Firing) : f.steps.filterMap Step.asserted? = f.tags := by
  show (f.rule.outputs.map (Step.assert f.solution)).filterMap Step.asserted? = _
  rw [List.filterMap_map, tags, ← List.filterMap_eq_map]
  rfl

namespace Memory

variable {m : Memory} {e : Enumeration}

theorem mem_firings_iff {f : Firing} : f ∈ m.firings e ↔ f.rule ∈ m.ready.items ∧
    (solutions (e.facts m) f.rule.inputFacts .empty).head? = some f.solution := by
  rw [firings, List.mem_filterMap, ← (e.rules_perm m).mem_iff]
  constructor
  · rintro ⟨r, hr, hf⟩
    obtain ⟨θ, hθ, rfl⟩ := Option.map_eq_some_iff.mp hf
    exact ⟨hr, by rw [← solve?_eq_head?]; exact hθ⟩
  · rintro ⟨hr, hf⟩
    exact ⟨f.rule, hr, by rw [solve?_eq_head?, hf]; rfl⟩

/-- In whatever order rules and facts are tried, the ready rules that are satisfiable fire. -/
theorem exists_firing_iff {r : Rule} :
    (∃ f ∈ m.firings e, f.rule = r) ↔ r ∈ m.ready.items ∧ m.Satisfies r := by
  have hfacts := e.facts_perm m
  constructor
  · rintro ⟨f, hf, rfl⟩
    obtain ⟨hready, hfirst⟩ := mem_firings_iff.mp hf
    exact ⟨hready, f.solution, solutions_subset hfacts.subset (List.mem_of_head? hfirst)⟩
  · rintro ⟨hready, θ, hθ⟩
    have hθ' := solutions_subset hfacts.symm.subset hθ
    obtain ⟨θ₀, hfirst⟩ := Option.isSome_iff_exists.mp
      (List.isSome_head?.mpr (List.ne_nil_of_mem hθ'))
    exact ⟨⟨r, θ₀⟩, mem_firings_iff.mpr ⟨hready, hfirst⟩, rfl⟩

/-- No rule fires twice in a cycle. -/
theorem firings_distinct (m : Memory) (e : Enumeration) :
    ((m.firings e).map (·.rule)).Pairwise fun q r => (q == r) = false := by
  have hsymm : ∀ {q r : Rule}, (q == r) = false → (r == q) = false := fun h => by rwa [BEq.comm]
  have hrules : (e.rules m).Pairwise fun q r => (q == r) = false :=
    ((e.rules_perm m).pairwise_iff hsymm).mpr m.ready.distinct
  rw [firings, List.pairwise_map, List.pairwise_filterMap]
  refine hrules.imp fun {q r} hqr f hf g hg => ?_
  obtain ⟨_, -, rfl⟩ := Option.map_eq_some_iff.mp hf
  obtain ⟨_, -, rfl⟩ := Option.map_eq_some_iff.mp hg
  exact hqr

theorem filterMap_activated?_flatMap (fs : List Firing) :
    (fs.flatMap Firing.steps).filterMap Step.activated? = fs.map (·.rule) := by
  rw [List.filterMap_flatMap, List.map_eq_flatMap]
  exact List.flatMap_congr fun f _ => f.filterMap_activated?

theorem stepsTaken_prefix_steps (m : Memory) (e : Enumeration) :
    m.stepsTaken e <+: (m.firings e).flatMap Firing.steps :=
  List.takeWhile_prefix _

/-- A cycle activates some of the rules that fire, all of them unless a step is refused. -/
theorem activated_prefix_rules (m : Memory) (e : Enumeration) :
    (m.stepsTaken e).filterMap Step.activated? <+: (m.firings e).map (·.rule) := by
  rw [← filterMap_activated?_flatMap]
  exact (m.stepsTaken_prefix_steps e).filterMap _

theorem mem_ready_of_activated {r : Rule} (hr : r ∈ (m.stepsTaken e).filterMap Step.activated?) :
    r ∈ m.ready.items := by
  obtain ⟨f, hf, rfl⟩ := List.mem_map.mp ((activated_prefix_rules m e).subset hr)
  exact (mem_firings_iff.mp hf).1

/-- What a cycle does, refused or not. -/
theorem cycle_after (m : Memory) (e : Enumeration) :
    Progress.After m ((m.stepsTaken e).filterMap Step.activated?)
      ((m.stepsTaken e).filterMap Step.asserted?) ⟨(m.cycle e).memory, (m.cycle e).derived⟩ := by
  exact (Progress.After.start m).foldl (fun _ => mem_ready_of_activated)
    ((firings_distinct m e).sublist (activated_prefix_rules m e).sublist)

/-- Where a derived tag comes from. -/
theorem exists_output {t : Tag} (ht : t ∈ (m.cycle e).derived.items) :
    ∃ f ∈ m.firings e, ∃ o ∈ f.rule.outputs, t = o.substitute f.solution := by
  have hasserted := (m.cycle_after e).derived.subset ht
  have hsteps := ((m.stepsTaken_prefix_steps e).filterMap Step.asserted?).subset hasserted
  rw [List.filterMap_flatMap, List.mem_flatMap] at hsteps
  obtain ⟨f, hf, ht⟩ := hsteps
  rw [f.filterMap_asserted?] at ht
  obtain ⟨o, ho, rfl⟩ := List.mem_map.mp ht
  exact ⟨f, hf, o, ho, rfl⟩

theorem stepsTaken_of_completed (h : (m.cycle e).refused = none) :
    m.stepsTaken e = (m.firings e).flatMap Firing.steps := by
  rw [stepsTaken, List.takeWhile_eq_self_iff]
  intro s hs
  rw [List.findSome?_eq_none_iff.mp h s hs]
  rfl

/-- Unless a step is refused, every rule that fires becomes active and asserts all its outputs. -/
theorem cycle_after_of_completed (h : (m.cycle e).refused = none) :
    Progress.After m ((m.firings e).map (·.rule)) ((m.firings e).flatMap Firing.tags)
      ⟨(m.cycle e).memory, (m.cycle e).derived⟩ := by
  have hafter := m.cycle_after e
  have htags : (m.stepsTaken e).filterMap Step.asserted? = (m.firings e).flatMap Firing.tags := by
    rw [stepsTaken_of_completed h, List.filterMap_flatMap]
    exact List.flatMap_congr fun f _ => f.filterMap_asserted?
  rwa [htags, stepsTaken_of_completed h, filterMap_activated?_flatMap] at hafter

end Memory

/-! ## Rules that put out tags only -/

namespace Tag

theorem firstForeignKind?_eq_none_iff {ts : List Tag} :
    firstForeignKind? ts = none ↔ ∀ t ∈ ts, t.foreignKind? = none := by
  induction ts with
  | nil => simp [firstForeignKind?]
  | cons t ts ih => rw [firstForeignKind?, Option.or_eq_none_iff, ih, List.forall_mem_cons]

end Tag

/-- The ready rules put out nothing but tags, at whatever depth. -/
def Memory.OnlyTags (m : Memory) : Prop :=
  ∀ r ∈ m.ready.items, Tag.firstForeignKind? r.outputs = none

instance (m : Memory) : Decidable m.OnlyTags :=
  inferInstanceAs (Decidable (∀ r ∈ m.ready.items, Tag.firstForeignKind? r.outputs = none))

theorem Step.refusal?_assert {θ : Substitution} {o : Tag} (ho : o.foreignKind? = none) :
    (Step.assert θ o).refusal? = none := by
  have hsubstitution : o.substitutionRefusal? θ = none := by
    rw [Tag.substitutionRefusal?, ho, ite_self]
  cases o with
  | foreign => cases ho
  | fact | recommendation | rule => exact Option.or_none.trans hsubstitution

namespace Memory.OnlyTags

variable {m : Memory} (h : m.OnlyTags) (e : Enumeration)
include h

theorem foreignKind?_output {f : Firing} (hf : f ∈ m.firings e) :
    ∀ o ∈ f.rule.outputs, o.foreignKind? = none :=
  Tag.firstForeignKind?_eq_none_iff.mp (h f.rule (mem_firings_iff.mp hf).1)

theorem refusal?_eq_none : ∀ s ∈ (m.firings e).flatMap Firing.steps, s.refusal? = none := by
  intro s hs
  obtain ⟨f, hf, hs⟩ := List.mem_flatMap.mp hs
  rcases List.mem_cons.mp hs with rfl | hs
  · rfl
  · obtain ⟨o, ho, rfl⟩ := List.mem_map.mp hs
    exact Step.refusal?_assert (h.foreignKind?_output e hf o ho)

theorem refused_eq_none : (m.cycle e).refused = none :=
  List.findSome?_eq_none_iff.mpr (h.refusal?_eq_none e)

/-- Nothing is refused, so every rule that fires becomes active and asserts all its outputs. -/
theorem cycle_after : Progress.After m ((m.firings e).map (·.rule))
    ((m.firings e).flatMap Firing.tags) ⟨(m.cycle e).memory, (m.cycle e).derived⟩ :=
  cycle_after_of_completed (h.refused_eq_none e)

theorem cycle : (m.cycle e).memory.OnlyTags := by
  intro r hr
  rw [(h.cycle_after e).ready, List.mem_append, Tag.mem_filterMap_asRule?_iff] at hr
  rcases hr with hr | hr
  · exact h r (List.mem_filter.mp hr).1
  · obtain ⟨f, hf, o, ho, hro⟩ := exists_output hr
    have hforeign : r.toTag.foreignKind? = none := by
      rw [hro, o.foreignKind?_substitute, h.foreignKind?_output e hf o ho]
    exact (Option.or_eq_none_iff.mp hforeign).2

end Memory.OnlyTags

/-! ## The whole cycle -/

/-- The cycle started from the memory `m` and fired the rules of `fired`. -/
structure Cycle.FiresFrom (c : Cycle) (m : Memory) (e : Enumeration) (fired : List Firing) :
    Prop where
  /-- The rules that fired are the ready ones that the known facts satisfied. -/
  satisfied : ∀ r, (∃ f ∈ fired, f.rule = r) ↔ r ∈ m.ready.items ∧ m.Satisfies r
  /-- Each fired with the first solution of its input facts. -/
  first : ∀ f ∈ fired,
    (solutions (e.facts m) f.rule.inputFacts .empty).head? = some f.solution
  /-- The fired rules have become active. -/
  active : ∀ r, c.memory.active.contains r = true ↔
    m.active.contains r = true ∨ ∃ f ∈ fired, (f.rule == r) = true
  /-- Of the rules that were ready, those that have not fired still are. -/
  unfired : ∀ r ∈ m.ready.items, c.memory.ready.contains r = true ↔ ¬ ∃ f ∈ fired, f.rule = r
  /-- What was ready or active still is. -/
  kept : ∀ r, m.hasRule r = true → c.memory.hasRule r = true
  /-- The known facts are those from before and the derived ones. -/
  facts : c.memory.facts.items = m.facts.items ++ c.derived.items.filterMap Tag.asFact?
  /-- The recommendations are those from before and the derived ones. -/
  recommendations : c.memory.recommendations.items =
    m.recommendations.items ++ c.derived.items.filterMap Tag.asRecommendation?
  /-- A rule is ready that was before and has not fired, or that is derived. -/
  ready : ∀ r, r ∈ c.memory.ready.items ↔
    (r ∈ m.ready.items ∧ ¬ ∃ f ∈ fired, f.rule = r) ∨ r.toTag ∈ c.derived.items
  /-- What is derived is new, and is an output of a fired rule with its solution put in. -/
  derived : ∀ t ∈ c.derived.items, m.holds t = false ∧
    ∃ f ∈ fired, ∃ o ∈ f.rule.outputs, t = o.substitute f.solution
  /-- Every output of a fired rule is known, recommended, ready or active in the end. -/
  held : ∀ f ∈ fired, ∀ o ∈ f.rule.outputs, c.memory.holds (o.substitute f.solution) = true

/-- A rule equal to one that fires in the cycle is that rule, if it was ready. -/
theorem Memory.any_firings_iff {m : Memory} {e : Enumeration} {r : Rule}
    (hr : r ∈ m.ready.items) :
    ((m.firings e).map (·.rule)).any (r == ·) = true ↔ ∃ f ∈ m.firings e, f.rule = r := by
  rw [List.any_map, List.any_eq_true]
  refine exists_congr fun f => and_congr_right fun hf => ⟨fun h => ?_, fun h => ?_⟩
  · exact (WorkingSet.eq_of_beq_of_mem hr (mem_firings_iff.mp hf).1 h).symm
  · rw [← h]
    exact BEq.refl f.rule

theorem Memory.OnlyTags.firesFrom {m : Memory} (h : m.OnlyTags) (e : Enumeration) :
    (m.cycle e).FiresFrom m e (m.firings e) := by
  have hafter := h.cycle_after e
  have hready : ∀ r, r ∈ (m.cycle e).memory.ready.items ↔
      (r ∈ m.ready.items ∧ ¬ ∃ f ∈ m.firings e, f.rule = r) ∨
        r.toTag ∈ (m.cycle e).derived.items := fun r => by
    rw [hafter.ready, List.mem_append, List.mem_filter, Bool.not_eq_true',
      Tag.mem_filterMap_asRule?_iff]
    refine or_congr_left (and_congr_right fun hr => ?_)
    rw [← any_firings_iff hr, Bool.not_eq_true]
  refine ⟨fun r => exists_firing_iff, fun f hf => (mem_firings_iff.mp hf).2, fun r => ?_,
    fun r hr => ?_, fun r hr => hafter.kept r.toTag hr, hafter.facts, hafter.recommendations,
    hready, fun t ht => ⟨hafter.new t ht, exists_output ht⟩, fun f hf o ho => ?_⟩
  · rw [hafter.active]
    simp only [List.mem_map, exists_exists_and_eq_and]
  · constructor
    · intro hcontains
      obtain ⟨q, hq, hqr⟩ := WorkingSet.contains_iff.mp hcontains
      rcases (hready q).mp hq with ⟨hq, hunfired⟩ | hq
      · rwa [← WorkingSet.eq_of_beq_of_mem hq hr hqr]
      · -- a derived rule is not equal to one that was ready before
        have hnew : m.hasRule q = false := hafter.new q.toTag hq
        rw [Memory.hasRule, WorkingSet.contains_congr hqr, WorkingSet.contains_of_mem hr] at hnew
        cases hnew
    · exact fun hunfired => WorkingSet.contains_of_mem ((hready r).mpr (.inl ⟨hr, hunfired⟩))
  · exact hafter.held _ (List.mem_flatMap.mpr ⟨f, hf, List.mem_map_of_mem ho⟩)

/-- One cycle fires the ready rules that are satisfiable over the facts known at its start, whatever
it derives, and answers with exactly the tags that it has added. -/
theorem cycle_fires_snapshot {s : ExpertSystem} (hs : s.memory.OnlyTags) (e : Enumeration) :
    ∃ fired, (s.memory.cycle e).FiresFrom s.memory e fired ∧
      (s.perform e .thinkCycle).state = s.withMemory (s.memory.cycle e).memory ∧
      (s.perform e .thinkCycle).result = .ok (.tags (s.memory.cycle e).derived.items) := by
  refine ⟨s.memory.firings e, hs.firesFrom e, rfl, ?_⟩
  simp only [ExpertSystem.perform, ExpertSystem.thinkCycle, hs.refused_eq_none e]

/-- A rule that puts out rules, one of which is ready already. The cycle makes that one satisfiable,
but it was not at the start and waits for the next cycle. -/
theorem cycle_fires_snapshot_nested_rules :
    let fact := fun (p : Char) (a : Argument) => Tag.fact ⟨[p], [a], .certain⟩
    let x := Argument.named ['x'] .single []
    let y := Argument.named ['y'] .single []
    let waiting : Rule := ⟨[fact 'B' y], [.recommendation ⟨['@', 'g', 'o'], rfl⟩]⟩
    let fires : Rule :=
      ⟨[fact 'A' x], [fact 'B' x, .rule [fact 'C' x] [fact 'D' x], waiting.toTag]⟩
    let s : ExpertSystem :=
      { memory :=
          { ready := .ofList [waiting, fires]
            active := .empty
            facts := .ofList [⟨['A'], [.literal ['a']], .certain⟩,
              ⟨['A'], [.number (.ofNat 3) .gt], .certain⟩]
            recommendations := .empty }
        cycleCap := 4
        restPasses := 1 }
    let c := s.memory.cycle .oldestFirst
    s.memory.Satisfies fires ∧ ¬ s.memory.Satisfies waiting ∧
      (s.perform .oldestFirst .thinkCycle).result = .ok (.tags c.derived.items) ∧
      c.derived.items.map Tag.text = ["B(a)".toList, "C(a)=>D(a)".toList] ∧
      c.memory.facts.items.map Fact.text = ["A(a)".toList, "A(>3)".toList, "B(a)".toList] ∧
      c.memory.active.items.map Rule.text = [fires.text] ∧
      c.memory.ready.items.map Rule.text = ["B(?y)=>@go".toList, "C(a)=>D(a)".toList] := by
  intro fact x y waiting fires s c
  obtain ⟨fired, hfired, -, hresult⟩ :=
    cycle_fires_snapshot (s := s) (by decide +kernel) .oldestFirst
  have hready : s.memory.ready.items = [waiting, fires] :=
    WorkingSet.items_ofList (by decide +kernel)
  have hfires : fires ∈ s.memory.ready.items := by simp [hready]
  have hwaiting : waiting ∈ s.memory.ready.items := by simp [hready]
  refine ⟨?_, fun hsatisfied => ?_, hresult, by decide +kernel, by decide +kernel,
    by decide +kernel, by decide +kernel⟩
  · have hgone : ¬ c.memory.ready.contains fires = true := by decide +kernel
    rw [hfired.unfired fires hfires, not_not, hfired.satisfied] at hgone
    exact hgone.2
  · have hleft : c.memory.ready.contains waiting = true := by decide +kernel
    rw [hfired.unfired waiting hwaiting, hfired.satisfied] at hleft
    exact hleft ⟨hwaiting, hsatisfied⟩

end TagReasoner
