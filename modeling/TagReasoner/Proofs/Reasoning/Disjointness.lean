import TagReasoner.Proofs.Reasoning.Run
import Mathlib.Data.List.Induction

/-!
# Ready rules that are active as well

A new system has no active rules. A cycle takes each rule that it activates from the ready ones, and
what it derives is neither ready nor active before; so cycles, runs and proven rules keep the ready
and the active rules apart.

What is added, taught or composed looks at the ready rules only. It keeps the two apart exactly if
none of its rules is active (`perform_disjoint_iff`), and nothing else in the life of a system can
bring them together (`disjoint_throughout_iff`).
-/

namespace TagReasoner

/-- No rule is ready and active at once. -/
def Memory.Disjoint (m : Memory) : Prop :=
  ∀ r, m.ready.contains r = true → m.active.contains r = false

/-! ## Making rules ready -/

/-- From `m` to `m'` the rules `rs` are made ready, and the active rules stay as they are. -/
structure Memory.Readies (rs : List Rule) (m m' : Memory) : Prop where
  ready : ∀ r, m'.ready.contains r = true ↔
    m.ready.contains r = true ∨ ∃ q ∈ rs, (q == r) = true
  active : m'.active = m.active

namespace Memory.Readies

variable {m m' m'' : Memory} {rs rs' : List Rule}

theorem of_eq (hready : m'.ready = m.ready) (hactive : m'.active = m.active) :
    Readies [] m m' where
  ready r := by simp [hready]
  active := hactive

theorem append (h : Readies rs m m') (h' : Readies rs' m' m'') : Readies (rs ++ rs') m m'' where
  ready r := by
    rw [h'.ready, h.ready, or_assoc]
    simp only [List.mem_append, or_and_right, exists_or]
  active := h'.active.trans h.active

/-- The two sets stay apart if and only if none of the rules is active. -/
theorem disjoint_iff (h : Readies rs m m') (hm : m.Disjoint) :
    m'.Disjoint ↔ ∀ r ∈ rs, m.active.contains r = false := by
  rw [Disjoint, h.active]
  constructor
  · exact fun hdisjoint r hr => hdisjoint r ((h.ready r).mpr (.inr ⟨r, hr, BEq.refl r⟩))
  · intro hinactive r hr
    rcases (h.ready r).mp hr with hr | ⟨q, hq, hqr⟩
    · exact hm r hr
    · rw [← WorkingSet.contains_congr hqr]
      exact hinactive q hq

end Memory.Readies

theorem Memory.readies_add (m : Memory) (t : Tag) :
    Readies ([t].filterMap Tag.asRule?) m (m.add t) := by
  cases t with
  | rule i o =>
    refine ⟨fun r => ?_, rfl⟩
    show (m.ready.insert ⟨i, o⟩).contains r = true ↔ _ ∨ ∃ q ∈ [⟨i, o⟩], (q == r) = true
    rw [WorkingSet.contains_insert]
    simp only [List.mem_singleton, exists_eq_left]
  | fact | recommendation | foreign => exact .of_eq rfl rfl

/-- The rules among tags, up to the first value that is no tag. -/
def Tag.rulesBeforeForeign : List Tag → List Rule
  | [] => []
  | .foreign .. :: _ => []
  | t :: ts => [t].filterMap Tag.asRule? ++ rulesBeforeForeign ts

namespace ExpertSystem

theorem readies_addAll (m : Memory) (ts : List Tag) (allNew : Bool) :
    Memory.Readies (Tag.rulesBeforeForeign ts) m (addAll m ts allNew).1 := by
  induction ts generalizing m allNew with
  | nil => exact .of_eq rfl rfl
  | cons t ts ih =>
    cases t with
    | foreign => exact .of_eq rfl rfl
    | fact | recommendation | rule => exact (m.readies_add _).append (ih _ _)

variable {s : ExpertSystem}

theorem readies_addTags (s : ExpertSystem) (ts : List Tag) :
    Memory.Readies (Tag.rulesBeforeForeign ts) s.memory (s.addTags ts).state.memory := by
  have h := readies_addAll s.memory ts true
  rw [addTags]
  split
  all_goals
    next heq =>
      rw [heq] at h
      exact h

/-- The rule that a sentence tells, if it tells one. -/
def taughtRules (sentence : Text) : List Rule :=
  match Sentence.parse sentence with
  | .ok tag => [tag].filterMap Tag.asRule?
  | .error _ => []

theorem readies_teach (s : ExpertSystem) (sentence : Text) :
    Memory.Readies (taughtRules sentence) s.memory (s.teach sentence).state.memory := by
  rw [teach, taughtRules]
  cases Sentence.parse sentence with
  | ok tag => exact s.memory.readies_add tag
  | error => exact .of_eq rfl rfl

/-- The rules that a rest composes, unless it is refused. -/
def restRules (s : ExpertSystem) (passes : Int) : List Rule :=
  if passes < 0 then []
  else
    match composedRulesChecked passes.toNat s.memory.ready.items with
    | .ok composed => composed.items
    | .error _ => []

theorem readies_rest (s : ExpertSystem) (passes : Int) :
    Memory.Readies (s.restRules passes) s.memory (s.rest passes).state.memory := by
  rw [rest, restRules]
  split
  · exact .of_eq rfl rfl
  · cases composedRulesChecked passes.toNat s.memory.ready.items with
    | error => exact .of_eq rfl rfl
    | ok composed =>
      refine ⟨fun r => ?_, rfl⟩
      show (s.memory.ready.union (composed.diff s.memory.ready)).contains r = true ↔
        _ ∨ ∃ q ∈ composed.items, (q == r) = true
      rw [WorkingSet.contains_union, WorkingSet.contains_diff, ← WorkingSet.contains_iff]
      cases s.memory.ready.contains r <;> simp

end ExpertSystem

/-! ## What keeps the two apart -/

namespace Memory.Disjoint

variable {m : Memory}

theorem erase_ready (h : m.Disjoint) (r : Rule) :
    Disjoint { m with ready := m.ready.erase r } :=
  fun q hq => h q (WorkingSet.contains_erase.mp hq).1

/-- Where nothing is active, nothing is active and ready. -/
theorem of_active_empty (h : m.active = .empty) : m.Disjoint := fun r _ => by
  rw [h]
  rfl

/-- A cycle keeps the two apart, also if it is refused half-way. -/
theorem cycle (h : m.Disjoint) (e : Enumeration) : (m.cycle e).memory.Disjoint := by
  have hafter := m.cycle_after e
  intro r hr
  obtain ⟨q, hq, hqr⟩ := WorkingSet.contains_iff.mp hr
  rw [← WorkingSet.contains_congr hqr, Bool.eq_false_iff, ne_eq, hafter.active]
  rw [hafter.ready, List.mem_append, Tag.mem_filterMap_asRule?_iff] at hq
  rcases hq with hq | hq
  · -- a rule that was ready before and is not activated
    obtain ⟨hq, hunfired⟩ := List.mem_filter.mp hq
    rintro (hactive | ⟨p, hp, hpq⟩)
    · rw [h q (WorkingSet.contains_of_mem hq)] at hactive
      cases hactive
    · rw [Bool.not_eq_true', List.any_eq_false] at hunfired
      exact hunfired p hp (BEq.symm hpq)
  · -- a derived rule, which was neither ready nor active
    obtain ⟨hready, hactive⟩ := Bool.or_eq_false_iff.mp (hafter.new _ hq)
    rintro (hactive' | ⟨p, hp, hpq⟩)
    · rw [hactive] at hactive'
      cases hactive'
    · rw [← WorkingSet.contains_congr hpq,
        WorkingSet.contains_of_mem (mem_ready_of_activated hp)] at hready
      cases hready

theorem addProvenRule (h : m.Disjoint) (facts : List Fact) (derived : List Tag) :
    (m.addProvenRule facts derived).Disjoint := by
  rw [Memory.addProvenRule]
  split
  · exact h
  · show (if m.hasRule (provenRule facts derived) then m else _).Disjoint
    split
    next => exact h
    next hproven =>
      have hnew := Bool.or_eq_false_iff.mp (Bool.eq_false_iff.mpr hproven)
      refine ((m.readies_add (provenRule facts derived).toTag).disjoint_iff h).mpr ?_
      exact List.forall_mem_singleton.mpr hnew.2

theorem think (h : m.Disjoint) (e : Enumeration) (cap : Nat) (limit : Option Nat)
    (summarise : Bool) : (m.think e cap limit summarise).state.Disjoint := by
  have hrun : (Run.extend e (limit.getD cap) (.start m)).memory.Disjoint :=
    Run.extend_memory (I := Disjoint) (fun _ hm => hm.cycle e) h (limit.getD cap)
  rw [Memory.think]
  cases (Run.extend e (limit.getD cap) (.start m)).refused with
  | some => exact hrun
  | none =>
    cases summarise with
    | false => exact hrun
    | true => exact hrun.addProvenRule m.facts.items _

end Memory.Disjoint

/-! ## Operations -/

/-- The rules that an operation makes ready without a look at the active ones. -/
def Operation.readied (s : ExpertSystem) : Operation → List Rule
  | .addTag tag => Tag.rulesBeforeForeign [tag]
  | .addTags tags => Tag.rulesBeforeForeign tags
  | .addReadyRule rule => [rule]
  | .teach sentence => ExpertSystem.taughtRules sentence
  | .rest passes => s.restRules (passes.getD s.restPasses)
  | .removeReadyRule _ | .addFact _ | .removeFact _ | .addRecommendation _
  | .removeRecommendation _ | .knows _ | .think .. | .thinkCycle | .deactivateRules | .reset => []

/-- Where the ready and the active rules are apart, an operation leaves them so if and only if it
makes no active rule ready. -/
theorem ExpertSystem.perform_disjoint_iff {s : ExpertSystem} (hs : s.memory.Disjoint)
    (e : Enumeration) (op : Operation) :
    (s.perform e op).state.memory.Disjoint ↔
      ∀ r ∈ op.readied s, s.memory.active.contains r = false := by
  have hkept : ∀ {m : Memory}, m.Disjoint →
      (m.Disjoint ↔ ∀ r ∈ ([] : List Rule), s.memory.active.contains r = false) :=
    fun hm => iff_of_true hm (List.forall_mem_nil _)
  cases op with
  | addTag tag => exact (s.readies_addTags [tag]).disjoint_iff hs
  | addTags tags => exact (s.readies_addTags tags).disjoint_iff hs
  | addReadyRule rule => exact (s.readies_addTags [rule.toTag]).disjoint_iff hs
  | teach sentence => exact (s.readies_teach sentence).disjoint_iff hs
  | rest passes => exact (s.readies_rest (passes.getD s.restPasses)).disjoint_iff hs
  | addFact fact => exact (s.readies_addTags [.fact fact]).disjoint_iff hs
  | addRecommendation recommendation =>
    exact (s.readies_addTags [.recommendation recommendation]).disjoint_iff hs
  | removeReadyRule rule => exact hkept (hs.erase_ready rule)
  | removeFact | removeRecommendation | knows => exact hkept hs
  | thinkCycle => exact hkept (hs.cycle e)
  | deactivateRules | reset => exact hkept (.of_active_empty rfl)
  | think duration summarise =>
    refine hkept ?_
    cases duration with
    | notCounted => exact hs
    | quiescence => exact hs.think e s.cycleCap none summarise
    | cycles count =>
      rw [perform]
      split
      · exact hs
      · exact hs.think e s.cycleCap (some count.toNat) summarise

/-! ## Sequences of operations -/

/-- The system after some operations, each with its own order of search. -/
def ExpertSystem.after (s : ExpertSystem) (steps : List (Enumeration × Operation)) : ExpertSystem :=
  steps.foldl (fun s step => (s.perform step.1 step.2).state) s

theorem ExpertSystem.after_concat (s : ExpertSystem) (steps : List (Enumeration × Operation))
    (e : Enumeration) (op : Operation) :
    s.after (steps ++ [(e, op)]) = ((s.after steps).perform e op).state :=
  List.foldl_append ..

/-- In the life of a system no rule is ever ready and active at once, if and only if no operation
makes a rule ready that is active at the time. -/
theorem disjoint_throughout_iff (ready : List Rule) (facts : List Fact)
    (recommendations : List Recommendation) (cycleCap restPasses : Nat)
    (steps : List (Enumeration × Operation)) :
    let s := ExpertSystem.new ready facts recommendations cycleCap restPasses
    (∀ done, done <+: steps → (s.after done).memory.Disjoint) ↔
      ∀ done e op, done ++ [(e, op)] <+: steps → ∀ r ∈ op.readied (s.after done),
        (s.after done).memory.active.contains r = false := by
  intro s
  constructor
  · intro hdisjoint done e op hdone
    have hbefore := hdisjoint done ((List.prefix_append ..).trans hdone)
    have hafter := hdisjoint _ hdone
    rw [s.after_concat] at hafter
    exact (ExpertSystem.perform_disjoint_iff hbefore e op).mp hafter
  · intro hinactive done hdone
    induction done using List.reverseRecOn with
    | nil => exact .of_active_empty rfl
    | append_singleton done step ih =>
      have hbefore := ih ((List.prefix_append ..).trans hdone)
      rw [s.after_concat]
      exact (ExpertSystem.perform_disjoint_iff hbefore step.1 step.2).mpr
        (hinactive done step.1 step.2 hdone)

/-- A rule that has fired is ready again when it is taught once more, and is still active. -/
theorem not_disjoint_taught_again :
    let fact := fun (p : Char) => Tag.fact ⟨[p], [.literal ['a']], .certain⟩
    let s := ExpertSystem.new [⟨[fact 'P'], [fact 'Q']⟩]
      [⟨['P'], [.literal ['a']], .certain⟩] [] 100 1
    ¬ (s.after [(.oldestFirst, .think .quiescence false),
      (.oldestFirst, .teach "P(a)=>Q(a)".toList)]).memory.Disjoint := by
  intro fact s h
  have hboth := h ⟨[fact 'P'], [fact 'Q']⟩ (by decide +kernel)
  revert hboth
  decide +kernel

end TagReasoner
