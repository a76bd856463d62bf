import TagReasoner.Proofs.Reasoning.Run
import Mathlib.Data.List.Perm.Subperm

/-!
# How many cycles derive something

A rule is as large as the rules that it can put out, one after the other, and itself. What it puts
out is as large as before, whatever is put in for its variables. So a rule that fires takes more
away from the total size of the ready rules than its outputs can give back, and every cycle that
derives something lowers that total (`Memory.readySize_cycle_add_le`).

Hence no more cycles in a row derive something than the total size of the ready rules at their
start, and below the cycle cap thinking always comes to rest (`think_within_readySize`). Facts,
their variables and the order of the search have no part in this.
-/

namespace TagReasoner

/-! ## Sizes -/

namespace Tag

mutual

/-- A rule has the size one more than the tags that it puts out; other tags have none. -/
def ruleSize : Tag → Nat
  | .rule _ o => 1 + ruleSizes o
  | .fact _ | .recommendation _ | .foreign .. => 0

/-- The sizes of several tags together. -/
def ruleSizes : List Tag → Nat
  | [] => 0
  | t :: ts => ruleSize t + ruleSizes ts

end

theorem ruleSizes_append (ts us : List Tag) :
    ruleSizes (ts ++ us) = ruleSizes ts + ruleSizes us := by
  induction ts with
  | nil => rw [List.nil_append, ruleSizes, Nat.zero_add]
  | cons t ts ih => rw [List.cons_append, ruleSizes, ih, ruleSizes, Nat.add_assoc]

theorem ruleSizes_le_of_sublist {ts us : List Tag} (h : ts.Sublist us) :
    ruleSizes ts ≤ ruleSizes us := by
  induction h with
  | slnil => exact Nat.le_refl _
  | cons u _ ih =>
    rw [ruleSizes]
    omega
  | cons_cons t _ ih =>
    rw [ruleSizes, ruleSizes]
    omega

theorem ruleSizes_of_perm {ts us : List Tag} (h : ts.Perm us) : ruleSizes ts = ruleSizes us := by
  induction h with
  | nil => rfl
  | cons t _ ih => rw [ruleSizes, ruleSizes, ih]
  | swap t u ts =>
    rw [ruleSizes, ruleSizes, ruleSizes, ruleSizes]
    omega
  | trans _ _ ih ih' => exact ih.trans ih'

mutual

/-- Equal tags have the same size, however they are spelled. -/
theorem ruleSize_congr : ∀ t u : Tag, (t == u) = true → t.ruleSize = u.ruleSize
  | .fact _, u, h | .recommendation _, u, h | .foreign .., u, h => by
    cases u with
    | rule => cases h
    | fact | recommendation | foreign => rfl
  | .rule i o, u, h => by
    cases u with
    | rule j q =>
      have houtputs : allEqual o q = true := (Bool.and_eq_true_iff.mp h).2
      rw [ruleSize, ruleSize, ruleSizes_congr o q houtputs]
    | fact | recommendation | foreign => cases h

theorem ruleSizes_congr : ∀ ts us : List Tag, allEqual ts us = true → ruleSizes ts = ruleSizes us
  | [], us, h => by
    cases us with
    | nil => rfl
    | cons => cases h
  | t :: ts, us, h => by
    cases us with
    | nil => cases h
    | cons u us =>
      rw [allEqual, Bool.and_eq_true] at h
      rw [ruleSizes, ruleSizes, ruleSize_congr t u h.1, ruleSizes_congr ts us h.2]

end

theorem ruleSize_le_of_mem {ts : List Tag} {t : Tag} (h : t ∈ ts) : t.ruleSize ≤ ruleSizes ts := by
  have hone : ruleSizes [t] ≤ ruleSizes ts :=
    ruleSizes_le_of_sublist (List.singleton_sublist.mpr h)
  rwa [ruleSizes, ruleSizes, Nat.add_zero] at hone

mutual

/-- Substitution reaches facts only, so it leaves sizes as they are. -/
theorem ruleSize_substitute (θ : Substitution) : ∀ t : Tag, (t.substitute θ).ruleSize = t.ruleSize
  | .fact _ | .recommendation _ | .foreign .. => rfl
  | .rule i o => by rw [substitute, ruleSize, ruleSize, ruleSizes_substituteAll θ o]

theorem ruleSizes_substituteAll (θ : Substitution) :
    ∀ ts : List Tag, ruleSizes (substituteAll θ ts) = ruleSizes ts
  | [] => rfl
  | t :: ts => by
    rw [substituteAll, ruleSizes, ruleSizes, ruleSize_substitute θ t,
      ruleSizes_substituteAll θ ts]

end

end Tag

/-- The size of a rule as a tag. -/
def Rule.size (r : Rule) : Nat := r.toTag.ruleSize

/-- The total size of some rules. -/
def Rule.totalSize (rs : List Rule) : Nat := Tag.ruleSizes (rs.map Rule.toTag)

/-- The total size of the ready rules. -/
def Memory.readySize (m : Memory) : Nat := Rule.totalSize m.ready.items

theorem Rule.size_eq (r : Rule) : r.size = 1 + Tag.ruleSizes r.outputs := rfl

theorem Rule.totalSize_singleton (r : Rule) : totalSize [r] = r.size := rfl

theorem Rule.totalSize_append (qs rs : List Rule) :
    totalSize (qs ++ rs) = totalSize qs + totalSize rs := by
  rw [totalSize, List.map_append, Tag.ruleSizes_append]
  rfl

theorem Rule.totalSize_of_perm {qs rs : List Rule} (h : qs.Perm rs) :
    totalSize qs = totalSize rs := Tag.ruleSizes_of_perm (h.map Rule.toTag)

theorem Rule.totalSize_le_of_subperm {qs rs : List Rule} (h : qs.Subperm rs) :
    totalSize qs ≤ totalSize rs := by
  obtain ⟨ps, hperm, hsublist⟩ := h
  rw [← totalSize_of_perm hperm]
  exact Tag.ruleSizes_le_of_sublist (hsublist.map Rule.toTag)

/-- Rules are what gives tags a size. -/
theorem Rule.totalSize_filterMap_asRule? (ts : List Tag) :
    totalSize (ts.filterMap Tag.asRule?) = Tag.ruleSizes ts := by
  induction ts with
  | nil => rfl
  | cons t ts ih =>
    rw [Tag.ruleSizes, ← ih]
    cases t with
    | rule i o => rfl
    | fact | recommendation | foreign => exact (Nat.zero_add _).symm

/-! ## One cycle -/

theorem Firing.tags_eq (f : Firing) : f.tags = Tag.substituteAll f.solution f.rule.outputs := by
  rw [tags]
  induction f.rule.outputs with
  | nil => rfl
  | cons o os ih => rw [List.map_cons, ih, Tag.substituteAll]

/-- What a firing asserts is smaller than the rule, by the rule itself. -/
theorem Firing.ruleSizes_tags (f : Firing) : Tag.ruleSizes f.tags + 1 = f.rule.size := by
  rw [f.tags_eq, Tag.ruleSizes_substituteAll, Rule.size_eq, Nat.add_comm]

/-- Wherever a cycle stops, the rules activated so far outweigh the tags asserted so far. -/
theorem ruleSizes_asserted_add_le {fs : List Firing} {steps : List Step}
    (h : steps <+: fs.flatMap Firing.steps) :
    Tag.ruleSizes (steps.filterMap Step.asserted?) + (steps.filterMap Step.activated?).length ≤
      Rule.totalSize (steps.filterMap Step.activated?) := by
  induction fs generalizing steps with
  | nil =>
    rw [List.prefix_nil.mp h]
    exact Nat.le_refl 0
  | cons f fs ih =>
    rw [List.flatMap_cons] at h
    rcases le_total steps.length f.steps.length with hlength | hlength
    · -- it stops at the first rule: before it, or after some of its outputs
      have hwithin : steps <+: f.steps :=
        List.prefix_of_prefix_length_le h (List.prefix_append ..) hlength
      rcases List.prefix_cons_iff.mp hwithin with rfl | ⟨outputs, rfl, houtputs⟩
      · exact Nat.le_refl 0
      · have hactivated : (Step.activate f.rule :: outputs).filterMap Step.activated? <+:
            [f.rule] := by
          rw [← f.filterMap_activated?]
          exact hwithin.filterMap _
        have hasserted : Tag.ruleSizes ((Step.activate f.rule :: outputs).filterMap
            Step.asserted?) ≤ Tag.ruleSizes f.tags := by
          rw [← f.filterMap_asserted?]
          exact Tag.ruleSizes_le_of_sublist (hwithin.filterMap _).sublist
        have hone : (Step.activate f.rule :: outputs).filterMap Step.activated? = [f.rule] :=
          hactivated.eq_of_length_le (Nat.succ_le_succ (Nat.zero_le _))
        rw [hone, List.length_singleton, Rule.totalSize_singleton, ← f.ruleSizes_tags]
        exact Nat.succ_le_succ hasserted
    · -- the first rule is through with all its outputs
      obtain ⟨rest, rfl⟩ := List.prefix_of_prefix_length_le (List.prefix_append ..) h hlength
      have hrest := ih ((List.prefix_append_right_inj _).mp h)
      have hfirst := f.ruleSizes_tags
      rw [List.filterMap_append, List.filterMap_append, f.filterMap_activated?,
        f.filterMap_asserted?, Tag.ruleSizes_append, List.length_append, Rule.totalSize_append,
        Rule.totalSize_singleton, List.length_singleton]
      omega

namespace Memory

/-- The rules that a cycle activates are lost to the ready ones, and its derived rules make up for
less than their size: the total is lower by the number of rules activated, at least. -/
theorem readySize_cycle_add_le (m : Memory) (e : Enumeration) :
    (m.cycle e).memory.readySize + ((m.stepsTaken e).filterMap Step.activated?).length ≤
      m.readySize := by
  have hafter := m.cycle_after e
  have hactivated := m.activated_prefix_rules e
  generalize hrules : (m.stepsTaken e).filterMap Step.activated? = rules at hafter hactivated ⊢
  have hready : ∀ r ∈ rules, r ∈ m.ready.items := fun r hr => mem_ready_of_activated (hrules ▸ hr)
  have hnodup : rules.Nodup := by
    refine ((m.firings_distinct e).sublist hactivated.sublist).imp fun hne heq => ?_
    rw [heq, BEq.refl] at hne
    cases hne
  -- the rules activated are among those that the filter takes away
  have hlost : Rule.totalSize rules ≤
      Rule.totalSize (m.ready.items.filter fun r => rules.any (r == ·)) := by
    refine Rule.totalSize_le_of_subperm (List.subperm_of_subset hnodup fun r hr => ?_)
    exact List.mem_filter.mpr ⟨hready r hr, List.any_eq_true.mpr ⟨r, hr, BEq.refl r⟩⟩
  have hsplit : Rule.totalSize (m.ready.items.filter fun r => rules.any (r == ·)) +
      Rule.totalSize (m.ready.items.filter fun r => !rules.any (r == ·)) = m.readySize := by
    rw [← Rule.totalSize_append]
    exact Rule.totalSize_of_perm (List.filter_append_perm _ _)
  have hgained : Tag.ruleSizes (m.cycle e).derived.items + rules.length ≤
      Rule.totalSize rules := by
    have hderived : Tag.ruleSizes (m.cycle e).derived.items ≤ _ :=
      Tag.ruleSizes_le_of_sublist hafter.derived
    have hsteps := ruleSizes_asserted_add_le (m.stepsTaken_prefix_steps e)
    rw [hrules] at hsteps
    omega
  have hafterwards : (m.cycle e).memory.readySize =
      Rule.totalSize (m.ready.items.filter fun r => !rules.any (r == ·)) +
        Tag.ruleSizes (m.cycle e).derived.items := by
    rw [← Rule.totalSize_filterMap_asRule?, ← Rule.totalSize_append, ← hafter.ready]
    rfl
  omega

end Memory

/-! ## Cycles in a row -/

/-- The cycle derived something. -/
def Cycle.isProductive (c : Cycle) : Bool := !c.derived.isEmpty

/-- Cycles in a row, each from the memory that the one before it left. -/
def Memory.cycles (m : Memory) : List Enumeration → List Cycle
  | [] => []
  | e :: es => m.cycle e :: (m.cycle e).memory.cycles es

namespace Memory

variable {m : Memory} {e : Enumeration}

/-- Without a rule that fires there is nothing to derive. -/
theorem activated_ne_nil_of_productive (h : (m.cycle e).isProductive = true) :
    (m.stepsTaken e).filterMap Step.activated? ≠ [] := by
  cases hfirings : m.firings e with
  | nil =>
    have hsteps : m.stepsTaken e = [] := by
      rw [stepsTaken, hfirings]
      rfl
    have hderived : (m.cycle e).derived.items.Sublist _ := (m.cycle_after e).derived
    rw [hsteps, List.filterMap_nil, List.sublist_nil] at hderived
    rw [Cycle.isProductive, WorkingSet.isEmpty, hderived] at h
    cases h
  | cons f fs =>
    -- the first step is to activate a rule, which is never refused
    rw [stepsTaken, hfirings]
    exact List.cons_ne_nil f.rule _

theorem readySize_cycle_le (m : Memory) (e : Enumeration) :
    (m.cycle e).memory.readySize ≤ m.readySize :=
  (Nat.le_add_right ..).trans (m.readySize_cycle_add_le e)

theorem readySize_cycle_lt (h : (m.cycle e).isProductive = true) :
    (m.cycle e).memory.readySize < m.readySize := by
  have hpos := List.length_pos_of_ne_nil (activated_ne_nil_of_productive h)
  have hle := m.readySize_cycle_add_le e
  omega

/-- Of any cycles in a row, no more derive something than the ready rules are large at the start. -/
theorem countP_productive_le (m : Memory) (es : List Enumeration) :
    (m.cycles es).countP Cycle.isProductive ≤ m.readySize := by
  induction es generalizing m with
  | nil => exact Nat.zero_le _
  | cons e es ih =>
    rw [cycles, List.countP_cons]
    have hrest := ih (m.cycle e).memory
    split
    next hproductive =>
      have hlt := readySize_cycle_lt hproductive
      omega
    next =>
      have hle := m.readySize_cycle_le e
      omega

end Memory

/-! ## Runs -/

/-- The run made the cycles `before`, which all derived something, and then `last`, which derived
nothing; it started from the memory `m` after `n` cycles. -/
structure Run.RestsAfter (m : Memory) (n : Nat) (e : Enumeration) (before : List Cycle)
    (last : Cycle) (run : Run) : Prop where
  cycles : m.cycles (List.replicate (before.length + 1) e) = before ++ [last]
  productive : ∀ c ∈ before, c.isProductive = true
  unproductive : last.isProductive = false
  memory : run.memory = last.memory
  count : run.cycles = n + before.length + 1
  last : run.productive = false

/-- A run comes to rest on a cycle that derives nothing, or else every cycle that it is allowed
derives something. -/
theorem Run.extend_cases (run : Run) (hm : run.memory.OnlyTags) (e : Enumeration) (limit : Nat) :
    (∃ before last, (extend e limit run).RestsAfter run.memory run.cycles e before last) ∨
      ∀ c ∈ run.memory.cycles (List.replicate limit e), c.isProductive = true := by
  induction limit generalizing run with
  | zero => exact .inr (List.forall_mem_nil _)
  | succ limit ih =>
    rw [extend_succ (hm.refused_eq_none e)]
    cases hproductive : (run.advance e).productive with
    | false =>
      exact .inl ⟨[], run.memory.cycle e, rfl, List.forall_mem_nil _, hproductive, rfl, rfl,
        hproductive⟩
    | true =>
      rw [if_pos rfl, List.replicate_succ, Memory.cycles, List.forall_mem_cons]
      rcases ih (run.advance e) (hm.cycle e) with ⟨before, last, h⟩ | hall
      · refine .inl ⟨run.memory.cycle e :: before, last, ?_, ?_, h.unproductive, h.memory, ?_,
          h.last⟩
        · exact congrArg (run.memory.cycle e :: ·) h.cycles
        · exact List.forall_mem_cons.mpr ⟨hproductive, h.productive⟩
        · have hcount : _ = run.cycles + 1 + before.length + 1 := h.count
          rw [hcount, List.length_cons]
          omega
      · exact .inr ⟨hproductive, hall⟩

theorem Memory.length_cycles (m : Memory) (es : List Enumeration) :
    (m.cycles es).length = es.length := by
  induction es generalizing m with
  | nil => rfl
  | cons e es ih => rw [cycles, List.length_cons, ih, List.length_cons]

/-- With more cycles allowed than the ready rules are large, a run comes to rest. -/
theorem Run.extend_rests (run : Run) (hm : run.memory.OnlyTags) (e : Enumeration) {limit : Nat}
    (hlimit : run.memory.readySize < limit) :
    ∃ before last, (extend e limit run).RestsAfter run.memory run.cycles e before last ∧
      before.length ≤ run.memory.readySize := by
  rcases extend_cases run hm e limit with ⟨before, last, h⟩ | hall
  · have hcount := run.memory.countP_productive_le (List.replicate (before.length + 1) e)
    rw [h.cycles, List.countP_append, List.countP_eq_length.mpr h.productive] at hcount
    exact ⟨before, last, h, (Nat.le_add_right ..).trans hcount⟩
  · have hcount := run.memory.countP_productive_le (List.replicate limit e)
    rw [List.countP_eq_length.mpr hall, Memory.length_cycles, List.length_replicate] at hcount
    omega

/-- Of any cycles in a row, no more derive something than the ready rules are large at the start.
If the cycle cap is above that, thinking without a limit makes some cycles that derive something and
one that does not, and tells of no cut-off. -/
theorem think_within_readySize (s : ExpertSystem) :
    (∀ es, (s.memory.cycles es).countP Cycle.isProductive ≤ s.memory.readySize) ∧
      (s.memory.OnlyTags → s.memory.readySize < s.cycleCap → ∀ e summarise,
        ∃ before last, s.memory.cycles (List.replicate (before.length + 1) e) = before ++ [last] ∧
          (∀ c ∈ before, c.isProductive = true) ∧ last.isProductive = false ∧
          before.length ≤ s.memory.readySize ∧
          (s.perform e (.think .quiescence false)).state = s.withMemory last.memory ∧
          ∃ derived made,
            (s.perform e (.think .quiescence summarise)).notices =
              [.thought (before.length + 1) derived (List.length made)] ∧
            (s.perform e (.think .quiescence summarise)).result = .ok (.tags made)) := by
  refine ⟨s.memory.countP_productive_le, fun hm hcap e summarise => ?_⟩
  obtain ⟨before, last, h, hle⟩ := (Run.start s.memory).extend_rests hm e hcap
  have hrefused := Run.refused_extend_start hm e s.cycleCap
  generalize hrun : Run.extend e s.cycleCap (.start s.memory) = run at h hrefused
  have hthink : ∀ summarise, s.perform e (.think (.ofLimit none) summarise) = _ :=
    ExpertSystem.perform_think none hrun hrefused
  have hcount : run.cycles = before.length + 1 := by rw [h.count, Run.start, Nat.zero_add]
  refine ⟨before, last, h.cycles, h.productive, h.unproductive, hle, ?_, run.derived.size,
    run.recommendations.map .recommendation, ?_, congrArg Outcome.result (hthink summarise)⟩
  · exact (congrArg Outcome.state (hthink false)).trans (congrArg s.withMemory h.memory)
  · refine (congrArg Outcome.notices (hthink summarise)).trans ?_
    -- a run that came to rest is not cut off
    rw [h.last, Bool.and_false, if_neg Bool.false_ne_true, List.nil_append, hcount,
      List.length_map]

/-- A chain of two rules, the second of which the first puts out, comes to rest below a cap of
four. -/
theorem think_within_readySize_nested_rule :
    let fact := fun (p : Char) (a : Argument) => Tag.fact ⟨[p], [a], .certain⟩
    let x := Argument.named ['x'] .single []
    let go : Recommendation := ⟨['@', 'g', 'o'], rfl⟩
    let s : ExpertSystem :=
      { memory :=
          { ready := .ofList [⟨[fact 'A' x],
              [fact 'B' x, .rule [fact 'B' x] [.recommendation go]]⟩]
            active := .empty
            facts := .ofList [⟨['A'], [.literal ['a']], .certain⟩]
            recommendations := .empty }
        cycleCap := 4
        restPasses := 1 }
    ∃ before last, s.memory.cycles (List.replicate (before.length + 1) .oldestFirst) =
        before ++ [last] ∧
      (∀ c ∈ before, c.isProductive = true) ∧ last.isProductive = false ∧
      before.length ≤ s.memory.readySize ∧
      (s.perform .oldestFirst (.think .quiescence false)).state = s.withMemory last.memory ∧
      ∃ derived made,
        (s.perform .oldestFirst (.think .quiescence true)).notices =
          [.thought (before.length + 1) derived (List.length made)] ∧
        (s.perform .oldestFirst (.think .quiescence true)).result = .ok (.tags made) := by
  intro fact x go s
  exact (think_within_readySize s).2 (by decide +kernel) (by decide +kernel) .oldestFirst true

end TagReasoner
