import TagReasoner.Proofs.Reasoning.Disjointness

/-!
# Range-restricted rules keep the facts ground

A rule is range-restricted when it puts out no rules, and its output facts hold nothing but ground
arguments and variables that occur in its input facts. Over ground facts every solution binds the
variables in the slots of the input facts, to ground arguments, and so no variable is left in what
such a rule puts out. Hence from ground facts and range-restricted rules, thinking comes to ground
facts only, for however long and in whatever order rules and facts are tried
(`after_thinking_isGround`).

An occurrence counts only if it binds the name. A bare mark is never bound, though it has a name
too, that of its mark; a rule whose output takes up this name puts out a variable
(`not_isGround_bare_mark`).
-/

namespace TagReasoner

/-! ## Ground facts -/

theorem Argument.isGround_congr {a b : Argument} (h : (a == b) = true) :
    a.isGround = b.isGround := by
  rw [beq_def] at h
  unfold isGround isVariable name? isWildcard
  cases ha : a.term <;> cases hb : b.term <;> simp_all [Term.equal]

theorem Fact.isGround_iff {f : Fact} :
    f.isGround = true ↔ ∀ a ∈ f.arguments, a.isGround = true := by
  rw [isGround, Bool.not_eq_true', List.any_eq_false]
  refine forall₂_congr fun a _ => ?_
  rw [Argument.isGround, Bool.not_eq_true', Bool.not_eq_true]

/-- A variable that is bound to a ground argument resolves to it. -/
theorem Substitution.isGround_resolve {θ : Substitution}
    (hθ : ∀ n c, θ.get? n = some c → c.isGround = true) {a : Argument} {n : Text}
    (ha : a.name? = some n) (hn : (θ.get? n).isSome = true) : (θ.resolve a).isGround = true := by
  obtain ⟨c, hc⟩ := Option.isSome_iff_exists.mp hn
  have hground := hθ n c hc
  rw [resolve_of_bound ha hc, resolve_of_value (Argument.isGround_iff.mp hground).1]
  exact hground

theorem Fact.isGround_substitute {θ : Substitution} {f : Fact}
    (hf : ∀ a ∈ f.arguments, (θ.resolve a).isGround = true) :
    (f.substitute θ).isGround = true := by
  have hresolved : ∀ b ∈ f.arguments.map θ.resolve, b.isGround = true := List.forall_mem_map.mpr hf
  rw [isGround_iff, substitute]
  split
  next hsame =>
    -- nothing changes, so the fact was ground already
    intro a ha
    obtain ⟨b, hb, hab⟩ := exists_mem_of_forall₂ (beq_iff_forall₂.mp (BEq.symm hsame)) ha
    rw [Argument.isGround_congr hab]
    exact hresolved b hb
  next => exact hresolved

/-! ## Range-restricted rules -/

/-- The names of the variables in the slots, those of bare marks among them. -/
def Fact.slotNames (p : Fact) : List Text := p.slots.filterMap Argument.name?

/-- The tag is no rule, and a fact only with arguments that are ground or variables of the names. -/
def Tag.isCovered (names : List Text) : Tag → Bool
  | .fact f => f.arguments.all fun a => a.isGround || names.any fun n => a.givenName? == some n
  | .rule .. => false
  | .recommendation _ | .foreign .. => true

/-- The names that occur in the input facts cover all outputs; which occurrences count is a
parameter. -/
def Rule.RangeRestricted (occurring : Fact → List Text) (r : Rule) : Prop :=
  ∀ t ∈ r.outputs, t.isCovered (r.inputFacts.flatMap occurring) = true

instance (occurring : Fact → List Text) (r : Rule) : Decidable (r.RangeRestricted occurring) :=
  inferInstanceAs (Decidable (∀ t ∈ r.outputs, t.isCovered (r.inputFacts.flatMap occurring) = true))

namespace Tag

variable {names : List Text}

theorem isCovered_fact_iff {f : Fact} : (Tag.fact f).isCovered names = true ↔
    ∀ a ∈ f.arguments, a.isGround = true ∨ ∃ n ∈ names, a.givenName? = some n := by
  rw [isCovered, List.all_eq_true]
  refine forall₂_congr fun a _ => ?_
  simp only [Bool.or_eq_true, List.any_eq_true, beq_iff_eq]

theorem isCovered_mono {names' : List Text} (hnames : names ⊆ names') {t : Tag}
    (ht : t.isCovered names = true) : t.isCovered names' = true := by
  cases t with
  | fact f =>
    rw [isCovered_fact_iff] at ht ⊢
    intro a ha
    refine (ht a ha).imp_right ?_
    rintro ⟨n, hn, hna⟩
    exact ⟨n, hnames hn, hna⟩
  | recommendation | foreign => rfl
  | rule => cases ht

/-- What needs no names to be covered is no rule and, if it is a fact, ground. -/
theorem isGround_of_isCovered {f : Fact} (h : (Tag.fact f).isCovered [] = true) :
    f.isGround = true := by
  rw [Fact.isGround_iff]
  intro a ha
  refine (isCovered_fact_iff.mp h a ha).resolve_right ?_
  rintro ⟨n, hn, -⟩
  cases hn

/-- With ground arguments put in for the names, there are no variables left. -/
theorem isCovered_substitute {θ : Substitution}
    (hθ : ∀ n c, θ.get? n = some c → c.isGround = true)
    (hnames : ∀ n ∈ names, (θ.get? n).isSome = true) {t : Tag} (ht : t.isCovered names = true) :
    (t.substitute θ).isCovered [] = true := by
  cases t with
  | fact f =>
    have hresolved : ∀ a ∈ f.arguments, (θ.resolve a).isGround = true := by
      intro a ha
      rcases isCovered_fact_iff.mp ht a ha with hground | ⟨n, hn, hna⟩
      · rw [Substitution.resolve_of_value (Argument.isGround_iff.mp hground).1]
        exact hground
      · have hname := (Argument.givenName?_eq_some_iff.mp hna).2
        exact Substitution.isGround_resolve hθ hname (hnames n hn)
    have hground := Fact.isGround_iff.mp (Fact.isGround_substitute hresolved)
    exact isCovered_fact_iff.mpr fun a ha => .inl (hground a ha)
  | recommendation | foreign => rfl
  | rule => cases ht

end Tag

/-! ## Cycles -/

/-- The known facts are ground, and the names that the input facts of a ready rule bind cover its
outputs. -/
structure Memory.RangeRestricted (m : Memory) : Prop where
  facts : ∀ f ∈ m.facts.items, f.isGround = true
  rules : ∀ r ∈ m.ready.items, r.RangeRestricted Fact.boundNames

namespace Memory.RangeRestricted

variable {m : Memory}

/-- What a cycle derives is ground and no rule. -/
theorem isCovered_of_derived (h : m.RangeRestricted) (e : Enumeration) :
    ∀ t ∈ (m.cycle e).derived.items, t.isCovered [] = true := by
  intro t ht
  obtain ⟨f, hf, o, ho, rfl⟩ := exists_output ht
  obtain ⟨hready, hfirst⟩ := mem_firings_iff.mp hf
  have hfacts : ∀ g ∈ e.facts m, ∀ a ∈ g.arguments, a.isGround = true := fun g hg =>
    Fact.isGround_iff.mp (h.facts g ((e.facts_perm m).mem_iff.mp hg))
  obtain ⟨hground, hnames⟩ :=
    solutions_boundNames (fun _ ha => ha) hfacts (List.mem_of_head? hfirst)
  refine Tag.isCovered_substitute hground (fun n hn => ?_) (h.rules f.rule hready o ho)
  exact (hnames n).mpr hn

theorem cycle (h : m.RangeRestricted) (e : Enumeration) : (m.cycle e).memory.RangeRestricted := by
  have hafter := m.cycle_after e
  have hderived := h.isCovered_of_derived e
  constructor
  · intro f hf
    rw [hafter.facts, List.mem_append, Tag.mem_filterMap_asFact?_iff] at hf
    rcases hf with hf | hf
    · exact h.facts f hf
    · exact Tag.isGround_of_isCovered (hderived _ hf)
  · intro r hr
    rw [hafter.ready, List.mem_append, Tag.mem_filterMap_asRule?_iff] at hr
    rcases hr with hr | hr
    · exact h.rules r (List.mem_filter.mp hr).1
    · -- no rule is derived
      cases hderived _ hr

end Memory.RangeRestricted

/-! ## Thinking -/

/-- What the run has derived is ground and no rule, and its memory is range-restricted. -/
structure Run.RangeRestricted (run : Run) : Prop where
  memory : run.memory.RangeRestricted
  derived : ∀ t ∈ run.derived.items, t.isCovered [] = true

theorem Run.RangeRestricted.advance {run : Run} (h : run.RangeRestricted) (e : Enumeration) :
    (run.advance e).RangeRestricted where
  memory := h.memory.cycle e
  derived := by
    intro t ht
    rw [Run.advance, WorkingSet.items_union, List.mem_append, List.mem_filter] at ht
    rcases ht with ht | ⟨ht, -⟩
    · exact h.derived t ht
    · exact h.memory.isCovered_of_derived e t ht

namespace Memory.RangeRestricted

variable {m : Memory}

/-- A rule with outputs that need no names to be covered may be added. -/
theorem addProvenRule (h : m.RangeRestricted) (facts : List Fact) {derived : List Tag}
    (hderived : ∀ t ∈ derived, t.isCovered [] = true) :
    (m.addProvenRule facts derived).RangeRestricted := by
  rw [Memory.addProvenRule]
  split
  · exact h
  · show (if m.hasRule (provenRule facts derived) then m else _).RangeRestricted
    split
    next => exact h
    next =>
      refine ⟨h.facts, fun r hr => ?_⟩
      have hready : r ∈ (m.ready.insert (provenRule facts derived)).items := hr
      rw [WorkingSet.items_insert] at hready
      have hcases : r ∈ m.ready.items ∨ r = provenRule facts derived := by
        split at hready
        · exact .inl hready
        · rwa [List.mem_append, List.mem_singleton] at hready
      rcases hcases with hready | rfl
      · exact h.rules r hready
      · intro t ht
        have ht' := hderived t ((Tag.sorted_perm derived).mem_iff.mp ht)
        exact Tag.isCovered_mono (List.nil_subset _) ht'

theorem think (h : m.RangeRestricted) (e : Enumeration) (cap : Nat) (limit : Option Nat)
    (summarise : Bool) : (m.think e cap limit summarise).state.RangeRestricted := by
  have hmemory : (Run.extend e (limit.getD cap) (.start m)).memory.RangeRestricted :=
    Run.extend_memory (I := RangeRestricted) (fun _ hm => hm.cycle e) h (limit.getD cap)
  have hstart : (Run.start m).RangeRestricted := ⟨h, List.forall_mem_nil _⟩
  rw [Memory.think]
  cases hrefused : (Run.extend e (limit.getD cap) (.start m)).refused with
  | some => exact hmemory
  | none =>
    cases summarise with
    | false => exact hmemory
    | true =>
      have hrun := Run.extend_induct_of_completed (motive := Run.RangeRestricted) hrefused
        (fun _ _ h => h.advance e) hstart
      exact hmemory.addProvenRule m.facts.items hrun.derived

end Memory.RangeRestricted

/-- A cycle, or thinking for any duration, with or without a proven rule. -/
def Operation.isThinking : Operation → Bool
  | .thinkCycle | .think .. => true
  | _ => false

theorem ExpertSystem.perform_rangeRestricted {s : ExpertSystem} (hs : s.memory.RangeRestricted)
    (e : Enumeration) {op : Operation} (hop : op.isThinking = true) :
    (s.perform e op).state.memory.RangeRestricted := by
  cases op with
  | thinkCycle => exact hs.cycle e
  | think duration summarise =>
    cases duration with
    | notCounted => exact hs
    | quiescence => exact hs.think e s.cycleCap none summarise
    | cycles count =>
      rw [perform]
      split
      · exact hs
      · exact hs.think e s.cycleCap (some count.toNat) summarise
  | _ => cases hop

theorem ExpertSystem.after_rangeRestricted {s : ExpertSystem} (hs : s.memory.RangeRestricted)
    {steps : List (Enumeration × Operation)} (hsteps : ∀ step ∈ steps, step.2.isThinking = true) :
    (s.after steps).memory.RangeRestricted := by
  induction steps using List.reverseRecOn with
  | nil => exact hs
  | append_singleton steps step ih =>
    obtain ⟨hbefore, hlast⟩ := List.forall_mem_append.mp hsteps
    rw [s.after_concat]
    exact perform_rangeRestricted (ih hbefore) step.1 (hlast step (List.mem_singleton_self step))

/-- From ground facts and rules whose outputs are covered by the names that their input facts bind,
thinking comes to ground facts only: any number of cycles, one by one or in runs, and each with an
order of search of its own. -/
theorem after_thinking_isGround {s : ExpertSystem}
    (hfacts : ∀ f ∈ s.memory.facts.items, f.isGround = true)
    (hrules : ∀ r ∈ s.memory.ready.items, r.RangeRestricted Fact.boundNames)
    {steps : List (Enumeration × Operation)} (hsteps : ∀ step ∈ steps, step.2.isThinking = true) :
    ∀ f ∈ (s.after steps).memory.facts.items, f.isGround = true :=
  (ExpertSystem.after_rangeRestricted ⟨hfacts, hrules⟩ hsteps).facts

/-- A chain of two rules, with a wildcard on the way and with an operator in a known fact. -/
theorem after_thinking_isGround_chain :
    let x := Argument.named ['x'] .single []
    let fact := fun (p : Char) (as : List Argument) => Tag.fact ⟨[p], as, .certain⟩
    let s := ExpertSystem.new
      [⟨[fact 'B' [x]], [fact 'C' [x, .literal ['c']]]⟩,
        ⟨[fact 'A' [x, .named ['?'] .single [], .wildcard]], [fact 'B' [x]]⟩]
      [⟨['A'], [.number (.ofNat 3) .gt, .literal ['a'], .literal ['b']], .certain⟩] [] 100 1
    let steps : List (Enumeration × Operation) :=
      [(.oldestFirst, .thinkCycle), (.oldestFirst, .think (.cycles 2) false)]
    (s.after steps).memory.facts.size = 3 ∧
      ∀ f ∈ (s.after steps).memory.facts.items, f.isGround = true := by
  intro x fact s steps
  exact ⟨by decide +kernel, after_thinking_isGround (by decide +kernel) (by decide +kernel)
    (by decide +kernel)⟩

/-- The input fact matches, but its bare mark binds nothing, so the output keeps its variable, which
is named like the mark. -/
theorem not_isGround_bare_mark :
    let fact := fun (p : Char) (a : Argument) => Tag.fact ⟨[p], [a], .certain⟩
    let s := ExpertSystem.new
      [⟨[fact 'P' (.named ['?'] .single [])], [fact 'Q' (.named ['?'] .multi [])]⟩]
      [⟨['P'], [.literal ['a']], .certain⟩] [] 100 1
    (∀ f ∈ s.memory.facts.items, f.isGround = true) ∧
      (∀ r ∈ s.memory.ready.items, r.RangeRestricted Fact.slotNames) ∧
      ¬ ∀ f ∈ (s.after [(.oldestFirst, .thinkCycle)]).memory.facts.items, f.isGround = true := by
  decide +kernel

end TagReasoner
