import TagReasoner.Proofs.Composition.Choice
import TagReasoner.Proofs.Reasoning.Cycle
import TagReasoner.Reasoning.ExpertSystem
import Mathlib.Tactic.Ring

/-!
# Composition passes double walks

Rules from one plain tag to one plain tag are the edges of a graph (`Rule.isLink`). Two of them
compose when the first ends where the second starts, and then to the edge around that place
(`compose_link`). So a pass over the edges around all walks of one length makes those around all
walks of twice the length (`Spanned.pairwiseCompose`), and passes from the rules themselves make the
edges around walks whose lengths are powers of two (`contains_passes_iff`).

When a pass makes nothing there are no walks of that length, hence no longer ones, and stopping
there loses nothing.
-/

namespace TagReasoner

/-! ## Walks -/

/-- The rule from one tag to another. -/
def Rule.link (a c : Tag) : Rule := ⟨[a], [c]⟩

/-- The rule leads from one plain tag to one plain tag. -/
def Rule.isLink (r : Rule) : Bool :=
  match r.inputs, r.outputs with
  | [a], [c] => a.isPlain && c.isPlain
  | _, _ => false

/-- A walk of `n` edges along the rules of a set. -/
inductive Walk (S : WorkingSet Rule) : Nat → Tag → Tag → Prop
  | nil {a b : Tag} : (a == b) = true → Walk S 0 a b
  | cons {n : Nat} {a b c : Tag} : S.contains (.link a b) = true → Walk S n b c →
      Walk S (n + 1) a c

/-- The rule leads from the start of some walk of `n` edges to its end. -/
def Rule.Spans (S : WorkingSet Rule) (n : Nat) (r : Rule) : Prop :=
  ∃ a c, Walk S n a c ∧ (link a c == r) = true

section Walk

variable {S : WorkingSet Rule} {m n : Nat} {a b c d : Tag}

theorem Rule.link_beq_iff : (link a b == link c d) = true ↔ (a == c) = true ∧ (b == d) = true := by
  simp only [Rule.beq_iff, link, List.forall₂_cons, List.forall₂_nil_left_iff, and_true]

theorem Rule.isLink_iff {r : Rule} :
    r.isLink = true ↔ ∃ a c, a.isPlain = true ∧ c.isPlain = true ∧ r = link a c := by
  constructor
  · intro h
    unfold isLink at h
    split at h
    next a c hinputs houtputs =>
      obtain ⟨ha, hc⟩ := Bool.and_eq_true_iff.mp h
      refine ⟨a, c, ha, hc, ?_⟩
      rw [link, ← hinputs, ← houtputs]
    next => cases h
  · rintro ⟨a, c, ha, hc, rfl⟩
    exact Bool.and_eq_true_iff.mpr ⟨ha, hc⟩

theorem Walk.congr (h : Walk S n b c) (hab : (a == b) = true) (hcd : (c == d) = true) :
    Walk S n a d := by
  induction h generalizing a with
  | nil hbc => exact .nil (BEq.trans hab (BEq.trans hbc hcd))
  | cons hedge _ ih =>
    refine .cons ?_ (ih (BEq.refl _) hcd)
    rwa [WorkingSet.contains_congr (Rule.link_beq_iff.mpr ⟨hab, BEq.refl _⟩)]

theorem walk_succ_iff :
    Walk S (n + 1) a c ↔ ∃ b, S.contains (.link a b) = true ∧ Walk S n b c := by
  constructor
  · rintro (_ | ⟨hedge, hrest⟩)
    exact ⟨_, hedge, hrest⟩
  · rintro ⟨b, hedge, hrest⟩
    exact .cons hedge hrest

/-- A walk can be cut in two anywhere. -/
theorem walk_add_iff : Walk S (m + n) a c ↔ ∃ b, Walk S m a b ∧ Walk S n b c := by
  induction m generalizing a with
  | zero =>
    rw [Nat.zero_add]
    constructor
    · exact fun h => ⟨a, .nil (BEq.refl a), h⟩
    · rintro ⟨b, ⟨hab⟩, h⟩
      exact h.congr hab (BEq.refl c)
  | succ m ih =>
    rw [Nat.succ_add, walk_succ_iff]
    simp only [ih, walk_succ_iff]
    constructor
    · rintro ⟨d, hedge, b, hfirst, hsecond⟩
      exact ⟨b, ⟨d, hedge, hfirst⟩, hsecond⟩
    · rintro ⟨b, ⟨d, hedge, hfirst⟩, hsecond⟩
      exact ⟨d, hedge, b, hfirst, hsecond⟩

end Walk

/-! ## Composing edges -/

section Link

variable {a b c d : Tag}

/-- Plain tags match when they are equal, and nothing is bound. -/
theorem matchTags_of_isPlain (hb : b.isPlain = true) (hc : c.isPlain = true) :
    matchTags b c .empty = if b == c then some .empty else none := by
  cases b with
  | recommendation => rfl
  | rule | foreign => cases hb
  | fact f =>
    cases c with
    | recommendation => rfl
    | rule | foreign => cases hc
    | fact p =>
      show matchFacts f p .empty = if f == p then some .empty else none
      rw [← Fact.fits_eq_beq hb hc, Fact.fits]
      cases hm : matchFacts f p .empty with
      | none => rfl
      | some θ =>
        rw [Fact.matchFacts_of_isPlain hb hc hm]
        rfl

theorem Tag.name?_of_mem_allArguments {t : Tag} (ht : t.isPlain = true) {x : Argument}
    (hx : x ∈ t.allArguments) : x.name? = none := by
  cases t with
  | fact f => exact Argument.name?_of_isPlain (List.all_eq_true.mp ht x hx)
  | recommendation => cases hx
  | rule | foreign => cases ht

namespace Rule

/-- There is nothing to rename in an edge. -/
theorem renameApart_link (ha : a.isPlain = true) (hc : c.isPlain = true) (taken : List Text) :
    (link a c).renameApart taken = link a c := by
  refine renameApart_eq_self fun n hn => ?_
  obtain ⟨x, hx, hxn⟩ := mem_namedVariables_iff.mp hn
  have hname := (Argument.givenName?_eq_some_iff.mp hxn).2
  have hnone : x.name? = none := by
    rcases List.mem_append.mp hx with hx | hx
    · exact Tag.name?_of_mem_allArguments ha (by simpa [link, Tag.argumentsOf] using hx)
    · exact Tag.name?_of_mem_allArguments hc (by simpa [link, Tag.argumentsOf] using hx)
  rw [hname] at hnone
  cases hnone

/-- Edges that meet compose to the edge around the place where they meet. -/
theorem compose_link (hb : b.isPlain = true) (hc : c.isPlain = true) (hd : d.isPlain = true) :
    compose (link a b) (link c d) = if b == c then link a d else .empty := by
  rw [compose, if_neg (by simp [nothingToCompose, isEmpty, link]), renameApart_link hc hd,
    composeApart]
  have hmatch : matchOutputs (link a b).outputs (link c d).inputs .empty
      = if b == c then some .empty else none := by
    rw [link, link, matchOutputs_cons, matchOutput, List.findSome?_singleton,
      matchTags_of_isPlain hb hc]
    split <;> rfl
  rw [hmatch]
  cases b == c with
  | false => rfl
  | true =>
    simp only [if_true, Tag.substituteAll_empty]
    rfl

theorem foreignKind?_of_isLink {r : Rule} (hr : r.isLink = true) : r.toTag.foreignKind? = none := by
  obtain ⟨a, c, ha, hc, rfl⟩ := isLink_iff.mp hr
  simp only [toTag, link, Tag.foreignKind?, Tag.firstForeignKind?, Tag.foreignKind?_of_isPlain ha,
    Tag.foreignKind?_of_isPlain hc, Option.or_none]

end Rule
end Link

/-! ## One pass -/

theorem mem_orderedPairs_iff {α : Type} {as : List α} {p : α × α} :
    p ∈ orderedPairs as ↔ p.1 ∈ as ∧ p.2 ∈ as := by
  obtain ⟨a, b⟩ := p
  simp [orderedPairs]

section Pass

variable {rules : List Rule} {r : Rule}

theorem mem_pairwiseCompose (h : r ∈ (pairwiseCompose rules).items) :
    ∃ p ∈ rules, ∃ q ∈ rules, (compose p q).isEmpty = false ∧ compose p q = r := by
  rcases WorkingSet.mem_of_mem_insertAll h with h | h
  · cases h
  obtain ⟨h, hempty⟩ := List.mem_filter.mp h
  obtain ⟨⟨p, q⟩, hpq, rfl⟩ := List.mem_map.mp h
  obtain ⟨hp, hq⟩ := mem_orderedPairs_iff.mp hpq
  exact ⟨p, hp, q, hq, (Bool.not_eq_true' _).mp hempty, rfl⟩

theorem contains_pairwiseCompose {p q : Rule} (hp : p ∈ rules) (hq : q ∈ rules)
    (hempty : (compose p q).isEmpty = false) :
    (pairwiseCompose rules).contains (compose p q) = true := by
  refine (WorkingSet.contains_insertAll _).mpr (.inr ⟨compose p q, ?_, BEq.refl _⟩)
  refine List.mem_filter.mpr ⟨?_, (Bool.not_eq_true' _).mpr hempty⟩
  exact List.mem_map.mpr ⟨(p, q), mem_orderedPairs_iff.mpr ⟨hp, hq⟩, rfl⟩

/-- Composed edges are edges around the place where they meet. -/
theorem exists_link_of_compose {p q : Rule} (hp : p.isLink = true) (hq : q.isLink = true)
    (hempty : (compose p q).isEmpty = false) : ∃ a b c d, p = .link a b ∧ q = .link c d ∧
      (b == c) = true ∧ compose p q = .link a d ∧ (Rule.link a d).isLink = true := by
  obtain ⟨a, b, ha, hb, rfl⟩ := Rule.isLink_iff.mp hp
  obtain ⟨c, d, hc, hd, rfl⟩ := Rule.isLink_iff.mp hq
  rw [Rule.compose_link hb hc hd] at hempty ⊢
  split at hempty
  next hbc => exact ⟨a, b, c, d, rfl, rfl, hbc, if_pos hbc, Bool.and_eq_true_iff.mpr ⟨ha, hd⟩⟩
  next => cases hempty

theorem isLink_of_mem_pairwiseCompose (hrules : ∀ r ∈ rules, r.isLink = true)
    (h : r ∈ (pairwiseCompose rules).items) : r.isLink = true := by
  obtain ⟨p, hp, q, hq, hempty, rfl⟩ := mem_pairwiseCompose h
  obtain ⟨a, b, c, d, -, -, -, hlink, hisLink⟩ :=
    exists_link_of_compose (hrules p hp) (hrules q hq) hempty
  rwa [hlink]

theorem pairwiseRefusal?_eq_none (hrules : ∀ r ∈ rules, r.isLink = true) :
    pairwiseRefusal? rules = none := by
  refine List.findSome?_eq_none_iff.mpr fun p hp => ?_
  obtain ⟨hfirst, hsecond⟩ := mem_orderedPairs_iff.mp hp
  exact Rule.compositionRefusal?_eq_none (Rule.foreignKind?_of_isLink (hrules _ hfirst))
    (Rule.foreignKind?_of_isLink (hrules _ hsecond))

theorem passesRefusal?_eq_none {n : Nat} (hrules : ∀ r ∈ rules, r.isLink = true) :
    passesRefusal? n rules = none := by
  induction n generalizing rules with
  | zero => rfl
  | succ n ih =>
    rw [passesRefusal?, pairwiseRefusal?_eq_none hrules, Option.none_or]
    show (if (pairwiseCompose rules).isEmpty then none
      else passesRefusal? n (pairwiseCompose rules).items) = none
    rw [ih fun r hr => isLink_of_mem_pairwiseCompose hrules hr, ite_self]

end Pass

/-- The set holds the edges around all walks of `n` edges, and nothing else. -/
structure Spanned (S : WorkingSet Rule) (n : Nat) (T : WorkingSet Rule) : Prop where
  links : ∀ r ∈ T.items, r.isLink = true
  contains_iff : ∀ r, T.contains r = true ↔ r.Spans S n

section Spanned

variable {S T : WorkingSet Rule} {n : Nat} {r : Rule}

/-- Every rule is an edge around itself. -/
theorem spanned_one (hS : ∀ r ∈ S.items, r.isLink = true) : Spanned S 1 S where
  links := hS
  contains_iff r := by
    constructor
    · intro h
      obtain ⟨q, hq, hqr⟩ := WorkingSet.contains_iff.mp h
      obtain ⟨a, c, -, -, rfl⟩ := Rule.isLink_iff.mp (hS q hq)
      exact ⟨a, c, .cons (WorkingSet.contains_of_mem hq) (.nil (BEq.refl c)), hqr⟩
    · rintro ⟨a, c, hwalk, hr⟩
      obtain ⟨b, hedge, ⟨hbc⟩⟩ := walk_succ_iff.mp hwalk
      rwa [← WorkingSet.contains_congr hr,
        ← WorkingSet.contains_congr (Rule.link_beq_iff.mpr ⟨BEq.refl a, hbc⟩)]

theorem Spanned.walk (h : Spanned S n T) {a c : Tag} (ht : Rule.link a c ∈ T.items) :
    Walk S n a c := by
  obtain ⟨a', c', hwalk, hsame⟩ := (h.contains_iff _).mp (WorkingSet.contains_of_mem ht)
  obtain ⟨ha, hc⟩ := Rule.link_beq_iff.mp hsame
  exact hwalk.congr (BEq.symm ha) hc

theorem Spanned.exists_mem (h : Spanned S n T) {a c : Tag} (hwalk : Walk S n a c) :
    ∃ a' c', Rule.link a' c' ∈ T.items ∧ (a' == a) = true ∧ (c' == c) = true := by
  obtain ⟨q, hq, hsame⟩ := WorkingSet.contains_iff.mp
    ((h.contains_iff (.link a c)).mpr ⟨a, c, hwalk, BEq.refl _⟩)
  obtain ⟨a', c', -, -, rfl⟩ := Rule.isLink_iff.mp (h.links q hq)
  exact ⟨a', c', hq, Rule.link_beq_iff.mp hsame⟩

/-- A pass goes on to walks of twice the length: one more for each way to cut a walk in halves. -/
theorem Spanned.pairwiseCompose (h : Spanned S n T) :
    Spanned S (n + n) (pairwiseCompose T.items) where
  links r hr := isLink_of_mem_pairwiseCompose h.links hr
  contains_iff r := by
    constructor
    · intro hr
      obtain ⟨t, ht, htr⟩ := WorkingSet.contains_iff.mp hr
      obtain ⟨p, hp, q, hq, hempty, rfl⟩ := mem_pairwiseCompose ht
      obtain ⟨a, b, c, d, rfl, rfl, hbc, hlink, -⟩ :=
        exists_link_of_compose (h.links p hp) (h.links q hq) hempty
      have hsecond : Walk S n b d := (h.walk hq).congr hbc (BEq.refl d)
      refine ⟨a, d, walk_add_iff.mpr ⟨b, h.walk hp, hsecond⟩, ?_⟩
      rwa [← hlink]
    · rintro ⟨a, c, hwalk, hr⟩
      obtain ⟨b, hfirst, hsecond⟩ := walk_add_iff.mp hwalk
      obtain ⟨a', b', hp, ha, hb⟩ := h.exists_mem hfirst
      obtain ⟨b'', c', hq, hb', hc⟩ := h.exists_mem hsecond
      have hlink : compose (.link a' b') (.link b'' c') = .link a' c' := by
        obtain ⟨-, hplain⟩ := Bool.and_eq_true_iff.mp (h.links _ hp)
        obtain ⟨hplain', hplain''⟩ := Bool.and_eq_true_iff.mp (h.links _ hq)
        rw [Rule.compose_link hplain hplain' hplain'', if_pos (BEq.trans hb (BEq.symm hb'))]
      have hmade := contains_pairwiseCompose hp hq (by rw [hlink]; rfl)
      rwa [hlink, WorkingSet.contains_congr (Rule.link_beq_iff.mpr ⟨ha, hc⟩),
        WorkingSet.contains_congr hr] at hmade

/-- A longer walk starts with a shorter one. -/
theorem Rule.Spans.shorter {m : Nat} (h : r.Spans S (m + n)) : ∃ q : Rule, q.Spans S m := by
  obtain ⟨a, c, hwalk, -⟩ := h
  obtain ⟨b, hfirst, -⟩ := walk_add_iff.mp hwalk
  exact ⟨.link a b, a, b, hfirst, BEq.refl _⟩

/-- The first power is that of the first pass, and the others are those of the passes after it. -/
theorem spans_pow_succ_iff {d : Nat} :
    (∃ k, 1 ≤ k ∧ k ≤ n + 1 ∧ r.Spans S (d * 2 ^ k)) ↔
      r.Spans S (d + d) ∨ ∃ k, 1 ≤ k ∧ k ≤ n ∧ r.Spans S ((d + d) * 2 ^ k) := by
  have hdouble : ∀ k, d * 2 ^ (k + 1) = (d + d) * 2 ^ k := fun k => by
    rw [Nat.pow_succ', ← Nat.mul_assoc, Nat.mul_two]
  constructor
  · rintro ⟨k, hk, hkn, h⟩
    obtain ⟨j, rfl⟩ := Nat.exists_eq_add_of_le' hk
    rw [hdouble] at h
    cases j with
    | zero => exact .inl (by simpa using h)
    | succ j => exact .inr ⟨j + 1, by omega, by omega, h⟩
  · rintro (h | ⟨k, hk, hkn, h⟩)
    · exact ⟨1, le_refl 1, by omega, by rwa [Nat.pow_one, Nat.mul_two]⟩
    · exact ⟨k + 1, by omega, by omega, by rwa [hdouble]⟩

/-- Passes from the edges around walks of `d` edges make those around walks of `d` edges doubled up
to `n` times. -/
theorem contains_passes_iff {d : Nat} (h : Spanned S d T) {made : WorkingSet Rule} :
    (passes n T.items made).contains r = true ↔
      made.contains r = true ∨ ∃ k, 1 ≤ k ∧ k ≤ n ∧ r.Spans S (d * 2 ^ k) := by
  induction n generalizing d T made with
  | zero =>
    refine (or_iff_left ?_).symm
    rintro ⟨k, hk, hk', -⟩
    omega
  | succ n ih =>
    have hnext := h.pairwiseCompose
    rw [passes, spans_pow_succ_iff]
    split
    next hempty =>
      -- no walk is as long as that, so none is longer
      have hnone : ∀ q : Rule, ¬ q.Spans S (d + d) := fun q hq => by
        have hcontains := WorkingSet.isEmpty_iff.mp hempty q
        rw [(hnext.contains_iff q).mpr hq] at hcontains
        cases hcontains
      refine (or_iff_left ?_).symm
      rintro (hr | ⟨k, -, -, hr⟩)
      · exact hnone r hr
      · obtain ⟨j, hj⟩ := Nat.exists_eq_add_of_le' (Nat.one_le_two_pow (n := k))
        rw [hj, Nat.mul_add, Nat.mul_one, Nat.add_comm] at hr
        obtain ⟨q, hq⟩ := hr.shorter
        exact hnone q hq
    next => rw [ih hnext, WorkingSet.contains_union, hnext.contains_iff, or_assoc]

end Spanned

/-! ## Rest -/

/-- The rule is an edge around a walk whose length is a power of two, between the first and the
`n`th. -/
def Rule.SpansPower (S : WorkingSet Rule) (n : Nat) (r : Rule) : Prop :=
  ∃ k, 1 ≤ k ∧ k ≤ n ∧ r.Spans S (2 ^ k)

theorem contains_composedRules_iff {S : WorkingSet Rule} (hS : ∀ r ∈ S.items, r.isLink = true)
    {n : Nat} {r : Rule} :
    (composedRules n S.items).contains r = true ↔ r.SpansPower S n := by
  have hempty : (WorkingSet.empty : WorkingSet Rule).contains r = false := rfl
  rw [composedRules, contains_passes_iff (spanned_one hS), hempty]
  simp only [Nat.one_mul, Bool.false_eq_true, false_or]
  exact Iff.rfl

theorem composedRulesChecked_eq_ok {rules : List Rule} (hrules : ∀ r ∈ rules, r.isLink = true)
    (n : Nat) : composedRulesChecked n rules = .ok (composedRules n rules) := by
  rw [composedRulesChecked, passesRefusal?_eq_none hrules]

/-- What a rest does once nothing is refused. -/
theorem ExpertSystem.perform_rest {s : ExpertSystem} {n : Nat} {composed : WorkingSet Rule}
    (h : composedRulesChecked n s.memory.ready.items = .ok composed) (e : Enumeration) :
    let made := composed.diff s.memory.ready
    s.perform e (.rest (some n)) =
      { state := s.withMemory { s.memory with ready := s.memory.ready.union made }
        notices := [.rested n made.size]
        result := .ok (.tags (made.items.map Rule.toTag)) } := by
  rw [perform, Option.getD_some, rest, if_neg (Int.not_lt.mpr (Int.natCast_nonneg n)),
    Int.toNat_natCast, h]

/-- Over rules from one plain tag to one plain tag, `n` passes compose exactly the edges around the
walks whose lengths are powers of two, between the first and the `n`th. A rest of `n` passes answers
with those that were not ready and makes them ready, and changes nothing else. -/
theorem rest_spans_powers (S : WorkingSet Rule) (hS : ∀ r ∈ S.items, r.isLink = true) (n : Nat) :
    (∃ composed, composedRulesChecked n S.items = .ok composed ∧
      ∀ r, composed.contains r = true ↔ r.SpansPower S n) ∧
    ∀ (s : ExpertSystem) (e : Enumeration), s.memory.ready = S →
      ∃ made ready : WorkingSet Rule,
        (s.perform e (.rest (some n))).result = .ok (.tags (made.items.map Rule.toTag)) ∧
        (s.perform e (.rest (some n))).state = s.withMemory { s.memory with ready := ready } ∧
        (∀ r, made.contains r = true ↔ r.SpansPower S n ∧ S.contains r = false) ∧
        ∀ r, ready.contains r = true ↔ S.contains r = true ∨ r.SpansPower S n := by
  have hcomposed := composedRulesChecked_eq_ok hS n
  refine ⟨⟨composedRules n S.items, hcomposed, fun r => contains_composedRules_iff hS⟩, ?_⟩
  rintro s e rfl
  have hmade : ∀ r, ((composedRules n s.memory.ready.items).diff s.memory.ready).contains r = true ↔
      r.SpansPower s.memory.ready n ∧ s.memory.ready.contains r = false := fun r => by
    rw [WorkingSet.contains_diff, contains_composedRules_iff hS]
  rw [ExpertSystem.perform_rest hcomposed e]
  refine ⟨_, _, rfl, rfl, hmade, fun r => ?_⟩
  rw [WorkingSet.contains_union, hmade]
  cases s.memory.ready.contains r <;> simp

/-- A circle of two rules. The first pass leads around it once, to the rule from a tag to itself. -/
theorem rest_spans_powers_circle :
    let a := Tag.fact ⟨['P'], [.number (.ofNat 5) .eq], .certain⟩
    let b := Tag.recommendation ⟨['@', 'b'], rfl⟩
    let S := WorkingSet.ofList [Rule.link a b, .link b a]
    let s := ExpertSystem.new [.link a b, .link b a] [] [] 10 1
    (∀ r ∈ S.items, r.isLink = true) ∧
      (∃ composed, composedRulesChecked 2 S.items = .ok composed ∧
        composed.contains (.link a a) = true) ∧
      ∃ made : List Rule, (s.perform .oldestFirst (.rest (some 2))).result =
          .ok (.tags (made.map Rule.toTag)) ∧ ∃ r ∈ made, (r == .link a a) = true := by
  intro a b S s
  have hS : ∀ r ∈ S.items, r.isLink = true := by decide +kernel
  have hwalk : Walk S (2 ^ 1) a a := by
    have hback : Walk S 1 b a := .cons (by decide +kernel) (.nil (BEq.refl a))
    exact .cons (by decide +kernel) hback
  have hspans : (Rule.link a a).SpansPower S 2 :=
    ⟨1, le_refl 1, by decide, a, a, hwalk, BEq.refl _⟩
  obtain ⟨⟨composed, hcomposed, hiff⟩, hrest⟩ := rest_spans_powers S hS 2
  obtain ⟨made, -, hresult, -, hmade, -⟩ := hrest s .oldestFirst rfl
  refine ⟨hS, ⟨composed, hcomposed, (hiff _).mpr hspans⟩, made.items, hresult, ?_⟩
  exact WorkingSet.contains_iff.mp ((hmade _).mpr ⟨hspans, by decide +kernel⟩)

end TagReasoner
