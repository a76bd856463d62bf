import TagReasoner.Proofs.Network.Layer

/-!
# What an eviction leaves

An eviction takes the age of every node, removes those that are older than they may be, and their
tags from the active ones. `get?_evict` and `contains_active_evict` say what is left, in terms of the
network before and the time only. Where nothing has expired, the ages are all that changes
(`NoneExpired.evict`).
-/

namespace TagReasoner

/-- At a time, the node is older than it may be. -/
def Node.hasExpired (n : Node) (now : Binary64) : Bool := n.maxAge.below (now.sub n.createdAt)

namespace Network

variable {net : Network} {now : Binary64} {t u : Tag} {ts : List Tag}

/-- No node has expired by a time. -/
def NoneExpired (net : Network) (now : Binary64) : Prop :=
  ∀ t n, net.nodes.get? t = some n → n.hasExpired now = false

/-- The ages of the nodes are those at a time. -/
def Aged (net : Network) (now : Binary64) : Prop :=
  ∀ t n, net.nodes.get? t = some n → n.age = now.sub n.createdAt

theorem get?_updateAges (net : Network) (now : Binary64) (u : Tag) :
    (net.updateAges now).nodes.get? u = (net.nodes.get? u).map fun n => n.updateAge now :=
  net.nodes.get?_mapValues (fun n => n.updateAge now) u

theorem get?_updateAges_eq_some_iff {m : Node} : (net.updateAges now).nodes.get? t = some m ↔
    ∃ n, net.nodes.get? t = some n ∧ n.updateAge now = m := by
  rw [get?_updateAges, Option.map_eq_some_iff]

theorem aged_updateAges (net : Network) (now : Binary64) : (net.updateAges now).Aged now := by
  intro t m hm
  obtain ⟨n, -, rfl⟩ := get?_updateAges_eq_some_iff.mp hm
  rfl

theorem Aged.updateAges_eq (h : net.Aged now) : net.updateAges now = net := by
  have hnodes : (net.nodes.mapValues fun _ n => n.updateAge now) = net.nodes := by
    refine Keyed.mapValues_eq_self fun t n hn => ?_
    rw [Node.updateAge, ← h t n hn]
  rw [updateAges, hnodes]

/-- Visits do not change ages. -/
theorem Aged.after (h : net.Aged now) {l : Layer} (hafter : Layer.After net ts l) :
    l.network.Aged now := by
  intro t m hm
  obtain ⟨n, hn, hbare⟩ := hafter.exists_node hm
  have hage : m.age = n.age ∧ m.createdAt = n.createdAt := by
    rw [Node.congr_bare Node.age (fun _ => rfl) hbare,
      Node.congr_bare Node.createdAt (fun _ => rfl) hbare]
    split
    · rw [Node.visited]
      split <;> exact ⟨rfl, rfl⟩
    · exact ⟨rfl, rfl⟩
  rw [hage.1, hage.2]
  exact h t n hn

/-! ## Removals -/

theorem get?_removeNode (net : Network) (t u : Tag) :
    (net.removeNode t).nodes.get? u = if t == u then none else net.nodes.get? u := by
  rw [removeNode]
  split
  next =>
    show (net.nodes.erase t).get? u = _
    rw [Keyed.get?_erase_beq, BEq.comm]
  next hnone =>
    split
    next htu =>
      rw [net.nodes.contains_congr htu, Keyed.contains_eq_isSome, Bool.not_eq_true,
        Option.isSome_eq_false_iff, Option.isNone_iff_eq_none] at hnone
      exact hnone
    next => rfl

theorem contains_active_removeNode (net : Network) (t u : Tag) :
    (net.removeNode t).active.contains u = true ↔
      net.active.contains u = true ∧ ((t == u) = true → net.nodes.contains u = false) := by
  rw [removeNode]
  split
  next hsome =>
    show (net.active.erase t).contains u = true ↔ _
    rw [WorkingSet.contains_erase]
    refine and_congr_right fun _ => ⟨fun hne htu => ?_, fun himp => ?_⟩
    · rw [hne] at htu
      cases htu
    · rw [Bool.eq_false_iff]
      intro htu
      rw [net.nodes.contains_congr htu, himp htu] at hsome
      cases hsome
  next hnone =>
    refine (and_iff_left_of_imp fun _ htu => ?_).symm
    rwa [Bool.not_eq_true, net.nodes.contains_congr htu] at hnone

theorem get?_foldl_removeNode (net : Network) (ts : List Tag) (u : Tag) :
    (ts.foldl removeNode net).nodes.get? u =
      if ts.any (· == u) then none else net.nodes.get? u := by
  induction ts generalizing net with
  | nil => rfl
  | cons t ts ih =>
    rw [List.foldl_cons, ih, get?_removeNode, List.any_cons]
    cases t == u <;> simp

theorem contains_active_foldl_removeNode (net : Network) (ts : List Tag) (u : Tag) :
    (ts.foldl removeNode net).active.contains u = true ↔
      net.active.contains u = true ∧ (ts.any (· == u) = true → net.nodes.contains u = false) := by
  induction ts generalizing net with
  | nil => simp
  | cons t ts ih =>
    have hcontains : (net.removeNode t).nodes.contains u =
        if t == u then false else net.nodes.contains u := by
      rw [Keyed.contains_eq_isSome, Keyed.contains_eq_isSome, get?_removeNode]
      split <;> rfl
    rw [List.foldl_cons, ih, contains_active_removeNode, hcontains, List.any_cons]
    cases t == u <;> simp

theorem cutoff_removeNode (net : Network) (t : Tag) : (net.removeNode t).cutoff = net.cutoff := by
  rw [removeNode]
  split <;> rfl

theorem cutoff_foldl_removeNode (net : Network) (ts : List Tag) :
    (ts.foldl removeNode net).cutoff = net.cutoff := by
  induction ts generalizing net with
  | nil => rfl
  | cons t ts ih => rw [List.foldl_cons, ih, cutoff_removeNode]

/-! ## Evictions -/

theorem any_overage_iff : (net.updateAges now).overage.any (· == u) = true ↔
    ∃ n, net.nodes.get? u = some n ∧ n.hasExpired now = true := by
  have haged : (∃ n, net.nodes.get? u = some n ∧ n.hasExpired now = true) ↔
      ∃ m, (net.updateAges now).nodes.get? u = some m ∧ m.isOverage = true := by
    rw [get?_updateAges]
    simp only [Option.map_eq_some_iff, exists_exists_and_eq_and]
    rfl
  rw [haged, overage, List.any_map, List.any_filter, List.any_eq_true]
  simp only [Function.comp_apply, Bool.and_eq_true, Keyed.get?_eq_some_iff]
  constructor
  · rintro ⟨e, he, hoverage, heu⟩
    exact ⟨e.2, ⟨e, he, heu, rfl⟩, hoverage⟩
  · rintro ⟨-, ⟨e, he, heu, rfl⟩, hoverage⟩
    exact ⟨e, he, hoverage, heu⟩

/-- The nodes that have not expired are left. -/
theorem get?_evict (net : Network) (now : Binary64) (u : Tag) :
    (net.evict now).1.nodes.get? u =
      ((net.nodes.get? u).filter fun n => !n.hasExpired now).map fun n => n.updateAge now := by
  show ((net.updateAges now).overage.foldl removeNode (net.updateAges now)).nodes.get? u = _
  rw [get?_foldl_removeNode, get?_updateAges]
  cases hu : net.nodes.get? u with
  | none => simp
  | some n =>
    have hany : (net.updateAges now).overage.any (· == u) = n.hasExpired now := by
      rw [Bool.eq_iff_iff, any_overage_iff, hu]
      simp
    rw [hany, Option.filter_some]
    cases n.hasExpired now <;> rfl

theorem get?_evict_eq_some_iff {m : Node} : (net.evict now).1.nodes.get? t = some m ↔
    ∃ n, net.nodes.get? t = some n ∧ n.hasExpired now = false ∧ n.updateAge now = m := by
  rw [get?_evict, Option.map_eq_some_iff]
  simp only [Option.filter_eq_some_iff, Bool.not_eq_true', and_assoc]

/-- The tags of expired nodes are not active any more. -/
theorem contains_active_evict (net : Network) (now : Binary64) (u : Tag) :
    (net.evict now).1.active.contains u = true ↔ net.active.contains u = true ∧
      ∀ n, net.nodes.get? u = some n → n.hasExpired now = false := by
  show ((net.updateAges now).overage.foldl removeNode (net.updateAges now)).active.contains u = true
    ↔ _
  rw [contains_active_foldl_removeNode, any_overage_iff, Keyed.contains_eq_isSome, get?_updateAges]
  refine and_congr_right fun _ => ?_
  cases net.nodes.get? u <;> simp

theorem cutoff_evict (net : Network) (now : Binary64) : (net.evict now).1.cutoff = net.cutoff :=
  cutoff_foldl_removeNode ..

theorem NoneExpired.evict (h : net.NoneExpired now) : (net.evict now).1 = net.updateAges now := by
  have hnone : (net.updateAges now).overage = [] := by
    refine List.eq_nil_iff_forall_not_mem.mpr fun u hu => ?_
    obtain ⟨n, hn, hexpired⟩ := any_overage_iff.mp (List.any_eq_true.mpr ⟨u, hu, BEq.refl u⟩)
    rw [h u n hn] at hexpired
    cases hexpired
  show (net.updateAges now).overage.foldl removeNode (net.updateAges now) = _
  rw [hnone]
  rfl

theorem NoneExpired.search (h : net.NoneExpired now) (o : TagOrder) (ply : Nat) (s : Strategy) :
    net.search o now ply s = (net.updateAges now).searchWith o ply s := by
  rw [Network.search, h.evict]

theorem NoneExpired.updateAges (h : net.NoneExpired now) :
    (net.updateAges now).NoneExpired now := by
  intro t m hm
  obtain ⟨n, hn, rfl⟩ := get?_updateAges_eq_some_iff.mp hm
  exact h t n hn

end Network
end TagReasoner
