import TagReasoner.Collection.WorkingSet
import Mathlib.Data.List.Pairwise

/-!
# Membership in working sets

`contains` asks for an equal element, the list of items for the element itself. Under an equality
that is an equivalence `contains` does not tell equal elements apart, and of equal elements a
working set holds one at most (`eq_of_beq_of_mem`).
-/

namespace TagReasoner
namespace WorkingSet

variable {α : Type} [BEq α] {s t : WorkingSet α} {a b : α}

theorem contains_iff : s.contains a = true ↔ ∃ b ∈ s.items, (b == a) = true := by
  rw [contains, List.any_eq_true]

theorem mem_erase_iff : b ∈ (s.erase a).items ↔ b ∈ s.items ∧ (b == a) = false := by
  rw [items_erase, List.mem_filter, Bool.not_eq_true']

theorem mem_of_mem_insertAll {as : List α} (h : b ∈ (s.insertAll as).items) :
    b ∈ s.items ∨ b ∈ as := by
  induction as generalizing s with
  | nil => exact .inl h
  | cons a as ih =>
    rcases ih (s := s.insert a) h with h | h
    · rw [items_insert] at h
      split at h
      · exact .inl h
      · rcases List.mem_append.mp h with h | h
        · exact .inl h
        · exact .inr (List.mem_cons.mpr (.inl (List.mem_singleton.mp h)))
    · exact .inr (List.mem_cons_of_mem a h)

variable [EquivBEq α]

theorem contains_of_mem (h : a ∈ s.items) : s.contains a = true :=
  contains_iff.mpr ⟨a, h, BEq.refl a⟩

theorem contains_congr (h : (a == b) = true) : s.contains a = s.contains b := by
  rw [Bool.eq_iff_iff, contains_iff, contains_iff]
  constructor
  · rintro ⟨c, hc, hca⟩
    exact ⟨c, hc, BEq.trans hca h⟩
  · rintro ⟨c, hc, hcb⟩
    exact ⟨c, hc, BEq.trans hcb (BEq.symm h)⟩

/-- Equal elements of a working set are the same. -/
theorem eq_of_beq_of_mem (ha : a ∈ s.items) (hb : b ∈ s.items) (h : (a == b) = true) : a = b := by
  by_contra hne
  have hsymm : Std.Symm fun c d : α => (c == d) = false := ⟨fun c d hcd => by rwa [BEq.comm]⟩
  have hdistinct : (a == b) = false := s.distinct.forall ha hb hne
  rw [h] at hdistinct
  cases hdistinct

theorem isEmpty_iff : s.isEmpty = true ↔ ∀ a, s.contains a = false := by
  rw [isEmpty, List.isEmpty_iff]
  constructor
  · intro h a
    rw [contains, h]
    rfl
  · intro h
    refine List.eq_nil_iff_forall_not_mem.mpr fun a ha => ?_
    have hcontains := contains_of_mem ha
    rw [h a] at hcontains
    cases hcontains

theorem contains_insert :
    (s.insert a).contains b = true ↔ s.contains b = true ∨ (a == b) = true := by
  cases h : s.contains a with
  | true =>
    rw [contains_iff, items_insert, if_pos h, ← contains_iff]
    refine (or_iff_left_of_imp fun hab => ?_).symm
    rw [← contains_congr hab, h]
  | false =>
    rw [contains_iff, items_insert, if_neg (by simp [h]), contains_iff]
    constructor
    · rintro ⟨c, hc, hcb⟩
      rcases List.mem_append.mp hc with hc | hc
      · exact .inl ⟨c, hc, hcb⟩
      · cases List.mem_singleton.mp hc
        exact .inr hcb
    · rintro (⟨c, hc, hcb⟩ | hab)
      · exact ⟨c, List.mem_append_left _ hc, hcb⟩
      · exact ⟨a, List.mem_append_right _ (List.mem_singleton_self a), hab⟩

theorem contains_erase :
    (s.erase a).contains b = true ↔ s.contains b = true ∧ (a == b) = false := by
  rw [contains_iff, contains_iff]
  constructor
  · rintro ⟨c, hc, hcb⟩
    obtain ⟨hc, hca⟩ := mem_erase_iff.mp hc
    refine ⟨⟨c, hc, hcb⟩, ?_⟩
    rw [BEq.comm, ← BEq.congr_left hcb, hca]
  · rintro ⟨⟨c, hc, hcb⟩, hab⟩
    refine ⟨c, mem_erase_iff.mpr ⟨hc, ?_⟩, hcb⟩
    rw [BEq.congr_left hcb, BEq.comm, hab]

theorem contains_diff :
    (s.diff t).contains a = true ↔ s.contains a = true ∧ t.contains a = false := by
  have hmem : ∀ b, b ∈ (s.diff t).items ↔ b ∈ s.items ∧ t.contains b = false := fun b => by
    show b ∈ s.items.filter _ ↔ _
    rw [List.mem_filter, Bool.not_eq_true']
  rw [contains_iff, contains_iff]
  constructor
  · rintro ⟨b, hb, hba⟩
    rw [hmem, contains_congr hba] at hb
    exact ⟨⟨b, hb.1, hba⟩, hb.2⟩
  · rintro ⟨⟨b, hb, hba⟩, hta⟩
    exact ⟨b, (hmem b).mpr ⟨hb, (contains_congr hba).trans hta⟩, hba⟩

theorem contains_insertAll (as : List α) :
    (s.insertAll as).contains b = true ↔ s.contains b = true ∨ ∃ a ∈ as, (a == b) = true := by
  induction as generalizing s with
  | nil => simp [insertAll]
  | cons a as ih =>
    show ((s.insert a).insertAll as).contains b = true ↔ _
    rw [ih, contains_insert, or_assoc]
    simp

theorem contains_union :
    (s.union t).contains b = true ↔ s.contains b = true ∨ t.contains b = true := by
  rw [union, contains_insertAll, ← contains_iff]

/-- Elements that are not there yet come last, in their own order. -/
theorem items_insertAll {as : List α} (h : as.Pairwise fun a b => (a == b) = false) :
    (s.insertAll as).items = s.items ++ as.filter fun a => !s.contains a := by
  induction as generalizing s with
  | nil => exact (List.append_nil _).symm
  | cons a as ih =>
    obtain ⟨ha, has⟩ := List.pairwise_cons.mp h
    have hcontains : ∀ b ∈ as, (!(s.insert a).contains b) = !s.contains b := fun b hb => by
      rw [Bool.not_inj_iff, Bool.eq_iff_iff, contains_insert, ha b hb]
      exact or_iff_left Bool.false_ne_true
    show ((s.insert a).insertAll as).items = _
    rw [ih has, List.filter_congr hcontains, items_insert, List.filter_cons]
    cases s.contains a with
    | true => rfl
    | false => exact List.append_assoc ..

theorem items_ofList {as : List α} (h : as.Pairwise fun a b => (a == b) = false) :
    (ofList as).items = as := by
  rw [ofList, items_insertAll h]
  exact List.filter_eq_self.mpr fun _ _ => rfl

theorem items_union : (s.union t).items = s.items ++ t.items.filter fun a => !s.contains a :=
  items_insertAll t.distinct

omit [EquivBEq α] in
/-- Under a lawful equality there is no difference. -/
theorem contains_iff_mem [LawfulBEq α] : s.contains a = true ↔ a ∈ s.items := by
  rw [contains_iff]
  simp

end WorkingSet
end TagReasoner
