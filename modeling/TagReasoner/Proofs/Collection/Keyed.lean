import TagReasoner.Collection.Keyed
import Mathlib.Data.List.Pairwise

/-!
# Reading keyed entries

What `get?` finds after each operation on keyed entries. Proofs elsewhere read entries through these
laws and do not open the list of entries. The first laws are for keys whose equality is an
equivalence, such as tags, the later ones for keys with a lawful equality.
-/

namespace TagReasoner
namespace Keyed

variable {κ α : Type} [BEq κ]

theorem ext_entries {m n : Keyed κ α} (h : m.entries = n.entries) : m = n := by
  cases m
  cases n
  cases h
  rfl

theorem get?_empty (k : κ) : (empty : Keyed κ α).get? k = none := rfl

theorem get?_of_size_eq_zero {m : Keyed κ α} (h : m.size = 0) (k : κ) : m.get? k = none := by
  rw [get?, List.eq_nil_of_length_eq_zero h]
  rfl

theorem get?_append (m : Keyed κ α) {k : κ} {a : α} (h : m.contains k = false) (j : κ) :
    (m.append k a h).get? j = (m.get? j).or (if k == j then some a else none) := by
  rw [get?, append, List.find?_append, Option.map_or, get?]
  congr 1
  by_cases hk : (k == j) = true
  · simp [hk]
  · simp [hk]

/-- An entry that is found was there, or is the new one. -/
theorem get?_insertNew_eq_some {m : Keyed κ α} {k j : κ} {a b : α}
    (h : (m.insertNew k a).get? j = some b) : m.get? j = some b ∨ (k == j) = true ∧ b = a := by
  unfold insertNew at h
  split at h
  next =>
    rw [get?_append, Option.or_eq_some_iff] at h
    refine h.imp_right ?_
    rintro ⟨-, h⟩
    split at h
    next hkj => exact ⟨hkj, (Option.some.inj h).symm⟩
    next => cases h
  next => exact .inl h

theorem get?_mapValues (m : Keyed κ α) (f : α → α) (k : κ) :
    (m.mapValues fun _ => f).get? k = (m.get? k).map f := by
  have hfind : (m.mapValues fun _ => f).entries.find? (fun e => e.1 == k)
      = (m.entries.find? fun e => e.1 == k).map fun e => (e.1, f e.2) := List.find?_map
  rw [get?, hfind, get?, Option.map_map, Option.map_map]
  rfl

theorem keys_distinct (m : Keyed κ α) : m.keys.Pairwise fun j k => (j == k) = false :=
  List.pairwise_map.mpr m.distinct

theorem contains_eq_any_keys (m : Keyed κ α) (k : κ) : m.contains k = m.keys.any (· == k) := by
  rw [contains, keys, List.any_map]
  rfl

theorem keys_put_of_not_contains {m : Keyed κ α} {k : κ} (h : m.contains k = false) (a : α) :
    (m.put k a).keys = m.keys ++ [k] := by
  rw [keys, entries_put_of_not_contains h, List.map_append]
  rfl

/-! ## Keys under an equivalence -/

section Equivalence

variable [EquivBEq κ]

theorem get?_congr (m : Keyed κ α) {j k : κ} (h : (j == k) = true) : m.get? j = m.get? k := by
  rw [get?, get?]
  congr 2
  funext e
  exact BEq.congr_right h

/-- Equal keys have one entry. -/
theorem get?_eq_some_iff {m : Keyed κ α} {k : κ} {a : α} :
    m.get? k = some a ↔ ∃ e ∈ m.entries, (e.1 == k) = true ∧ e.2 = a := by
  rw [get?, Option.map_eq_some_iff]
  constructor
  · rintro ⟨e, he, rfl⟩
    exact ⟨e, List.mem_of_find?_eq_some he, by simpa using List.find?_some he, rfl⟩
  · rintro ⟨e, he, hek, rfl⟩
    cases hfind : m.entries.find? fun e => e.1 == k with
    | none =>
      rw [List.find?_eq_none] at hfind
      exact absurd hek (hfind e he)
    | some d =>
      refine ⟨d, rfl, ?_⟩
      have hdk : (d.1 == k) = true := by simpa using List.find?_some hfind
      by_contra hne
      have hsymm : Std.Symm fun d e : κ × α => (d.1 == e.1) = false :=
        ⟨fun d e hde => by rwa [BEq.comm]⟩
      have hdistinct : (d.1 == e.1) = false :=
        m.distinct.forall (List.mem_of_find?_eq_some hfind) he fun h => hne (congrArg _ h)
      rw [BEq.trans hdk (BEq.symm hek)] at hdistinct
      cases hdistinct

theorem get?_of_mem {m : Keyed κ α} {e : κ × α} (h : e ∈ m.entries) : m.get? e.1 = some e.2 :=
  get?_eq_some_iff.mpr ⟨e, h, BEq.refl e.1, rfl⟩

theorem forall_get?_of_entries {m : Keyed κ α} {P : α → Prop} (h : ∀ e ∈ m.entries, P e.2) :
    ∀ k a, m.get? k = some a → P a := by
  intro k a ha
  obtain ⟨e, he, -, rfl⟩ := get?_eq_some_iff.mp ha
  exact h e he

/-- The values are what is found under the keys. -/
theorem map_values {β : Type} (m : Keyed κ α) (f : α → β) (d : β) :
    m.values.map f = m.keys.map fun k => ((m.get? k).map f).getD d := by
  rw [values, keys, List.map_map, List.map_map]
  refine List.map_congr_left fun e he => ?_
  rw [Function.comp_apply, Function.comp_apply, get?_of_mem he]
  rfl

theorem contains_congr (m : Keyed κ α) {j k : κ} (h : (j == k) = true) :
    m.contains j = m.contains k := by
  rw [contains_eq_isSome, contains_eq_isSome, get?_congr m h]

theorem mapValues_eq_self {m : Keyed κ α} {f : α → α}
    (h : ∀ k a, m.get? k = some a → f a = a) : (m.mapValues fun _ => f) = m := by
  apply ext_entries
  have hentries : ∀ e ∈ m.entries, (e.1, f e.2) = id e :=
    fun e he => Prod.ext rfl (h e.1 e.2 (get?_of_mem he))
  exact (List.map_congr_left hentries).trans (List.map_id _)

theorem get?_modify (m : Keyed κ α) (k j : κ) (f : α → α) :
    (m.modify k f).get? j = if j == k then (m.get? j).map f else m.get? j := by
  have hfind : (m.modify k f).entries.find? (fun e => e.1 == j)
      = (m.entries.find? fun e => e.1 == j).map fun e => (e.1, if e.1 == k then f e.2 else e.2) :=
    List.find?_map
  rw [get?, hfind, get?, Option.map_map]
  cases hj : m.entries.find? fun e => e.1 == j with
  | none => simp
  | some e =>
    have hkey : (e.1 == j) = true := by simpa using List.find?_some hj
    simp only [Option.map_some, Function.comp_def, BEq.congr_left hkey]
    split <;> rfl

theorem get?_insertNew (m : Keyed κ α) (k : κ) (a : α) (j : κ) :
    (m.insertNew k a).get? j = (m.get? j).or (if k == j then some a else none) := by
  unfold insertNew
  split
  next => rw [get?_append]
  next h =>
    split
    next hkj =>
      rw [Bool.not_eq_false, contains_eq_isSome, get?_congr m hkj] at h
      obtain ⟨b, hb⟩ := Option.isSome_iff_exists.mp h
      rw [hb]
      rfl
    next => rw [Option.or_none]

theorem modify_eq_self {m : Keyed κ α} {k : κ} (h : m.get? k = none) (f : α → α) :
    m.modify k f = m := by
  apply ext_entries
  refine (List.map_congr_left fun e he => ?_).trans (List.map_id _)
  have hek : ¬ (e.1 == k) = true := by
    intro hek
    rw [← get?_congr m hek, get?_of_mem he] at h
    cases h
  simp [hek]

/-- What is done to the value that is found under a key, is done to no other. -/
theorem modify_eq_const {m : Keyed κ α} {k : κ} {a : α} (h : m.get? k = some a) (f : α → α) :
    m.modify k f = m.modify k fun _ => f a := by
  apply ext_entries
  refine List.map_congr_left fun e he => ?_
  dsimp only
  split
  next hek =>
    rw [← get?_congr m hek, get?_of_mem he, Option.some.injEq] at h
    rw [h]
  next => rfl

/-- The entry under an equal key is written, and no other. -/
theorem get?_put_beq (m : Keyed κ α) (k : κ) (a : α) (j : κ) :
    (m.put k a).get? j = if j == k then some a else m.get? j := by
  unfold put
  split
  next h =>
    rw [get?_append, BEq.comm]
    split
    next hjk =>
      have hnone : m.get? j = none := by
        rw [get?_congr m hjk]
        simpa [contains_eq_isSome] using h
      rw [hnone]
      rfl
    next => rw [Option.or_none]
  next h =>
    rw [get?_modify]
    split
    next hjk =>
      have hsome : m.get? j ≠ none := by
        rw [get?_congr m hjk]
        simpa [contains_eq_isSome] using h
      obtain ⟨b, hb⟩ := Option.ne_none_iff_exists'.mp hsome
      rw [hb]
      rfl
    next => rfl

theorem size_put_ne_zero (m : Keyed κ α) (k : κ) (a : α) : (m.put k a).size ≠ 0 := by
  intro hsize
  have hput := m.get?_put_beq k a k
  rw [get?_of_size_eq_zero hsize, if_pos (BEq.refl k)] at hput
  cases hput

/-- The entry under an equal key is gone, and no other. -/
theorem get?_erase_beq (m : Keyed κ α) (k j : κ) :
    (m.erase k).get? j = if j == k then none else m.get? j := by
  have hfind : (m.erase k).entries.find? (fun e => e.1 == j)
      = m.entries.find? fun e => decide ((!(e.1 == k)) = true ∧ (e.1 == j) = true) :=
    List.find?_filter
  rw [get?, hfind]
  split
  next hjk =>
    rw [Option.map_eq_none_iff, List.find?_eq_none]
    intro e _
    by_cases hej : (e.1 == j) = true
    · simp [hej, BEq.trans hej hjk]
    · simp [hej]
  next hjk =>
    rw [get?]
    congr 2
    funext e
    by_cases hej : (e.1 == j) = true
    · simp [hej, BEq.congr_left hej, hjk]
    · simp [hej]

end Equivalence

/-! ## Keys under a lawful equality -/

variable [LawfulBEq κ]

theorem get?_put_self (m : Keyed κ α) (k : κ) (a : α) : (m.put k a).get? k = some a := by
  rw [get?_put_beq, if_pos (BEq.refl k)]

theorem get?_put_ne (m : Keyed κ α) {k j : κ} (hjk : j ≠ k) (a : α) :
    (m.put k a).get? j = m.get? j := by
  rw [get?_put_beq, if_neg (by simpa using hjk)]

theorem get?_erase_self (m : Keyed κ α) (k : κ) : (m.erase k).get? k = none := by
  rw [get?_erase_beq, if_pos (BEq.refl k)]

theorem get?_erase_ne (m : Keyed κ α) {k j : κ} (hjk : j ≠ k) :
    (m.erase k).get? j = m.get? j := by
  rw [get?_erase_beq, if_neg (by simpa using hjk)]

theorem get?_put [DecidableEq κ] (m : Keyed κ α) (k : κ) (a : α) (j : κ) :
    (m.put k a).get? j = if j = k then some a else m.get? j := by
  split
  next h => rw [h, get?_put_self]
  next h => rw [get?_put_ne m h]

theorem get?_erase [DecidableEq κ] (m : Keyed κ α) (k j : κ) :
    (m.erase k).get? j = if j = k then none else m.get? j := by
  split
  next h => rw [h, get?_erase_self]
  next h => rw [get?_erase_ne m h]

/-- What holds of all that is bound, and of a new binding, holds when that is put in. -/
theorem forall_put [DecidableEq κ] {P : κ → α → Prop} {m : Keyed κ α} {k : κ} {a : α}
    (h : ∀ j b, m.get? j = some b → P j b) (hk : P k a) :
    ∀ j b, (m.put k a).get? j = some b → P j b := by
  intro j b hj
  rw [get?_put] at hj
  split at hj
  next hjk =>
    rw [hjk, ← Option.some.inj hj]
    exact hk
  next => exact h j b hj

theorem forall_erase [DecidableEq κ] {P : κ → α → Prop} {m : Keyed κ α}
    (h : ∀ j b, m.get? j = some b → P j b) (k : κ) :
    ∀ j b, (m.erase k).get? j = some b → P j b := by
  intro j b hj
  rw [get?_erase] at hj
  split at hj
  next => cases hj
  next => exact h j b hj

theorem mem_keys_iff (m : Keyed κ α) (k : κ) : k ∈ m.keys ↔ (m.get? k).isSome = true := by
  rw [← contains_eq_isSome, contains, List.any_eq_true, keys, List.mem_map]
  simp only [beq_iff_eq]

theorem mem_keys_insertNew_iff (m : Keyed κ α) (k : κ) (a : α) (j : κ) :
    j ∈ (m.insertNew k a).keys ↔ j ∈ m.keys ∨ j = k := by
  unfold insertNew
  split
  next h =>
    show j ∈ (m.entries ++ [(k, a)]).map (·.1) ↔ _
    rw [List.map_append, List.mem_append]
    exact or_congr_right List.mem_singleton
  next h =>
    refine (or_iff_left_of_imp ?_).symm
    rintro rfl
    rw [mem_keys_iff, ← contains_eq_isSome]
    simpa using h

theorem mem_keys_put_iff (m : Keyed κ α) (k : κ) (a : α) (j : κ) :
    j ∈ (m.put k a).keys ↔ j ∈ m.keys ∨ j = k := by
  rw [mem_keys_iff, mem_keys_iff]
  by_cases hjk : j = k
  · rw [hjk, get?_put_self]
    simp
  · rw [get?_put_ne m hjk]
    simp [hjk]

/-- Erasing the key of an entry takes away one entry, since no other has that key. -/
theorem size_erase (m : Keyed κ α) {k : κ} {a : α} (h : m.get? k = some a) :
    m.size = (m.erase k).size + 1 := by
  have hcount : ∀ es : List (κ × α), es.Pairwise (fun d e => (d.1 == e.1) = false) →
      (∃ e ∈ es, e.1 = k) → es.length = (es.filter fun e => !(e.1 == k)).length + 1 := by
    intro es
    induction es with
    | nil => simp
    | cons e es ih =>
      intro hdistinct hmem
      obtain ⟨he, hes⟩ := List.pairwise_cons.mp hdistinct
      by_cases hek : e.1 = k
      · have hrest : es.filter (fun d => !(d.1 == k)) = es := by
          rw [List.filter_eq_self]
          intro d hd
          have hne : k ≠ d.1 := by simpa [hek] using he d hd
          simpa using hne.symm
        rw [List.filter_cons_of_neg (by simp [hek]), hrest]
        rfl
      · have hmem' : ∃ d ∈ es, d.1 = k := by simpa [hek] using hmem
        rw [List.filter_cons_of_pos (by simp [hek]), List.length_cons, ih hes hmem']
        rfl
  have hkey : k ∈ m.keys := (mem_keys_iff m k).mpr (by rw [h]; rfl)
  exact hcount m.entries m.distinct (List.mem_map.mp hkey)

omit [LawfulBEq κ] in
theorem erase_comm (m : Keyed κ α) (j k : κ) : (m.erase j).erase k = (m.erase k).erase j := by
  apply ext_entries
  show (m.entries.filter _).filter _ = (m.entries.filter _).filter _
  rw [List.filter_filter, List.filter_filter]
  congr 1
  funext e
  exact Bool.and_comm ..

end Keyed
end TagReasoner
