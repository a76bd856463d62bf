import TagReasoner.Tag.Basic
import Mathlib.Data.List.Forall2

/-!
# Equality of tags is an equivalence

`==` compares tags by structure and ignores spelling and confidence, so equal tags need not be the
same. It is an equivalence on arguments, facts, tags and rules all the same, which is what sets of
tags rest on. Recommendations have nothing to ignore: their equality is lawful.
-/

namespace TagReasoner

/-! ## Lists -/

theorem beq_iff_forall₂ {α : Type} [BEq α] {as bs : List α} :
    (as == bs) = true ↔ List.Forall₂ (fun a b => (a == b) = true) as bs := by
  induction as generalizing bs with
  | nil => cases bs <;> simp
  | cons a as ih =>
    cases bs with
    | nil => simp
    | cons b bs => rw [List.cons_beq_cons, Bool.and_eq_true, List.forall₂_cons, ih]

theorem exists_mem_of_forall₂ {α β : Type} {R : α → β → Prop} {as : List α} {bs : List β}
    (h : List.Forall₂ R as bs) {a : α} (ha : a ∈ as) : ∃ b ∈ bs, R a b := by
  induction h with
  | nil => cases ha
  | cons hab _ ih =>
    rcases List.mem_cons.mp ha with rfl | ha
    · exact ⟨_, List.mem_cons_self .., hab⟩
    · obtain ⟨b, hb, hab⟩ := ih ha
      exact ⟨b, List.mem_cons_of_mem _ hb, hab⟩

theorem exists_forall₂ {α β : Type} {R : α → β → Prop} {as : List α}
    (h : ∀ a ∈ as, ∃ b, R a b) : ∃ bs, List.Forall₂ R as bs := by
  induction as with
  | nil => exact ⟨[], .nil⟩
  | cons a as ih =>
    obtain ⟨b, hb⟩ := h a (List.mem_cons_self ..)
    obtain ⟨bs, hbs⟩ := ih fun a' ha' => h a' (List.mem_cons_of_mem a ha')
    exact ⟨b :: bs, .cons hb hbs⟩

theorem ne_nil_of_forall₂ {α β : Type} {R : α → β → Prop} {as : List α} {bs : List β}
    (has : as ≠ []) (h : List.Forall₂ R as bs) : bs ≠ [] := by
  rintro rfl
  cases h
  exact has rfl

/-- Lists that are equal one by one repeat nothing, or both do. -/
theorem pairwise_ne_of_forall₂ {α : Type} [BEq α] [EquivBEq α] {as bs : List α}
    (h : List.Forall₂ (fun a b => (a == b) = true) as bs)
    (hbs : bs.Pairwise fun a b => (a == b) = false) :
    as.Pairwise fun a b => (a == b) = false := by
  induction h with
  | nil => exact .nil
  | cons hab htail ih =>
    rw [List.pairwise_cons] at hbs ⊢
    refine ⟨fun a' ha' => ?_, ih hbs.2⟩
    obtain ⟨b', hb', hab'⟩ := exists_mem_of_forall₂ htail ha'
    rw [BEq.congr_left hab, BEq.congr_right hab']
    exact hbs.1 b' hb'

instance equivBEqList {α : Type} [BEq α] [EquivBEq α] : EquivBEq (List α) where
  symm {as bs} h := by
    rw [beq_iff_forall₂] at h ⊢
    exact (h.imp fun _ _ => BEq.symm).flip
  trans {as bs cs} h₁ h₂ := by
    rw [beq_iff_forall₂] at h₁ h₂ ⊢
    induction h₁ generalizing cs with
    | nil => exact h₂
    | cons hab _ ih =>
      cases h₂ with
      | cons hbc htail => exact .cons (BEq.trans hab hbc) (ih htail)

/-! ## Facts and recommendations -/

theorem Fact.beq_iff {f g : Fact} :
    (f == g) = true ↔ f.predicate = g.predicate ∧ (f.arguments == g.arguments) = true := by
  show (f.predicate == g.predicate && f.arguments == g.arguments) = true ↔ _
  rw [Bool.and_eq_true, beq_iff_eq]

instance : EquivBEq Fact where
  rfl {f} := Fact.beq_iff.mpr ⟨rfl, BEq.refl _⟩
  symm h := by
    rw [Fact.beq_iff] at h ⊢
    exact ⟨h.1.symm, BEq.symm h.2⟩
  trans h₁ h₂ := by
    rw [Fact.beq_iff] at h₁ h₂ ⊢
    exact ⟨h₁.1.trans h₂.1, BEq.trans h₁.2 h₂.2⟩

theorem Recommendation.ext_text : ∀ {r s : Recommendation}, r.text = s.text → r = s
  | ⟨_, _⟩, ⟨_, _⟩, rfl => rfl

instance : LawfulBEq Recommendation where
  rfl {r} := BEq.refl r.text
  eq_of_beq h := Recommendation.ext_text (eq_of_beq (α := Text) h)

/-! ## Tags and rules -/

namespace Tag

mutual

theorem equal_refl : ∀ t : Tag, t.equal t = true
  | .fact f => BEq.refl f
  | .recommendation r => BEq.refl r
  | .rule i o => by rw [equal, allEqual_refl i, allEqual_refl o]; rfl
  | .foreign k s => by rw [equal, BEq.refl k, BEq.refl s]; rfl

theorem allEqual_refl : ∀ ts : List Tag, allEqual ts ts = true
  | [] => rfl
  | t :: ts => by rw [allEqual, equal_refl t, allEqual_refl ts]; rfl

end

mutual

theorem equal_comm : ∀ t u : Tag, t.equal u = u.equal t
  | .fact f, u => by
    cases u with
    | fact g => exact BEq.comm (a := f) (b := g)
    | _ => simp only [equal]
  | .recommendation r, u => by
    cases u with
    | recommendation s => exact BEq.comm (a := r) (b := s)
    | _ => simp only [equal]
  | .rule i o, u => by
    cases u with
    | rule j p => rw [equal, equal, allEqual_comm i j, allEqual_comm o p]
    | _ => simp only [equal]
  | .foreign k s, u => by
    cases u with
    | foreign l t => rw [equal, equal, BEq.comm (a := k), BEq.comm (a := s)]
    | _ => simp only [equal]

theorem allEqual_comm : ∀ ts us : List Tag, allEqual ts us = allEqual us ts
  | [], us => by cases us <;> rfl
  | t :: ts, us => by
    cases us with
    | nil => rfl
    | cons u us => rw [allEqual, allEqual, equal_comm t u, allEqual_comm ts us]

end

mutual

theorem equal_trans : ∀ t u v : Tag, t.equal u = true → u.equal v = true → t.equal v = true
  | .fact f, u, v, h₁, h₂ => by
    cases u <;> simp only [equal, Bool.false_eq_true] at h₁
    cases v <;> simp only [equal, Bool.false_eq_true] at h₂ ⊢
    exact BEq.trans h₁ h₂
  | .recommendation r, u, v, h₁, h₂ => by
    cases u <;> simp only [equal, Bool.false_eq_true] at h₁
    cases v <;> simp only [equal, Bool.false_eq_true] at h₂ ⊢
    exact BEq.trans h₁ h₂
  | .rule i o, u, v, h₁, h₂ => by
    cases u <;> simp only [equal, Bool.false_eq_true] at h₁
    cases v <;> simp only [equal, Bool.false_eq_true] at h₂ ⊢
    rw [Bool.and_eq_true] at h₁ h₂ ⊢
    exact ⟨allEqual_trans i _ _ h₁.1 h₂.1, allEqual_trans o _ _ h₁.2 h₂.2⟩
  | .foreign k s, u, v, h₁, h₂ => by
    cases u <;> simp only [equal, Bool.false_eq_true] at h₁
    cases v <;> simp only [equal, Bool.false_eq_true] at h₂ ⊢
    rw [Bool.and_eq_true] at h₁ h₂ ⊢
    exact ⟨BEq.trans h₁.1 h₂.1, BEq.trans h₁.2 h₂.2⟩

theorem allEqual_trans : ∀ ts us vs : List Tag,
    allEqual ts us = true → allEqual us vs = true → allEqual ts vs = true
  | [], us, vs, h₁, h₂ => by
    cases us <;> simp only [allEqual, Bool.false_eq_true] at h₁
    exact h₂
  | t :: ts, us, vs, h₁, h₂ => by
    cases us <;> simp only [allEqual, Bool.false_eq_true] at h₁
    cases vs <;> simp only [allEqual, Bool.false_eq_true] at h₂ ⊢
    rw [Bool.and_eq_true] at h₁ h₂ ⊢
    exact ⟨equal_trans t _ _ h₁.1 h₂.1, allEqual_trans ts _ _ h₁.2 h₂.2⟩

end

end Tag

instance : EquivBEq Tag where
  rfl {t} := t.equal_refl
  symm {t u} h := (Tag.equal_comm u t).trans h
  trans {t u v} h₁ h₂ := Tag.equal_trans t u v h₁ h₂

theorem Tag.allEqual_iff_forall₂ {ts us : List Tag} :
    Tag.allEqual ts us = true ↔ List.Forall₂ (fun t u => (t == u) = true) ts us := by
  induction ts generalizing us with
  | nil => cases us <;> simp [allEqual]
  | cons t ts ih =>
    cases us with
    | nil => simp [allEqual]
    | cons u us =>
      rw [allEqual, Bool.and_eq_true, List.forall₂_cons, ih]
      exact Iff.rfl

theorem Rule.beq_iff {r s : Rule} : (r == s) = true ↔
    List.Forall₂ (fun t u => (t == u) = true) r.inputs s.inputs ∧
      List.Forall₂ (fun t u => (t == u) = true) r.outputs s.outputs := by
  show (Tag.allEqual r.inputs s.inputs && Tag.allEqual r.outputs s.outputs) = true ↔ _
  rw [Bool.and_eq_true, Tag.allEqual_iff_forall₂, Tag.allEqual_iff_forall₂]

/-- Rules are equal when they are as tags. -/
instance : EquivBEq Rule where
  rfl {r} := r.toTag.equal_refl
  symm {r s} h := (Tag.equal_comm s.toTag r.toTag).trans h
  trans {r s q} h₁ h₂ := Tag.equal_trans r.toTag s.toTag q.toTag h₁ h₂

end TagReasoner
