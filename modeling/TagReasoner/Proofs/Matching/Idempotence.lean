import TagReasoner.Proofs.Matching.Resolution

/-!
# One pass of substitution is final

Nothing is asked of the bindings here: they may lead anywhere, also round in circles. A walk stops
at a value, at a variable without a binding, or at a variable that it has followed before, and it
makes no more steps than there are bindings (`Substitution.exists_walk`).

Resolving what has been resolved changes nothing (`resolve_resolve`). If a walk comes back to the
name it started from, then what it ends in starts the same walk again. If not, the binding of that
name has no part in where a walk from the end leads (`resolve_of_resolve_erase`), and by induction
it leads nowhere else. So a tag in which variables have been substituted stays as it is under the same
substitution (`substitution_idempotent`).
-/

namespace TagReasoner
namespace Substitution

variable {θ : Substitution} {a b c : Argument} {n : Text} {seen : List Text}

/-! ## The steps of a walk -/

/-- A walk from `a` that has followed the names in `seen` before makes `steps` more steps and stops
at the last argument: at a value, at a variable without a binding, or at one that it has followed
before. -/
inductive Walk (θ : Substitution) : List Text → Argument → Nat → Argument → Prop
  | value {seen : List Text} {a : Argument} (value : a.name? = none) : Walk θ seen a 0 a
  | unbound {seen : List Text} {a : Argument} {n : Text} (name : a.name? = some n)
      (unbound : θ.get? n = none) : Walk θ seen a 0 a
  | again {seen : List Text} {a : Argument} {n : Text} (name : a.name? = some n)
      (again : n ∈ seen) : Walk θ seen a 0 a
  | step {seen : List Text} {a b c : Argument} {n : Text} {steps : Nat} (name : a.name? = some n)
      (new : n ∉ seen) (bound : θ.get? n = some b) (rest : Walk θ (n :: seen) b steps c) :
      Walk θ seen a (steps + 1) c

/-- Where a walk stops, it makes no step. -/
theorem Walk.not_step {steps : Nat} (h : Walk θ seen a steps c) (ha : a.name? = some n)
    (hstop : θ.get? n = none ∨ n ∈ seen) : steps = 0 ∧ c = a := by
  cases h with
  | value | unbound | again => exact ⟨rfl, rfl⟩
  | step hm hnew hb =>
    rw [ha, Option.some.injEq] at hm
    subst hm
    rcases hstop with hnone | hseen
    · rw [hnone] at hb
      cases hb
    · exact absurd hseen hnew

/-- There is one walk from an argument. -/
theorem Walk.unique {steps steps' : Nat} (h : Walk θ seen a steps b)
    (h' : Walk θ seen a steps' c) : steps' = steps ∧ c = b := by
  induction h generalizing steps' with
  | value hvalue =>
    cases h' with
    | value | unbound | again => exact ⟨rfl, rfl⟩
    | step hm => rw [hvalue] at hm; cases hm
  | unbound hn hnone => exact h'.not_step hn (.inl hnone)
  | again hn hseen => exact h'.not_step hn (.inr hseen)
  | step hn hnew hb hrest ih =>
    cases h' with
    | value hvalue => rw [hn] at hvalue; cases hvalue
    | unbound hm hnone =>
      rw [hn, Option.some.injEq] at hm
      rw [← hm, hb] at hnone
      cases hnone
    | again hm hseen =>
      rw [hn, Option.some.injEq] at hm
      exact absurd (hm ▸ hseen) hnew
    | step hm _ hc hrest' =>
      rw [hn, Option.some.injEq] at hm
      rw [← hm, hb, Option.some.injEq] at hc
      subst hm hc
      obtain ⟨hsteps, hend⟩ := ih hrest'
      exact ⟨congrArg (· + 1) hsteps, hend⟩

/-- Leaving out the bindings of the names that were followed is the same as remembering these
names. -/
theorem exists_walk_of_remaining {remaining : Substitution}
    (h : ∀ n, remaining.get? n = if n ∈ seen then none else θ.get? n) (a : Argument) :
    ∃ steps ≤ remaining.size, Walk θ seen a steps (remaining.resolve a) := by
  induction remaining, a using resolve_induct generalizing seen with
  | value remaining a ha =>
    rw [resolve_of_value ha]
    exact ⟨0, Nat.zero_le _, .value ha⟩
  | unbound remaining a n ha hn =>
    rw [resolve_of_unbound ha hn]
    refine ⟨0, Nat.zero_le _, ?_⟩
    by_cases hseen : n ∈ seen
    · exact .again ha hseen
    · rw [h, if_neg hseen] at hn
      exact .unbound ha hn
  | bound remaining a n b ha hn ih =>
    have hnew : n ∉ seen := by
      intro hseen
      rw [h, if_pos hseen] at hn
      cases hn
    have hrest : ∀ m, (remaining.erase n).get? m = if m ∈ n :: seen then none else θ.get? m := by
      intro m
      rw [Keyed.get?_erase, h]
      by_cases hmn : m = n <;> simp [hmn]
    obtain ⟨steps, hsteps, hwalk⟩ := ih hrest
    rw [resolve_of_bound ha hn, Keyed.size_erase remaining hn]
    refine ⟨steps + 1, Nat.succ_le_succ hsteps, .step ha hnew ?_ hwalk⟩
    rw [← hn, h, if_neg hnew]

/-- The walk from an argument ends in what it resolves to, after at most as many steps as there are
bindings. -/
theorem exists_walk (θ : Substitution) (a : Argument) :
    ∃ steps ≤ θ.size, ∀ k c, Walk θ [] a k c ↔ k = steps ∧ c = θ.resolve a := by
  have hall : ∀ n, θ.get? n = if n ∈ ([] : List Text) then none else θ.get? n :=
    fun n => (if_neg List.not_mem_nil).symm
  obtain ⟨steps, hsteps, hwalk⟩ := exists_walk_of_remaining hall a
  refine ⟨steps, hsteps, fun k c => ⟨hwalk.unique, ?_⟩⟩
  rintro ⟨rfl, rfl⟩
  exact hwalk

/-! ## Resolving again -/

/-- A walk that does without a binding, and does not end where that would be followed, is the same
with it. -/
theorem resolve_of_resolve_erase (h : (resolve (θ.erase n) a).name? ≠ some n) :
    θ.resolve a = resolve (θ.erase n) a := by
  induction θ, a using resolve_induct with
  | value θ a ha => rw [resolve_of_value ha, resolve_of_value ha]
  | unbound θ a m ha hm =>
    have herased : (θ.erase n).get? m = none := by
      rw [Keyed.get?_erase, hm, ite_self]
    rw [resolve_of_unbound ha hm, resolve_of_unbound ha herased]
  | bound θ a m b ha hm ih =>
    by_cases hmn : m = n
    · subst hmn
      rw [resolve_of_unbound ha (Keyed.get?_erase_self θ m)] at h
      exact absurd ha h
    · have hkept : (θ.erase n).get? m = some b := by rw [Keyed.get?_erase_ne θ hmn, hm]
      rw [resolve_of_bound ha hkept, Keyed.erase_comm] at h ⊢
      rw [resolve_of_bound ha hm]
      exact ih h

/-- What an argument resolves to resolves to itself. -/
theorem resolve_resolve (θ : Substitution) (a : Argument) :
    θ.resolve (θ.resolve a) = θ.resolve a := by
  induction θ, a using resolve_induct with
  | value θ a ha => rw [resolve_of_value ha, resolve_of_value ha]
  | unbound θ a n ha hn => rw [resolve_of_unbound ha hn, resolve_of_unbound ha hn]
  | bound θ a n b ha hn ih =>
    rw [resolve_of_bound ha hn]
    by_cases hback : (resolve (θ.erase n) b).name? = some n
    · -- the walk has come back to its start, and takes the same way again
      rw [resolve_of_bound hback hn]
    · rw [resolve_of_resolve_erase (by rwa [ih]), ih]

end Substitution

/-! ## Substituting again -/

theorem Fact.substitute_substitute (θ : Substitution) (f : Fact) :
    (f.substitute θ).substitute θ = f.substitute θ := by
  have hagain : (f.arguments.map θ.resolve).map θ.resolve = f.arguments.map θ.resolve := by
    rw [List.map_map]
    exact List.map_congr_left fun a _ => θ.resolve_resolve a
  by_cases hsame : (f.arguments.map θ.resolve == f.arguments) = true
  · have hkept : f.substitute θ = f := if_pos hsame
    rw [hkept, hkept]
  · have hput : f.substitute θ = { f with arguments := f.arguments.map θ.resolve } := if_neg hsame
    rw [hput, substitute]
    simp only [hagain, BEq.refl, if_true]

namespace Tag

mutual

theorem substitute_substitute (θ : Substitution) :
    ∀ t : Tag, (t.substitute θ).substitute θ = t.substitute θ
  | .fact f => by rw [substitute, substitute, f.substitute_substitute]
  | .recommendation _ | .foreign .. => rfl
  | .rule i o => by
    rw [substitute, substitute, substituteAll_substituteAll θ i, substituteAll_substituteAll θ o]

theorem substituteAll_substituteAll (θ : Substitution) :
    ∀ ts : List Tag, substituteAll θ (substituteAll θ ts) = substituteAll θ ts
  | [] => rfl
  | t :: ts => by
    rw [substituteAll, substituteAll, substitute_substitute θ t, substituteAll_substituteAll θ ts]

end

/-- What substitution accepts, it accepts again. -/
theorem substituteChecked_substituteChecked (θ : Substitution) (t : Tag) :
    (t.substituteChecked θ).bind (substituteChecked θ) = t.substituteChecked θ := by
  have hrefusal : (t.substitute θ).substitutionRefusal? θ = t.substitutionRefusal? θ := by
    rw [substitutionRefusal?, substitutionRefusal?, foreignKind?_substitute]
  rw [substituteChecked]
  cases h : t.substitutionRefusal? θ with
  | some kind => rfl
  | none =>
    show substituteChecked θ (t.substitute θ) = .ok (t.substitute θ)
    rw [substituteChecked, hrefusal, h, substitute_substitute]

end Tag

/-- Whatever the bindings, the walk from an argument is over after at most as many steps as there
are bindings, resolving again changes nothing, and neither does substituting again, in a tag of any
kind. -/
theorem substitution_idempotent (θ : Substitution) :
    (∀ a : Argument,
      (∃ steps ≤ θ.size, ∀ k c, Substitution.Walk θ [] a k c ↔ k = steps ∧ c = θ.resolve a) ∧
      θ.resolve (θ.resolve a) = θ.resolve a) ∧
    ∀ t : Tag, (t.substitute θ).substitute θ = t.substitute θ ∧
      (t.substituteChecked θ).bind (Tag.substituteChecked θ) = t.substituteChecked θ :=
  ⟨fun a => ⟨θ.exists_walk a, θ.resolve_resolve a⟩,
    fun t => ⟨t.substitute_substitute θ, t.substituteChecked_substituteChecked θ⟩⟩

/-- From outside a circle of three names a walk ends at the name where it came in. -/
example :
    let θ : Substitution := .ofList [(['a'], .named ['x'] .single []),
      (['x'], .named ['y'] .single []), (['y'], .named ['z'] .multi []),
      (['z'], .named ['x'] .multi [])]
    (θ.resolve (.named ['a'] .single [])).term = .variable ['x'] .multi ∧
      (θ.resolve (.named ['y'] .single [])).term = .variable ['y'] .single := by decide

end TagReasoner
