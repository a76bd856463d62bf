import TagReasoner.Matching.Facts

/-!
# Satisfying patterns together

A list of patterns is satisfied by matching each of them with some fact, bindings carried from one
pattern to the next. `solutions` lists every substitution found, in the order of a search that
tries the facts in order for the first pattern, and for each of them those for the second.

All solutions may be many, so two more functions stop early: `solve?` finds the first solution
(`solve?_eq_head?`), and `firstSolutions` the first few (`firstSolutions_eq_take`).
-/

namespace TagReasoner

/-- Every substitution under which each pattern matches a fact, in the order of the search. -/
def solutions (facts : List Fact) : List Fact → Substitution → List Substitution
  | [], θ => [θ]
  | p :: ps, θ =>
    facts.flatMap fun f =>
      match matchFacts f p θ with
      | some θ' => solutions facts ps θ'
      | none => []

/-- The first solution. -/
def solve? (facts : List Fact) : List Fact → Substitution → Option Substitution
  | [], θ => some θ
  | p :: ps, θ => facts.findSome? fun f => (matchFacts f p θ).bind (solve? facts ps)

/-- Collects results of `f` from left to right until there are `n` of them. -/
def collect (n : Nat) (f : Nat → α → List β) (as : List α) : List β :=
  as.foldl (fun found a => if n ≤ found.length then found else found ++ f (n - found.length) a) []

/-- The first `n` solutions. -/
def firstSolutions (facts : List Fact) : List Fact → Nat → Substitution → List Substitution
  | [], n, θ => [θ].take n
  | p :: ps, n, θ =>
    collect n (fun k f =>
      match matchFacts f p θ with
      | some θ' => firstSolutions facts ps k θ'
      | none => []) facts

/-! ## Early stops -/

theorem solve?_eq_head? (facts ps : List Fact) (θ : Substitution) :
    solve? facts ps θ = (solutions facts ps θ).head? := by
  induction ps generalizing θ with
  | nil => rfl
  | cons p ps ih =>
    rw [solve?, solutions, List.head?_flatMap]
    refine congrArg (fun g => List.findSome? g facts) (funext fun f => ?_)
    cases matchFacts f p θ with
    | none => rfl
    | some θ' => exact ih θ'

/-- Collecting bounded results is taking from all of them. -/
theorem collect_eq_take {n : Nat} {f : Nat → α → List β} {g : α → List β}
    (h : ∀ k a, f k a = (g a).take k) (as : List α) : collect n f as = (as.flatMap g).take n := by
  have H : ∀ found : List β, found.length ≤ n →
      as.foldl (fun found a =>
        if n ≤ found.length then found else found ++ f (n - found.length) a) found
        = (found ++ as.flatMap g).take n := by
    induction as with
    | nil => intro found hn; simp [List.take_of_length_le hn]
    | cons a as ih =>
      intro found hn
      simp only [List.foldl_cons, List.flatMap_cons]
      split
      next hle =>
        rw [ih found hn, List.take_append_of_le_length hle, List.take_append_of_le_length hle]
      next hlt =>
        rw [h, ih _ (by simp; omega)]
        simp only [List.append_assoc, List.take_append, List.take_take, List.length_take,
          Nat.min_self]
        congr 3
        omega
  exact H [] (Nat.zero_le n)

theorem firstSolutions_eq_take (facts ps : List Fact) (n : Nat) (θ : Substitution) :
    firstSolutions facts ps n θ = (solutions facts ps θ).take n := by
  induction ps generalizing n θ with
  | nil => rfl
  | cons p ps ih =>
    rw [firstSolutions, solutions]
    refine collect_eq_take (fun k f => ?_) facts
    cases matchFacts f p θ with
    | none => simp
    | some θ' => exact ih k θ'

end TagReasoner
