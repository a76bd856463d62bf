import TagReasoner.Matching.Satisfaction
import TagReasoner.Proofs.Matching.PlainFacts

/-!
# Satisfying patterns over plain facts

A *pick* names a known fact, by its position, for each pattern. The search finds a solution for a
pick just when some assignment makes each picked fact fit its pattern (`mem_placedSolutions_iff`),
and it comes to the picks in the lexicographic order of their positions. So over plain facts
`solutions` lists the solutions of the patterns, each pick's once and none besides
(`solutions_enumerate_picks`).
-/

namespace TagReasoner

/-- Under the assignment, each pattern is fitted by the fact at the position picked for it. -/
def JointlyFit (v : Assignment) (facts ps : List Fact) (pick : List Nat) : Prop :=
  List.Forall₂ (fun p i => ∃ f, facts[i]? = some f ∧ f.FitsUnder v p) ps pick

/-- The solutions with the picks that they were found for, in the order of the search. -/
def placedSolutions (facts : List Fact) : List Fact → Substitution → List (List Nat × Substitution)
  | [], θ => [([], θ)]
  | p :: ps, θ =>
    facts.zipIdx.flatMap fun fi =>
      match matchFacts fi.1 p θ with
      | some θ' => (placedSolutions facts ps θ').map fun s => (fi.2 :: s.1, s.2)
      | none => []

/-- A substitution binds the names in the slots of some patterns, and no others, to the values that
an assignment gives them. -/
structure Substitution.BindsSlots (θ : Substitution) (ps : List Fact) (v : Assignment) : Prop where
  names : ∀ n, (θ.get? n).isSome = true ↔ n ∈ ps.flatMap Fact.boundNames
  values : ∀ n c, θ.get? n = some c → (v n == c) = true

section Search

variable {facts ps : List Fact} {θ σ : Substitution}

theorem mem_solutions_cons_iff {p : Fact} :
    σ ∈ solutions facts (p :: ps) θ ↔
      ∃ f ∈ facts, ∃ θ', matchFacts f p θ = some θ' ∧ σ ∈ solutions facts ps θ' := by
  rw [solutions, List.mem_flatMap]
  refine exists_congr fun f => and_congr_right fun _ => ?_
  cases matchFacts f p θ <;> simp

/-- A search keeps up what each of its matches does. -/
theorem solutions_preserves {I : Substitution → Prop}
    (hstep : ∀ f ∈ facts, ∀ p ∈ ps, ∀ θ θ', I θ → matchFacts f p θ = some θ' → I θ') (h : I θ)
    (hσ : σ ∈ solutions facts ps θ) : I σ := by
  induction ps generalizing θ with
  | nil =>
    rw [solutions, List.mem_singleton] at hσ
    rwa [hσ]
  | cons p ps ih =>
    obtain ⟨f, hf, θ', hm, hσ⟩ := mem_solutions_cons_iff.mp hσ
    have hfirst : I θ' := hstep f hf p (List.mem_cons_self ..) θ θ' h hm
    exact ih (fun g hg q hq => hstep g hg q (List.mem_cons_of_mem p hq)) hfirst hσ

/-- A search over more facts finds at least as much. -/
theorem solutions_subset {facts' : List Fact} (h : facts ⊆ facts') :
    solutions facts ps θ ⊆ solutions facts' ps θ := by
  induction ps generalizing θ with
  | nil => exact List.Subset.refl _
  | cons p ps ih =>
    intro σ hσ
    obtain ⟨f, hf, θ', hm, hσ⟩ := mem_solutions_cons_iff.mp hσ
    exact mem_solutions_cons_iff.mpr ⟨f, h hf, θ', hm, ih hσ⟩

/-! ## The order of the search -/

theorem placedSolutions_map_snd (facts ps : List Fact) (θ : Substitution) :
    (placedSolutions facts ps θ).map (·.2) = solutions facts ps θ := by
  induction ps generalizing θ with
  | nil => rfl
  | cons p ps ih =>
    have hplaced : ∀ g : Fact → List Substitution,
        facts.flatMap g = facts.zipIdx.flatMap fun fi => g fi.1 := fun g => by
      rw [← List.flatMap_map Prod.fst g, List.zipIdx_map_fst]
    rw [placedSolutions, solutions, List.map_flatMap, hplaced]
    refine congrArg (List.flatMap · facts.zipIdx) (funext fun fi => ?_)
    cases matchFacts fi.1 p θ with
    | none => rfl
    | some θ' =>
      show ((placedSolutions facts ps θ').map _).map _ = solutions facts ps θ'
      rw [List.map_map, ← ih θ']
      rfl

/-- What a solution of the first pattern and the others is made of. -/
theorem mem_placedSolutions_cons {p : Fact} {pick : List Nat} :
    (pick, σ) ∈ placedSolutions facts (p :: ps) θ ↔
      ∃ i f θ' rest, facts[i]? = some f ∧ matchFacts f p θ = some θ' ∧
        (rest, σ) ∈ placedSolutions facts ps θ' ∧ pick = i :: rest := by
  rw [placedSolutions, List.mem_flatMap]
  constructor
  · rintro ⟨⟨f, i⟩, hi, hs⟩
    cases hm : matchFacts f p θ with
    | none =>
      rw [hm] at hs
      cases hs
    | some θ' =>
      rw [hm] at hs
      obtain ⟨⟨rest, σ'⟩, hrest, heq⟩ := List.mem_map.mp hs
      cases heq
      exact ⟨i, f, θ', rest, List.mem_zipIdx_iff_getElem?.mp hi, hm, hrest, rfl⟩
  · rintro ⟨i, f, θ', rest, hi, hm, hrest, rfl⟩
    refine ⟨(f, i), List.mem_zipIdx_iff_getElem?.mpr hi, ?_⟩
    rw [hm]
    exact List.mem_map.mpr ⟨(rest, σ), hrest, rfl⟩

/-- Picks come in lexicographic order: first by the position for the first pattern. -/
theorem pairwise_placedSolutions (facts ps : List Fact) (θ : Substitution) :
    (placedSolutions facts ps θ).Pairwise fun s t => s.1 < t.1 := by
  induction ps generalizing θ with
  | nil => exact List.pairwise_singleton ..
  | cons p ps ih =>
    rw [placedSolutions, List.pairwise_flatMap]
    constructor
    · intro fi _
      cases matchFacts fi.1 p θ with
      | none => exact .nil
      | some θ' =>
        rw [List.pairwise_map]
        exact (ih θ').imp fun h => List.cons_lt_cons_iff.mpr (.inr ⟨rfl, h⟩)
    · -- solutions found for different facts differ in the first position already
      have hpositions : facts.zipIdx.Pairwise fun fi gj => fi.2 < gj.2 := by
        rw [← List.pairwise_map (f := Prod.snd) (R := (· < ·)), List.zipIdx_map_snd]
        exact List.pairwise_lt_range'
      refine hpositions.imp fun {fi gj} hlt s hs t ht => ?_
      have hfirst : ∀ hk : Fact × Nat, ∀ u ∈ (match matchFacts hk.1 p θ with
          | some θ' => (placedSolutions facts ps θ').map
              fun s : List Nat × Substitution => (hk.2 :: s.1, s.2)
          | none => []), ∃ rest, u.1 = hk.2 :: rest := by
        intro hk u hu
        cases hm : matchFacts hk.1 p θ with
        | none =>
          rw [hm] at hu
          cases hu
        | some θ' =>
          rw [hm] at hu
          obtain ⟨w, -, rfl⟩ := List.mem_map.mp hu
          exact ⟨w.1, rfl⟩
      obtain ⟨rest, hs⟩ := hfirst fi s hs
      obtain ⟨rest', ht⟩ := hfirst gj t ht
      rw [hs, ht]
      exact List.cons_lt_cons_iff.mpr (.inl hlt)

/-- There is one solution at most for a pick. -/
theorem placedSolutions_unique {pick : List Nat} {σ' : Substitution}
    (h : (pick, σ) ∈ placedSolutions facts ps θ) (h' : (pick, σ') ∈ placedSolutions facts ps θ) :
    σ = σ' := by
  induction ps generalizing θ pick with
  | nil =>
    rw [placedSolutions, List.mem_singleton] at h h'
    exact (congrArg Prod.snd h).trans (congrArg Prod.snd h').symm
  | cons p ps ih =>
    obtain ⟨i, f, θ₁, rest, hi, hm, hrest, rfl⟩ := mem_placedSolutions_cons.mp h
    obtain ⟨j, g, θ₂, rest', hj, hm', hrest', heq⟩ := mem_placedSolutions_cons.mp h'
    cases heq
    rw [hi] at hj
    cases hj
    rw [hm] at hm'
    cases hm'
    exact ih hrest hrest'

/-! ## What is found -/

/-- The search finds a solution for a pick just when an assignment makes the picked facts fit. -/
theorem mem_placedSolutions_iff (hfacts : ∀ f ∈ facts, f.isPlain = true) (hθ : θ.Plain)
    {v : Assignment} {pick : List Nat} :
    v.Respects θ ∧ JointlyFit v facts ps pick ↔
      ∃ σ, (pick, σ) ∈ placedSolutions facts ps θ ∧ v.Respects σ := by
  induction ps generalizing θ pick with
  | nil =>
    rw [placedSolutions]
    constructor
    · rintro ⟨hv, hfit⟩
      cases hfit
      exact ⟨θ, List.mem_singleton_self _, hv⟩
    · rintro ⟨σ, hmem, hv⟩
      cases List.mem_singleton.mp hmem
      exact ⟨hv, .nil⟩
  | cons p ps ih =>
    have hplain : ∀ {i : Nat} {f : Fact}, facts[i]? = some f → f.isPlain = true := fun hi =>
      hfacts _ (List.mem_of_getElem? hi)
    constructor
    · rintro ⟨hv, hfit⟩
      cases hfit with
      | cons hfirst hrest =>
        rename_i i rest
        obtain ⟨f, hi, hfit⟩ := hfirst
        obtain ⟨θ', hm, hv'⟩ := (respects_matchFacts_iff hθ (hplain hi)).mp ⟨hv, hfit⟩
        have hθ' := hθ.matchFacts (hplain hi) hm
        obtain ⟨σ, hmem, hσ⟩ := (ih hθ').mp ⟨hv', hrest⟩
        exact ⟨σ, mem_placedSolutions_cons.mpr ⟨i, f, θ', rest, hi, hm, hmem, rfl⟩, hσ⟩
    · rintro ⟨σ, hmem, hσ⟩
      obtain ⟨i, f, θ', rest, hi, hm, hfound, rfl⟩ := mem_placedSolutions_cons.mp hmem
      have hθ' := hθ.matchFacts (hplain hi) hm
      obtain ⟨hv', hrest⟩ := (ih hθ').mpr ⟨σ, hfound, hσ⟩
      obtain ⟨hv, hfit⟩ := (respects_matchFacts_iff hθ (hplain hi)).mpr ⟨θ', hm, hv'⟩
      exact ⟨hv, .cons ⟨f, hi, hfit⟩ hrest⟩

/-- A solution binds the names in the slots of the patterns, all to arguments of the facts. -/
theorem placedSolutions_boundNames {P : Argument → Bool}
    (hP : ∀ a, P a = true → a.isGround = true)
    (hfacts : ∀ f ∈ facts, ∀ a ∈ f.arguments, P a = true)
    (hθ : ∀ n c, θ.get? n = some c → P c = true) {pick : List Nat}
    (h : (pick, σ) ∈ placedSolutions facts ps θ) :
    (∀ n c, σ.get? n = some c → P c = true) ∧ ∀ n, (σ.get? n).isSome = true ↔
      (θ.get? n).isSome = true ∨ n ∈ ps.flatMap Fact.boundNames := by
  induction ps generalizing θ pick with
  | nil =>
    rw [placedSolutions, List.mem_singleton] at h
    cases h
    exact ⟨hθ, by simp⟩
  | cons p ps ih =>
    obtain ⟨i, f, θ', rest, hi, hm, hrest, rfl⟩ := mem_placedSolutions_cons.mp h
    obtain ⟨hθ', hfirst⟩ := matchFacts_boundNames hP hθ (hfacts f (List.mem_of_getElem? hi)) hm
    obtain ⟨hσ, hnames⟩ := ih hθ' hrest
    refine ⟨hσ, fun n => ?_⟩
    rw [hnames n, hfirst n, List.flatMap_cons, List.mem_append, or_assoc]

theorem placedSolutions_plain (hfacts : ∀ f ∈ facts, f.isPlain = true) (hθ : θ.Plain)
    {pick : List Nat} (h : (pick, σ) ∈ placedSolutions facts ps θ) : σ.Plain :=
  (placedSolutions_boundNames Argument.isGround_of_isPlain
    (fun f hf => List.all_eq_true.mp (hfacts f hf)) hθ h).1

theorem solutions_boundNames {P : Argument → Bool} (hP : ∀ a, P a = true → a.isGround = true)
    (hfacts : ∀ f ∈ facts, ∀ a ∈ f.arguments, P a = true) (h : σ ∈ solutions facts ps .empty) :
    (∀ n c, σ.get? n = some c → P c = true) ∧
      ∀ n, (σ.get? n).isSome = true ↔ n ∈ ps.flatMap Fact.boundNames := by
  rw [← placedSolutions_map_snd] at h
  obtain ⟨⟨pick, σ⟩, hmem, rfl⟩ := List.mem_map.mp h
  obtain ⟨hσ, hnames⟩ := placedSolutions_boundNames hP hfacts (fun _ _ hn => by cases hn) hmem
  refine ⟨hσ, fun n => ?_⟩
  rw [hnames n, Keyed.get?_empty]
  simp

/-- Facts can be picked when for each pattern there is one that fits. -/
theorem exists_jointlyFit_iff {v : Assignment} :
    (∃ pick, JointlyFit v facts ps pick) ↔ ∀ p ∈ ps, ∃ f ∈ facts, f.FitsUnder v p := by
  induction ps with
  | nil => exact ⟨fun _ => by simp, fun _ => ⟨[], .nil⟩⟩
  | cons p ps ih =>
    rw [List.forall_mem_cons, ← ih]
    constructor
    · rintro ⟨pick, hfit⟩
      cases hfit with
      | cons hfirst hrest =>
        obtain ⟨f, hi, hf⟩ := hfirst
        exact ⟨⟨f, List.mem_of_getElem? hi, hf⟩, _, hrest⟩
    · rintro ⟨⟨f, hmem, hf⟩, rest, hrest⟩
      obtain ⟨i, hi⟩ := List.mem_iff_getElem?.mp hmem
      exact ⟨i :: rest, .cons ⟨f, hi, hf⟩ hrest⟩

/-- Some patterns have a solution when, under one assignment, some fact fits each of them. -/
theorem solve?_isSome_iff (hfacts : ∀ f ∈ facts, f.isPlain = true) :
    (solve? facts ps .empty).isSome = true ↔ ∃ v, ∀ p ∈ ps, ∃ f ∈ facts, f.FitsUnder v p := by
  have hempty := Substitution.plain_empty
  simp only [← exists_jointlyFit_iff]
  rw [solve?_eq_head?, List.isSome_head?, ← placedSolutions_map_snd, ne_eq, List.map_eq_nil_iff]
  constructor
  · intro hne
    obtain ⟨⟨pick, σ⟩, hmem⟩ := List.exists_mem_of_ne_nil _ hne
    have hσ := placedSolutions_plain hfacts hempty hmem
    have hfit := (mem_placedSolutions_iff hfacts hempty).mpr ⟨σ, hmem, hσ.respects_values⟩
    exact ⟨σ.values, pick, hfit.2⟩
  · rintro ⟨v, pick, hfit⟩
    obtain ⟨σ, hmem, -⟩ := (mem_placedSolutions_iff hfacts hempty).mp ⟨v.respects_empty, hfit⟩
    exact List.ne_nil_of_mem hmem

/-- Patterns that are equal to plain facts are satisfied over these without a binding. -/
theorem solve?_of_known (hfacts : ∀ f ∈ facts, f.isPlain = true)
    (hps : ∀ p ∈ ps, ∃ f ∈ facts, (f == p) = true) : solve? facts ps .empty = some .empty := by
  induction ps with
  | nil => rfl
  | cons p ps ih =>
    obtain ⟨⟨f, hf, hfp⟩, hrest⟩ := List.forall_mem_cons.mp hps
    have hp : p.isPlain = true := by rw [← Fact.isPlain_congr hfp, hfacts f hf]
    -- whichever fact matches first, it binds nothing
    have hstep : ∀ g ∈ facts, ∀ θ', matchFacts g p .empty = some θ' →
        (matchFacts g p .empty).bind (solve? facts ps) = some .empty := by
      intro g hg θ' hm
      rw [hm, Option.bind_some, Fact.matchFacts_of_isPlain (hfacts g hg) hp hm, ih hrest]
    obtain ⟨θ', hm⟩ := Option.isSome_iff_exists.mp (Fact.fits_of_beq hfp)
    have hsome : (solve? facts (p :: ps) .empty).isSome = true := by
      rw [solve?, List.isSome_findSome?, List.any_eq_true]
      exact ⟨f, hf, by rw [hstep f hf θ' hm]; rfl⟩
    obtain ⟨σ, hσ⟩ := Option.isSome_iff_exists.mp hsome
    rw [hσ]
    rw [solve?] at hσ
    obtain ⟨g, hg, hgσ⟩ := List.exists_of_findSome?_eq_some hσ
    obtain ⟨θ'', hm', -⟩ := Option.bind_eq_some_iff.mp hgσ
    rw [← hgσ, hstep g hg θ'' hm']

end Search

/-- Over plain facts, the solutions of some patterns are those of the picks that some assignment
makes fit, one for each and in lexicographic order of the positions, and each binds exactly the
names in the slots, to the values under any such assignment. -/
theorem solutions_enumerate_picks {facts ps : List Fact}
    (hfacts : ∀ f ∈ facts, f.isPlain = true) :
    ∃ picks : List (List Nat), picks.Pairwise (· < ·) ∧
      (∀ pick, pick ∈ picks ↔ ∃ v, JointlyFit v facts ps pick) ∧
      List.Forall₂ (fun pick θ => ∀ v, JointlyFit v facts ps pick → θ.BindsSlots ps v)
        picks (solutions facts ps .empty) := by
  have hempty := Substitution.plain_empty
  refine ⟨(placedSolutions facts ps .empty).map (·.1), ?_, fun pick => ?_, ?_⟩
  · rw [List.pairwise_map]
    exact pairwise_placedSolutions facts ps .empty
  · rw [List.mem_map]
    constructor
    · rintro ⟨⟨pick, σ⟩, hmem, rfl⟩
      have hσ := placedSolutions_plain hfacts hempty hmem
      have hv := (mem_placedSolutions_iff hfacts hempty).mpr ⟨σ, hmem, hσ.respects_values⟩
      exact ⟨_, hv.2⟩
    · rintro ⟨v, hv⟩
      obtain ⟨σ, hmem, -⟩ := (mem_placedSolutions_iff hfacts hempty).mp
        ⟨v.respects_empty, hv⟩
      exact ⟨(pick, σ), hmem, rfl⟩
  · -- picks and solutions are read off the same list, so they go together one by one
    rw [← placedSolutions_map_snd, List.forall₂_map_left_iff, List.forall₂_map_right_iff]
    refine List.forall₂_same.mpr fun ⟨pick, σ⟩ hmem v hv => ?_
    have hsolution : σ ∈ solutions facts ps .empty := by
      rw [← placedSolutions_map_snd]
      exact List.mem_map_of_mem hmem
    obtain ⟨hσ, hnames⟩ := solutions_boundNames Argument.isGround_of_isPlain
      (fun f hf => List.all_eq_true.mp (hfacts f hf)) hsolution
    obtain ⟨σ', hmem', hv'⟩ := (mem_placedSolutions_iff hfacts hempty).mp
      ⟨v.respects_empty, hv⟩
    obtain rfl := placedSolutions_unique hmem hmem'
    refine ⟨hnames, fun n c hn => ?_⟩
    · have hc := hv' n c hn
      rwa [Argument.valueUnder_of_value (Argument.name?_of_isPlain (hσ n c hn))] at hc

/-- Two picks, for a variable that occurs in two patterns next to an operator and a wildcard. -/
theorem solutions_enumerate_picks_shared_variable :
    let x := Argument.named ['x'] .single []
    let facts : List Fact := [⟨['P'], [.literal ['a']], .certain⟩,
      ⟨['Q'], [.literal ['a'], .number (.ofNat 5) .eq, .literal ['c']], .certain⟩,
      ⟨['P'], [.literal ['b']], .certain⟩,
      ⟨['Q'], [.literal ['a'], .number (.ofNat 7) .eq], .certain⟩]
    let ps : List Fact := [⟨['P'], [x], .certain⟩,
      ⟨['Q'], [x, .number (.ofNat 3) .gt, .wildcard], .certain⟩]
    (∀ f ∈ facts, f.isPlain = true) ∧
      ∃ picks : List (List Nat), picks.Pairwise (· < ·) ∧
        (∀ pick, pick ∈ picks ↔ ∃ v, JointlyFit v facts ps pick) ∧
        List.Forall₂ (fun pick θ => ∀ v, JointlyFit v facts ps pick → θ.BindsSlots ps v)
          picks (solutions facts ps .empty) := by
  intro x facts ps
  have hfacts : ∀ f ∈ facts, f.isPlain = true := by decide +kernel
  exact ⟨hfacts, solutions_enumerate_picks hfacts⟩

end TagReasoner
