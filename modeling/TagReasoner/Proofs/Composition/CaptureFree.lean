import TagReasoner.Proofs.Composition.Renaming
import Mathlib.Data.Set.Function

/-!
# Renaming apart captures nothing

Substitution changes arguments and nothing else: predicates, confidences, recommendations and the
nesting of tags stay (`Tag.SameShape`, `Tag.sameShape_substitute`). So what renaming apart does to a
rule is what it does at each argument, and there it puts the variable with the new name for a named
variable and leaves values alone (`Argument.RenamedTo`).

New names are given to two names never alike, the names of bare marks counted in, and no variable
has a name in use afterwards (`renameApart_captureFree`).
-/

namespace TagReasoner

/-! ## Tags that differ in their arguments -/

mutual

/-- Two tags alike but for the arguments, which are related by `R` one by one. -/
def Tag.SameShape (R : Argument → Argument → Prop) : Tag → Tag → Prop
  | .fact f, .fact g =>
    f.predicate = g.predicate ∧ f.confidence = g.confidence ∧
      List.Forall₂ R f.arguments g.arguments
  | .recommendation c, .recommendation d => c = d
  | .rule i o, .rule j p => Tag.AllSameShape R i j ∧ Tag.AllSameShape R o p
  | .foreign k s, .foreign l t => k = l ∧ s = t
  | _, _ => False

/-- Several tags, alike one by one but for the arguments. -/
def Tag.AllSameShape (R : Argument → Argument → Prop) : List Tag → List Tag → Prop
  | [], [] => True
  | t :: ts, u :: us => Tag.SameShape R t u ∧ Tag.AllSameShape R ts us
  | _, _ => False

end

namespace Tag

variable {R : Argument → Argument → Prop}

mutual

/-- Tags of one shape have related arguments in the same places. -/
theorem SameShape.allArguments :
    ∀ {t u : Tag}, SameShape R t u → List.Forall₂ R t.allArguments u.allArguments
  | .fact f, u, h => by
    cases u <;> simp only [SameShape] at h
    exact h.2.2
  | .rule i o, u, h => by
    cases u <;> simp only [SameShape] at h
    exact List.rel_append (SameShape.argumentsOf h.1) (SameShape.argumentsOf h.2)
  | .recommendation c, u, h => by
    cases u <;> simp only [SameShape] at h
    exact .nil
  | .foreign k s, u, h => by
    cases u <;> simp only [SameShape] at h
    exact .nil

theorem SameShape.argumentsOf :
    ∀ {ts us : List Tag}, AllSameShape R ts us →
      List.Forall₂ R (Tag.argumentsOf ts) (Tag.argumentsOf us)
  | [], us, h => by
    cases us <;> simp only [AllSameShape] at h
    exact .nil
  | t :: ts, us, h => by
    cases us <;> simp only [AllSameShape] at h
    exact List.rel_append (SameShape.allArguments h.1) (SameShape.argumentsOf h.2)

end

/-! ## Substitution keeps the shape -/

section Substitute

variable {θ : Substitution}

theorem sameShape_substitute_fact {f : Fact} (h : ∀ a ∈ f.arguments, R a (θ.resolve a))
    (hsame : ∀ a ∈ f.arguments, (θ.resolve a == a) = true → R a a) :
    SameShape R (.fact f) (.fact (f.substitute θ)) := by
  rw [Fact.substitute]
  split
  next hequal =>
    -- no argument changes, and the fact stays as it is spelled
    rw [beq_iff_forall₂, List.forall₂_map_left_iff, List.forall₂_same] at hequal
    exact ⟨rfl, rfl, List.forall₂_same.mpr fun a ha => hsame a ha (hequal a ha)⟩
  next =>
    refine ⟨rfl, rfl, ?_⟩
    rw [List.forall₂_map_right_iff, List.forall₂_same]
    exact h

mutual

/-- Substitution keeps the shape, and puts what they resolve to in the place of arguments unless
that is equal to them. -/
theorem sameShape_substitute :
    ∀ t : Tag, (∀ a ∈ t.allArguments, R a (θ.resolve a)) →
      (∀ a ∈ t.allArguments, (θ.resolve a == a) = true → R a a) → SameShape R t (t.substitute θ)
  | .fact f, h, hsame => by
    rw [substitute]
    exact sameShape_substitute_fact h hsame
  | .rule i o, h, hsame => by
    rw [allArguments, List.forall_mem_append] at h hsame
    rw [substitute]
    exact ⟨allSameShape_substituteAll i h.1 hsame.1, allSameShape_substituteAll o h.2 hsame.2⟩
  | .recommendation c, _, _ => rfl
  | .foreign k s, _, _ => ⟨rfl, rfl⟩

theorem allSameShape_substituteAll :
    ∀ ts : List Tag, (∀ a ∈ argumentsOf ts, R a (θ.resolve a)) →
      (∀ a ∈ argumentsOf ts, (θ.resolve a == a) = true → R a a) →
      AllSameShape R ts (substituteAll θ ts)
  | [], _, _ => trivial
  | t :: ts, h, hsame => by
    rw [argumentsOf, List.forall_mem_append] at h hsame
    rw [substituteAll]
    exact ⟨sameShape_substitute t h.1 hsame.1, allSameShape_substituteAll ts h.2 hsame.2⟩

end

end Substitute
end Tag

/-! ## Renaming apart -/

/-- The second argument is the first after renaming: the variable with the new name for a named
variable, and the same for a value. -/
structure Argument.RenamedTo (h : Text → Text) (a b : Argument) : Prop where
  given : ∀ n, a.givenName? = some n → b.givenName? = some (h n)
  value : a.name? = none → b = a

/-- The names of all variables of a rule, those of bare marks among them. -/
def Rule.variableNames (r : Rule) : Set Text :=
  {n | ∃ a ∈ r.toTag.allArguments, a.name? = some n}

namespace Rule

variable {r : Rule} {taken : List Text} {a : Argument} {n : Text}

/-- No named variable has a name in use once it is renamed, even where the bare mark was taken for
the variable of the other mark. -/
theorem resolve_renamingApart_not_mem_taken (ha : a ∈ r.toTag.allArguments)
    (hn : ((r.renamingApart taken).resolve a).givenName? = some n) : n ∉ taken := by
  obtain ⟨hanon, hname⟩ := Argument.givenName?_eq_some_iff.mp hn
  cases hb : (r.renamingApart taken).resolve a == a with
  | true =>
    -- it is the variable that it was, and gets its own name
    rw [resolve_renamingApart_eq_of_beq hb] at hn
    have hrenamed : ((r.renamingApart taken).resolve a).givenName? =
        some ((r.renamingApart taken).renamed n) := resolve_renamingApart hn
    rw [resolve_renamingApart_eq_of_beq hb, hn, Option.some.injEq] at hrenamed
    rw [hrenamed]
    exact renamed_not_mem_taken (mem_namedVariables_iff.mpr ⟨a, ha, hn⟩)
  | false =>
    -- it is a fresh variable
    obtain ⟨m, hm⟩ : ∃ m, a.name? = some m := by
      cases hm : a.name? with
      | some m => exact ⟨m, rfl⟩
      | none =>
        rw [Substitution.resolve_of_value hm, BEq.refl] at hb
        cases hb
    cases hc : (r.renamingApart taken).get? m with
    | none =>
      rw [Substitution.resolve_of_unbound hm hc, BEq.refl] at hb
      cases hb
    | some c =>
      obtain ⟨k, hk, hfresh, -⟩ := (r.renamingApart_spec taken).1.fresh m c hc
      rw [resolve_renamingApart_of_bound hm hc, hk, Option.some.injEq] at hname
      rw [← hname]
      exact fun htaken => hfresh (List.mem_append_right _ htaken)

theorem renamedTo_resolve (r : Rule) (taken : List Text) (a : Argument) :
    a.RenamedTo (r.renamingApart taken).renamed ((r.renamingApart taken).resolve a) where
  given _ hn := resolve_renamingApart hn
  value hn := Substitution.resolve_of_value hn

/-- A name that no named variable has is kept. -/
theorem renamed_of_not_mem (hn : n ∉ r.namedVariables.keys ∨ n ∉ taken) :
    (r.renamingApart taken).renamed n = n := by
  have hbound := ((r.renamingApart_spec taken).2 n).not
  rw [not_and_or, Option.not_isSome_iff_eq_none] at hbound
  rw [Substitution.renamed, hbound.mpr hn]
  rfl

/-- A variable's name is noted, or it is that of a bare mark. -/
theorem mem_variableNames_cases (hn : n ∈ r.variableNames) :
    n ∈ r.namedVariables.keys ∨ ∃ b : Binder, n = [b.mark] := by
  obtain ⟨a, ha, han⟩ := hn
  cases hanon : a.isAnonymous with
  | true =>
    obtain ⟨b, hb⟩ := Argument.name?_of_isAnonymous hanon
    rw [han, Option.some.injEq] at hb
    exact .inr ⟨b, hb⟩
  | false =>
    exact .inl (mem_namedVariables_iff.mpr
      ⟨a, ha, Argument.givenName?_eq_some_iff.mpr ⟨hanon, han⟩⟩)

/-- No two variables of the rule get one name, bare marks that keep theirs counted in. -/
theorem injOn_renamed (r : Rule) (taken : List Text) :
    Set.InjOn (r.renamingApart taken).renamed r.variableNames := by
  -- a mark that is no name of the rule is kept, and no other name becomes a mark
  have hmark : ∀ j k, k ∉ r.namedVariables.keys → (∃ b : Binder, k = [b.mark]) →
      (r.renamingApart taken).renamed j = (r.renamingApart taken).renamed k → j = k := by
    rintro j k hk ⟨b, hb⟩ h
    rw [renamed_of_not_mem (.inl hk)] at h
    rcases r.renamed_eq_or_ne_mark taken j with hkept | hfresh
    · rw [← hkept, h]
    · exact absurd (h.trans hb) (hfresh b)
  intro j hj k hk h
  by_cases hjn : j ∈ r.namedVariables.keys
  · by_cases hkn : k ∈ r.namedVariables.keys
    · exact renamed_injOn hjn hkn h
    · exact hmark j k hkn ((mem_variableNames_cases hk).resolve_left hkn) h
  · exact (hmark k j hjn ((mem_variableNames_cases hj).resolve_left hjn) h.symm).symm

end Rule

/-- Renaming a rule apart captures nothing. Afterwards no variable has a name in use, and some
injective map of the names of variables, which keeps the names that are not in use, tells what
variable stands at each place of one; values, predicates, confidences, recommendations and the
nesting of tags stay as they are. -/
theorem renameApart_captureFree (r : Rule) (taken : List Text) :
    (r.toTag.foreignKind? = none → r.renameApartChecked taken = .ok (r.renameApart taken)) ∧
      (∀ a ∈ (r.renameApart taken).toTag.allArguments, ∀ n, a.givenName? = some n → n ∉ taken) ∧
      ∃ h : Text → Text, Set.InjOn h r.variableNames ∧ (∀ n, n ∉ taken → h n = n) ∧
        Tag.SameShape (Argument.RenamedTo h) r.toTag (r.renameApart taken).toTag := by
  refine ⟨fun hr => ?_, fun b hb n hn => ?_, (r.renamingApart taken).renamed,
    r.injOn_renamed taken, fun n hn => Rule.renamed_of_not_mem (.inr hn), ?_⟩
  · rw [Rule.renameApartChecked, Tag.substitutionRefusal?, hr, ite_self]
  · have hshape : Tag.SameShape (fun a b => b = (r.renamingApart taken).resolve a) r.toTag
        (r.renameApart taken).toTag :=
      Tag.sameShape_substitute r.toTag (fun _ _ => rfl)
        fun a _ ha => (Rule.resolve_renamingApart_eq_of_beq ha).symm
    obtain ⟨a, ha, rfl⟩ := exists_mem_of_forall₂ hshape.allArguments.flip hb
    exact Rule.resolve_renamingApart_not_mem_taken ha hn
  · refine Tag.sameShape_substitute r.toTag (fun a _ => r.renamedTo_resolve taken a) ?_
    intro a _ ha
    have hrenamed := r.renamedTo_resolve taken a
    rwa [Rule.resolve_renamingApart_eq_of_beq ha] at hrenamed

/-- The first number makes a name that the rule itself uses, deep inside. -/
theorem renameApart_captureFree_nested :
    let x := Argument.named ['x'] .single []
    let r : Rule := ⟨[.fact ⟨['P'], [x, .named ['?'] .single []], .certain⟩],
      [.rule [.fact ⟨['Q'], [x, .named ['x', '1'] .single []], .certain⟩]
        [.recommendation ⟨['@', 'c'], rfl⟩]]⟩
    r.toTag.foreignKind? = none ∧
      r.renameApartChecked [['x'], ['x', '2']] = .ok (r.renameApart [['x'], ['x', '2']]) ∧
      ∃ h : Text → Text, Set.InjOn h r.variableNames ∧ (∀ n, n ∉ [['x'], ['x', '2']] → h n = n) ∧
        h ['x'] = ['x', '3'] := by
  intro x r
  obtain ⟨hchecked, -, h, hinj, hkept, hshape⟩ := renameApart_captureFree r [['x'], ['x', '2']]
  refine ⟨rfl, hchecked rfl, h, hinj, hkept, ?_⟩
  -- what stands in the first place afterwards
  have hfirst : ((r.renameApart [['x'], ['x', '2']]).toTag.allArguments.map
      Argument.givenName?).head? = some (some ['x', '3']) := by decide +kernel
  have hplaces := hshape.allArguments
  cases hrenamed : (r.renameApart [['x'], ['x', '2']]).toTag.allArguments with
  | nil =>
    rw [hrenamed] at hfirst
    cases hfirst
  | cons b bs =>
    rw [hrenamed] at hplaces hfirst
    cases hplaces with
    | cons hplace _ =>
      have hx := hplace.given ['x'] rfl
      rw [Option.some.inj hfirst, Option.some.injEq] at hx
      exact hx.symm

end TagReasoner
