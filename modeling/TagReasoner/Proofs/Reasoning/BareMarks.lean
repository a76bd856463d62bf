import TagReasoner.Proofs.Composition.CaptureFree
import TagReasoner.Proofs.Composition.Soundness
import TagReasoner.Proofs.Reasoning.Groundness

/-!
# Bare marks and what is put in for them

Matching passes bare marks over, so that no solution binds anything for one. But a variable of the
other mark may have a bare mark for its name, as in `&?`, and substitution goes by names. So when
such a variable gets a value or a new name, the bare mark of that name gets it too
(`not_keepsBareMarks_other_mark`).

That is the only way: a solution binds none but the names of named variables
(`Substitution.Confined`), and what it or a renaming binds is no bare mark, so bare marks are kept
just when none of their names is bound (`Tag.keepsBareMarks_substitute_iff`).
-/

namespace TagReasoner

/-- The other way to mark a variable. -/
def Binder.other : Binder → Binder
  | single => multi
  | multi => single

/-- The bare marks of the first tag stand in the second; the rest may have changed. -/
def Tag.KeepsBareMarks (t u : Tag) : Prop :=
  Tag.SameShape (fun a b => a.isAnonymous = true → b = a) t u

/-- The names of the bare marks in a tag. -/
def Tag.markNames (t : Tag) : Set Text :=
  {n | ∃ a ∈ t.allArguments, a.isAnonymous = true ∧ a.name? = some n}

/-- The names of named variables among some arguments. -/
def Argument.givenNames (as : List Argument) : Set Text :=
  {n | ∃ a ∈ as, a.givenName? = some n}

/-- A variable that is named by a mark has the other mark. -/
theorem Argument.term_of_givenName?_mark {a : Argument} {b : Binder}
    (h : a.givenName? = some [b.mark]) : a.term = .variable [b.mark] b.other := by
  obtain ⟨hanon, hname⟩ := givenName?_eq_some_iff.mp h
  rw [name?] at hname
  split at hname
  next n c hterm =>
    cases hname
    rw [isAnonymous, hterm] at hanon
    rw [hterm]
    cases b <;> cases c <;> first | rfl | cases hanon
  next => cases hname

/-! ## Putting something in for a bare mark -/

/-- Where no bare mark is put in for anything, the bare marks that are kept are those whose names
are not bound. -/
theorem Tag.keepsBareMarks_substitute_iff {θ : Substitution}
    (hθ : ∀ n c, θ.get? n = some c → c.isAnonymous = false) {t : Tag} :
    t.KeepsBareMarks (t.substitute θ) ↔ ∀ n ∈ t.markNames, θ.get? n = none := by
  constructor
  · rintro hkept n ⟨a, ha, hanon, hn⟩
    -- the mark stands for itself, up to equality, but a walk from a bound name ends elsewhere
    have hresolved : Tag.SameShape (fun a b => (b == θ.resolve a) = true) t (t.substitute θ) :=
      Tag.sameShape_substitute t (fun a _ => BEq.refl _) fun a _ h => BEq.symm h
    have hboth := List.Forall₂.mp (fun a b hkept hb => And.intro hkept hb) hkept.allArguments
      hresolved.allArguments
    obtain ⟨b, -, hkept, hb⟩ := exists_mem_of_forall₂ hboth ha
    rw [hkept hanon] at hb
    cases hc : θ.get? n with
    | none => rfl
    | some c =>
      rw [Substitution.resolve_of_bound hn hc] at hb
      have hend : (Substitution.resolve (θ.erase n) c).isAnonymous = false :=
        Substitution.resolve_mem (P := fun c => c.isAnonymous = false) (Keyed.forall_erase hθ n)
          (hθ n c hc)
      rw [← Argument.isAnonymous_congr hb, hanon] at hend
      cases hend
  · intro hfree
    refine Tag.sameShape_substitute t (fun a ha hanon => ?_) fun _ _ _ _ => rfl
    obtain ⟨b, hb⟩ := Argument.name?_of_isAnonymous hanon
    exact Substitution.resolve_of_unbound hb (hfree _ ⟨a, ha, hanon, hb⟩)

/-! ## What a solution binds -/

/-- A value, or a named variable with a name from `N`. -/
def Argument.Confined (N : Set Text) (c : Argument) : Prop :=
  c.isAnonymous = false ∧ ∀ m, c.name? = some m → m ∈ N

/-- Names from `N` are bound, each to a value or a named variable with a name from `N`. -/
def Substitution.Confined (N : Set Text) (θ : Substitution) : Prop :=
  ∀ n c, θ.get? n = some c → n ∈ N ∧ c.Confined N

namespace Substitution

variable {N : Set Text} {θ θ' : Substitution}

theorem confined_empty (N : Set Text) : Confined N .empty := by
  intro n c h
  cases h

/-- What a named argument stands for is confined if its own name is. -/
theorem Confined.resolve (h : θ.Confined N) {a : Argument} (hanon : a.isAnonymous = false)
    (ha : ∀ n, a.givenName? = some n → n ∈ N) : (θ.resolve a).Confined N := by
  refine resolve_mem (P := Argument.Confined N) (fun n c hn => (h n c hn).2) ⟨hanon, fun m hm => ?_⟩
  exact ha m (Argument.givenName?_eq_some_iff.mpr ⟨hanon, hm⟩)

theorem Confined.unifyArguments (h : θ.Confined N) {a b : Argument}
    (ha : ∀ n, a.givenName? = some n → n ∈ N) (hb : ∀ n, b.givenName? = some n → n ∈ N)
    (hu : unifyArguments a b θ = some θ') : θ'.Confined N := by
  have hspec := unifyArguments_spec a b θ
  rw [hu] at hspec
  cases hspec with
  | anonymous | same | compatible => exact h
  | bindSecond n hanon hsame hn =>
    rw [Bool.or_eq_false_iff] at hanon
    exact Keyed.forall_put h ⟨(h.resolve hanon.2 hb).2 n hn, h.resolve hanon.1 ha⟩
  | bindFirst n hanon hsame hbn hn =>
    rw [Bool.or_eq_false_iff] at hanon
    exact Keyed.forall_put h ⟨(h.resolve hanon.1 ha).2 n hn, h.resolve hanon.2 hb⟩

theorem Confined.matchFacts (h : θ.Confined N) {f p : Fact}
    (hf : Argument.givenNames f.arguments ⊆ N) (hp : Argument.givenNames p.arguments ⊆ N)
    (hm : matchFacts f p θ = some θ') : θ'.Confined N := by
  refine matchArguments_preserves (I := Confined N) ?_ h (matchFacts_eq_some_iff.mp hm).2.2
  intro a ha b hb _ _ hθ hu
  exact hθ.unifyArguments (fun n hn => hf ⟨a, ha, hn⟩) (fun n hn => hp ⟨b, hb, hn⟩) hu

/-- A solution is confined to the names of named variables of the facts and the patterns. -/
theorem Confined.solutions {facts ps : List Fact} (h : θ.Confined N)
    (hfacts : ∀ f ∈ facts, Argument.givenNames f.arguments ⊆ N)
    (hps : ∀ p ∈ ps, Argument.givenNames p.arguments ⊆ N) {σ : Substitution}
    (hσ : σ ∈ solutions facts ps θ) : σ.Confined N :=
  solutions_preserves (fun f hf p hp _ _ hθ hm => hθ.matchFacts (hfacts f hf) (hps p hp) hm) h hσ

end Substitution

/-- The names of named variables of the known facts and of a rule's inputs. -/
def Memory.matchedNames (m : Memory) (r : Rule) : Set Text :=
  {n | ∃ f, (f ∈ m.facts.items ∨ f ∈ r.inputFacts) ∧ n ∈ Argument.givenNames f.arguments}

theorem Memory.confined_of_mem_firings {m : Memory} {e : Enumeration} {f : Firing}
    (hf : f ∈ m.firings e) : f.solution.Confined (m.matchedNames f.rule) := by
  have hsolution := List.mem_of_head? (mem_firings_iff.mp hf).2
  refine (Substitution.confined_empty _).solutions (fun g hg n hn => ?_) (fun p hp n hn => ?_)
    hsolution
  · exact ⟨g, .inl ((e.facts_perm m).mem_iff.mp hg), hn⟩
  · exact ⟨p, .inr hp, hn⟩

/-- Over ground facts, a rule fires with bindings for the names in the slots of its inputs. -/
theorem Memory.isSome_get?_solution_iff {m : Memory} {e : Enumeration} {f : Firing}
    (hf : f ∈ m.firings e) (hground : ∀ g ∈ m.facts.items, g.isGround = true) (n : Text) :
    (f.solution.get? n).isSome = true ↔ n ∈ f.rule.boundNames := by
  have hfacts : ∀ g ∈ e.facts m, ∀ a ∈ g.arguments, a.isGround = true := fun g hg =>
    Fact.isGround_iff.mp (hground g ((e.facts_perm m).mem_iff.mp hg))
  exact (solutions_boundNames (fun _ ha => ha) hfacts
    (List.mem_of_head? (mem_firings_iff.mp hf).2)).2 n

/-- Renaming apart binds a name just when a named variable of the rule has it and it is in use. -/
theorem Rule.get?_renamingApart_eq_none_iff {r : Rule} {taken : List Text} {n : Text} :
    (r.renamingApart taken).get? n = none ↔
      ¬ (n ∈ Argument.givenNames r.toTag.allArguments ∧ n ∈ taken) := by
  rw [← Option.not_isSome_iff_eq_none, (r.renamingApart_spec taken).2 n, mem_namedVariables_iff]
  exact Iff.rfl

theorem Rule.isAnonymous_of_renamingApart {r : Rule} {taken : List Text} {n : Text} {c : Argument}
    (hc : (r.renamingApart taken).get? n = some c) : c.isAnonymous = false := by
  obtain ⟨m, hm, -, hmark⟩ := (r.renamingApart_spec taken).1.fresh n c hc
  exact Argument.isAnonymous_of_ne_mark hm hmark

/-! ## Firing and renaming -/

/-- When a rule fires, the bare marks of its outputs are kept just if the solution binds none of
their names, and it binds the name of a mark only where a variable of the other mark has that name,
in a known fact or an input of the rule. Over ground facts it is the variables in the slots of the
inputs whose names are bound. Renaming apart keeps the bare marks of a rule just if none has the
name, in use on the other side, of a named variable of the rule. -/
theorem keepsBareMarks_iff (m : Memory) (e : Enumeration) (r : Rule) (taken : List Text) :
    (∀ f ∈ m.firings e,
      (∀ t ∈ f.rule.outputs, t.KeepsBareMarks (t.substitute f.solution) ↔
        ∀ n ∈ t.markNames, f.solution.get? n = none) ∧
      (∀ b : Binder, (f.solution.get? [b.mark]).isSome = true →
        ∃ g, (g ∈ m.facts.items ∨ g ∈ f.rule.inputFacts) ∧
          ∃ a ∈ g.arguments, a.term = .variable [b.mark] b.other) ∧
      ((∀ g ∈ m.facts.items, g.isGround = true) →
        ∀ n, f.solution.get? n = none ↔ n ∉ f.rule.boundNames)) ∧
    (r.toTag.KeepsBareMarks (r.renameApart taken).toTag ↔
      ∀ n ∈ r.toTag.markNames, ¬ (n ∈ Argument.givenNames r.toTag.allArguments ∧ n ∈ taken)) := by
  refine ⟨fun f hf => ⟨fun t _ => ?_, fun b hb => ?_, fun hground n => ?_⟩, ?_⟩
  · exact Tag.keepsBareMarks_substitute_iff fun n c hc =>
      ((Memory.confined_of_mem_firings hf n c hc).2).1
  · obtain ⟨c, hc⟩ := Option.isSome_iff_exists.mp hb
    obtain ⟨g, hg, a, ha, hmark⟩ := (Memory.confined_of_mem_firings hf _ c hc).1
    exact ⟨g, hg, a, ha, Argument.term_of_givenName?_mark hmark⟩
  · rw [← Option.not_isSome_iff_eq_none, not_iff_not]
    exact Memory.isSome_get?_solution_iff hf hground n
  · simp only [← Rule.get?_renamingApart_eq_none_iff]
    exact Tag.keepsBareMarks_substitute_iff fun _ _ => Rule.isAnonymous_of_renamingApart

/-- The variable that is named by one mark leaves the other one alone. -/
theorem keepsBareMarks_iff_ampersand :
    let r : Rule := ⟨[.fact ⟨['P'], [.named ['?'] .multi []], .certain⟩],
      [.fact ⟨['Q'], [.named ['&'] .multi [], .named ['?'] .multi []], .certain⟩]⟩
    let m : Memory :=
      ⟨.ofList [r], .empty, .ofList [⟨['P'], [.literal ['a']], .certain⟩], .empty⟩
    (∃ f ∈ m.firings .oldestFirst, ∀ t ∈ f.rule.outputs,
      t.KeepsBareMarks (t.substitute f.solution)) ∧
      r.toTag.KeepsBareMarks (r.renameApart [['?'], ['&']]).toTag := by
  intro r m
  obtain ⟨hfiring, hrenamed⟩ := keepsBareMarks_iff m .oldestFirst r [['?'], ['&']]
  have hmark : ∀ a ∈ r.toTag.allArguments, a.isAnonymous = true → a.name? = some ['&'] := by
    decide
  have hgiven : ∀ c ∈ r.toTag.allArguments, c.givenName? ≠ some ['&'] := by decide
  refine ⟨⟨⟨r, .put .empty ['?'] (.literal ['a'])⟩, List.mem_singleton_self _, ?_⟩,
    hrenamed.mpr ?_⟩
  · intro t ht
    refine ((hfiring _ (List.mem_singleton_self _)).1 t ht).mpr ?_
    rintro n ⟨a, ha, hanon, hn⟩
    have hr : a ∈ r.toTag.allArguments := List.mem_append_right _ (Tag.mem_argumentsOf ht ha)
    rw [hmark a hr hanon, Option.some.injEq] at hn
    rw [← hn]
    rfl
  · rintro n ⟨a, ha, hanon, hn⟩ ⟨⟨c, hc, hcn⟩, -⟩
    rw [hmark a ha hanon, Option.some.injEq] at hn
    rw [← hn] at hcn
    exact hgiven c hc hcn

/-- A variable `&?` gets a value or a new name, and the bare mark `?` gets it with it. -/
theorem not_keepsBareMarks_other_mark :
    let r : Rule := ⟨[.fact ⟨['P'], [.named ['?'] .multi []], .certain⟩],
      [.fact ⟨['Q'], [.named ['?'] .single []], .certain⟩]⟩
    let m : Memory :=
      ⟨.ofList [r], .empty, .ofList [⟨['P'], [.literal ['a']], .certain⟩], .empty⟩
    (∃ f ∈ m.firings .oldestFirst, f.rule = r ∧
      ∃ t ∈ f.rule.outputs, ¬ t.KeepsBareMarks (t.substitute f.solution)) ∧
      ¬ r.toTag.KeepsBareMarks (r.renameApart [['?']]).toTag := by
  intro r m
  refine ⟨⟨⟨r, .put .empty ['?'] (.literal ['a'])⟩, List.mem_singleton_self _, rfl, _,
    List.mem_singleton_self _, fun hkept => ?_⟩, fun hkept => ?_⟩
  · rw [Tag.keepsBareMarks_substitute_iff
      (Keyed.forall_put (fun n c h => by cases h) rfl)] at hkept
    cases hkept ['?'] ⟨_, List.mem_singleton_self _, rfl, rfl⟩
  · rw [show (r.renameApart [['?']]).toTag = r.toTag.substitute (r.renamingApart [['?']]) from rfl,
      Tag.keepsBareMarks_substitute_iff fun _ _ => Rule.isAnonymous_of_renamingApart] at hkept
    have hmark : ['?'] ∈ r.toTag.markNames := ⟨_, List.mem_cons_of_mem _ (.head _), rfl, rfl⟩
    have hgiven : ['?'] ∈ Argument.givenNames r.toTag.allArguments := ⟨_, .head _, rfl⟩
    exact Rule.get?_renamingApart_eq_none_iff.mp (hkept _ hmark) ⟨hgiven, .head _⟩

end TagReasoner
