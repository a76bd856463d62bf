import TagReasoner.Proofs.Matching.PlainFacts
import Mathlib.Logic.Relator

/-!
# Composing and chaining in lockstep

Two rules are joined at an output of the first and an input of the second. Composing them matches
the two as they stand, the second renamed apart. Chaining them fires the first, and matches the
output with the solution put in. Both matches take the same steps, and at each of them the bindings
of the second are those of the first with the solution put in and the renaming undone
(`Juncture.Lock`), as long as composing does not bind what the solution binds (`Juncture.Keeps`).

That is also needed. Under a solution by literals that differ from each other and from every
argument there, the match of the output fails as soon as composing binds a name of the solution to
something else (`Lock.matchArguments_eq_none`).
-/

namespace TagReasoner

/-- Where two rules are joined: the solution under which the first fires, the names in its output,
the names of the second and what they are renamed to. -/
structure Juncture where
  solution : Substitution
  renamed : Text → Text
  first : Text → Prop
  second : Text → Prop
  plain : solution.Plain
  injective : ∀ j k, second j → second k → renamed j = renamed k → j = k
  apart : ∀ y, second y → ¬ first (renamed y)
  /-- The solution binds no name of the renamed rule. -/
  unsolved : ∀ y, second y → solution.get? (renamed y) = none
  /-- What the solution leaves free in the output is no name of the second rule. -/
  free : ∀ z, first z → solution.get? z = none → ¬ second z

namespace Juncture

variable (J : Juncture)

/-- The argument is a value or a variable of the first rule's output. -/
def OfFirst (c : Argument) : Prop := ∀ n, c.name? = some n → J.first n

/-- A name in composing and the name that it has in chaining: a name of the second rule, renamed,
or one of the output that the solution leaves free. -/
inductive Linked : Text → Text → Prop where
  | second (y : Text) : J.second y → Linked (J.renamed y) y
  | first (z : Text) : J.first z → J.solution.get? z = none → Linked z z

/-- The bindings `θ` made in composing and the bindings `t` made in chaining correspond. -/
structure Lock (θ t : Substitution) : Prop where
  range : ∀ n c, θ.get? n = some c → J.OfFirst c
  linked : ∀ n n', J.Linked n n' → t.get? n' = (θ.get? n).map J.solution.resolve
  bound : ∀ n, (θ.get? n).isSome = true → J.first n ∨ ∃ n', J.Linked n n'
  boundInChain : ∀ n', (t.get? n').isSome = true → ∃ n, J.Linked n n'

/-- What the solution binds is left free, up to bindings of a name to itself. -/
def Keeps (θ : Substitution) : Prop :=
  ∀ n c, (J.solution.get? n).isSome = true → θ.get? n = some c → c.name? = some n

/-- An argument of the first rule's output. -/
def IsOutput (a : Argument) : Prop :=
  (a.isAnonymous = true ∧ J.solution.resolve a = a) ∨ (a.isAnonymous = false ∧ J.OfFirst a)

/-- An argument of the second rule, and the same after renaming. -/
inductive Renames : Argument → Argument → Prop where
  | value {b : Argument} : b.name? = none → Renames b b
  | anonymous {b : Argument} : b.isAnonymous = true → Renames b b
  | given {b b' : Argument} (y : Text) : J.second y → b.givenName? = some y →
      b'.givenName? = some (J.renamed y) → Renames b b'

variable {J}

/-- Linked names determine each other. -/
theorem Linked.eq_iff {j j' k k' : Text} (hj : J.Linked j j') (hk : J.Linked k k') :
    j = k ↔ j' = k' := by
  -- a name of one rule and a name of the other differ on both sides: `apart` and `free`
  cases hj with
  | second _ hy =>
    cases hk with
    | second _ hx => exact ⟨J.injective _ _ hy hx, congrArg J.renamed⟩
    | first _ hz hfree =>
      constructor
      · rintro rfl
        exact absurd hz (J.apart _ hy)
      · rintro rfl
        exact absurd hy (J.free _ hz hfree)
  | first _ hz hfree =>
    cases hk with
    | second _ hx =>
      constructor
      · rintro rfl
        exact absurd hz (J.apart _ hx)
      · rintro rfl
        exact absurd hx (J.free _ hz hfree)
    | first => exact Iff.rfl

/-- Names in chaining and in composing: linked ones, and those that are linked to none. -/
def Related (J : Juncture) (m n : Text) : Prop :=
  J.Linked n m ∨ (m = n ∧ (∀ k, ¬ J.Linked k m) ∧ ∀ k, ¬ J.Linked n k)

theorem biUnique_related (J : Juncture) : Relator.BiUnique J.Related := by
  constructor
  · rintro m m' n (hm | ⟨rfl, -, hnot⟩) (hm' | ⟨rfl, -, hnot'⟩)
    · exact (hm.eq_iff hm').mp rfl
    · exact absurd hm (hnot' _)
    · exact absurd hm' (hnot _)
    · rfl
  · rintro m n n' (hn | ⟨rfl, hnot, -⟩) (hn' | ⟨rfl, hnot', -⟩)
    · exact (hn.eq_iff hn').mpr rfl
    · exact absurd hn (hnot' _)
    · exact absurd hn' (hnot _)
    · rfl

theorem lock_empty : J.Lock .empty .empty where
  range _ _ h := by cases h
  linked _ _ _ := rfl
  bound _ h := by cases h
  boundInChain _ h := by cases h

theorem keeps_empty : J.Keeps .empty := by
  intro n c _ h
  cases h

/-- The bindings of linked names may change together. -/
theorem Lock.change {θ θ' t t' : Substitution} {k k' : Text} {x : Option Argument}
    (h : J.Lock θ t) (hk : J.Linked k k') (hx : ∀ c, x = some c → J.OfFirst c)
    (hθ : ∀ j, θ'.get? j = if j = k then x else θ.get? j)
    (ht : ∀ j, t'.get? j = if j = k' then x.map J.solution.resolve else t.get? j) :
    J.Lock θ' t' where
  range n c hn := by
    rw [hθ] at hn
    split at hn
    · exact hx c hn
    · exact h.range n c hn
  linked n n' hn := by
    rw [hθ, ht]
    by_cases hnk : n = k
    · rw [if_pos hnk, if_pos ((hn.eq_iff hk).mp hnk)]
    · rw [if_neg hnk, if_neg fun heq => hnk ((hn.eq_iff hk).mpr heq)]
      exact h.linked n n' hn
  bound n hn := by
    rw [hθ] at hn
    split at hn
    next hnk => exact .inr ⟨k', hnk ▸ hk⟩
    next => exact h.bound n hn
  boundInChain n' hn := by
    rw [ht] at hn
    split at hn
    next hnk => exact ⟨k, hnk ▸ hk⟩
    next => exact h.boundInChain n' hn

theorem Lock.erase {θ t : Substitution} {k k' : Text} (h : J.Lock θ t) (hk : J.Linked k k') :
    J.Lock (θ.erase k) (t.erase k') :=
  h.change hk (fun c hc => by cases hc) (Keyed.get?_erase θ k) (Keyed.get?_erase t k')

theorem Lock.put {θ t : Substitution} {k k' : Text} {c : Argument} (h : J.Lock θ t)
    (hk : J.Linked k k') (hc : J.OfFirst c) :
    J.Lock (θ.put k c) (t.put k' (J.solution.resolve c)) :=
  h.change hk (fun _ hd => Option.some.inj hd ▸ hc) (Keyed.get?_put θ k c) (Keyed.get?_put t k' _)

/-- A binding of a name of the solution makes no difference in chaining. -/
theorem Lock.putSolved {θ t : Substitution} {n : Text} {c : Argument} (h : J.Lock θ t)
    (hn : J.first n) (hsolved : (J.solution.get? n).isSome = true) (hc : J.OfFirst c) :
    J.Lock (θ.put n c) t where
  range m d hm := by
    rw [Keyed.get?_put] at hm
    split at hm
    · cases hm
      exact hc
    · exact h.range m d hm
  linked m m' hm := by
    -- what the solution binds is linked to nothing
    have hmn : m ≠ n := by
      rintro rfl
      cases hm with
      | second _ hy => exact J.apart _ hy hn
      | first _ hz hfree =>
        rw [hfree] at hsolved
        cases hsolved
    rw [Keyed.get?_put_ne θ hmn]
    exact h.linked m m' hm
  bound m hm := by
    rw [Keyed.get?_put] at hm
    split at hm
    next hmn => exact .inl (hmn ▸ hn)
    next => exact h.bound m hm
  boundInChain := h.boundInChain

/-! ## What arguments stand for -/

section Resolve

variable {θ t : Substitution} {a b b' : Argument}

theorem Keeps.erase (h : J.Keeps θ) (k : Text) : J.Keeps (θ.erase k) := by
  intro n c hsolved hn
  rw [Keyed.get?_erase] at hn
  split at hn
  · cases hn
  · exact h n c hsolved hn

/-- A name of the solution resolves to its value there. -/
theorem resolve_solved {n : Text} {v : Argument} (ha : a.name? = some n)
    (hn : J.solution.get? n = some v) : J.solution.resolve a = v := by
  rw [Substitution.resolve_of_bound ha hn,
    Substitution.resolve_of_value (Argument.name?_of_isPlain (J.plain n v hn))]

/-- Arguments of the output stand for the same in chaining and, with the solution put in, in
composing. -/
theorem Lock.resolve_first (h : J.Lock θ t) (hk : J.Keeps θ) (ha : J.OfFirst a) :
    t.resolve (J.solution.resolve a) = J.solution.resolve (θ.resolve a) := by
  induction θ, a using Substitution.resolve_induct generalizing t with
  | value θ a hname => simp only [Substitution.resolve_of_value hname]
  | unbound θ a n hname hn =>
    rw [Substitution.resolve_of_unbound hname hn]
    cases hs : J.solution.get? n with
    | some v =>
      rw [resolve_solved hname hs,
        Substitution.resolve_of_value (Argument.name?_of_isPlain (J.plain n v hs))]
    | none =>
      have htn : t.get? n = none := by
        rw [h.linked n n (.first n (ha n hname) hs), hn, Option.map_none]
      rw [Substitution.resolve_of_unbound hname hs, Substitution.resolve_of_unbound hname htn]
  | bound θ a n b hname hn ih =>
    have hb := h.range n b hn
    rw [Substitution.resolve_of_bound hname hn]
    cases hs : J.solution.get? n with
    | some v =>
      -- the name is bound to itself, and the solution has its value
      have hbn := hk n b (by rw [hs]; rfl) hn
      rw [Substitution.resolve_of_unbound hbn (Keyed.get?_erase_self θ n), resolve_solved hname hs,
        resolve_solved hbn hs,
        Substitution.resolve_of_value (Argument.name?_of_isPlain (J.plain n v hs))]
    | none =>
      -- both walks take one step, and go on with that binding out of the way
      have htn : t.get? n = some (J.solution.resolve b) := by
        rw [h.linked n n (.first n (ha n hname) hs), hn, Option.map_some]
      rw [Substitution.resolve_of_unbound hname hs, Substitution.resolve_of_bound hname htn]
      exact ih (h.erase (.first n (ha n hname) hs)) (hk.erase n) hb

theorem Lock.ofFirst_resolve (h : J.Lock θ t) (ha : J.OfFirst a) : J.OfFirst (θ.resolve a) :=
  Substitution.resolve_mem (P := J.OfFirst) h.range ha

/-- A variable of the second rule is free in both matches, or stands for the same in both. -/
theorem Lock.resolve_second (h : J.Lock θ t) (hk : J.Keeps θ) {y : Text} (hy : J.second y)
    (hb : b.name? = some y) (hb' : b'.name? = some (J.renamed y)) :
    (t.resolve b = b ∧ θ.resolve b' = b') ∨
      (J.OfFirst (θ.resolve b') ∧ t.resolve b = J.solution.resolve (θ.resolve b')) := by
  have hty := h.linked _ _ (.second y hy)
  cases hc : θ.get? (J.renamed y) with
  | none =>
    rw [hc, Option.map_none] at hty
    exact .inl ⟨Substitution.resolve_of_unbound hb hty, Substitution.resolve_of_unbound hb' hc⟩
  | some c =>
    rw [hc, Option.map_some] at hty
    have herase := h.erase (.second y hy)
    rw [Substitution.resolve_of_bound hb hty, Substitution.resolve_of_bound hb' hc]
    exact .inr ⟨herase.ofFirst_resolve (h.range _ c hc),
      herase.resolve_first (hk.erase _) (h.range _ c hc)⟩

/-- What two arguments that are matched stand for: `c` and `d` in composing, `c'` and `d'` in
chaining. -/
structure Ends (J : Juncture) (c d c' d' : Argument) : Prop where
  left : c' = J.solution.resolve c
  ofFirst : J.OfFirst c
  right : (∃ y, J.second y ∧ d.name? = some (J.renamed y) ∧ d'.name? = some y) ∨
    (J.OfFirst d ∧ d' = J.solution.resolve d)

theorem Lock.ends (h : J.Lock θ t) (hk : J.Keeps θ) (ha : J.OfFirst a) (hb : J.Renames b b')
    (hanon : b.isAnonymous = false) :
    J.Ends (θ.resolve a) (θ.resolve b') (t.resolve (J.solution.resolve a)) (t.resolve b) where
  left := h.resolve_first hk ha
  ofFirst := h.ofFirst_resolve ha
  right := by
    cases hb with
    | value hname =>
      refine .inr ⟨fun n hn => ?_, ?_⟩
      · rw [Substitution.resolve_of_value hname, hname] at hn
        cases hn
      · simp only [Substitution.resolve_of_value hname]
    | anonymous htrue =>
      rw [htrue] at hanon
      cases hanon
    | given y hy hby hby' =>
      have hname := (Argument.givenName?_eq_some_iff.mp hby).2
      have hname' := (Argument.givenName?_eq_some_iff.mp hby').2
      refine (h.resolve_second hk hy hname hname').imp_left fun ⟨htb, hθb⟩ => ?_
      exact ⟨y, hy, by rw [hθb, hname'], by rw [htb, hname]⟩

end Resolve

/-! ## One step -/

section Step

variable {θ θ' t : Substitution} {a b b' c : Argument}

/-- A variable that the solution leaves is one of the output, and none of the second rule. -/
theorem name?_resolve_solution (hc : J.OfFirst c) {n : Text}
    (hn : (J.solution.resolve c).name? = some n) :
    J.solution.resolve c = c ∧ J.first n ∧ J.solution.get? n = none ∧ ¬ J.second n := by
  cases hname : c.name? with
  | none =>
    rw [Substitution.resolve_of_value hname, hname] at hn
    cases hn
  | some m =>
    cases hs : J.solution.get? m with
    | some v =>
      rw [resolve_solved hname hs, Argument.name?_of_isPlain (J.plain m v hs)] at hn
      cases hn
    | none =>
      have hsame := Substitution.resolve_of_unbound hname hs
      rw [hsame, hname] at hn
      cases hn
      exact ⟨hsame, hc n hname, hs, J.free n (hc n hname) hs⟩

theorem IsOutput.ofFirst (ha : J.IsOutput a) (hanon : a.isAnonymous = false) : J.OfFirst a := by
  rcases ha with ⟨htrue, -⟩ | ⟨-, ha⟩
  · rw [htrue] at hanon
    cases hanon
  · exact ha

theorem IsOutput.isAnonymous_resolve (ha : J.IsOutput a) :
    (J.solution.resolve a).isAnonymous = a.isAnonymous := by
  rcases ha with ⟨-, hsame⟩ | ⟨hanon, ha⟩
  · rw [hsame]
  · cases hname : (J.solution.resolve a).name? with
    | none => rw [Argument.isAnonymous_of_name?_eq_none hname, hanon]
    | some n => rw [(name?_resolve_solution ha hname).1]

theorem IsOutput.isWildcard_resolve (ha : J.IsOutput a) :
    (J.solution.resolve a).isWildcard = a.isWildcard := by
  rcases ha with ⟨-, hsame⟩ | ⟨-, -⟩
  · rw [hsame]
  · cases hname : a.name? with
    | none => rw [Substitution.resolve_of_value hname]
    | some n =>
      cases hs : J.solution.get? n with
      | none => rw [Substitution.resolve_of_unbound hname hs]
      | some v =>
        rw [resolve_solved hname hs, Argument.isWildcard_of_isPlain (J.plain n v hs),
          Argument.isWildcard_of_name? hname]

theorem Renames.isAnonymous_eq (hb : J.Renames b b') : b'.isAnonymous = b.isAnonymous := by
  cases hb with
  | value | anonymous => rfl
  | given y hy hby hby' =>
    rw [(Argument.givenName?_eq_some_iff.mp hby).1, (Argument.givenName?_eq_some_iff.mp hby').1]

theorem Renames.isWildcard_eq (hb : J.Renames b b') : b'.isWildcard = b.isWildcard := by
  cases hb with
  | value | anonymous => rfl
  | given y hy hby hby' =>
    rw [Argument.isWildcard_of_name? (Argument.givenName?_eq_some_iff.mp hby).2,
      Argument.isWildcard_of_name? (Argument.givenName?_eq_some_iff.mp hby').2]

/-- Arguments that are equal in composing are equal in chaining. -/
theorem Ends.beq {d c' d' : Argument} (h : J.Ends c d c' d') (hcd : (c == d) = true) :
    (c' == d') = true := by
  rcases h.right with ⟨y, hy, hname, -⟩ | ⟨-, hright⟩
  · exact absurd (h.ofFirst _ ((Argument.name?_congr hcd).trans hname)) (J.apart y hy)
  · rw [h.left, hright]
    exact Substitution.resolve_congr hcd

/-- Arguments that differ in composing differ in chaining, unless the solution has a value for the
one that would be bound. -/
theorem Ends.ne {d c' d' : Argument} (h : J.Ends c d c' d') (hcd : (c == d) = false)
    (hd : ∀ n, d.name? = some n → J.solution.get? n = none)
    (hc : d.name? = none → ∀ n, c.name? = some n → J.solution.get? n = none) :
    (c' == d') = false := by
  rw [Bool.eq_false_iff]
  intro hsame
  -- equal in chaining means that neither side changed, so they were equal in composing
  have hname := Argument.name?_congr hsame
  rcases h.right with ⟨y, hy, -, hd'⟩ | ⟨-, hright⟩
  · rw [hd', h.left] at hname
    exact (name?_resolve_solution h.ofFirst hname).2.2.2 hy
  · cases hdn : d.name? with
    | some n =>
      have hfixed := Substitution.resolve_of_unbound hdn (hd n hdn)
      rw [hright, hfixed, hdn, h.left] at hname
      rw [h.left, hright, hfixed, (name?_resolve_solution h.ofFirst hname).1, hcd] at hsame
      cases hsame
    | none =>
      have hfixed : J.solution.resolve c = c := by
        cases hcn : c.name? with
        | none => exact Substitution.resolve_of_value hcn
        | some n => exact Substitution.resolve_of_unbound hcn (hc hdn n hcn)
      rw [h.left, hright, hfixed, Substitution.resolve_of_value hdn, hcd] at hsame
      cases hsame

/-- A variable without a value in the solution is one in chaining, under the linked name. -/
theorem Ends.linked {d c' d' : Argument} (h : J.Ends c d c' d') {n : Text}
    (hn : d.name? = some n) (hfree : J.solution.get? n = none) :
    ∃ n', J.Linked n n' ∧ d'.name? = some n' := by
  rcases h.right with ⟨y, hy, hname, hname'⟩ | ⟨hofFirst, hright⟩
  · rw [hn] at hname
    cases hname
    exact ⟨y, .second y hy, hname'⟩
  · refine ⟨n, .first n (hofFirst n hn) hfree, ?_⟩
    rw [hright, Substitution.resolve_of_unbound hn hfree, hn]

/-- A name with a value in the solution is one of the output. -/
theorem Ends.solved {d c' d' : Argument} (h : J.Ends c d c' d') {n : Text} {v : Argument}
    (hn : d.name? = some n) (hs : J.solution.get? n = some v) : J.first n ∧ d' = v := by
  rcases h.right with ⟨y, hy, hname, -⟩ | ⟨hofFirst, hright⟩
  · rw [hn] at hname
    cases hname
    rw [J.unsolved y hy] at hs
    cases hs
  · exact ⟨hofFirst n hn, hright.trans (resolve_solved hn hs)⟩

/-- A value stays one in chaining. -/
theorem Ends.value {d c' d' : Argument} (h : J.Ends c d c' d') (hn : d.name? = none) :
    J.OfFirst d ∧ d' = d := by
  rcases h.right with ⟨y, -, hname, -⟩ | ⟨hofFirst, hright⟩
  · rw [hn] at hname
    cases hname
  · exact ⟨hofFirst, hright.trans (Substitution.resolve_of_value hn)⟩

/-- The two matches take corresponding steps, unless composing binds a name of the solution to
anything but itself. -/
theorem Lock.unifyArguments (h : J.Lock θ t) (hk : J.Keeps θ) (ha : J.IsOutput a)
    (hb : J.Renames b b') (hu : TagReasoner.unifyArguments a b' θ = some θ') (hk' : J.Keeps θ') :
    ∃ t', TagReasoner.unifyArguments (J.solution.resolve a) b t = some t' ∧ J.Lock θ' t' := by
  have hspec := unifyArguments_spec a b' θ
  rw [hu] at hspec
  have hanonymous : ((J.solution.resolve a).isAnonymous || b.isAnonymous)
      = (a.isAnonymous || b'.isAnonymous) := by
    rw [ha.isAnonymous_resolve, hb.isAnonymous_eq]
  cases hanon : a.isAnonymous || b'.isAnonymous with
  | true =>
    rw [(Unification.anonymous hanon).eq] at hu
    exact ⟨t, (Unification.anonymous (hanonymous.trans hanon)).eq, Option.some.inj hu ▸ h⟩
  | false =>
    have hchain := hanonymous.trans hanon
    obtain ⟨hafalse, hbfalse⟩ := Bool.or_eq_false_iff.mp hanon
    have hends := h.ends hk (ha.ofFirst hafalse) hb (hb.isAnonymous_eq ▸ hbfalse)
    cases hspec with
    | anonymous htrue =>
      rw [htrue] at hanon
      cases hanon
    | same _ hsame => exact ⟨t, (Unification.same hchain (hends.beq hsame)).eq, h⟩
    | bindSecond n _ hne hn =>
      cases hs : J.solution.get? n with
      | some v =>
        -- composing may bind the name to itself only, and chaining meets its value twice
        have hself : (θ.resolve a).name? = some n :=
          hk' n _ (by rw [hs]; rfl) (Keyed.get?_put_self θ n _)
        obtain ⟨hfirst, hright⟩ := hends.solved hn hs
        refine ⟨t, (Unification.same hchain ?_).eq,
          h.putSolved hfirst (by rw [hs]; rfl) hends.ofFirst⟩
        rw [hends.left, hright, resolve_solved hself hs]
        exact BEq.refl v
      | none =>
        obtain ⟨n', hlinked, hn'⟩ := hends.linked hn hs
        have hne' := hends.ne hne
          (fun m hm => by rw [hn] at hm; cases hm; exact hs)
          (fun hnone => by rw [hn] at hnone; cases hnone)
        refine ⟨_, (Unification.bindSecond n' hchain hne' hn').eq, ?_⟩
        rw [hends.left]
        exact h.put hlinked hends.ofFirst
    | bindFirst n _ hne hvalue hn =>
      obtain ⟨hofFirst, hright⟩ := hends.value hvalue
      -- a value is not the name itself, so the solution may not bind the name
      have hfree : J.solution.get? n = none := by
        cases hs : J.solution.get? n with
        | none => rfl
        | some v =>
          have hself := hk' n _ (by rw [hs]; rfl) (Keyed.get?_put_self θ n _)
          rw [hvalue] at hself
          cases hself
      have hleft := hends.left.trans (Substitution.resolve_of_unbound hn hfree)
      refine ⟨_, (Unification.bindFirst n hchain ?_ (hright ▸ hvalue) (by rw [hleft, hn])).eq, ?_⟩
      · rw [hleft, hright, hne]
      · have hput := h.put (.first n (hends.ofFirst n hn) hfree) hofFirst
        rw [hright]
        rwa [Substitution.resolve_of_value hvalue] at hput
    | compatible _ hne hvalue hvalue' hcompat =>
      have hright := (hends.value hvalue).2
      have hleft := hends.left.trans (Substitution.resolve_of_value hvalue')
      exact ⟨t, (Unification.compatible hchain (by rw [hleft, hright, hne]) (hright ▸ hvalue)
        (by rw [hleft, hvalue']) (by rw [hleft, hright, hcompat])).eq, h⟩

end Step

/-! ## Along the arguments -/

section Run

variable {θ θ' t : Substitution} {as bs bs' : List Argument}

/-- What is left free in the end was left free all along. -/
theorem Keeps.of_matchArguments (h : J.Keeps θ') (hlayered : θ.Layered)
    (hm : TagReasoner.matchArguments as bs θ = some θ') : J.Keeps θ := by
  intro n c hsolved hn
  by_contra hc
  exact hc (h n c hsolved (matchArguments_get?_of_ne hlayered hm hn hc))

/-- If composing leaves free what the solution binds, chaining matches too. -/
theorem Lock.matchArguments (h : J.Lock θ t) (hlayered : θ.Layered) (hk : J.Keeps θ)
    (has : ∀ a ∈ as, J.IsOutput a) (hbs : List.Forall₂ J.Renames bs bs')
    (hm : TagReasoner.matchArguments as bs' θ = some θ') (hk' : J.Keeps θ') :
    ∃ t', TagReasoner.matchArguments (as.map J.solution.resolve) bs t = some t' ∧
      J.Lock θ' t' := by
  induction as generalizing bs bs' θ t with
  | nil =>
    rw [TagReasoner.matchArguments] at hm
    cases hm
    exact ⟨t, rfl, h⟩
  | cons a as ih =>
    obtain ⟨ha, has⟩ := List.forall_mem_cons.mp has
    cases hbs with
    | nil => cases hm
    | cons hb hbs =>
      rw [TagReasoner.matchArguments] at hm
      rw [List.map_cons, TagReasoner.matchArguments, ha.isWildcard_resolve, ← hb.isWildcard_eq]
      split at hm
      next hwild =>
        cases hm
        rw [if_pos hwild]
        exact ⟨t, rfl, h⟩
      next hwild =>
        obtain ⟨θ₁, hu, hm⟩ := Option.bind_eq_some_iff.mp hm
        -- the step may use what is left free in the end, since bindings stay
        have hlayered₁ := hlayered.unifyArguments hu
        have hk₁ := hk'.of_matchArguments hlayered₁ hm
        obtain ⟨t₁, hu', h₁⟩ := h.unifyArguments hk ha hb hu hk₁
        rw [if_neg hwild, hu', Option.bind_some]
        exact ih h₁ hlayered₁ hk₁ has hbs hm

end Run

/-! ## When composing binds what the solution binds -/

/-- The argument is no wildcard and no value of the solution. -/
def Foreign (J : Juncture) (c : Argument) : Prop :=
  c.isWildcard = false ∧ ∀ n v, J.solution.get? n = some v → (v == c) = false

/-- The solution has different literals for the variables, and for all in the output. -/
structure Generic (J : Juncture) : Prop where
  solved : ∀ n, J.first n → (J.solution.get? n).isSome = true
  literal : ∀ n v, J.solution.get? n = some v → ∃ text, v.term = .literal text
  distinct : ∀ m n v w, J.solution.get? m = some v → J.solution.get? n = some w →
    (v == w) = true → m = n

section Refusal

variable {θ θ' t : Substitution} {a b b' c : Argument}

/-- A literal is compatible with no other value. -/
theorem compatible_literal {v d : Argument} {text : Text} (hv : v.term = .literal text)
    (hname : d.name? = none) (hwild : d.isWildcard = false) (hvd : (v == d) = false) :
    v.compatible d = false ∧ d.compatible v = false := by
  rw [Argument.beq_def, hv] at hvd
  unfold Argument.name? at hname
  unfold Argument.isWildcard at hwild
  unfold Argument.compatible
  cases hd : d.term with
  | literal other =>
    simp only [hv, hd, Term.equal] at hvd ⊢
    exact ⟨hvd, by rwa [Bool.beq_comm]⟩
  | number => simp [hv]
  | _ => simp [hd] at hname hwild

theorem Keeps.put_of_free {n : Text} (h : J.Keeps θ)
    (hn : J.solution.get? n = none ∨ c.name? = some n) : J.Keeps (θ.put n c) := by
  intro m d hsolved hm
  rw [Keyed.get?_put] at hm
  split at hm
  next hmn =>
    cases hm
    rw [hmn] at hsolved ⊢
    refine hn.resolve_left fun hnone => ?_
    rw [hnone] at hsolved
    cases hsolved
  next => exact h m d hsolved hm

/-- A value of the solution clashes with whatever else the other side stands for. -/
theorem Generic.clash {v d : Argument} {n : Text} (hgeneric : J.Generic)
    (hn : J.solution.get? n = some v) (hd : J.OfFirst d) (hne : d.name? ≠ some n)
    (hforeign : J.Foreign d) :
    (J.solution.resolve d).name? = none ∧ (v == J.solution.resolve d) = false ∧
      v.compatible (J.solution.resolve d) = false ∧
      (J.solution.resolve d).compatible v = false := by
  obtain ⟨text, hv⟩ := hgeneric.literal n v hn
  cases hname : d.name? with
  | none =>
    rw [Substitution.resolve_of_value hname]
    have hvd := hforeign.2 n v hn
    exact ⟨hname, hvd, compatible_literal hv hname hforeign.1 hvd⟩
  | some m =>
    obtain ⟨w, hw⟩ := Option.isSome_iff_exists.mp (hgeneric.solved m (hd m hname))
    have hwplain := J.plain m w hw
    have hvw : (v == w) = false := by
      rw [Bool.eq_false_iff]
      intro hsame
      rw [hname, hgeneric.distinct n m v w hn hw hsame] at hne
      exact hne rfl
    rw [resolve_solved hname hw]
    exact ⟨Argument.name?_of_isPlain hwplain, hvw, compatible_literal hv
      (Argument.name?_of_isPlain hwplain) (Argument.isWildcard_of_isPlain hwplain) hvw⟩

/-- Chaining is refused at the step at which composing binds a name of the solution. -/
theorem Lock.unifyArguments_eq_none (h : J.Lock θ t) (hgeneric : J.Generic) (hk : J.Keeps θ)
    (ha : J.IsOutput a) (hb : J.Renames b b') (hrange : ∀ n c, θ.get? n = some c → J.Foreign c)
    (hforeign : J.Foreign a) (hforeign' : J.Foreign b')
    (hu : TagReasoner.unifyArguments a b' θ = some θ') (hk' : ¬ J.Keeps θ') :
    TagReasoner.unifyArguments (J.solution.resolve a) b t = none := by
  have hspec := unifyArguments_spec a b' θ
  rw [hu] at hspec
  have hleft : J.Foreign (θ.resolve a) := Substitution.resolve_mem (P := J.Foreign) hrange hforeign
  have hright : J.Foreign (θ.resolve b') :=
    Substitution.resolve_mem (P := J.Foreign) hrange hforeign'
  cases hspec with
  | anonymous | same | compatible => exact absurd hk hk'
  | bindSecond n hanon hne hn =>
    have hchain : ((J.solution.resolve a).isAnonymous || b.isAnonymous) = false := by
      rw [ha.isAnonymous_resolve, ← hb.isAnonymous_eq, hanon]
    obtain ⟨hafalse, hbfalse⟩ := Bool.or_eq_false_iff.mp hanon
    have hends := h.ends hk (ha.ofFirst hafalse) hb (hb.isAnonymous_eq ▸ hbfalse)
    cases hs : J.solution.get? n with
    | none => exact absurd (hk.put_of_free (.inl hs)) hk'
    | some v =>
      have hother : (θ.resolve a).name? ≠ some n := fun hself =>
        hk' (hk.put_of_free (.inr hself))
      obtain ⟨-, rfl⟩ := hends.solved hn hs
      obtain ⟨hname, hvd, -, hclash⟩ := hgeneric.clash hs hends.ofFirst hother hleft
      rw [← hends.left] at hname hvd hclash
      exact (Unification.clash hchain (by rwa [BEq.comm])
        (Argument.name?_of_isPlain (J.plain n _ hs)) hname hclash).eq
  | bindFirst n hanon hne hvalue hn =>
    have hchain : ((J.solution.resolve a).isAnonymous || b.isAnonymous) = false := by
      rw [ha.isAnonymous_resolve, ← hb.isAnonymous_eq, hanon]
    obtain ⟨hafalse, hbfalse⟩ := Bool.or_eq_false_iff.mp hanon
    have hends := h.ends hk (ha.ofFirst hafalse) hb (hb.isAnonymous_eq ▸ hbfalse)
    obtain ⟨hofFirst, hd⟩ := hends.value hvalue
    obtain ⟨v, hs⟩ := Option.isSome_iff_exists.mp (hgeneric.solved n (hends.ofFirst n hn))
    have hother : (θ.resolve b').name? ≠ some n := by simp [hvalue]
    obtain ⟨hname, hvd, hclash, -⟩ := hgeneric.clash hs hofFirst hother hright
    rw [Substitution.resolve_of_value hvalue, ← hd] at hname hvd hclash
    have hc := hends.left.trans (resolve_solved hn hs)
    rw [← hc] at hvd hclash
    exact (Unification.clash hchain hvd hname
      (by rw [hc, Argument.name?_of_isPlain (J.plain n v hs)]) hclash).eq

/-- If composing binds what the solution binds to anything else, chaining does not match. -/
theorem Lock.matchArguments_eq_none {as bs bs' : List Argument} (h : J.Lock θ t)
    (hgeneric : J.Generic) (hk : J.Keeps θ) (has : ∀ a ∈ as, J.IsOutput a)
    (hbs : List.Forall₂ J.Renames bs bs') (hrange : ∀ n c, θ.get? n = some c → J.Foreign c)
    (hforeign : ∀ c, c ∈ as ∨ c ∈ bs' → ∀ n v, J.solution.get? n = some v → (v == c) = false)
    (hm : TagReasoner.matchArguments as bs' θ = some θ') (hk' : ¬ J.Keeps θ') :
    TagReasoner.matchArguments (as.map J.solution.resolve) bs t = none := by
  induction as generalizing bs bs' θ t with
  | nil =>
    rw [TagReasoner.matchArguments] at hm
    cases hm
    exact absurd hk hk'
  | cons a as ih =>
    obtain ⟨ha, has⟩ := List.forall_mem_cons.mp has
    cases hbs with
    | nil => rfl
    | cons hb hbs =>
      rename_i b b' bs bs'
      rw [TagReasoner.matchArguments] at hm
      rw [List.map_cons, TagReasoner.matchArguments, ha.isWildcard_resolve, ← hb.isWildcard_eq]
      split at hm
      next =>
        cases hm
        exact absurd hk hk'
      next hwild =>
        obtain ⟨hawild, hbwild⟩ : a.isWildcard = false ∧ b'.isWildcard = false := by
          simpa using hwild
        have haforeign : J.Foreign a := ⟨hawild, hforeign a (.inl (List.mem_cons_self ..))⟩
        have hbforeign : J.Foreign b' := ⟨hbwild, hforeign b' (.inr (List.mem_cons_self ..))⟩
        obtain ⟨θ₁, hu, hm⟩ := Option.bind_eq_some_iff.mp hm
        rw [if_neg hwild]
        -- either this is the step that binds a name of the solution, or a later one is
        by_cases hk₁ : J.Keeps θ₁
        · obtain ⟨t₁, hu', h₁⟩ := h.unifyArguments hk ha hb hu hk₁
          have hrange₁ := unifyArguments_range (P := J.Foreign) hrange haforeign hbforeign hu
          rw [hu', Option.bind_some]
          exact ih h₁ hk₁ has hbs hrange₁ (fun c hc => hforeign c
            (hc.imp (List.mem_cons_of_mem a) (List.mem_cons_of_mem b'))) hm
        · rw [h.unifyArguments_eq_none hgeneric hk ha hb hrange haforeign hbforeign hu hk₁,
            Option.bind_none]

end Refusal

end Juncture
end TagReasoner
