import TagReasoner.Matching.Substitution
import TagReasoner.Proofs.Collection.Keyed
import TagReasoner.Proofs.Tag.Equality

/-!
# Following bindings

`resolve` walks from variable to variable. Three equations say what a walk does (`resolve_of_value`,
`resolve_of_unbound`, `resolve_of_bound`), and `resolve_induct` is induction along a walk; nothing
below looks at the fuel that the walk is defined with.

A substitution is *layered* when its variables have levels that each binding lowers, unless it
binds a name to itself. Walks in a layered substitution end in a *root*, and binding a root to a
root keeps the substitution layered (`Layered.put`). So no walk ever goes round a circle of two or
more names.
-/

namespace TagReasoner

namespace Argument

theorem name?_congr {a b : Argument} (h : (a == b) = true) : a.name? = b.name? := by
  rw [beq_def] at h
  unfold name?
  cases ha : a.term <;> cases hb : b.term <;> simp_all [Term.equal]

theorem isAnonymous_congr {a b : Argument} (h : (a == b) = true) :
    a.isAnonymous = b.isAnonymous := by
  rw [beq_def] at h
  unfold isAnonymous
  cases ha : a.term <;> cases hb : b.term <;> simp_all [Term.equal]

theorem name?_of_isAnonymous {a : Argument} (h : a.isAnonymous = true) :
    ∃ b : Binder, a.name? = some [b.mark] := by
  unfold isAnonymous at h
  unfold name?
  cases ha : a.term <;> simp_all

theorem isWildcard_of_name? {a : Argument} {n : Text} (h : a.name? = some n) :
    a.isWildcard = false := by
  unfold name? at h
  unfold isWildcard
  cases ha : a.term <;> simp_all

theorem name?_named (n : Text) (b : Binder) (t : Text) : (named n b t).name? = some n := rfl

end Argument

namespace Substitution

/-! ## Walks -/

theorem resolve_of_value {θ : Substitution} {a : Argument} (h : a.name? = none) :
    θ.resolve a = a := by
  rw [resolve]
  cases θ.size with
  | zero => rfl
  | succ k => rw [follow, h]

theorem resolve_of_unbound {θ : Substitution} {a : Argument} {n : Text} (h : a.name? = some n)
    (hn : θ.get? n = none) : θ.resolve a = a := by
  rw [resolve]
  cases θ.size with
  | zero => rfl
  | succ k => simp only [follow, h, hn]

theorem resolve_of_bound {θ : Substitution} {a b : Argument} {n : Text} (h : a.name? = some n)
    (hn : θ.get? n = some b) : θ.resolve a = resolve (θ.erase n) b := by
  rw [resolve, resolve, Keyed.size_erase θ hn]
  simp only [follow, h, hn]

/-- Equal arguments resolve to equal ones. -/
theorem resolve_congr {θ : Substitution} {a b : Argument} (h : (a == b) = true) :
    (θ.resolve a == θ.resolve b) = true := by
  have hname := Argument.name?_congr h
  cases hb : b.name? with
  | none => rwa [resolve_of_value (hname.trans hb), resolve_of_value hb]
  | some n =>
    cases hn : θ.get? n with
    | none => rwa [resolve_of_unbound (hname.trans hb) hn, resolve_of_unbound hb hn]
    | some c =>
      rw [resolve_of_bound (hname.trans hb) hn, resolve_of_bound hb hn]
      exact BEq.refl _

/-- Induction along a walk: each binding that is followed is out of the way for the rest. -/
theorem resolve_induct {motive : Substitution → Argument → Prop}
    (value : ∀ θ a, a.name? = none → motive θ a)
    (unbound : ∀ θ a n, a.name? = some n → θ.get? n = none → motive θ a)
    (bound : ∀ θ a n b, a.name? = some n → θ.get? n = some b → motive (θ.erase n) b → motive θ a)
    (θ : Substitution) (a : Argument) : motive θ a := by
  induction hk : θ.size generalizing θ a with
  | zero =>
    cases h : a.name? with
    | none => exact value θ a h
    | some n =>
      cases hn : θ.get? n with
      | none => exact unbound θ a n h hn
      | some b =>
        have := Keyed.size_erase θ hn
        omega
  | succ k ih =>
    cases h : a.name? with
    | none => exact value θ a h
    | some n =>
      cases hn : θ.get? n with
      | none => exact unbound θ a n h hn
      | some b =>
        have hsize := Keyed.size_erase θ hn
        exact bound θ a n b h hn (ih (θ.erase n) b (by omega))

/-- A property of the argument and of everything bound holds of what the walk ends in. -/
theorem resolve_mem {P : Argument → Prop} {θ : Substitution}
    (hθ : ∀ n b, θ.get? n = some b → P b) {a : Argument} (ha : P a) : P (θ.resolve a) := by
  induction θ, a using resolve_induct with
  | value θ a h => rwa [resolve_of_value h]
  | unbound θ a n h hn => rwa [resolve_of_unbound h hn]
  | bound θ a n b h hn ih =>
    rw [resolve_of_bound h hn]
    exact ih (Keyed.forall_erase hθ n) (hθ n b hn)

/-! ## Layered substitutions -/

/-- The argument is a value, a variable without a binding, or one bound to its own name. -/
def IsRoot (θ : Substitution) (a : Argument) : Prop :=
  ∀ n, a.name? = some n → ∀ b, θ.get? n = some b → b.name? = some n

/-- Each binding to a variable leads to a lower level or back to its own name. -/
def LayeredBy (level : Text → Nat) (θ : Substitution) : Prop :=
  ∀ n a m, θ.get? n = some a → a.name? = some m → m = n ∨ level m < level n

/-- No walk goes round a circle of two or more names. -/
def Layered (θ : Substitution) : Prop := ∃ level, LayeredBy level θ

theorem layered_empty : Layered .empty := ⟨fun _ => 0, fun _ _ _ h => by cases h⟩

theorem LayeredBy.erase {level : Text → Nat} {θ : Substitution} (h : LayeredBy level θ)
    (k : Text) : LayeredBy level (θ.erase k) := by
  intro n a m hn ha
  rw [Keyed.get?_erase] at hn
  split at hn
  · cases hn
  · exact h n a m hn ha

/-- A walk ends in a root, on the level of its start or below. -/
theorem LayeredBy.level_resolve {level : Text → Nat} {θ : Substitution} (h : LayeredBy level θ)
    (a : Argument) :
    θ.IsRoot (θ.resolve a) ∧
      ∀ n m, a.name? = some n → (θ.resolve a).name? = some m → m = n ∨ level m < level n := by
  induction θ, a using resolve_induct with
  | value θ a ha =>
    rw [resolve_of_value ha]
    refine ⟨fun n hn => ?_, fun n m hn => ?_⟩ <;> rw [ha] at hn <;> cases hn
  | unbound θ a n ha hn =>
    rw [resolve_of_unbound ha hn]
    refine ⟨fun m hm b hb => ?_, fun m k hm hk => .inl ?_⟩
    · rw [ha] at hm
      cases hm
      rw [hn] at hb
      cases hb
    · rw [hm] at hk
      exact (Option.some.inj hk).symm
  | bound θ a n b ha hn ih =>
    obtain ⟨hroot, hlevel⟩ := ih (h.erase n)
    rw [resolve_of_bound ha hn]
    -- the binding that was followed is erased below, so `n` itself needs an argument of its own
    have hback : (resolve (θ.erase n) b).name? = some n → b.name? = some n := by
      intro hr
      cases hb : b.name? with
      | none => rw [resolve_of_value hb, hb] at hr; cases hr
      | some m =>
        rcases hlevel m n hb hr with rfl | hlt
        · rfl
        · rcases h n b m hn hb with rfl | hlt'
          · rfl
          · omega
    constructor
    · intro m hm c hc
      by_cases hmn : m = n
      · subst hmn
        rw [hn] at hc
        cases hc
        exact hback hm
      · exact hroot m hm c (by rw [Keyed.get?_erase_ne θ hmn]; exact hc)
    · intro k m hk hm
      rw [ha] at hk
      cases hk
      by_cases hmn : m = n
      · exact .inl hmn
      · cases hb : b.name? with
        | none => rw [resolve_of_value hb, hb] at hm; cases hm
        | some j =>
          right
          rcases hlevel j m hb hm with rfl | hlt
          · exact (h n b _ hn hb).resolve_left hmn
          · rcases h n b j hn hb with rfl | hlt'
            · exact hlt
            · omega

theorem Layered.isRoot_resolve {θ : Substitution} (h : θ.Layered) (a : Argument) :
    θ.IsRoot (θ.resolve a) := by
  obtain ⟨level, hlevel⟩ := h
  exact (hlevel.level_resolve a).1

/-- Binding a root to a root adds a lowest level, that of the name led to. -/
theorem Layered.put {θ : Substitution} (h : θ.Layered) {n : Text} {a : Argument}
    (ha : θ.IsRoot a) : Layered (θ.put n a) := by
  obtain ⟨level, hlevel⟩ := h
  cases hname : a.name? with
  | none =>
    refine ⟨level, fun j b m hj hb => ?_⟩
    by_cases hjn : j = n
    · rw [hjn, Keyed.get?_put_self] at hj
      cases hj
      rw [hname] at hb
      cases hb
    · rw [Keyed.get?_put_ne θ hjn] at hj
      exact hlevel j b m hj hb
  | some k =>
    refine ⟨fun j => if j = k then 0 else level j + 1, fun j b m hj hb => ?_⟩
    by_cases hjn : j = n
    · rw [hjn, Keyed.get?_put_self] at hj
      cases hj
      rw [hname] at hb
      cases hb
      by_cases hkn : k = n
      · exact .inl (hkn.trans hjn.symm)
      · right
        show (if k = k then 0 else level k + 1) < if j = k then 0 else level j + 1
        rw [if_pos rfl, if_neg (fun h => hkn (h.symm.trans hjn))]
        omega
    · rw [Keyed.get?_put_ne θ hjn] at hj
      by_cases hjk : j = k
      · -- the root that is led to keeps its own binding, which leads to its own name
        subst hjk
        have hself := ha j hname b hj
        rw [hb] at hself
        exact .inl (Option.some.inj hself)
      · rcases hlevel j b m hj hb with rfl | hlt
        · exact .inl rfl
        · right
          show (if m = k then 0 else level m + 1) < if j = k then 0 else level j + 1
          rw [if_neg hjk]
          split <;> omega

/-- Below the level of a name, its binding makes no difference to a walk. -/
theorem LayeredBy.resolve_erase {level : Text → Nat} {θ : Substitution} (h : LayeredBy level θ)
    {a : Argument} {n : Text} (ha : ∀ m, a.name? = some m → level m < level n) :
    resolve (θ.erase n) a = θ.resolve a := by
  induction θ, a using resolve_induct with
  | value θ a hnone => rw [resolve_of_value hnone, resolve_of_value hnone]
  | unbound θ a m hm hmθ =>
    have hne : m ≠ n := fun h => by have := ha m hm; rw [h] at this; omega
    rw [resolve_of_unbound hm hmθ, resolve_of_unbound hm (by rw [Keyed.get?_erase_ne θ hne, hmθ])]
  | bound θ a m b hm hmθ ih =>
    have hlt := ha m hm
    have hne : m ≠ n := fun h => by rw [h] at hlt; omega
    rw [resolve_of_bound hm hmθ,
      resolve_of_bound hm (by rw [Keyed.get?_erase_ne θ hne]; exact hmθ), Keyed.erase_comm]
    refine ih (h.erase m) fun k hk => ?_
    rcases h m b k hmθ hk with rfl | hlt'
    · exact hlt
    · omega

/-- In a layered substitution a bound variable resolves to what its binding does. -/
theorem Layered.resolve_bound {θ : Substitution} (h : θ.Layered) {a b : Argument} {n : Text}
    (ha : a.name? = some n) (hn : θ.get? n = some b) : θ.resolve a = θ.resolve b := by
  obtain ⟨level, hlevel⟩ := h
  rw [resolve_of_bound ha hn]
  by_cases hb : b.name? = some n
  · rw [resolve_of_bound hb hn]
  · refine hlevel.resolve_erase fun m hm => ?_
    rcases hlevel n b m hn hm with rfl | hlt
    · exact absurd hm hb
    · exact hlt

end Substitution

/-! ## Nothing to put in -/

theorem Fact.substitute_empty (f : Fact) : f.substitute .empty = f := by
  have hresolved : f.arguments.map (Substitution.resolve .empty) = f.arguments :=
    (List.map_congr_left fun _ _ => rfl).trans (List.map_id _)
  rw [substitute, hresolved, if_pos (BEq.refl _)]

namespace Tag

mutual

theorem substitute_empty : ∀ t : Tag, t.substitute .empty = t
  | .fact f => by rw [substitute, f.substitute_empty]
  | .recommendation _ | .foreign .. => rfl
  | .rule i o => by rw [substitute, substituteAll_empty i, substituteAll_empty o]

theorem substituteAll_empty : ∀ ts : List Tag, substituteAll .empty ts = ts
  | [] => rfl
  | t :: ts => by rw [substituteAll, substitute_empty t, substituteAll_empty ts]

end

/-! ## Values that are no tags -/

mutual

/-- Substitution changes facts only, so it brings in no value that is no tag. -/
theorem foreignKind?_substitute (θ : Substitution) :
    ∀ t : Tag, (t.substitute θ).foreignKind? = t.foreignKind?
  | .fact _ | .recommendation _ | .foreign .. => rfl
  | .rule i o => by
    rw [substitute, foreignKind?, foreignKind?, firstForeignKind?_substituteAll θ i,
      firstForeignKind?_substituteAll θ o]

theorem firstForeignKind?_substituteAll (θ : Substitution) :
    ∀ ts : List Tag, firstForeignKind? (substituteAll θ ts) = firstForeignKind? ts
  | [] => rfl
  | t :: ts => by
    rw [substituteAll, firstForeignKind?, firstForeignKind?, foreignKind?_substitute θ t,
      firstForeignKind?_substituteAll θ ts]

end

end Tag
end TagReasoner
