import TagReasoner.Composition.Renaming
import TagReasoner.Proofs.Matching.PlainFacts
import TagReasoner.Proofs.Text.DecimalDigit
import Mathlib.Data.List.Nodup
import Mathlib.Data.List.Perm.Subperm

/-!
# Renaming apart

Every named variable of a rule, however deep inside it, is among its `namedVariables`
(`Rule.mem_namedVariables`). Renaming a rule apart from names in use replaces the names that clash
by fresh ones, which are in use on neither side, differ from each other and are no bare marks. So
the new name of a variable, `Substitution.renamed`, is not in use (`renamed_not_mem_taken`) and no
two variables get the same (`renamed_injOn`).
-/

namespace TagReasoner

/-! ## The variables of a rule -/

mutual

/-- All arguments of facts inside a tag. -/
def Tag.allArguments : Tag → List Argument
  | .fact f => f.arguments
  | .rule i o => Tag.argumentsOf i ++ Tag.argumentsOf o
  | _ => []

/-- All arguments of facts inside several tags. -/
def Tag.argumentsOf : List Tag → List Argument
  | [] => []
  | t :: ts => Tag.allArguments t ++ Tag.argumentsOf ts

end

theorem Tag.argumentsOf_append (ts us : List Tag) :
    argumentsOf (ts ++ us) = argumentsOf ts ++ argumentsOf us := by
  induction ts with
  | nil => rfl
  | cons t ts ih => rw [List.cons_append, argumentsOf, argumentsOf, ih, List.append_assoc]

theorem Tag.mem_argumentsOf {ts : List Tag} {t : Tag} (ht : t ∈ ts) {a : Argument}
    (ha : a ∈ t.allArguments) : a ∈ argumentsOf ts := by
  induction ts with
  | nil => cases ht
  | cons u us ih =>
    rw [argumentsOf, List.mem_append]
    rcases List.mem_cons.mp ht with rfl | ht
    · exact .inl ha
    · exact .inr (ih ht)

/-- A name is noted among some arguments, or was before. -/
def NotedIn (noted : Keyed Text Binder) (as : List Argument) (n : Text) : Prop :=
  n ∈ noted.keys ∨ ∃ a ∈ as, a.givenName? = some n

theorem notedIn_nil_iff {noted : Keyed Text Binder} {n : Text} :
    NotedIn noted [] n ↔ n ∈ noted.keys := by
  simp [NotedIn]

/-- Arguments are noted one after another. -/
theorem notedIn_append_iff {noted noted' : Keyed Text Binder} {as bs : List Argument} {n : Text}
    (h : n ∈ noted'.keys ↔ NotedIn noted as n) :
    NotedIn noted (as ++ bs) n ↔ NotedIn noted' bs n := by
  simp only [NotedIn, h, List.mem_append, or_and_right, exists_or, or_assoc]

theorem Argument.mem_note_iff {noted : Keyed Text Binder} {a : Argument} {n : Text} :
    n ∈ (match a.term with
      | .variable name binder => if a.isAnonymous then noted else noted.insertNew name binder
      | _ => noted).keys ↔ NotedIn noted [a] n := by
  have hsingle : NotedIn noted [a] n ↔
      n ∈ noted.keys ∨ a.isAnonymous = false ∧ a.name? = some n := by
    rw [← givenName?_eq_some_iff]
    simp [NotedIn]
  rw [hsingle]
  split
  next name binder hterm =>
    have hname : a.name? = some name := by rw [name?, hterm]
    cases hanon : a.isAnonymous with
    | true => simp
    | false => simp [hname, Keyed.mem_keys_insertNew_iff, eq_comm]
  next hterm =>
    have hname : a.name? = none := by
      rw [name?]
      split
      next name binder hvariable => exact absurd hvariable (hterm name binder)
      next => rfl
    simp [hname]

theorem Fact.mem_noteVariables_iff {noted : Keyed Text Binder} {f : Fact} {n : Text} :
    n ∈ (f.noteVariables noted).keys ↔ NotedIn noted f.arguments n := by
  rw [noteVariables]
  generalize f.arguments = as
  induction as generalizing noted with
  | nil => exact notedIn_nil_iff.symm
  | cons a as ih =>
    rw [List.foldl_cons, ih, ← List.singleton_append]
    exact (notedIn_append_iff Argument.mem_note_iff).symm

theorem mem_keys_foldl_put_iff {α : Type} {es : List (Text × α)} {m : Keyed Text α} {n : Text} :
    n ∈ (es.foldl (fun m e => m.put e.1 e.2) m).keys ↔ n ∈ m.keys ∨ n ∈ es.map (·.1) := by
  induction es generalizing m with
  | nil => simp
  | cons e es ih =>
    rw [List.foldl_cons, ih, Keyed.mem_keys_put_iff, List.map_cons, List.mem_cons, or_assoc]

mutual

theorem Tag.mem_noteVariables_iff (noted : Keyed Text Binder) (n : Text) :
    ∀ t : Tag, n ∈ (t.noteVariables noted).keys ↔ NotedIn noted t.allArguments n
  | .fact f => by
    rw [noteVariables]
    exact Fact.mem_noteVariables_iff
  | .rule i o => by
    -- the inside is noted apart first
    have hinside : n ∈ (noteAllVariables (noteAllVariables .empty i) o).keys ↔
        NotedIn .empty (argumentsOf i ++ argumentsOf o) n := by
      rw [Tag.mem_noteAllVariables_iff _ n o]
      exact (notedIn_append_iff (Tag.mem_noteAllVariables_iff _ n i)).symm
    have hempty : n ∉ (Keyed.empty : Keyed Text Binder).keys := List.not_mem_nil
    rw [noteVariables, mem_keys_foldl_put_iff]
    exact or_congr_right (hinside.trans (or_iff_right hempty))
  | .recommendation c => notedIn_nil_iff.symm
  | .foreign k s => notedIn_nil_iff.symm

theorem Tag.mem_noteAllVariables_iff (noted : Keyed Text Binder) (n : Text) :
    ∀ ts : List Tag, n ∈ (noteAllVariables noted ts).keys ↔ NotedIn noted (argumentsOf ts) n
  | [] => notedIn_nil_iff.symm
  | t :: ts => by
    rw [noteAllVariables, Tag.mem_noteAllVariables_iff _ n ts, argumentsOf]
    exact (notedIn_append_iff (Tag.mem_noteVariables_iff noted n t)).symm

end

/-- The named variables of a rule are those that stand anywhere inside it. -/
theorem Rule.mem_namedVariables_iff {r : Rule} {n : Text} : n ∈ r.namedVariables.keys ↔
    ∃ a ∈ r.toTag.allArguments, a.givenName? = some n := by
  rw [namedVariables, Tag.mem_noteAllVariables_iff, Tag.argumentsOf_append]
  exact or_iff_right List.not_mem_nil

/-- A variable with a given name, anywhere inside a rule, is among its named variables. -/
theorem Rule.mem_namedVariables {r : Rule} {a : Argument} {n : Text}
    (ha : a ∈ Tag.argumentsOf r.inputs ∨ a ∈ Tag.argumentsOf r.outputs)
    (han : a.givenName? = some n) : n ∈ r.namedVariables.keys :=
  mem_namedVariables_iff.mpr ⟨a, List.mem_append.mpr ha, han⟩

/-! ## Fresh names -/

/-- Among more candidates than there are names in use, one is free. -/
theorem exists_free_candidate (used : List Text) (name : Text) :
    ∃ k, k ∈ List.range (used.length + 1) ∧ name ++ Text.ofNat (k + 1) ∉ used := by
  by_contra hno
  have hused : (List.range (used.length + 1)).map (fun k => name ++ Text.ofNat (k + 1)) ⊆ used := by
    intro t ht
    obtain ⟨k, hk, rfl⟩ := List.mem_map.mp ht
    by_contra hfree
    exact hno ⟨k, hk, hfree⟩
  have hnodup :
      ((List.range (used.length + 1)).map fun k => name ++ Text.ofNat (k + 1)).Nodup := by
    refine List.nodup_range.map fun j k hjk => ?_
    have := Text.ofNat_injective (List.append_cancel_left hjk)
    omega
  have hlength := (List.subperm_of_subset hnodup hused).length_le
  rw [List.length_map, List.length_range] at hlength
  omega

theorem freshName_spec (used : List Text) (name : Text) :
    freshName used name ∉ used ∧ ∃ k, freshName used name = name ++ Text.ofNat k := by
  obtain ⟨k, hk, hfree⟩ := exists_free_candidate used name
  unfold freshName
  split
  next j hj =>
    have hj := List.find?_some hj
    exact ⟨by simpa using hj, _, rfl⟩
  next hnone =>
    have := List.find?_eq_none.mp hnone k hk
    simp [hfree] at this

/-- A name that ends in digits is no bare mark. -/
theorem append_ofNat_ne_mark (name : Text) (k : Nat) (b : Binder) :
    name ++ Text.ofNat k ≠ [b.mark] := by
  intro hmark
  -- the one character of the mark would be a digit
  obtain ⟨c, hc⟩ := List.exists_mem_of_ne_nil _ (Text.ofNat_ne_nil k)
  have hcmark : c ∈ [b.mark] := by
    rw [← hmark]
    exact List.mem_append_right name hc
  obtain ⟨d, hd, rfl⟩ := Text.mem_ofNat hc
  have hno : ∀ d < 10, Text.digitChar d ≠ '?' ∧ Text.digitChar d ≠ '&' := by decide +kernel
  have := hno d hd
  cases b <;> simp_all [Binder.mark]

theorem Argument.isAnonymous_of_ne_mark {a : Argument} {n : Text} (hname : a.name? = some n)
    (hn : ∀ b : Binder, n ≠ [b.mark]) : a.isAnonymous = false := by
  unfold name? at hname
  unfold isAnonymous
  split
  next m b hterm =>
    rw [hterm] at hname
    cases hname
    simpa using hn b
  next => rfl

/-! ## Renamings -/

namespace Substitution

/-- The name that a variable gets. -/
def renamed (ρ : Substitution) (n : Text) : Text := ((ρ.get? n).bind Argument.name?).getD n

/-- Names are bound to variables, whose names are not in use, are no bare marks, and differ. -/
structure Renaming (used : List Text) (ρ : Substitution) : Prop where
  fresh : ∀ n c, ρ.get? n = some c →
    ∃ m, c.name? = some m ∧ m ∉ used ∧ ∀ b : Binder, m ≠ [b.mark]
  injective : ∀ j k c d m, ρ.get? j = some c → ρ.get? k = some d →
    c.name? = some m → d.name? = some m → j = k

theorem renaming_empty (used : List Text) : Renaming used .empty where
  fresh _ _ h := by cases h
  injective _ _ _ _ _ h := by cases h

/-- One more name gets a fresh one. -/
theorem Renaming.put {base used : List Text} {ρ : Substitution} (h : ρ.Renaming base)
    (hbase : base ⊆ used) (hused : ∀ n c m, ρ.get? n = some c → c.name? = some m → m ∈ used)
    (name : Text) (b : Binder) :
    Renaming base (ρ.put name (.named (freshName used name) b [])) := by
  obtain ⟨hfresh, k, hk⟩ := freshName_spec used name
  have hname : (Argument.named (freshName used name) b []).name? = some (freshName used name) := rfl
  -- the fresh name is not among those given before, so two variables cannot share it
  refine ⟨Keyed.forall_put h.fresh ?_, fun i j c d m hi hj hc hd => ?_⟩
  · refine ⟨_, hname, fun hin => hfresh (hbase hin), fun b => ?_⟩
    rw [hk]
    exact append_ofNat_ne_mark name k b
  · by_cases hin : i = name <;> by_cases hjn : j = name
    · exact hin.trans hjn.symm
    · rw [hin, Keyed.get?_put_self] at hi
      rw [Keyed.get?_put_ne ρ hjn] at hj
      cases hi
      rw [hname] at hc
      cases hc
      exact absurd (hused j d _ hj hd) hfresh
    · rw [Keyed.get?_put_ne ρ hin] at hi
      rw [hjn, Keyed.get?_put_self] at hj
      cases hj
      rw [hname] at hd
      cases hd
      exact absurd (hused i c _ hi hc) hfresh
    · rw [Keyed.get?_put_ne ρ hin] at hi
      rw [Keyed.get?_put_ne ρ hjn] at hj
      exact h.injective i j c d m hi hj hc hd

end Substitution

theorem freshRenaming_spec (own : Keyed Text Binder) (names : List Text)
    {base used : List Text} {ρ : Substitution} (h : ρ.Renaming base) (hbase : base ⊆ used)
    (hused : ∀ n c m, ρ.get? n = some c → c.name? = some m → m ∈ used) :
    (freshRenaming own names used ρ).Renaming base ∧ ∀ n,
      ((freshRenaming own names used ρ).get? n).isSome = true ↔
        n ∈ names ∨ (ρ.get? n).isSome = true := by
  induction names generalizing used ρ with
  | nil => exact ⟨h, by simp [freshRenaming]⟩
  | cons name names ih =>
    rw [freshRenaming]
    have hrest := ih (h.put hbase hused name ((own.get? name).getD .single))
      (fun n hn => List.mem_cons_of_mem (freshName used name) (hbase hn))
      (fun n c m hn hc => by
        by_cases hnn : n = name
        · rw [hnn, Keyed.get?_put_self] at hn
          cases hn
          cases hc
          exact List.mem_cons_self ..
        · rw [Keyed.get?_put_ne ρ hnn] at hn
          exact List.mem_cons_of_mem _ (hused n c m hn hc))
    refine ⟨hrest.1, fun n => ?_⟩
    rw [hrest.2 n, List.mem_cons]
    by_cases hnn : n = name
    · rw [hnn, Keyed.get?_put_self]
      simp
    · rw [Keyed.get?_put_ne ρ hnn]
      simp [hnn]

namespace Rule

variable {r : Rule} {taken : List Text}

/-- Renaming apart renames the names that clash. -/
theorem renamingApart_spec (r : Rule) (taken : List Text) :
    (r.renamingApart taken).Renaming (r.namedVariables.keys ++ taken) ∧ ∀ n,
      ((r.renamingApart taken).get? n).isSome = true ↔
        n ∈ r.namedVariables.keys ∧ n ∈ taken := by
  obtain ⟨hrenaming, hbound⟩ := freshRenaming_spec r.namedVariables
    ((r.namedVariables.keys.filter taken.contains).mergeSort Text.atMost)
    (Substitution.renaming_empty (r.namedVariables.keys ++ taken)) (List.Subset.refl _)
    (by intro n c m hn; cases hn)
  refine ⟨hrenaming, fun n => (hbound n).trans ?_⟩
  rw [List.mem_mergeSort, List.mem_filter, List.contains_iff_mem, Keyed.get?_empty]
  simp

theorem renamed_not_mem_taken {n : Text} (hn : n ∈ r.namedVariables.keys) :
    (r.renamingApart taken).renamed n ∉ taken := by
  obtain ⟨hrenaming, hbound⟩ := r.renamingApart_spec taken
  cases hc : (r.renamingApart taken).get? n with
  | none =>
    have hfree : n ∉ taken := fun htaken => by
      have := (hbound n).mpr ⟨hn, htaken⟩
      rw [hc] at this
      cases this
    simpa [Substitution.renamed, hc] using hfree
  | some c =>
    obtain ⟨m, hm, hfresh, -⟩ := hrenaming.fresh n c hc
    simp only [Substitution.renamed, hc, Option.bind_some, hm, Option.getD_some]
    exact fun htaken => hfresh (List.mem_append_right _ htaken)

/-- Renaming apart keeps names apart. -/
theorem renamed_injOn {j k : Text} (hj : j ∈ r.namedVariables.keys)
    (hk : k ∈ r.namedVariables.keys)
    (h : (r.renamingApart taken).renamed j = (r.renamingApart taken).renamed k) : j = k := by
  obtain ⟨hrenaming, -⟩ := r.renamingApart_spec taken
  -- a fresh name is not one of the rule's own
  have hown : ∀ i c m, (r.renamingApart taken).get? i = some c → c.name? = some m →
      m ∉ r.namedVariables.keys := fun i c m hi hm hkey => by
    obtain ⟨m', hm', hfresh, -⟩ := hrenaming.fresh i c hi
    rw [hm] at hm'
    cases hm'
    exact hfresh (List.mem_append_left _ hkey)
  cases hjc : (r.renamingApart taken).get? j with
  | none =>
    cases hkc : (r.renamingApart taken).get? k with
    | none => simpa [Substitution.renamed, hjc, hkc] using h
    | some d =>
      obtain ⟨m, hm, -, -⟩ := hrenaming.fresh k d hkc
      simp only [Substitution.renamed, hjc, hkc, Option.bind_none, Option.getD_none,
        Option.bind_some, hm, Option.getD_some] at h
      exact absurd hj (h ▸ hown k d m hkc hm)
  | some c =>
    obtain ⟨m, hm, -, -⟩ := hrenaming.fresh j c hjc
    cases hkc : (r.renamingApart taken).get? k with
    | none =>
      simp only [Substitution.renamed, hjc, hkc, Option.bind_none, Option.getD_none,
        Option.bind_some, hm, Option.getD_some] at h
      exact absurd hk (h ▸ hown j c m hjc hm)
    | some d =>
      obtain ⟨m', hm', -, -⟩ := hrenaming.fresh k d hkc
      simp only [Substitution.renamed, hjc, hkc, Option.bind_some, hm, hm', Option.getD_some] at h
      exact hrenaming.injective j k c d m hjc hkc hm (h ▸ hm')

/-- A name is kept, or the new one is no bare mark. -/
theorem renamed_eq_or_ne_mark (r : Rule) (taken : List Text) (n : Text) :
    (r.renamingApart taken).renamed n = n ∨
      ∀ b : Binder, (r.renamingApart taken).renamed n ≠ [b.mark] := by
  cases hc : (r.renamingApart taken).get? n with
  | none =>
    rw [Substitution.renamed, hc]
    exact .inl rfl
  | some c =>
    obtain ⟨m, hm, -, hmark⟩ := (r.renamingApart_spec taken).1.fresh n c hc
    simp only [Substitution.renamed, hc, Option.bind_some, hm, Option.getD_some]
    exact .inr hmark

/-- A fresh name is not bound in turn. -/
theorem resolve_renamingApart_of_bound {b c : Argument} {n : Text} (hb : b.name? = some n)
    (hc : (r.renamingApart taken).get? n = some c) : (r.renamingApart taken).resolve b = c := by
  obtain ⟨hrenaming, hbound⟩ := r.renamingApart_spec taken
  obtain ⟨m, hm, hfresh, -⟩ := hrenaming.fresh n c hc
  have hnone : (r.renamingApart taken).get? m = none := by
    cases hd : (r.renamingApart taken).get? m with
    | none => rfl
    | some d =>
      have hkey := ((hbound m).mp (by rw [hd]; rfl)).1
      exact absurd (List.mem_append_left _ hkey) hfresh
  rw [Substitution.resolve_of_bound hb hc]
  refine Substitution.resolve_of_unbound hm ?_
  rw [Keyed.get?_erase, hnone, ite_self]

/-- A named variable gets its new name. -/
theorem resolve_renamingApart {b : Argument} {n : Text} (hb : b.givenName? = some n) :
    ((r.renamingApart taken).resolve b).givenName? =
      some ((r.renamingApart taken).renamed n) := by
  obtain ⟨-, hname⟩ := Argument.givenName?_eq_some_iff.mp hb
  cases hc : (r.renamingApart taken).get? n with
  | none =>
    rw [Substitution.resolve_of_unbound hname hc, hb, Substitution.renamed, hc]
    rfl
  | some c =>
    obtain ⟨m, hm, -, hmark⟩ := (r.renamingApart_spec taken).1.fresh n c hc
    rw [resolve_renamingApart_of_bound hname hc, Substitution.renamed, hc, Option.bind_some, hm]
    exact Argument.givenName?_eq_some_iff.mpr ⟨Argument.isAnonymous_of_ne_mark hm hmark, hm⟩

/-- What renaming leaves equal it leaves as it is. -/
theorem resolve_renamingApart_eq_of_beq {b : Argument}
    (h : ((r.renamingApart taken).resolve b == b) = true) :
    (r.renamingApart taken).resolve b = b := by
  cases hname : b.name? with
  | none => exact Substitution.resolve_of_value hname
  | some n =>
    cases hc : (r.renamingApart taken).get? n with
    | none => exact Substitution.resolve_of_unbound hname hc
    | some c =>
      obtain ⟨hrenaming, hbound⟩ := r.renamingApart_spec taken
      obtain ⟨m, hm, hfresh, -⟩ := hrenaming.fresh n c hc
      have hkey := ((hbound n).mp (by rw [hc]; rfl)).1
      rw [resolve_renamingApart_of_bound hname hc] at h
      have hmn := (Argument.name?_congr h).symm.trans hm
      rw [hname] at hmn
      cases hmn
      exact absurd (List.mem_append_left _ hkey) hfresh

theorem isVariable_resolve_renamingApart (r : Rule) (taken : List Text) {b : Argument} {n : Text}
    (hb : b.name? = some n) : ((r.renamingApart taken).resolve b).isVariable = true := by
  cases hc : (r.renamingApart taken).get? n with
  | none => rw [Substitution.resolve_of_unbound hb hc, Argument.isVariable, hb, Option.isSome_some]
  | some c =>
    obtain ⟨m, hm, -, -⟩ := (r.renamingApart_spec taken).1.fresh n c hc
    rw [resolve_renamingApart_of_bound hb hc, Argument.isVariable, hm, Option.isSome_some]

theorem isWildcard_resolve_renamingApart (r : Rule) (taken : List Text) (b : Argument) :
    ((r.renamingApart taken).resolve b).isWildcard = b.isWildcard := by
  cases hname : b.name? with
  | none => rw [Substitution.resolve_of_value hname]
  | some n =>
    obtain ⟨m, hm⟩ := Option.isSome_iff_exists.mp (isVariable_resolve_renamingApart r taken hname)
    rw [Argument.isWildcard_of_name? hm, Argument.isWildcard_of_name? hname]

/-- A variable that is none of the rule's named ones is left alone. -/
theorem resolve_renamingApart_of_not_mem {b : Argument} {n : Text} (hb : b.name? = some n)
    (hn : n ∉ r.namedVariables.keys) : (r.renamingApart taken).resolve b = b := by
  refine Substitution.resolve_of_unbound hb ?_
  cases hc : (r.renamingApart taken).get? n with
  | none => rfl
  | some c => exact absurd (((r.renamingApart_spec taken).2 n).mp (by rw [hc]; rfl)).1 hn

/-- A rule without clashes is left alone. -/
theorem renameApart_eq_self (h : ∀ n ∈ r.namedVariables.keys, n ∉ taken) :
    r.renameApart taken = r := by
  have hclashes : r.namedVariables.keys.filter taken.contains = [] := by
    refine List.filter_eq_nil_iff.mpr fun n hn => ?_
    rw [List.contains_iff_mem]
    exact h n hn
  rw [renameApart, renamingApart, hclashes, List.mergeSort_nil, freshRenaming, substitute,
    Tag.substituteAll_empty, Tag.substituteAll_empty]

end Rule
end TagReasoner
