import TagReasoner.Network.KnowledgeBase
import TagReasoner.Proofs.Binary64.Rounding
import Mathlib.Data.List.DropRight
import Mathlib.Data.List.Infix

/-!
# When a node fires

A node adds up the steps of its stimulations until it is reset. As long as the sum is small enough
for a double to hold it exactly, the three things that a node remembers are told by the levels since
the last reset (`Node.Tracks`): the activation is the sum of their steps, the node is activated if
there are any, and it has fired if there are any and the sum reaches the threshold. Each operation
keeps this up (`Tracks.perform`), and so does a sequence of them (`tracks_after`).

Steps are never negative, so sums only grow between resets, and the threshold is reached for the
first time once. That is when a node answers that it fires (`fires_once_at_threshold`), also where
the threshold is not positive and the first stimulation adds nothing.
-/

namespace TagReasoner

/-! ## Steps -/

/-- The place of a level on the activation curve; a level off the curve has the place at its end. -/
def curvePlace (level : Int) : Fin activationCurve.length :=
  ⟨(max 0 (min level (activationCurve.length - 1))).toNat, by
    have : activationCurve.length = 11 := rfl
    omega⟩

/-- What a stimulation adds: one without a level, and else what the curve has at its place. -/
def stimulationStep : Option Int → Nat
  | none => 1
  | some level => activationCurve.get (curvePlace level)

/-- The activation that stimulations by these levels make up. -/
def stimulationSum (levels : List (Option Int)) : Nat := (levels.map stimulationStep).sum

theorem stimulationSum_concat (levels : List (Option Int)) (level : Option Int) :
    stimulationSum (levels ++ [level]) = stimulationSum levels + stimulationStep level := by
  simp [stimulationSum]

theorem stimulationSum_le_of_prefix {ls levels : List (Option Int)} (h : ls <+: levels) :
    stimulationSum ls ≤ stimulationSum levels := by
  obtain ⟨rest, rfl⟩ := h
  simp [stimulationSum]

theorem getD_map_activationStep (level : Option Int) :
    (level.map activationStep).getD 1 = stimulationStep level := by
  cases level with
  | none => rfl
  | some level =>
    have hlength : activationCurve.length = 11 := rfl
    have hplace : (curvePlace level).val = min level.toNat (activationCurve.length - 1) := by
      show (max 0 (min level (activationCurve.length - 1))).toNat = _
      omega
    rw [Option.map_some, Option.getD_some, activationStep, ← hplace, stimulationStep,
      List.getD_eq_getElem?_getD, List.getElem?_eq_getElem (curvePlace level).isLt]
    rfl

/-! ## Operations on a node -/

namespace NodeOperation

def isReset : NodeOperation → Bool
  | reset => true
  | _ => false

/-- The level of a stimulation, which may have none. -/
def level? : NodeOperation → Option (Option Int)
  | stimulate level => some level
  | _ => none

end NodeOperation

/-- The levels of the stimulations since the last reset, among operations with their times. -/
def levelsSinceReset (ops : List (Binary64 × NodeOperation)) : List (Option Int) :=
  (ops.rtakeWhile fun op => !op.2.isReset).filterMap fun op => op.2.level?

theorem levelsSinceReset_concat (ops : List (Binary64 × NodeOperation)) (now : Binary64)
    (op : NodeOperation) : levelsSinceReset (ops ++ [(now, op)]) =
      if op.isReset then [] else levelsSinceReset ops ++ op.level?.toList := by
  rw [levelsSinceReset, List.rtakeWhile_concat]
  cases op.isReset with
  | true => rfl
  | false =>
    rw [Bool.not_false, if_pos rfl, List.filterMap_append]
    cases hlevel : op.level? <;> simp [levelsSinceReset, hlevel]

namespace Node

/-- The node that operations leave, each carried out at its time. -/
def after (n : Node) (ops : List (Binary64 × NodeOperation)) : Node :=
  ops.foldl (fun n op => (n.perform op.1 op.2).1) n

variable {n : Node} {levels : List (Option Int)} {ops : List (Binary64 × NodeOperation)}

theorem after_concat (n : Node) (ops : List (Binary64 × NodeOperation)) (now : Binary64)
    (op : NodeOperation) : n.after (ops ++ [(now, op)]) = ((n.after ops).perform now op).1 :=
  List.foldl_concat ..

theorem perform_updateBelief (n : Node) (now : Binary64) :
    (n.perform now .updateBelief).1 =
      if n.truths.size = 0 then n else { n with belief := n.meanTruth } := by
  rw [perform, updateBelief?]
  by_cases h : n.truths.size = 0
  · rw [if_pos h, if_pos h]
  · rw [if_neg h, if_neg h]

/-- Operations other than stimulations and resets do not touch what firing depends on. -/
theorem perform_of_level?_eq_none {op : NodeOperation} (hreset : op.isReset = false)
    (hlevel : op.level? = none) (n : Node) (now : Binary64) :
    (n.perform now op).1.activation = n.activation ∧
      (n.perform now op).1.activated = n.activated ∧ (n.perform now op).1.fired = n.fired := by
  cases op with
  | stimulate => cases hlevel
  | reset => cases hreset
  | addTruth | updateAge | isExpired | display | record => exact ⟨rfl, rfl, rfl⟩
  | updateBelief =>
    rw [perform_updateBelief]
    split <;> exact ⟨rfl, rfl, rfl⟩

theorem threshold_perform (n : Node) (now : Binary64) (op : NodeOperation) :
    (n.perform now op).1.threshold = n.threshold := by
  cases op with
  | updateBelief =>
    rw [perform_updateBelief]
    split <;> rfl
  | stimulate | reset | addTruth | updateAge | isExpired | display | record => rfl

theorem threshold_after (n : Node) (ops : List (Binary64 × NodeOperation)) :
    (n.after ops).threshold = n.threshold := by
  induction ops using List.reverseRecOn with
  | nil => rfl
  | append_singleton ops op ih => rw [after_concat, threshold_perform, ih]

/-! ## What a node remembers -/

/-- The node is as these stimulations since the last reset make it. -/
structure Tracks (n : Node) (levels : List (Option Int)) : Prop where
  activation : n.activation = .ofNat (stimulationSum levels)
  activated : n.activated = true ↔ levels ≠ []
  fired : n.fired = true ↔ levels ≠ [] ∧ n.threshold ≤ stimulationSum levels

theorem tracks_create (tag : Tag) (outputs : Keyed Tag Binary64) (threshold strength : Int)
    (maxAge now : Binary64) : (create tag outputs threshold strength maxAge now).Tracks [] where
  activation := by
    rw [stimulationSum, List.map_nil, List.sum_nil, Binary64.ofNat_of_lt (by decide)]
    simp only [create, Binary64.zero, Nat.zero_mul]
  activated := by simp [create]
  fired := by simp [create]

theorem tracks_reset (n : Node) : n.reset.Tracks [] :=
  let start := tracks_create n.tag n.outputs n.threshold n.strength n.maxAge n.createdAt
  ⟨start.activation, start.activated, start.fired⟩

namespace Tracks

variable {level : Option Int}

theorem activation_stimulate (h : n.Tracks levels)
    (hsmall : stimulationSum (levels ++ [level]) < 2 ^ 53) :
    (n.stimulate level).1.activation = .ofNat (stimulationSum (levels ++ [level])) := by
  rw [stimulationSum_concat] at hsmall ⊢
  show n.activation.add (.ofNat ((level.map activationStep).getD 1)) = _
  rw [getD_map_activationStep, h.activation, Binary64.add_ofNat hsmall]

/-- A node fires when it has not fired before and the sum reaches the threshold. -/
theorem fires_iff (h : n.Tracks levels) (hsmall : stimulationSum (levels ++ [level]) < 2 ^ 53) :
    (n.stimulate level).2 = true ↔
      n.fired = false ∧ n.threshold ≤ stimulationSum (levels ++ [level]) := by
  show (!n.fired && (n.stimulate level).1.activation.reaches n.threshold) = true ↔ _
  rw [h.activation_stimulate hsmall, Bool.and_eq_true, Bool.not_eq_true',
    Binary64.reaches_ofNat hsmall]

theorem stimulate (h : n.Tracks levels) (hsmall : stimulationSum (levels ++ [level]) < 2 ^ 53) :
    (n.stimulate level).1.Tracks (levels ++ [level]) where
  activation := h.activation_stimulate hsmall
  activated := iff_of_true rfl (List.concat_ne_nil level levels)
  fired := by
    have hgrow : stimulationSum levels ≤ stimulationSum (levels ++ [level]) :=
      stimulationSum_le_of_prefix (List.prefix_append ..)
    show (n.fired || (n.stimulate level).2) = true ↔
      _ ∧ n.threshold ≤ stimulationSum (levels ++ [level])
    rw [Bool.or_eq_true, h.fires_iff hsmall, and_iff_right (List.concat_ne_nil level levels)]
    cases hfired : n.fired with
    | true =>
      have := (h.fired.mp hfired).2
      simp only [true_or, true_iff]
      omega
    | false => simp

/-- An operation leaves the node as the levels since the last reset make it. -/
theorem perform {now : Binary64} {op : NodeOperation} (h : n.Tracks (levelsSinceReset ops))
    (hsmall : stimulationSum (levelsSinceReset (ops ++ [(now, op)])) < 2 ^ 53) :
    (n.perform now op).1.Tracks (levelsSinceReset (ops ++ [(now, op)])) := by
  rw [levelsSinceReset_concat] at hsmall ⊢
  cases hreset : op.isReset with
  | true =>
    cases op <;> cases hreset
    exact n.tracks_reset
  | false =>
    simp only [hreset, Bool.false_eq_true, if_false] at hsmall ⊢
    cases hlevel : op.level? with
    | some level =>
      cases op <;> cases hlevel
      exact h.stimulate hsmall
    | none =>
      obtain ⟨hactivation, hactivated, hfired⟩ := perform_of_level?_eq_none hreset hlevel n now
      rw [Option.toList_none, List.append_nil]
      constructor
      · rw [hactivation, h.activation]
      · rw [hactivated, h.activated]
      · rw [hfired, threshold_perform, h.fired]

/-- The node has not fired as long as the threshold was reached by none of the sums so far. -/
theorem fired_eq_false_iff (h : n.Tracks levels) : n.fired = false ↔
    ∀ ls, ls ≠ [] → ls <+: levels → stimulationSum ls < n.threshold := by
  rw [Bool.eq_false_iff, ne_eq, h.fired]
  constructor
  · intro hunfired ls hls hprefix
    have hle := stimulationSum_le_of_prefix hprefix
    have hlevels : levels ≠ [] := fun hnil => hls (List.prefix_nil.mp (hnil ▸ hprefix))
    by_contra hreached
    exact hunfired ⟨hlevels, by omega⟩
  · rintro hbelow ⟨hlevels, hreached⟩
    have := hbelow levels hlevels (List.prefix_refl levels)
    omega

end Tracks

/-- A new node is as the levels since the last reset make it, after any operations. -/
theorem tracks_after {tag : Tag} {outputs : Keyed Tag Binary64} {threshold strength : Int}
    {maxAge created : Binary64}
    (hsmall : ∀ done, done <+: ops → stimulationSum (levelsSinceReset done) < 2 ^ 53) :
    ((create tag outputs threshold strength maxAge created).after ops).Tracks
      (levelsSinceReset ops) := by
  induction ops using List.reverseRecOn with
  | nil => exact tracks_create ..
  | append_singleton ops op ih =>
    rw [after_concat]
    refine Tracks.perform (ih fun done hdone => ?_) (hsmall _ (List.prefix_refl _))
    exact hsmall done (hdone.trans (List.prefix_append ..))

/-- Between resets a node fires once, when the sum of the steps reaches the threshold for the first
time, and then and only then the stimulation answers that it does. After any operations, as long as
the sums stay exact, the activation is the sum since the last reset, the node is activated if it was
stimulated since, and it has fired if in addition that sum reaches the threshold. -/
theorem fires_once_at_threshold (tag : Tag) (outputs : Keyed Tag Binary64)
    (threshold strength : Int) (maxAge created : Binary64) (ops : List (Binary64 × NodeOperation))
    (hsmall : ∀ done, done <+: ops → stimulationSum (levelsSinceReset done) < 2 ^ 53) :
    let start := create tag outputs threshold strength maxAge created
    (∀ done, done <+: ops →
      (start.after done).activation = .ofNat (stimulationSum (levelsSinceReset done)) ∧
        ((start.after done).activated = true ↔ levelsSinceReset done ≠ []) ∧
        ((start.after done).fired = true ↔ levelsSinceReset done ≠ [] ∧
          threshold ≤ stimulationSum (levelsSinceReset done))) ∧
      ∀ done now level, done ++ [(now, .stimulate level)] <+: ops →
        ∃ fires, ((start.after done).perform now (.stimulate level)).2 = .ok (.flag fires) ∧
          (fires = true ↔
            threshold ≤ stimulationSum (levelsSinceReset (done ++ [(now, .stimulate level)])) ∧
              ∀ ls, ls ≠ [] → ls <+: levelsSinceReset done → stimulationSum ls < threshold) := by
  intro start
  have htracks : ∀ done, done <+: ops → (start.after done).Tracks (levelsSinceReset done) :=
    fun done hdone => tracks_after fun part hpart => hsmall part (hpart.trans hdone)
  have hthreshold : ∀ done, (start.after done).threshold = threshold := start.threshold_after
  constructor
  · intro done hdone
    obtain ⟨hactivation, hactivated, hfired⟩ := htracks done hdone
    rw [hthreshold] at hfired
    exact ⟨hactivation, hactivated, hfired⟩
  · intro done now level hdone
    have h := htracks done ((List.prefix_append ..).trans hdone)
    have hsum := hsmall _ hdone
    refine ⟨((start.after done).stimulate level).2, rfl, ?_⟩
    rw [levelsSinceReset_concat] at hsum ⊢
    rw [h.fires_iff hsum, h.fired_eq_false_iff, hthreshold, and_comm]
    rfl

/-- The threshold is reached by the third stimulation, a level below the curve having added nothing,
and after the reset by the next one, at a level above the curve. -/
theorem fires_once_at_threshold_after_reset :
    let now := Binary64.ofNat 1000
    let ops : List (Binary64 × NodeOperation) := [(now, .stimulate none),
      (now, .stimulate (some (-3))), (now, .updateBelief), (now, .stimulate (some 2)),
      (now, .stimulate none), (now, .reset), (now, .stimulate (some 42))]
    let start := create (.fact ⟨['P'], [], .certain⟩) .empty 6 1 (.ofNat 60) now
    (ops.inits.map fun done => (start.after done).fired) =
        [false, false, false, false, true, true, false, true] ∧
      (∀ done, done <+: ops → stimulationSum (levelsSinceReset done) < 2 ^ 53) ∧
      (∀ done, done <+: ops →
        (start.after done).activation = .ofNat (stimulationSum (levelsSinceReset done)) ∧
          ((start.after done).activated = true ↔ levelsSinceReset done ≠ []) ∧
          ((start.after done).fired = true ↔ levelsSinceReset done ≠ [] ∧
            6 ≤ (stimulationSum (levelsSinceReset done) : Int))) ∧
      ∀ done now level, done ++ [(now, .stimulate level)] <+: ops →
        ∃ fires, ((start.after done).perform now (.stimulate level)).2 = .ok (.flag fires) ∧
          (fires = true ↔
            6 ≤ (stimulationSum (levelsSinceReset (done ++ [(now, .stimulate level)])) : Int) ∧
              ∀ ls, ls ≠ [] → ls <+: levelsSinceReset done → (stimulationSum ls : Int) < 6) := by
  intro now ops start
  have hinits : ∀ done ∈ ops.inits, stimulationSum (levelsSinceReset done) < 2 ^ 53 := by
    decide +kernel
  have hsmall : ∀ done, done <+: ops → stimulationSum (levelsSinceReset done) < 2 ^ 53 :=
    fun done hdone => hinits done (List.mem_inits done ops |>.mpr hdone)
  exact ⟨by decide +kernel, hsmall, fires_once_at_threshold _ _ 6 1 (.ofNat 60) now ops hsmall⟩

end Node

end TagReasoner
