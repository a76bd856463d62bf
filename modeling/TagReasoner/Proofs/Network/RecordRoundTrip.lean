import TagReasoner.Proofs.Collection.Keyed
import TagReasoner.Proofs.Number.Numeral
import TagReasoner.Proofs.Tag.Legibility
import TagReasoner.Network.Record

/-!
# Records read back

A node that was read from a record can be written as a record again, and the question is whether that
describes the same node. Weights never get in the way: whatever is written for one can be read. A
threshold does from a million on, where its display has an exponent, which no whole number has; and
tags do where their display does (`Tag.Legible`). Nothing else does (`record_reread_iff`).

An output that is read twice keeps its first place, so what is read back could have fewer outputs
than were written. It has not, if the tags read back equal those that were written, which are
distinct.
-/

namespace TagReasoner

open Text

/-- What a record says of a node is the same of both, but for the weights. -/
structure Node.SameRecord (m n : Node) : Prop where
  tag : (m.tag == n.tag) = true
  threshold : m.threshold = n.threshold
  outputs : List.Forall₂ (fun t u => (t == u) = true) m.outputs.keys n.outputs.keys

/-- The tokens of some outputs in a record. -/
def outputTokens (es : List (Tag × Binary64)) : List Text :=
  es.flatMap fun e => [e.1.text, e.2.general]

/-! ## Reading records -/

section Reading

variable {ε : Type} {refuse : ParseError → ε} {readTag : Text → Except ε Tag}

theorem readOutputsWith_eq_ok_iff {tag weight : Text} {rest : List Text}
    {m m' : Keyed Tag Binary64} :
    readOutputsWith refuse readTag (tag :: weight :: rest) m = .ok m' ↔
      ∃ w t, Number.realNumber? weight = some w ∧ readTag tag = .ok t ∧
        readOutputsWith refuse readTag rest (m.put t w) = .ok m' := by
  rw [readOutputsWith]
  constructor
  · intro h
    split at h
    next => cases h
    next w hw =>
      obtain ⟨t, ht, hrest⟩ := bind_eq_ok_iff.mp h
      exact ⟨w, t, hw, ht, hrest⟩
  · rintro ⟨w, t, hw, ht, h⟩
    rw [hw, ht]
    exact h

/-- Whatever holds of all tags that can be read holds of all outputs. -/
theorem forall_keys_of_readOutputsWith {P : Tag → Prop} (hP : ∀ s t, readTag s = .ok t → P t)
    {tokens : List Text} {m m' : Keyed Tag Binary64}
    (h : readOutputsWith refuse readTag tokens m = .ok m') (hm : ∀ t ∈ m.keys, P t) :
    ∀ t ∈ m'.keys, P t := by
  induction tokens, m using readOutputsWith.induct with
  | case1 tag weight rest m hw =>
    obtain ⟨w, t, hw', -⟩ := readOutputsWith_eq_ok_iff.mp h
    cases hw.symm.trans hw'
  | case2 tag weight rest m w hw ih =>
    obtain ⟨w', t, hw', ht, hrest⟩ := readOutputsWith_eq_ok_iff.mp h
    cases hw.symm.trans hw'
    refine ih t hrest ?_
    by_cases hcontains : m.contains t = true
    · rwa [Keyed.keys_put_of_contains hcontains]
    · rw [Keyed.keys_put_of_not_contains (Bool.eq_false_iff.mpr hcontains), List.forall_mem_append]
      exact ⟨hm, fun u hu => List.mem_singleton.mp hu ▸ hP tag t ht⟩
  | case3 tokens m hshort =>
    rw [readOutputsWith] at h
    · cases h
      exact hm
    · exact hshort

theorem Node.ofRecordWith_eq_ok_iff {s : Settings} {now : Binary64} {tokens : List Text}
    {n : Node} : Node.ofRecordWith refuse readTag s now tokens = .ok n ↔
      ∃ tag threshold outputs t z os,
        tokens.map strip = tag :: threshold :: outputs ∧ outputs.length % 2 ≠ 1 ∧
        readTag tag = .ok t ∧ Number.wholeNumber? threshold = some z ∧
        readOutputsWith refuse readTag outputs .empty = .ok os ∧
        n = Node.create t os z s.nodeStrength s.nodeMaxAge now := by
  rw [Node.ofRecordWith]
  constructor
  · intro h
    split at h
    next tag threshold outputs htokens =>
      split at h
      next => cases h
      next heven =>
        obtain ⟨t, ht, h⟩ := bind_eq_ok_iff.mp h
        split at h
        next => cases h
        next z hz =>
          obtain ⟨os, hos, h⟩ := bind_eq_ok_iff.mp h
          cases h
          exact ⟨tag, threshold, outputs, t, z, os, htokens, heven, ht, hz, hos, rfl⟩
    next => cases h
  · rintro ⟨tag, threshold, outputs, t, z, os, htokens, heven, ht, hz, hos, rfl⟩
    simp only [htokens, if_neg heven, ht, hz]
    exact bind_eq_ok_iff.mpr ⟨t, rfl, bind_eq_ok_iff.mpr ⟨os, hos, rfl⟩⟩

end Reading

/-- Reads the outputs of a record as `Node.ofRecord` does. -/
abbrev readOutputs : List Text → Keyed Tag Binary64 → Except ParseError (Keyed Tag Binary64) :=
  readOutputsWith id Tag.parse

theorem Node.ofRecord_eq_ok_iff {s : Settings} {now : Binary64} {tokens : List Text} {n : Node} :
    Node.ofRecord s now tokens = .ok n ↔ ∃ tag threshold outputs t z os,
      tokens.map strip = tag :: threshold :: outputs ∧ outputs.length % 2 ≠ 1 ∧
      Tag.parse tag = .ok t ∧ Number.wholeNumber? threshold = some z ∧
      readOutputs outputs .empty = .ok os ∧
      n = Node.create t os z s.nodeStrength s.nodeMaxAge now :=
  Node.ofRecordWith_eq_ok_iff

/-- What is read from a record consists of tags that were read. -/
theorem Node.taught_of_ofRecord {s : Settings} {now : Binary64} {tokens : List Text} {n : Node}
    (h : Node.ofRecord s now tokens = .ok n) : n.tag.Taught ∧ ∀ t ∈ n.outputs.keys, t.Taught := by
  obtain ⟨tag, threshold, outputs, t, z, os, -, -, ht, -, hos, rfl⟩ := Node.ofRecord_eq_ok_iff.mp h
  have hnone : ∀ t ∈ (Keyed.empty : Keyed Tag Binary64).keys, t.Taught := List.forall_mem_nil _
  exact ⟨.of_parse ht, forall_keys_of_readOutputsWith (fun _ _ => .of_parse) hos hnone⟩

/-! ## Outputs read back -/

theorem readOutputs_outputTokens_cons {e : Tag × Binary64} {es : List (Tag × Binary64)}
    {m m' : Keyed Tag Binary64} : readOutputs (outputTokens (e :: es)) m = .ok m' ↔
      ∃ w t, Number.realNumber? e.2.general = some w ∧ Tag.parse e.1.text = .ok t ∧
        readOutputs (outputTokens es) (m.put t w) = .ok m' :=
  readOutputsWith_eq_ok_iff

/-- The outputs that are read from what was written: the tags that the displays are read as, but for
those that came before. -/
theorem exists_keys_of_readOutputs {es : List (Tag × Binary64)} {m m' : Keyed Tag Binary64}
    (h : readOutputs (outputTokens es) m = .ok m') :
    ∃ ts, List.Forall₂ (fun e t => Tag.parse e.1.text = .ok t) es ts ∧
      ∃ new, m'.keys = m.keys ++ new ∧ new.Sublist ts := by
  induction es generalizing m with
  | nil =>
    cases h
    exact ⟨[], .nil, [], (List.append_nil _).symm, .slnil⟩
  | cons e es ih =>
    obtain ⟨w, t, -, ht, hrest⟩ := readOutputs_outputTokens_cons.mp h
    obtain ⟨ts, hts, new, hkeys, hnew⟩ := ih hrest
    refine ⟨t :: ts, .cons ht hts, ?_⟩
    by_cases hcontains : m.contains t = true
    · rw [Keyed.keys_put_of_contains hcontains] at hkeys
      exact ⟨new, hkeys, hnew.cons t⟩
    · rw [Keyed.keys_put_of_not_contains (Bool.eq_false_iff.mpr hcontains), List.append_assoc]
        at hkeys
      exact ⟨t :: new, hkeys, hnew.cons_cons t⟩

/-- Displays that are read as distinct new tags add just those. -/
theorem readOutputs_of_distinct {es : List (Tag × Binary64)} {ts : List Tag}
    (hts : List.Forall₂ (fun e t => Tag.parse e.1.text = .ok t) es ts)
    {m : Keyed Tag Binary64} (hdistinct : (m.keys ++ ts).Pairwise fun t u => (t == u) = false) :
    ∃ m', readOutputs (outputTokens es) m = .ok m' ∧ m'.keys = m.keys ++ ts := by
  induction hts generalizing m with
  | nil => exact ⟨m, rfl, (List.append_nil _).symm⟩
  | @cons e t es ts ht _ ih =>
    obtain ⟨w, hw⟩ := Option.isSome_iff_exists.mp (Number.isSome_realNumber?_general e.2)
    have hnew : m.contains t = false := by
      rw [Keyed.contains_eq_any_keys, List.any_eq_false]
      intro k hk
      exact Bool.eq_false_iff.mp
        ((List.pairwise_append.mp hdistinct).2.2 k hk t (List.mem_cons_self ..))
    have hkeys := Keyed.keys_put_of_not_contains hnew w
    rw [← List.singleton_append, ← List.append_assoc, ← hkeys] at hdistinct
    obtain ⟨m', hm', hm'keys⟩ := ih hdistinct
    refine ⟨m', readOutputs_outputTokens_cons.mpr ⟨w, t, hw, ht, hm'⟩, ?_⟩
    rw [hm'keys, hkeys, List.append_assoc, List.singleton_append]

/-- Outputs are read back if and only if each of their tags is. -/
theorem outputs_reread_iff {os : Keyed Tag Binary64} (htaught : ∀ t ∈ os.keys, t.Taught) :
    (∃ os', readOutputs (outputTokens os.entries) .empty = .ok os' ∧
      List.Forall₂ (fun t u => (t == u) = true) os'.keys os.keys) ↔ ∀ t ∈ os.keys, t.Legible := by
  constructor
  · rintro ⟨os', hos', hequal⟩ t ht
    obtain ⟨ts, hts, new, hkeys, hnew⟩ := exists_keys_of_readOutputs hos'
    rw [show os'.keys = new from hkeys] at hequal
    -- As many tags are left as were read, so none of them had come before.
    have hall : new = ts := by
      refine hnew.eq_of_length ?_
      rw [hequal.length_eq, ← hts.length_eq, Keyed.keys, List.length_map]
    rw [hall] at hequal
    have hparsed : List.Forall₂ (fun t u => Tag.parse t.text = .ok u) os.keys ts :=
      List.forall₂_map_left_iff.mpr hts
    have hreread : List.Forall₂ (fun t _ => ∃ g, Tag.parse t.text = .ok g ∧ (g == t) = true)
        os.keys ts := hparsed.mp (fun t u hu hut => ⟨u, hu, hut⟩) hequal.flip
    obtain ⟨-, -, hg⟩ := exists_mem_of_forall₂ hreread ht
    exact (htaught t ht).reread_iff.mp hg
  · intro hlegible
    obtain ⟨ts, hts⟩ := exists_forall₂ fun t (ht : t ∈ os.keys) =>
      (htaught t ht).reread_iff.mpr (hlegible t ht)
    have hparsed : List.Forall₂ (fun e t => Tag.parse e.1.text = .ok t) os.entries ts :=
      List.forall₂_map_left_iff.mp (hts.imp fun _ _ h => h.1)
    have hequal : List.Forall₂ (fun t u => (t == u) = true) ts os.keys :=
      (hts.imp fun _ _ h => h.2).flip
    obtain ⟨os', hos', hkeys⟩ := readOutputs_of_distinct hparsed (m := .empty)
      (pairwise_ne_of_forall₂ hequal os.keys_distinct)
    exact ⟨os', hos', hkeys ▸ hequal⟩

/-! ## Nodes read back -/

theorem Node.record_eq_ok_iff {n : Node} {tokens : List Text} : n.record = .ok tokens ↔
    ∃ x, Binary64.ofInt? n.threshold = some x ∧
      n.tag.text :: x.general :: outputTokens n.outputs.entries = tokens := by
  rw [Node.record, map_eq_ok_iff, Node.thresholdText]
  generalize Binary64.ofInt? n.threshold = threshold
  cases threshold with
  | none => simp
  | some x => simp [outputTokens]

/-- No token of a record needs trimming. -/
theorem map_strip_record {t : Tag} (ht : t.Taught) {os : Keyed Tag Binary64}
    (hos : ∀ u ∈ os.keys, u.Taught) (x : Binary64) :
    (t.text :: x.general :: outputTokens os.entries).map strip =
      t.text :: x.general :: outputTokens os.entries := by
  refine (List.map_congr_left fun token htoken => ?_).trans (List.map_id _)
  refine strip_eq_self ?_
  rcases List.mem_cons.mp htoken with rfl | htoken
  · exact ht.not_isBlank_text
  rcases List.mem_cons.mp htoken with rfl | htoken
  · exact x.not_isBlank_general
  obtain ⟨e, he, htoken⟩ := List.mem_flatMap.mp htoken
  rcases List.mem_pair.mp htoken with rfl | rfl
  · exact (hos e.1 (List.mem_map_of_mem he)).not_isBlank_text
  · exact e.2.not_isBlank_general

/-- The threshold is read back if and only if it has at most six digits. -/
theorem threshold_reread_iff {z : Int} : (∃ x, Binary64.ofInt? z = some x ∧
    Number.wholeNumber? x.general = some z) ↔ z.natAbs < 10 ^ 6 := by
  constructor
  · rintro ⟨x, hx, hread⟩
    by_contra hlarge
    have he := Binary64.mem_general_of_ofInt? (Nat.le_of_not_lt hlarge) hx
    rw [Number.wholeNumber?_of_mem he (by decide) (by decide) (by decide)] at hread
    cases hread
  · intro hsmall
    obtain ⟨x, hx, hgeneral⟩ := Binary64.general_of_ofInt? hsmall
    refine ⟨x, hx, ?_⟩
    rw [hgeneral]
    refine Number.wholeNumber?_ofInt ?_
    have hlog : Nat.log 10 z.natAbs < 6 := by
      by_cases hz : z.natAbs = 0
      · rw [hz]
        decide
      · exact Nat.log_lt_of_lt_pow hz hsmall
    rw [length_ofNat, Number.digitLimit]
    omega

/-- What is read from the record of a node. -/
theorem Node.ofRecord_record_iff {n n' : Node} (htag : n.tag.Taught)
    (houtputs : ∀ t ∈ n.outputs.keys, t.Taught) {s : Settings} {now : Binary64} :
    (∃ tokens, n.record = .ok tokens ∧ Node.ofRecord s now tokens = .ok n') ↔
      ∃ x t z os, Binary64.ofInt? n.threshold = some x ∧ Tag.parse n.tag.text = .ok t ∧
        Number.wholeNumber? x.general = some z ∧
        readOutputs (outputTokens n.outputs.entries) .empty = .ok os ∧
        n' = Node.create t os z s.nodeStrength s.nodeMaxAge now := by
  constructor
  · rintro ⟨tokens, hrecord, hread⟩
    obtain ⟨x, hx, rfl⟩ := Node.record_eq_ok_iff.mp hrecord
    obtain ⟨tag, threshold, outputs, t, z, os, htokens, -, ht, hz, hos, hn'⟩ :=
      Node.ofRecord_eq_ok_iff.mp hread
    rw [map_strip_record htag houtputs] at htokens
    cases htokens
    exact ⟨x, t, z, os, hx, ht, hz, hos, hn'⟩
  · rintro ⟨x, t, z, os, hx, ht, hz, hos, hn'⟩
    have heven : (outputTokens n.outputs.entries).length % 2 ≠ 1 := by
      have hlength : (outputTokens n.outputs.entries).length = n.outputs.entries.length * 2 := by
        rw [outputTokens, List.length_flatMap]
        simp
      omega
    exact ⟨_, Node.record_eq_ok_iff.mpr ⟨x, hx, rfl⟩, Node.ofRecord_eq_ok_iff.mpr
      ⟨_, _, _, t, z, os, map_strip_record htag houtputs x, heven, ht, hz, hos, hn'⟩⟩

/-- A node that was read from a record is read back from the record that it is written as, if and
only if its threshold has at most six digits and all its tags are legible. -/
theorem record_reread_iff {s s' : Settings} {now now' : Binary64} {tokens : List Text} {n : Node}
    (h : Node.ofRecord s now tokens = .ok n) :
    (∃ n', (∃ tokens', n.record = .ok tokens' ∧ Node.ofRecord s' now' tokens' = .ok n') ∧
      n'.SameRecord n) ↔
      n.threshold.natAbs < 10 ^ 6 ∧ n.tag.Legible ∧ ∀ t ∈ n.outputs.keys, t.Legible := by
  obtain ⟨htag, houtputs⟩ := Node.taught_of_ofRecord h
  rw [← threshold_reread_iff, ← htag.reread_iff, ← outputs_reread_iff houtputs]
  simp only [Node.ofRecord_record_iff htag houtputs]
  constructor
  · rintro ⟨n', ⟨x, t, z, os, hx, ht, hz, hos, rfl⟩, htag', hthreshold, hkeys⟩
    exact ⟨⟨x, hx, hz.trans (congrArg some hthreshold)⟩, ⟨t, ht, htag'⟩, os, hos, hkeys⟩
  · rintro ⟨⟨x, hx, hz⟩, ⟨t, ht, htag'⟩, os, hos, hkeys⟩
    exact ⟨_, ⟨x, t, n.threshold, os, hx, ht, hz, hos, rfl⟩, htag', rfl, hkeys⟩

/-- A rule, blanks around tokens, an output that comes twice, and weights without a fraction. -/
theorem record_reread_iff_rule :
    ∃ n, Node.ofRecord .standard (.zero false) (["P(?x)=>@go(a,b)", " -12", "Q(*)", "0.5", "@stop",
        "1e9", " Q(*) ", "nan"].map String.toList) = .ok n ∧
      ((∃ n', (∃ tokens', n.record = .ok tokens' ∧
          Node.ofRecord .standard (.zero false) tokens' = .ok n') ∧ n'.SameRecord n) ↔
        n.threshold.natAbs < 10 ^ 6 ∧ n.tag.Legible ∧ ∀ t ∈ n.outputs.keys, t.Legible) := by
  obtain ⟨n, hn⟩ := exists_eq_ok_of_isOk (x := Node.ofRecord .standard (.zero false)
    (["P(?x)=>@go(a,b)", " -12", "Q(*)", "0.5", "@stop", "1e9", " Q(*) ", "nan"].map String.toList))
    (by decide +kernel)
  exact ⟨n, hn, record_reread_iff hn⟩

/-- A threshold of a million is written as `1e+06`, which is no whole number. -/
theorem not_record_reread_million :
    ∃ n, Node.ofRecord .standard (.zero false) ["P(x)".toList, "1000000".toList] = .ok n ∧
      ¬ ∃ n', (∃ tokens', n.record = .ok tokens' ∧
        Node.ofRecord .standard (.zero false) tokens' = .ok n') ∧ n'.SameRecord n := by
  obtain ⟨n, hn⟩ := exists_eq_ok_of_isOk (x := Node.ofRecord .standard (.zero false)
    ["P(x)".toList, "1000000".toList]) (by decide +kernel)
  refine ⟨n, hn, ?_⟩
  obtain ⟨htag, houtputs⟩ := Node.taught_of_ofRecord hn
  have hmillion : n.threshold = 1000000 := by
    obtain ⟨tag, threshold, outputs, t, z, os, htokens, -, -, hz, -, rfl⟩ :=
      Node.ofRecord_eq_ok_iff.mp hn
    have hstrip : ["P(x)".toList, "1000000".toList].map strip =
        ["P(x)".toList, "1000000".toList] := by
      decide
    cases hstrip.symm.trans htokens
    have hread : Number.wholeNumber? "1000000".toList = some 1000000 := by decide +kernel
    exact Option.some.inj (hz.symm.trans hread)
  rintro ⟨n', hreread, hsame⟩
  obtain ⟨x, t, z, os, hx, -, hz, -, rfl⟩ :=
    (Node.ofRecord_record_iff htag houtputs).mp hreread
  have hsmall := threshold_reread_iff.mp ⟨x, hx, hz.trans (congrArg some hsame.threshold)⟩
  rw [hmillion] at hsmall
  exact absurd hsmall (by decide)

end TagReasoner
