import TagReasoner.Proofs.Tag.RoundTrip
import TagReasoner.Tag.Sentence

/-!
# When the display of a tag is read as the tag

Facts and recommendations are read back from their display whatever they hold. A rule may have been
read from its arrow form or from a sentence, and its display is the arrow form; what it is read as
then turns on four things:

* the kind is guessed by the first character, so a recommendation must not come first;
* the first arrow separates the sides, so no recommendation on the left may hold one;
* a list is cut at its top-level commas, so each recommendation has to be *closed*: its parentheses
  are in pairs and its commas inside them. Facts are closed by their grammar;
* a list that looks bracketed loses what looks like its brackets.

`Rule.Legible` collects them. A legible rule is read back as it is; any other rule is not read back
at all, or as another tag (`Tag.Taught.reread_iff`).
-/

namespace TagReasoner

open Text

/-! ## Closed texts -/

/-- Behind `depth` open parentheses the text closes them all and has no comma outside. -/
def ClosedAt (depth : Nat) (t : Text) : Prop := topLevelPieces? depth t = some [t]

theorem closedAt_cons {depth : Nat} {c : Char} {t : Text} (hopen : c ≠ '(') (hclose : c ≠ ')')
    (hcomma : c = ',' → depth ≠ 0) (h : ClosedAt depth t) : ClosedAt depth (c :: t) := by
  rw [ClosedAt, topLevelPieces?_cons_of_ne hopen hclose hcomma, h]
  rfl

theorem closedAt_append {depth : Nat} {s t : Text}
    (hs : ∀ c ∈ s, c ≠ '(' ∧ c ≠ ')' ∧ (c = ',' → depth ≠ 0)) (h : ClosedAt depth t) :
    ClosedAt depth (s ++ t) := by
  induction s with
  | nil => exact h
  | cons c s ih =>
    obtain ⟨⟨hopen, hclose, hcomma⟩, hs⟩ := List.forall_mem_cons.mp hs
    exact closedAt_cons hopen hclose hcomma (ih hs)

theorem closedAt_open {depth : Nat} {t : Text} (h : ClosedAt (depth + 1) t) :
    ClosedAt depth ('(' :: t) := by
  rw [ClosedAt, topLevelPieces?, h]
  rfl

theorem closedAt_close {depth : Nat} {t : Text} (h : ClosedAt depth t) :
    ClosedAt (depth + 1) (')' :: t) := by
  rw [ClosedAt, topLevelPieces?, h]
  rfl

/-- Between the name and the end of a fact its parentheses hold everything. -/
theorem Fact.closedAt {t : Text} {confidence : Confidence} {f : Fact}
    (h : Fact.parse t confidence = .ok f) : ClosedAt 0 t := by
  rw [Fact.parse] at h
  cases hparts : Fact.parts? t with
  | none =>
    rw [hparts] at h
    cases h
  | some parts =>
    obtain ⟨rfl, -, hname, hbody⟩ := Fact.parts?_eq_some_iff.mp hparts
    have hinner : ClosedAt 1 (parts.2 ++ [')']) := by
      refine closedAt_append (fun c hc => ?_) (closedAt_close rfl)
      have hc := hbody c hc
      simp only [isBodyChar, Bool.not_eq_true', Bool.or_eq_false_iff, decide_eq_false_iff_not] at hc
      exact ⟨hc.1, hc.2, fun _ => Nat.one_ne_zero⟩
    refine closedAt_append (fun c hc => ?_) (closedAt_open hinner)
    have hc := hname c hc
    simp only [isNameChar, Bool.not_eq_true', Bool.or_eq_false_iff, decide_eq_false_iff_not] at hc
    exact ⟨hc.1.1.1, hc.1.1.2, fun hcomma => absurd hcomma hc.1.2⟩

theorem exists_of_map_consPiece {depth : Nat} {c : Char} {t p : Text} {ps : List Text}
    (h : (topLevelPieces? depth t).map (consPiece c) = some (p :: ps)) :
    ∃ q, topLevelPieces? depth t = some (q :: ps) ∧ p = c :: q := by
  obtain ⟨qs, hqs, hp⟩ := Option.map_eq_some_iff.mp h
  cases qs with
  | nil => exact absurd rfl (topLevelPieces?_ne_nil hqs)
  | cons q qs =>
    cases hp
    exact ⟨q, hqs, rfl⟩

/-- The pieces that a text is cut into are closed; the first one closes what is open in front of
the text. -/
theorem closedAt_of_topLevelPieces? {depth : Nat} {t p : Text} {ps : List Text}
    (h : topLevelPieces? depth t = some (p :: ps)) :
    ClosedAt depth p ∧ ∀ q ∈ ps, ClosedAt 0 q := by
  fun_induction topLevelPieces? depth t generalizing p ps with
  | case1 =>
    cases h
    exact ⟨rfl, fun q hq => by cases hq⟩
  | case2 | case4 => cases h
  | case3 depth r ih =>
    obtain ⟨q, hqs, rfl⟩ := exists_of_map_consPiece h
    exact (ih hqs).imp_left closedAt_open
  | case5 depth r ih =>
    obtain ⟨q, hqs, rfl⟩ := exists_of_map_consPiece h
    exact (ih hqs).imp_left closedAt_close
  | case6 r ih =>
    obtain ⟨qs, hqs, hp⟩ := Option.map_eq_some_iff.mp h
    cases hp
    obtain ⟨q, qs, rfl⟩ := List.exists_cons_of_ne_nil (topLevelPieces?_ne_nil hqs)
    exact ⟨rfl, List.forall_mem_cons.mpr (ih hqs)⟩
  | case7 depth c r hopen hclose hclose' hcomma ih =>
    obtain ⟨q, hqs, rfl⟩ := exists_of_map_consPiece h
    have hc : c ≠ ')' := by
      intro hc
      cases depth with
      | zero => exact hclose rfl hc
      | succ depth => exact hclose' depth rfl hc
    exact (ih hqs).imp_left (closedAt_cons hopen hc fun h hdepth => hcomma hdepth h)

/-- Behind a closed text, a comma ends a piece. -/
theorem topLevelPieces?_append_comma {depth : Nat} {p : Text} (h : ClosedAt depth p) (t : Text) :
    topLevelPieces? depth (p ++ ',' :: t) = (topLevelPieces? 0 t).map (p :: ·) := by
  rw [ClosedAt] at h
  fun_induction topLevelPieces? depth p with
  | case1 => rfl
  | case2 | case4 => cases h
  | case6 r ih =>
    obtain ⟨qs, hqs, hp⟩ := Option.map_eq_some_iff.mp h
    cases hp
  | case3 depth r ih =>
    obtain ⟨q, hqs, hq⟩ := exists_of_map_consPiece h
    cases hq
    rw [List.cons_append, topLevelPieces?, ih hqs, Option.map_map]
    rfl
  | case5 depth r ih =>
    obtain ⟨q, hqs, hq⟩ := exists_of_map_consPiece h
    cases hq
    rw [List.cons_append, topLevelPieces?, ih hqs, Option.map_map]
    rfl
  | case7 depth c r hopen hclose hclose' hcomma ih =>
    obtain ⟨q, hqs, hq⟩ := exists_of_map_consPiece h
    cases hq
    have hc : c ≠ ')' := by
      intro hc
      cases depth with
      | zero => exact hclose rfl hc
      | succ depth => exact hclose' depth rfl hc
    rw [List.cons_append, topLevelPieces?_cons_of_ne hopen hc fun h hdepth => hcomma hdepth h,
      ih hqs, Option.map_map]
    rfl

/-- Closed texts are cut where they were joined. -/
theorem topLevelPieces?_join {ps : List Text} (hps : ps ≠ []) (h : ∀ p ∈ ps, ClosedAt 0 p) :
    topLevelPieces? 0 (join [','] ps) = some ps := by
  induction ps with
  | nil => exact absurd rfl hps
  | cons p ps ih =>
    obtain ⟨hp, hrest⟩ := List.forall_mem_cons.mp h
    by_cases hnil : ps = []
    · subst hnil
      exact hp
    · rw [join_cons hnil, List.append_assoc, List.singleton_append, topLevelPieces?_append_comma hp,
        ih hnil hrest]
      rfl

/-! ## Kinds -/

theorem TagKind.ofText?_eq_fact_iff {t : Text} : TagKind.ofText? t = some .fact ↔
    t.head? ≠ some '@' ∧ splitArrow? t = none ∧ looksLikeFact t = true := by
  rw [TagKind.ofText?]
  by_cases hhead : t.head? = some '@'
  · simp [hhead]
  · cases harrow : splitArrow? t <;> simp [hhead]

theorem TagKind.ofText?_eq_rule_iff {t : Text} : TagKind.ofText? t = some .rule ↔
    t.head? ≠ some '@' ∧ (splitArrow? t).isSome = true := by
  rw [TagKind.ofText?]
  by_cases hhead : t.head? = some '@'
  · simp [hhead]
  · cases harrow : splitArrow? t with
    | none => simp [hhead]
    | some sides => simp [hhead]

/-- A text is read as a tag of the kind that it shows. -/
theorem Tag.parse_eq_ok {s : Text} {t : Tag} (h : Tag.parse s = .ok t) :
    (∃ f, t = .fact f ∧ TagKind.ofText? (strip s) = some .fact ∧
      Fact.parse (strip s) .certain = .ok f) ∨
    (∃ c, t = .recommendation c ∧ TagKind.ofText? (strip s) = some .recommendation ∧
      Recommendation.parse (strip s) = .ok c) ∨
    ∃ r, t = r.toTag ∧ TagKind.ofText? (strip s) = some .rule ∧ Rule.parse (strip s) = .ok r := by
  rw [parse] at h
  cases hkind : TagKind.ofText? (strip s) with
  | none =>
    simp only [hkind] at h
    cases h
  | some kind =>
    simp only [hkind] at h
    cases kind with
    | fact =>
      obtain ⟨f, hf, rfl⟩ := map_eq_ok_iff.mp h
      exact .inl ⟨f, rfl, rfl, hf⟩
    | recommendation =>
      obtain ⟨c, hc, rfl⟩ := map_eq_ok_iff.mp h
      exact .inr (.inl ⟨c, rfl, rfl, hc⟩)
    | rule =>
      obtain ⟨r, hr, rfl⟩ := map_eq_ok_iff.mp h
      exact .inr (.inr ⟨r, rfl, rfl, hr⟩)

/-! ## Tags in lists -/

/-- The tag is what some text is read as in a list. -/
def Tag.IsItem (t : Tag) : Prop := ∃ onRule item, Tag.parseSimple onRule item = .ok t

theorem Tag.parse_of_parseSimple {onRule : Text → ParseError} {s : Text} {t : Tag}
    (h : Tag.parseSimple onRule s = .ok t) : Tag.parse s = .ok t := by
  rw [parseSimple] at h
  rw [parse]
  cases hkind : TagKind.ofText? (strip s) with
  | none =>
    simp only [hkind] at h
    cases h
  | some kind =>
    simp only [hkind] at h ⊢
    cases kind with
    | rule => cases h
    | fact | recommendation => exact h

/-- A text that is not read as a rule is read the same in a list. -/
theorem Tag.isItem_or_rule {s : Text} {t : Tag} (h : Tag.parse s = .ok t) :
    t.IsItem ∨ ∃ r, t = r.toTag ∧ Rule.parse (strip s) = .ok r := by
  have hitem : ∀ kind, TagKind.ofText? (strip s) = some kind → Tag.parseAs kind (strip s) = .ok t →
      kind ≠ .rule → t.IsItem := by
    intro kind hkind hread hrule
    refine ⟨fun _ => .malformed .tag s, s, ?_⟩
    rw [parseSimple]
    cases kind with
    | rule => exact absurd rfl hrule
    | fact | recommendation =>
      simp only [hkind]
      exact hread
  rcases Tag.parse_eq_ok h with ⟨f, rfl, hkind, hf⟩ | ⟨c, rfl, hkind, hc⟩ | ⟨r, rfl, -, hr⟩
  · exact .inl (hitem .fact hkind (map_eq_ok_iff.mpr ⟨f, hf, rfl⟩) (by simp))
  · exact .inl (hitem .recommendation hkind (map_eq_ok_iff.mpr ⟨c, hc, rfl⟩) (by simp))
  · exact .inr ⟨r, rfl, hr⟩

namespace Tag.IsItem

variable {t : Tag}

theorem parse_text (h : t.IsItem) : Tag.parse t.text = .ok t := by
  obtain ⟨onRule, item, h⟩ := h
  exact parse_of_parseSimple (parseSimple_text h onRule)

theorem not_isBlank (h : t.IsItem) : ∀ c ∈ t.text, isBlank c = false := by
  obtain ⟨onRule, item, h⟩ := h
  exact (not_isBlank_of_parseSimple h).2

theorem text_ne_nil (h : t.IsItem) : t.text ≠ [] := by
  obtain ⟨onRule, item, h⟩ := h
  exact (not_isBlank_of_parseSimple h).1

theorem fact_or_recommendation (h : t.IsItem) :
    (∃ f, t = .fact f) ∨ ∃ c, t = .recommendation c := by
  obtain ⟨onRule, item, h⟩ := h
  rcases parseSimple_eq_ok h with ⟨c, rfl, -⟩ | ⟨f, rfl, -⟩
  · exact .inr ⟨c, rfl⟩
  · exact .inl ⟨f, rfl⟩

/-- The text of a fact shows that it is one. -/
theorem text_fact {f : Fact} (h : (Tag.fact f).IsItem) :
    f.text.head? ≠ some '@' ∧ splitArrow? f.text = none ∧ ClosedAt 0 f.text := by
  have hstrip : strip f.text = f.text := strip_eq_self h.not_isBlank
  rcases Tag.parse_eq_ok h.parse_text with ⟨f', -, hkind, hf⟩ | ⟨c, hc, -⟩ | ⟨r, hr, -⟩
  · rw [show (Tag.fact f).text = f.text from rfl, hstrip] at hkind hf
    obtain ⟨hhead, harrow, -⟩ := TagKind.ofText?_eq_fact_iff.mp hkind
    exact ⟨hhead, harrow, Fact.closedAt hf⟩
  · cases hc
  · cases hr

end Tag.IsItem

/-! ## Lists read back -/

/-- The list is read back from its display: it does not look bracketed, and its recommendations are
closed. -/
structure Tag.ListLegible (ts : List Tag) : Prop where
  not_bracketed : ¬ Bracketed ts
  closed : ∀ c, .recommendation c ∈ ts → ClosedAt 0 c.text

namespace Tag

variable {ts us : List Tag}

theorem not_isBlank_display (hitems : ∀ t ∈ ts, t.IsItem) :
    ∀ c ∈ join [','] (texts ts), isBlank c = false := by
  intro c hc
  rcases mem_join hc with rfl | ⟨p, hp, hc⟩
  · decide
  · rw [texts_eq_map] at hp
    obtain ⟨t, ht, rfl⟩ := List.mem_map.mp hp
    exact (hitems t ht).not_isBlank c hc

/-- In brackets, the display of closed tags is read as these tags. -/
theorem listRead_bracketed (hts : ts ≠ []) (hitems : ∀ t ∈ ts, t.IsItem)
    (hclosed : ∀ c, .recommendation c ∈ ts → ClosedAt 0 c.text) (onRule : Text → ParseError) :
    ListRead onRule ('[' :: (join [','] (texts ts) ++ [']'])) ts := by
  have hblank : ∀ c ∈ '[' :: (join [','] (texts ts) ++ [']']), isBlank c = false := by
    intro c hc
    rw [List.mem_cons, List.mem_append, List.mem_singleton] at hc
    rcases hc with rfl | hc | rfl
    · decide
    · exact not_isBlank_display hitems c hc
    · decide
  have hpieces : ∀ p ∈ texts ts, ClosedAt 0 p := by
    intro p hp
    rw [texts_eq_map] at hp
    obtain ⟨t, ht, rfl⟩ := List.mem_map.mp hp
    rcases (hitems t ht).fact_or_recommendation with ⟨f, rfl⟩ | ⟨c, rfl⟩
    · exact (hitems _ ht).text_fact.2.2
    · exact hclosed c ht
  refine ListRead.iff_pieces.mpr ⟨texts ts, ?_, fun p hp => ?_, ?_⟩
  · rw [strip_eq_self hblank, unbracketed_bracketed]
    exact topLevelPieces?_join (by rw [texts_eq_map]; simpa using hts) hpieces
  · rw [texts_eq_map] at hp
    obtain ⟨t, ht, rfl⟩ := List.mem_map.mp hp
    obtain ⟨onRule', item, hitem⟩ := hitems t ht
    obtain ⟨hne, hblank⟩ := not_isBlank_of_parseSimple hitem
    rw [← Bool.not_eq_true, ← strip_eq_nil_iff, strip_eq_self hblank]
    exact hne
  · rw [texts_eq_map, List.forall₂_map_left_iff, List.forall₂_same]
    intro t ht
    obtain ⟨onRule', item, hitem⟩ := hitems t ht
    rw [strip_eq_self (not_isBlank_of_parseSimple hitem).2]
    exact parseSimple_text hitem onRule

/-- Tags that were read in a list are closed. -/
theorem ListRead.closed {onRule : Text → ParseError} {side : Text} (h : ListRead onRule side ts) :
    ∀ t ∈ ts, ClosedAt 0 t.text := by
  intro t ht
  have hpieces := h.display.2
  have htext : t.text ∈ texts ts := by
    rw [texts_eq_map]
    exact List.mem_map_of_mem ht
  obtain ⟨p, ps, hps⟩ := List.exists_cons_of_ne_nil (List.ne_nil_of_mem htext)
  rw [hps] at hpieces htext
  exact List.forall_mem_cons.mpr (closedAt_of_topLevelPieces? hpieces) t.text htext

/-- A list of tags is read back from its display, as equal tags, just when it is legible. -/
theorem reread_iff_listLegible (hts : ts ≠ []) (hitems : ∀ t ∈ ts, t.IsItem)
    (onRule : Text → ParseError) :
    (∃ us, ListRead onRule (join [','] (texts ts)) us ∧
      List.Forall₂ (fun u t => (u == t) = true) us ts) ↔ ListLegible ts := by
  constructor
  · rintro ⟨us, hread, hequal⟩
    have hclosed : ∀ c, .recommendation c ∈ ts → ClosedAt 0 c.text := by
      intro c hc
      obtain ⟨u, hu, huc⟩ := exists_mem_of_forall₂ hequal.flip hc
      cases u with
      | fact | rule | foreign => cases huc
      | recommendation d =>
        rw [← eq_of_beq (show (d == c) = true from huc)]
        exact hread.closed _ hu
    refine ⟨fun hbracketed => ?_, hclosed⟩
    exact (listRead_bracketed hts hitems hclosed onRule).not_reread hbracketed hread hequal
  · rintro ⟨hbracketed, hclosed⟩
    have hread := (listRead_bracketed hts hitems hclosed onRule).reread hbracketed onRule
    exact ⟨ts, hread, List.forall₂_same.mpr fun t _ => BEq.refl t⟩

end Tag

/-! ## Rules read back -/

/-- A rule that is read back from its display. -/
structure Rule.Legible (r : Rule) : Prop where
  fact_first : ∃ f, r.inputs.head? = some (.fact f)
  arrowless : ∀ c, .recommendation c ∈ r.inputs → splitArrow? c.text = none
  inputs : Tag.ListLegible r.inputs
  outputs : Tag.ListLegible r.outputs

/-- A tag that is read back from its display: every fact and recommendation is. -/
def Tag.Legible (t : Tag) : Prop := ∀ r, t.asRule? = some r → r.Legible

/-- A tag that can be taught: what stands in lists, and a rule between two such lists. -/
inductive Tag.Taught : Tag → Prop
  | item {t : Tag} (h : t.IsItem) : Taught t
  | rule {inputs outputs : List Tag} (inputs_ne_nil : inputs ≠ []) (outputs_ne_nil : outputs ≠ [])
      (inputs_isItem : ∀ t ∈ inputs, t.IsItem) (outputs_isItem : ∀ t ∈ outputs, t.IsItem) :
      Taught (.rule inputs outputs)

namespace Rule

variable {inputs outputs : List Tag}

/-- Nothing is taken for an arrow in front of the one that separates the sides, unless it is in a
recommendation. -/
theorem splitArrow?_text (hitems : ∀ t ∈ inputs, t.IsItem)
    (harrowless : ∀ c, .recommendation c ∈ inputs → splitArrow? c.text = none)
    (outputs : List Tag) : splitArrow? (Tag.rule inputs outputs).text =
      some (join [','] (Tag.texts inputs), join [','] (Tag.texts outputs)) := by
  refine splitArrow?_arrow (splitArrow?_join fun p hp => ?_) _
  rw [Tag.texts_eq_map] at hp
  obtain ⟨t, ht, rfl⟩ := List.mem_map.mp hp
  rcases (hitems t ht).fact_or_recommendation with ⟨f, rfl⟩ | ⟨c, rfl⟩
  · exact (hitems _ ht).text_fact.2.1
  · exact harrowless c ht

/-- Only the inputs in front of the first arrow are read as inputs. -/
theorem arrowless_of_reparse {r : Rule} (h : Rule.parse (Tag.rule inputs outputs).text = .ok r)
    (hequal : List.Forall₂ (fun u t => (u == t) = true) r.inputs inputs) :
    ∀ c, .recommendation c ∈ inputs → splitArrow? c.text = none := by
  obtain ⟨before, after, hsplit, hinputs, -⟩ := Rule.parseWith_eq_ok_iff.mp h
  intro c hc
  obtain ⟨u, hu, huc⟩ := exists_mem_of_forall₂ hequal.flip hc
  cases u with
  | fact | rule | foreign => cases huc
  | recommendation d =>
    rw [← eq_of_beq (show (d == c) = true from huc)]
    exact splitArrow?_of_isInfix (splitArrow?_eq_some hsplit).1 (hinputs.isInfix_text hu)

theorem not_isBlank_text (hinputs : ∀ t ∈ inputs, t.IsItem) (houtputs : ∀ t ∈ outputs, t.IsItem) :
    ∀ c ∈ (Tag.rule inputs outputs).text, isBlank c = false := by
  intro c hc
  rw [Tag.text, List.mem_append, List.mem_cons, List.mem_cons] at hc
  rcases hc with hc | rfl | rfl | hc
  · exact Tag.not_isBlank_display hinputs c hc
  · decide
  · decide
  · exact Tag.not_isBlank_display houtputs c hc

/-- The display of a rule does not look like a recommendation if a fact comes first. -/
theorem head?_text_ne_iff (hne : inputs ≠ []) (hinputs : ∀ t ∈ inputs, t.IsItem) :
    (Tag.rule inputs outputs).text.head? ≠ some '@' ↔ ∃ f, inputs.head? = some (.fact f) := by
  obtain ⟨t, ts, rfl⟩ := List.exists_cons_of_ne_nil hne
  have hitem := hinputs t (List.mem_cons_self ..)
  have hdisplay : join [','] (Tag.texts (t :: ts)) ≠ [] := by
    obtain ⟨rest, hrest⟩ := isPrefix_join [','] t.text (Tag.texts ts)
    rw [Tag.texts, ← hrest]
    exact List.append_ne_nil_of_left_ne_nil hitem.text_ne_nil rest
  rw [Tag.text, List.head?_append_of_ne_nil _ hdisplay, Tag.texts, head?_join hitem.text_ne_nil]
  rcases hitem.fact_or_recommendation with ⟨f, rfl⟩ | ⟨c, rfl⟩
  · exact iff_of_true hitem.text_fact.1 ⟨f, rfl⟩
  · obtain ⟨name, htext, -⟩ := c.text_eq_cons
    rw [Tag.text, htext]
    simp

end Rule

/-! ## Taught tags -/

namespace Tag.Taught

theorem of_parse {s : Text} {g : Tag} (h : Tag.parse s = .ok g) : g.Taught := by
  rcases isItem_or_rule h with hitem | ⟨r, rfl, hr⟩
  · exact .item hitem
  · obtain ⟨before, after, -, hinputs, houtputs⟩ := Rule.parseWith_eq_ok_iff.mp hr
    refine .rule hinputs.ne_nil houtputs.ne_nil (fun t ht => ?_) fun t ht => ?_
    · obtain ⟨item, hitem⟩ := hinputs.exists_parseSimple ht
      exact ⟨_, item, hitem⟩
    · obtain ⟨item, hitem⟩ := houtputs.exists_parseSimple ht
      exact ⟨_, item, hitem⟩

theorem not_isBlank_text {g : Tag} (h : g.Taught) : ∀ c ∈ g.text, isBlank c = false := by
  cases h with
  | item hitem => exact hitem.not_isBlank
  | rule _ _ hi ho => exact Rule.not_isBlank_text hi ho

/-- A taught tag is read back from its display, as an equal tag, if and only if it is legible. -/
theorem reread_iff {g : Tag} (h : g.Taught) :
    (∃ g', Tag.parse g.text = .ok g' ∧ (g' == g) = true) ↔ g.Legible := by
  cases h with
  | item hitem =>
    refine iff_of_true ⟨g, hitem.parse_text, BEq.refl g⟩ fun r hr => ?_
    rcases hitem.fact_or_recommendation with ⟨f, rfl⟩ | ⟨c, rfl⟩ <;> cases hr
  | @rule inputs outputs hine hone hi ho =>
    have hstrip := strip_eq_self (Rule.not_isBlank_text hi ho)
    constructor
    · rintro ⟨g', hparse, hequal⟩ r hr
      cases hr
      rcases Tag.parse_eq_ok hparse with ⟨f, rfl, -⟩ | ⟨c, rfl, -⟩ | ⟨r', rfl, hkind, hr'⟩
      · cases hequal
      · cases hequal
      · rw [hstrip] at hkind hr'
        obtain ⟨hei, heo⟩ := Rule.beq_iff.mp (show (r' == ⟨inputs, outputs⟩) = true from hequal)
        have harrowless := Rule.arrowless_of_reparse hr' hei
        obtain ⟨before, after, hsplit, hri, hro⟩ := Rule.parseWith_eq_ok_iff.mp hr'
        rw [Rule.splitArrow?_text hi harrowless] at hsplit
        cases hsplit
        exact ⟨(Rule.head?_text_ne_iff hine hi).mp (TagKind.ofText?_eq_rule_iff.mp hkind).1,
          harrowless, (reread_iff_listLegible hine hi _).mp ⟨_, hri, hei⟩,
          (reread_iff_listLegible hone ho _).mp ⟨_, hro, heo⟩⟩
    · intro hlegible
      obtain ⟨hfirst, harrowless, hli, hlo⟩ := hlegible ⟨inputs, outputs⟩ rfl
      have hsplit := Rule.splitArrow?_text hi harrowless outputs
      have hkind : TagKind.ofText? (Tag.rule inputs outputs).text = some .rule :=
        TagKind.ofText?_eq_rule_iff.mpr ⟨(Rule.head?_text_ne_iff hine hi).mpr hfirst, by
          rw [hsplit]; rfl⟩
      let onRule := nestedRuleError (Tag.rule inputs outputs).text.length
      obtain ⟨i, hri, hei⟩ := (reread_iff_listLegible hine hi onRule).mpr hli
      obtain ⟨o, hro, heo⟩ := (reread_iff_listLegible hone ho onRule).mpr hlo
      have hparse : Rule.parse (Tag.rule inputs outputs).text = .ok ⟨i, o⟩ :=
        Rule.parseWith_eq_ok_iff.mpr ⟨_, _, hsplit, hri, hro⟩
      refine ⟨.rule i o, ?_, Rule.beq_iff (r := ⟨i, o⟩) (s := ⟨inputs, outputs⟩) |>.mpr ⟨hei, heo⟩⟩
      rw [Tag.parse, hstrip]
      simp only [hkind]
      exact map_eq_ok_iff.mpr ⟨_, hparse, rfl⟩

end Tag.Taught

/-! ## Sentences -/

namespace Sentence

theorem clausesFrom_zero_cons (c : Char) (t : Text) : clausesFrom 0 (c :: t) =
    match (afterBlanksAnd? ['a', 'n', 'd'] (c :: t)).bind fun r => (partStarts r).head? with
    | some rest => [] :: clausesFrom (t.length - rest.length) t
    | none => consPiece c (clausesFrom 0 t) := by
  with_unfolding_all rfl

theorem clausesFrom_ne_nil (skip : Nat) (t : Text) : clausesFrom skip t ≠ [] := by
  induction t generalizing skip with
  | nil => cases skip <;> exact List.cons_ne_nil _ _
  | cons c t ih =>
    cases skip with
    | succ skip => exact ih skip
    | zero =>
      rw [clausesFrom_zero_cons]
      split
      · exact List.cons_ne_nil _ _
      · cases clausesFrom 0 t <;> exact List.cons_ne_nil _ _

theorem isItem_of_parseClause {sentence clause : Text} {t : Tag}
    (h : parseClause sentence clause = .ok t) : t.IsItem := by
  rw [parseClause] at h
  split at h
  next => cases h
  next hrule =>
    rcases Tag.isItem_or_rule h with hitem | ⟨r, rfl, -⟩
    · exact hitem
    · exact absurd h (hrule r.inputs r.outputs)

/-- A sentence is the text of a tag, or a rule that is made of clauses. -/
theorem taught_of_parse {s : Text} {g : Tag} (h : parse s = .ok g) : g.Taught := by
  rw [parse] at h
  split at h
  next => cases h
  next =>
    split at h
    next => exact .of_parse h
    next premise conclusion _ =>
      simp only [bind_eq_ok_iff, mapM_eq_ok_iff] at h
      obtain ⟨inputs, hinputs, outputs, houtputs, hg⟩ := h
      cases hg
      refine .rule ?_ ?_ (fun t ht => ?_) fun t ht => ?_
      · exact ne_nil_of_forall₂ (clausesFrom_ne_nil 0 premise) hinputs
      · exact ne_nil_of_forall₂ (clausesFrom_ne_nil 0 conclusion) houtputs
      · obtain ⟨clause, -, hclause⟩ := exists_mem_of_forall₂ hinputs.flip ht
        exact isItem_of_parseClause hclause
      · obtain ⟨clause, -, hclause⟩ := exists_mem_of_forall₂ houtputs.flip ht
        exact isItem_of_parseClause hclause

end Sentence

/-- What a text or a sentence is read as is read back from its display, as an equal tag, if and only
if it is legible. -/
theorem taught_reparse_iff {s : Text} {g : Tag}
    (h : Tag.parse s = .ok g ∨ Sentence.parse s = .ok g) :
    (∃ g', Tag.parse g.text = .ok g' ∧ (g' == g) = true) ↔ g.Legible := by
  have htaught : g.Taught := h.elim .of_parse Sentence.taught_of_parse
  exact htaught.reread_iff

/-- Brackets at one end of a list only, parentheses and a comma inside a recommendation, an arrow in
one on the right. -/
theorem taught_reparse_iff_sentence :
    ∃ g, Sentence.parse
        "if P(?x,>3) and [Q(*,&) and @go(a,b) THEN R(?x) and @=>]".toList = .ok g ∧
      ((∃ g', Tag.parse g.text = .ok g' ∧ (g' == g) = true) ↔ g.Legible) := by
  obtain ⟨g, hg⟩ := exists_eq_ok_of_isOk
    (x := Sentence.parse "if P(?x,>3) and [Q(*,&) and @go(a,b) THEN R(?x) and @=>]".toList)
    (by decide +kernel)
  exact ⟨g, hg, taught_reparse_iff (.inr hg)⟩

/-- The display of a rule with a recommendation in front is read as a recommendation. -/
theorem not_reparse_recommendation_first :
    ∃ g, Sentence.parse "if @a then @b".toList = .ok g ∧
      ¬ ∃ g', Tag.parse g.text = .ok g' ∧ (g' == g) = true := by
  obtain ⟨g, hg⟩ := exists_eq_ok_of_isOk (x := Sentence.parse "if @a then @b".toList)
    (by decide +kernel)
  refine ⟨g, hg, ?_⟩
  rintro ⟨g', hg', hequal⟩
  have hunequal : (Sentence.parse "if @a then @b".toList >>= fun g =>
      Tag.parse g.text >>= fun g' => pure (g' == g)).toOption = some false := by
    decide +kernel
  rw [hg] at hunequal
  change (Tag.parse g.text >>= fun g' => pure (g' == g)).toOption = some false at hunequal
  rw [hg'] at hunequal
  cases hequal.symm.trans (Option.some.inj hunequal)

end TagReasoner
