import TagReasoner.Proofs.Tag.Reading

/-!
# Rules read back from their display

A rule displays its tags, joined by commas around an arrow, and each of its tags displays the text
that it was read from. So the display is split at the same places as the text was, and the rule is
read back as it is. There is one exception: a list may stand in brackets when it is read, and is
displayed without them. Where the tags themselves make a list look bracketed, their own characters
are taken for the brackets, and whatever is read back is another rule (`reparse_iff`).
-/

namespace TagReasoner

open Text

/-- The list starts with a fact whose name opens a bracket, and ends with a recommendation that
closes one. -/
def Tag.Bracketed (ts : List Tag) : Prop :=
  (∃ f, ts.head? = some (.fact f) ∧ f.predicate.head? = some '[') ∧
    ∃ c, ts.getLast? = some (.recommendation c) ∧ c.text.getLast? = some ']'

theorem Tag.texts_eq_map (ts : List Tag) : Tag.texts ts = ts.map Tag.text := by
  induction ts with
  | nil => rfl
  | cons t ts ih => rw [Tag.texts, ih, List.map_cons]

namespace Tag.ListRead

variable {onRule : Text → ParseError} {side : Text} {ts : List Tag}

/-- The tags of a list are read one by one from its pieces. -/
theorem iff_pieces : ListRead onRule side ts ↔
    ∃ ps, topLevelPieces? 0 (unbracketed (strip side)) = some ps ∧
      (∀ p ∈ ps, allBlank p = false) ∧
      List.Forall₂ (fun p t => Tag.parseSimple onRule (strip p) = .ok t) ps ts := by
  constructor
  · rintro ⟨items, hsplit, hitems, hread⟩
    obtain ⟨ps, hpieces, hblank, rfl⟩ := (splitTagList_eq_ok_iff hitems).mp hsplit
    exact ⟨ps, hpieces, hblank, List.forall₂_map_left_iff.mp hread⟩
  · rintro ⟨ps, hpieces, hblank, hread⟩
    have hitems : ps.map strip ≠ [] := by
      rw [ne_eq, List.map_eq_nil_iff]
      exact topLevelPieces?_ne_nil hpieces
    exact ⟨ps.map strip, (splitTagList_eq_ok_iff hitems).mpr ⟨ps, hpieces, hblank, rfl⟩, hitems,
      List.forall₂_map_left_iff.mpr hread⟩

theorem exists_parseSimple (h : ListRead onRule side ts) {t : Tag} (ht : t ∈ ts) :
    ∃ item, Tag.parseSimple onRule item = .ok t := by
  obtain ⟨items, -, -, hread⟩ := h
  obtain ⟨item, -, hitem⟩ := exists_mem_of_forall₂ hread.flip ht
  exact ⟨item, hitem⟩

theorem ne_nil (h : ListRead onRule side ts) : ts ≠ [] := by
  obtain ⟨items, -, hitems, hread⟩ := h
  rintro rfl
  cases hread
  exact hitems rfl

/-- What the list displays is the list without its brackets and blanks. -/
theorem display (h : ListRead onRule side ts) :
    join [','] (Tag.texts ts) = withoutBlanks (unbracketed (strip side)) ∧
      topLevelPieces? 0 (join [','] (Tag.texts ts)) = some (Tag.texts ts) := by
  obtain ⟨ps, hpieces, -, hread⟩ := iff_pieces.mp h
  have htexts : Tag.texts ts = ps.map withoutBlanks := by
    rw [Tag.texts_eq_map, ← List.forall₂_eq_eq_eq, List.forall₂_map_left_iff,
      List.forall₂_map_right_iff]
    refine hread.flip.imp fun t p hp => ?_
    rw [← withoutBlanks_eq_self (not_isBlank_of_parseSimple hp).2, text_of_parseSimple hp,
      withoutBlanks_strip, withoutBlanks_strip]
  have hjoin : join [','] (Tag.texts ts) = withoutBlanks (unbracketed (strip side)) := by
    rw [htexts, ← join_topLevelPieces? hpieces]
    exact (filter_join (by decide) ps).symm
  refine ⟨hjoin, ?_⟩
  rw [hjoin, htexts, withoutBlanks, topLevelPieces?_filter (by decide) (by decide) (by decide),
    hpieces]
  rfl

theorem not_isBlank (h : ListRead onRule side ts) :
    ∀ c ∈ join [','] (Tag.texts ts), isBlank c = false := by
  intro c hc
  rw [h.display.1, withoutBlanks, List.mem_filter, Bool.not_eq_true'] at hc
  exact hc.2

/-- The tags of a list display pieces of it. -/
theorem isInfix_text (h : ListRead onRule side ts) {t : Tag} (ht : t ∈ ts) : t.text <:+: side := by
  obtain ⟨ps, hpieces, -, hread⟩ := iff_pieces.mp h
  obtain ⟨p, hp, hread⟩ := exists_mem_of_forall₂ hread.flip ht
  have hpiece : p <:+: unbracketed (strip side) := join_topLevelPieces? hpieces ▸ isInfix_join hp
  rw [text_of_parseSimple hread]
  exact (((isInfix_strip _).trans (isInfix_strip p)).trans hpiece).trans
    ((isInfix_unbracketed _).trans (isInfix_strip side))

/-! ## Brackets -/

theorem head?_display_iff (h : ListRead onRule side ts) :
    (join [','] (Tag.texts ts)).head? = some '[' ↔
      ∃ f, ts.head? = some (.fact f) ∧ f.predicate.head? = some '[' := by
  obtain ⟨t, ts, rfl⟩ := List.exists_cons_of_ne_nil h.ne_nil
  obtain ⟨item, hitem⟩ := h.exists_parseSimple (List.mem_cons_self ..)
  rw [Tag.texts, head?_join (not_isBlank_of_parseSimple hitem).1]
  rcases Tag.parseSimple_eq_ok hitem with ⟨c, rfl, -⟩ | ⟨f, rfl, hwritten, -⟩
  · obtain ⟨name, htext, -⟩ := c.text_eq_cons
    rw [Tag.text, htext]
    simp
  · rw [Tag.text, Fact.text, List.append_assoc, List.head?_append_of_ne_nil _ hwritten.named]
    simp

theorem getLast?_display_iff (h : ListRead onRule side ts) :
    (join [','] (Tag.texts ts)).getLast? = some ']' ↔
      ∃ c, ts.getLast? = some (.recommendation c) ∧ c.text.getLast? = some ']' := by
  obtain ⟨t, ht⟩ := Option.isSome_iff_exists.mp (List.getLast?_isSome.mpr h.ne_nil)
  obtain ⟨item, hitem⟩ := h.exists_parseSimple (List.mem_of_getLast? ht)
  have hlast : (Tag.texts ts).getLast? = some t.text := by
    rw [Tag.texts_eq_map, List.getLast?_map, ht]
    rfl
  rw [getLast?_join (not_isBlank_of_parseSimple hitem).1 hlast, ht]
  rcases Tag.parseSimple_eq_ok hitem with ⟨c, rfl, -⟩ | ⟨f, rfl, -⟩
  · simp [Tag.text]
  · rw [Tag.text, Fact.text, List.getLast?_concat]
    simp

theorem bracketed_iff (h : ListRead onRule side ts) : Bracketed ts ↔
    (join [','] (Tag.texts ts)).head? = some '[' ∧
      (join [','] (Tag.texts ts)).getLast? = some ']' := by
  rw [Bracketed, h.head?_display_iff, h.getLast?_display_iff]

/-- A list that does not look bracketed is read back from its display. -/
theorem reread (h : ListRead onRule side ts) (hts : ¬ Bracketed ts)
    (onRule' : Text → ParseError) : ListRead onRule' (join [','] (Tag.texts ts)) ts := by
  rw [h.bracketed_iff] at hts
  refine iff_pieces.mpr ⟨Tag.texts ts, ?_, fun p hp => ?_, ?_⟩
  · rw [strip_eq_self h.not_isBlank, unbracketed_eq_self hts, h.display.2]
  · rw [Tag.texts_eq_map] at hp
    obtain ⟨t, ht, rfl⟩ := List.mem_map.mp hp
    obtain ⟨item, hitem⟩ := h.exists_parseSimple ht
    obtain ⟨hne, hblank⟩ := not_isBlank_of_parseSimple hitem
    rw [← Bool.not_eq_true, ← strip_eq_nil_iff, strip_eq_self hblank]
    exact hne
  · rw [Tag.texts_eq_map, List.forall₂_map_left_iff, List.forall₂_same]
    intro t ht
    obtain ⟨item, hitem⟩ := h.exists_parseSimple ht
    rw [strip_eq_self (not_isBlank_of_parseSimple hitem).2]
    exact parseSimple_text hitem onRule'

/-- The display of a list with a fact in front starts with the name of its predicate. -/
theorem takeWhile_display {f : Fact} (h : ListRead onRule side (.fact f :: ts)) (rest : Text) :
    (join [','] (Tag.texts (.fact f :: ts)) ++ rest).takeWhile isNameChar = f.predicate := by
  obtain ⟨item, hitem⟩ := h.exists_parseSimple (List.mem_cons_self ..)
  obtain ⟨c, hc, -⟩ | ⟨_, hf, hwritten, -⟩ := Tag.parseSimple_eq_ok hitem
  · cases hc
  · cases hf
    obtain ⟨more, hmore⟩ := isPrefix_join [','] f.text (Tag.texts ts)
    rw [Tag.texts, Tag.text, ← hmore, Fact.text, List.append_assoc, List.append_assoc,
      List.append_assoc, List.takeWhile_append_of_pos hwritten.name, List.cons_append,
      List.takeWhile_cons_of_neg (by decide), List.append_nil]

/-- What is read from the display of a list that looks bracketed is different from its first tag
on: the opening bracket of the name is lost. -/
theorem not_reread (h : ListRead onRule side ts) (hts : Bracketed ts)
    {onRule' : Text → ParseError} {ts' : List Tag}
    (h' : ListRead onRule' (join [','] (Tag.texts ts)) ts') :
    ¬ List.Forall₂ (fun t u => (t == u) = true) ts' ts := by
  intro hequal
  obtain ⟨hopen, hclose⟩ := h.bracketed_iff.mp hts
  obtain ⟨⟨f, hf, -⟩, -⟩ := hts
  obtain ⟨inner, hinner⟩ := exists_bracketed hopen hclose
  have hinner' : join [','] (Tag.texts ts') = inner := by
    rw [h'.display.1, strip_eq_self h.not_isBlank, hinner, unbracketed_bracketed]
    refine withoutBlanks_eq_self fun c hc => h.not_isBlank c ?_
    rw [hinner]
    exact List.mem_cons_of_mem _ (List.mem_append_left _ hc)
  obtain ⟨rest, rfl⟩ : ∃ rest, ts = .fact f :: rest := List.head?_eq_some_iff.mp hf
  obtain ⟨t, rest', ht, -, rfl⟩ := List.forall₂_cons_right_iff.mp hequal
  cases t with
  | recommendation | rule | foreign => cases ht
  | fact f' =>
    have hname : f'.predicate = f.predicate := (Fact.beq_iff.mp ht).1
    have hbefore := h.takeWhile_display []
    have hafter := h'.takeWhile_display [']']
    rw [hinner', hname] at hafter
    rw [List.append_nil, hinner, List.takeWhile_cons_of_pos (by decide), hafter] at hbefore
    have hlength := congrArg List.length hbefore
    rw [List.length_cons] at hlength
    omega

end Tag.ListRead

/-- A rule that was read is read back from its display, as an equal rule, if and only if neither
side looks bracketed. -/
theorem reparse_iff {t : Text} {r : Rule} (h : Rule.parse t = .ok r) :
    (∃ r', Rule.parse r.text = .ok r' ∧ (r' == r) = true) ↔
      ¬ Tag.Bracketed r.inputs ∧ ¬ Tag.Bracketed r.outputs := by
  obtain ⟨before, after, hsplit, hinputs, houtputs⟩ := Rule.parseWith_eq_ok_iff.mp h
  have hbefore : splitArrow? (join [','] (Tag.texts r.inputs)) = none := by
    refine splitArrow?_join fun p hp => ?_
    rw [Tag.texts_eq_map] at hp
    obtain ⟨u, hu, rfl⟩ := List.mem_map.mp hp
    exact splitArrow?_of_isInfix (splitArrow?_eq_some hsplit).1 (hinputs.isInfix_text hu)
  -- the display is split into the displays of the sides
  have hdisplay : splitArrow? r.text =
      some (join [','] (Tag.texts r.inputs), join [','] (Tag.texts r.outputs)) :=
    splitArrow?_arrow hbefore _
  constructor
  · rintro ⟨r', hparse, hequal⟩
    obtain ⟨b, a, hsides, hi, ho⟩ := Rule.parseWith_eq_ok_iff.mp hparse
    rw [hdisplay] at hsides
    cases hsides
    obtain ⟨hei, heo⟩ := Rule.beq_iff.mp hequal
    exact ⟨fun hb => hinputs.not_reread hb hi hei, fun hb => houtputs.not_reread hb ho heo⟩
  · rintro ⟨hi, ho⟩
    refine ⟨r, Rule.parseWith_eq_ok_iff.mpr ⟨_, _, hdisplay, ?_, ?_⟩, BEq.refl r⟩
    · exact hinputs.reread hi _
    · exact houtputs.reread ho _

/-- Brackets around the list of outputs, and in the inputs a name and a recommendation that hold
brackets, not both at the ends. -/
theorem reparse_iff_brackets :
    ∃ r, Rule.parse "P(?x,>3) , [Q(*,&) , @a] -> [ @go , R(b) ]".toList = .ok r ∧
      ((∃ r', Rule.parse r.text = .ok r' ∧ (r' == r) = true) ↔
        ¬ Tag.Bracketed r.inputs ∧ ¬ Tag.Bracketed r.outputs) := by
  obtain ⟨r, hr⟩ := exists_eq_ok_of_isOk
    (x := Rule.parse "P(?x,>3) , [Q(*,&) , @a] -> [ @go , R(b) ]".toList) (by decide +kernel)
  exact ⟨r, hr, reparse_iff hr⟩

/-- The outer brackets are taken off when the text is read, the inner ones when its display is. -/
theorem not_reparse_bracketed :
    ∃ r, Rule.parse "[[P(x),@a]]=>@b".toList = .ok r ∧
      ¬ ∃ r', Rule.parse r.text = .ok r' ∧ (r' == r) = true := by
  obtain ⟨r, hr⟩ := exists_eq_ok_of_isOk (x := Rule.parse "[[P(x),@a]]=>@b".toList)
    (by decide +kernel)
  refine ⟨r, hr, ?_⟩
  rintro ⟨r', hr', hequal⟩
  have hunequal : (Rule.parse "[[P(x),@a]]=>@b".toList >>= fun r =>
      Rule.parse r.text >>= fun r' => pure (r' == r)).toOption = some false := by
    decide +kernel
  rw [hr] at hunequal
  change (Rule.parse r.text >>= fun r' => pure (r' == r)).toOption = some false at hunequal
  rw [hr'] at hunequal
  cases hequal.symm.trans (Option.some.inj hunequal)

end TagReasoner
