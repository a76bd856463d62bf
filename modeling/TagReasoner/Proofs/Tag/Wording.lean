import TagReasoner.Proofs.Tag.Legibility

/-!
# Rules in words and rules with an arrow

A rule can be written with an arrow between lists, or in words, as a sentence. `InWords` says how a
sentence is put together: clauses, keywords in any case, and runs of spaces and tabs between them.
The reader of sentences searches for the keywords by trial. What it finds is settled by two facts: a
clause has no blanks, and no clause is spelled like a keyword, even if it starts like one. So the
shortest premise ends where the first `then` stands alone (`Conjunction.premise?_append`), the parts
are cut into the clauses they were made of (`Conjunction.clauses_eq`), and the rule that comes out
is the one that the arrow form is read as (`parse_inWords_eq_arrowForm`).
-/

namespace TagReasoner

open Text

namespace Sentence

/-! ## Sentences put together -/

/-- The word, with each letter in upper or lower case. -/
def Spells (word w : Text) : Prop := w.map Char.toLower = word

/-- A run of spaces and tabs, of one at least. -/
structure Gap (g : Text) : Prop where
  ne_nil : g ≠ []
  blank : ∀ c ∈ g, c = ' ' ∨ c = '\t'

/-- Clauses with the word `and` between any two. -/
inductive Conjunction : List Text → Text → Prop where
  | single (c : Text) : Conjunction [c] c
  | cons (c : Text) {cs : List Text} {g w g' t : Text} : Gap g → Spells ['a', 'n', 'd'] w →
      Gap g' → Conjunction cs t → Conjunction (c :: cs) (c ++ (g ++ (w ++ (g' ++ t))))

/-- A rule in words, made of these clauses. -/
inductive InWords (inputs outputs : List Text) : Text → Prop where
  | intro {w g premise g' w' g'' conclusion : Text} : Spells ['i', 'f'] w → Gap g →
      Conjunction inputs premise → Gap g' → Spells ['t', 'h', 'e', 'n'] w' → Gap g'' →
      Conjunction outputs conclusion →
      InWords inputs outputs (w ++ (g ++ (premise ++ (g' ++ (w' ++ (g'' ++ conclusion))))))

/-- A text that can be a clause of both forms: that of a fact without blanks around it, or that of a
recommendation with nothing in it that has a meaning in a list. -/
inductive IsClause (c : Text) : Prop where
  | fact (f : Fact) : strip c = c → Tag.parse c = .ok (.fact f) → IsClause c
  | recommendation (name : Text) : c = '@' :: name → name ≠ [] →
      (∀ d ∈ name, isBlank d = false ∧ d ∉ ['(', ')', ',', ']']) →
      ¬ ['=', '>'] <:+: c → ¬ ['-', '>'] <:+: c → IsClause c

/-! ## Blanks and words -/

/-- What holds of the characters of a text one by one holds of them all. -/
theorem forall_of_all {P : Char → Prop} [DecidablePred P] {s : Text}
    (h : (s.all fun c => decide (P c)) = true) : ∀ c ∈ s, P c :=
  fun c hc => of_decide_eq_true (List.all_eq_true.mp h c hc)

/-- A run of characters that are not blank. -/
structure Solid (x : Text) : Prop where
  ne_nil : x ≠ []
  not_blank : ∀ c ∈ x, isBlank c = false

/-- The text does not start with a blank. -/
def StartsSolid (t : Text) : Prop := ∀ c, t.head? = some c → isBlank c = false

/-- The text is empty or starts with a blank. -/
def StartsBlank (t : Text) : Prop := ∀ c, t.head? = some c → isBlank c = true

theorem Solid.append {x : Text} (h : Solid x) (t : Text) : StartsSolid (x ++ t) := by
  intro c hc
  rw [List.head?_append_of_ne_nil _ h.ne_nil] at hc
  exact h.not_blank c (List.mem_of_mem_head? hc)

theorem Gap.all_blank {g : Text} (h : Gap g) : ∀ c ∈ g, isBlank c = true := by
  intro c hc
  rcases h.blank c hc with rfl | rfl <;> decide

theorem Gap.append {g : Text} (h : Gap g) (t : Text) : StartsBlank (g ++ t) := by
  intro c hc
  rw [List.head?_append_of_ne_nil _ h.ne_nil] at hc
  exact h.all_blank c (List.mem_of_mem_head? hc)

theorem StartsSolid.stripStart_eq {t : Text} (h : StartsSolid t) : stripStart t = t := by
  cases t with
  | nil => rfl
  | cons c t => rw [stripStart_cons, h c rfl, if_neg Bool.false_ne_true]

theorem StartsSolid.partStarts_eq {t : Text} (h : StartsSolid t) : partStarts t = [] := by
  cases t with
  | nil => rfl
  | cons c t => rw [partStarts, h c rfl, if_neg Bool.false_ne_true]

theorem stripStart_append_blanks {g : Text} (hg : ∀ c ∈ g, isBlank c = true) (t : Text) :
    stripStart (g ++ t) = stripStart t := by
  rw [stripStart, stripStart, List.dropWhile_append_of_pos hg]

/-- Behind a gap, a part may start at what follows it, and that is tried first. -/
theorem Gap.partStarts_append {g : Text} (hg : Gap g) {t : Text} (ht : StartsSolid t) :
    ∃ later, partStarts (g ++ t) = t :: later := by
  obtain ⟨hne, hblank⟩ := hg
  induction g with
  | nil => exact absurd rfl hne
  | cons b g ih =>
    have hb : isBlank b = true := Gap.all_blank ⟨hne, hblank⟩ b (List.mem_cons_self ..)
    rw [List.cons_append, partStarts, if_pos hb]
    by_cases hnil : g = []
    · subst hnil
      exact ⟨[], by rw [List.nil_append, ht.partStarts_eq, List.nil_append]⟩
    · obtain ⟨later, hlater⟩ := ih hnil fun c hc => hblank c (List.mem_cons_of_mem b hc)
      exact ⟨later ++ [g ++ t], by rw [hlater, List.cons_append]⟩

/-! ## Keywords -/

/-- The text is taken for the word. -/
def ReadAs (word w : Text) : Prop :=
  List.Forall₂ (fun letter c => isLetter letter c = true) word w

theorem not_isBlank_of_isLetter {letter c : Char} (hlower : letter.isLower = true)
    (h : isLetter letter c = true) : isBlank c = false := by
  rw [Bool.eq_false_iff]
  intro hblank
  have hrange : c.toNat ≤ 0x20 ∨ 0x85 ≤ c.toNat ∧ c.toNat ≠ 0x130 ∧ c.toNat ≠ 0x131 := by
    simp only [isBlank, Bool.or_eq_true, Bool.and_eq_true, decide_eq_true_eq, beq_iff_eq] at hblank
    omega
  have hletter : 97 ≤ letter.toNat ∧ letter.toNat ≤ 122 := by
    obtain ⟨hlow, hhigh⟩ := Bool.and_eq_true_iff.mp hlower
    exact ⟨UInt32.le_iff_toNat_le.mp (of_decide_eq_true hlow),
      UInt32.le_iff_toNat_le.mp (of_decide_eq_true hhigh)⟩
  -- a blank is no capital, so it is not taken for another letter
  have hkept : c.toLower = c := by
    refine dif_neg ?_
    rintro ⟨hlow, hhigh⟩
    have hlow : 65 ≤ c.toNat := UInt32.le_iff_toNat_le.mp hlow
    have hhigh : c.toNat ≤ 90 := UInt32.le_iff_toNat_le.mp hhigh
    omega
  rw [isLetter, hkept, Bool.or_eq_true, decide_eq_true_eq] at h
  rcases h with rfl | h
  · omega
  · simp only [Bool.and_eq_true, Bool.or_eq_true, decide_eq_true_eq] at h
    omega

theorem Spells.readAs {word w : Text} (h : Spells word w) : ReadAs word w := by
  obtain rfl : w.map Char.toLower = word := h
  rw [ReadAs, List.forall₂_map_left_iff, List.forall₂_same]
  intro c _
  rw [isLetter, decide_eq_true rfl, Bool.true_or]

/-- What follows a keyword is behind the characters that are its letters. -/
theorem afterKeyword?_eq_some_iff {word t r : Text} : afterKeyword? word t = some r ↔
    ∃ w, t = w ++ r ∧ ReadAs word w := by
  induction word generalizing t with
  | nil =>
    rw [afterKeyword?, Option.some.injEq]
    simp [ReadAs]
  | cons letter word ih =>
    cases t with
    | nil => simp [afterKeyword?, ReadAs, List.forall₂_cons_left_iff]
    | cons c t =>
      rw [afterKeyword?]
      split
      next hc =>
        rw [ih]
        constructor
        · rintro ⟨w, rfl, hw⟩
          exact ⟨c :: w, rfl, .cons hc hw⟩
        · rintro ⟨w, ht, hw⟩
          cases hw with
          | cons hd hw =>
            cases ht
            exact ⟨_, rfl, hw⟩
      next hc =>
        constructor
        · intro h
          cases h
        · rintro ⟨w, ht, hw⟩
          cases hw with
          | cons hd hw =>
            cases ht
            exact absurd hd hc

theorem Spells.afterKeyword? {word w : Text} (h : Spells word w) (t : Text) :
    afterKeyword? word (w ++ t) = some t :=
  afterKeyword?_eq_some_iff.mpr ⟨w, rfl, h.readAs⟩

theorem ReadAs.solid {word w : Text} (h : ReadAs word w)
    (hword : ∀ letter ∈ word, letter.isLower = true) (hne : word ≠ []) : Solid w := by
  refine ⟨ne_nil_of_forall₂ hne h, fun c hc => ?_⟩
  obtain ⟨letter, hletter, hc⟩ := exists_mem_of_forall₂ h.flip hc
  exact not_isBlank_of_isLetter (hword letter hletter) hc

/-- Two runs without blanks that are followed by blanks, or by nothing, are the same run. -/
theorem append_inj_of_startsBlank {x y s t : Text} (hx : ∀ c ∈ x, isBlank c = false)
    (hy : ∀ c ∈ y, isBlank c = false) (hs : StartsBlank s) (ht : StartsBlank t)
    (h : x ++ s = y ++ t) : x = y ∧ s = t := by
  have hrun : ∀ {x s : Text}, (∀ c ∈ x, isBlank c = false) → StartsBlank s →
      (x ++ s).takeWhile (fun c => !isBlank c) = x := by
    intro x s hx hs
    rw [List.takeWhile_append_of_pos fun c hc => by rw [hx c hc]; rfl]
    cases s with
    | nil => rw [List.takeWhile_nil, List.append_nil]
    | cons c s => rw [List.takeWhile_cons_of_neg (by simp [hs c rfl]), List.append_nil]
  have hxy : x = y := by rw [← hrun hx hs, h, hrun hy ht]
  subst hxy
  exact ⟨rfl, List.append_cancel_left h⟩

/-- A run without blanks that a keyword and blanks can be read from is spelled like the keyword. -/
theorem readAs_of_afterKeyword? {word x t r : Text} {c : Char}
    (hword : ∀ letter ∈ word, letter.isLower = true) (hne : word ≠ []) (hx : Solid x)
    (ht : StartsBlank t) (hc : isBlank c = true)
    (h : afterKeyword? word (x ++ t) = some (c :: r)) : ReadAs word x := by
  obtain ⟨w, hw, hread⟩ := afterKeyword?_eq_some_iff.mp h
  have hblank : StartsBlank (c :: r) := by
    intro d hd
    cases hd
    exact hc
  obtain ⟨rfl, -⟩ := append_inj_of_startsBlank hx.not_blank (hread.solid hword hne).not_blank ht
    hblank hw
  exact hread

theorem afterBlanksAnd?_of_startsSolid {word t : Text} (h : StartsSolid t) :
    afterBlanksAnd? word t = none := by
  cases t with
  | nil => rfl
  | cons c t => rw [afterBlanksAnd?, h c rfl, if_neg Bool.false_ne_true]

theorem afterBlanksAnd?_append {word g t : Text} (hg : ∀ c ∈ g, isBlank c = true) (hne : g ≠ [])
    (ht : StartsSolid t) : afterBlanksAnd? word (g ++ t) = afterKeyword? word t := by
  have hstrip : stripStart (g ++ t) = t := by
    rw [stripStart_append_blanks hg, ht.stripStart_eq]
  obtain ⟨b, g, rfl⟩ := List.exists_cons_of_ne_nil hne
  rw [List.cons_append] at hstrip ⊢
  rw [afterBlanksAnd?, if_pos (hg b (List.mem_cons_self ..)), hstrip]

/-! ## The premise and the conclusion -/

theorem conclusion?_of_startsSolid {t : Text} (h : StartsSolid t) : conclusion? t = none := by
  rw [conclusion?, afterBlanksAnd?_of_startsSolid h]
  rfl

/-- There is no conclusion behind a run that is not spelled like `then`. -/
theorem conclusion?_eq_none {g x t : Text} (hg : Gap g) (hx : Solid x) (ht : StartsBlank t)
    (hthen : ¬ ReadAs ['t', 'h', 'e', 'n'] x) : conclusion? (g ++ (x ++ t)) = none := by
  rw [conclusion?, afterBlanksAnd?_append hg.all_blank hg.ne_nil (hx.append t)]
  cases hr : afterKeyword? ['t', 'h', 'e', 'n'] (x ++ t) with
  | none => rfl
  | some r =>
    rw [Option.bind_some]
    cases r with
    | nil => rfl
    | cons c r =>
      rw [partStarts, if_neg]
      · rfl
      · intro hc
        exact hthen (readAs_of_afterKeyword? (forall_of_all (by decide)) (by decide) hx ht hc hr)

theorem conclusion?_then {g w g' part : Text} (hg : Gap g) (hw : Spells ['t', 'h', 'e', 'n'] w)
    (hg' : Gap g') (hpart : StartsSolid part) (hlast : lastPart? part = some part) :
    conclusion? (g ++ (w ++ (g' ++ part))) = some part := by
  have hsolid : Solid w := hw.readAs.solid (forall_of_all (by decide)) (by decide)
  obtain ⟨later, hlater⟩ := hg'.partStarts_append hpart
  rw [conclusion?, afterBlanksAnd?_append hg.all_blank hg.ne_nil (hsolid.append _),
    hw.afterKeyword?, Option.bind_some, hlater, List.findSome?_cons, hlast]

/-- Inside a run the premise does not end. -/
theorem premise?_solid_append {x : Text} (hx : Solid x) (t : Text) :
    premise? (x ++ t) = match conclusion? t with
      | some conclusion => some (x, conclusion)
      | none => (premise? t).map fun (premise, conclusion) => (x ++ premise, conclusion) := by
  obtain ⟨hne, hblank⟩ := hx
  induction x with
  | nil => exact absurd rfl hne
  | cons c x ih =>
    obtain ⟨hc, hx⟩ := List.forall_mem_cons.mp hblank
    have hline : c ≠ '\n' := by
      rintro rfl
      cases hc
    rw [List.cons_append, premise?, if_neg hline]
    by_cases hnil : x = []
    · subst hnil
      rfl
    · rw [conclusion?_of_startsSolid (Solid.append ⟨hnil, hx⟩ t), ih hnil hx]
      cases conclusion? t with
      | some conclusion => rfl
      | none =>
        show ((premise? t).map _).map _ = (premise? t).map _
        rw [Option.map_map]
        rfl

/-- Nor does it in a gap that no conclusion follows. -/
theorem premise?_gap_append {g t : Text} (hg : Gap g) (ht : StartsSolid t)
    (hconclusion : conclusion? (g ++ t) = none) :
    premise? (g ++ t) =
      (premise? t).map fun (premise, conclusion) => (g ++ premise, conclusion) := by
  obtain ⟨hne, hblank⟩ := hg
  induction g with
  | nil => exact absurd rfl hne
  | cons b g ih =>
    obtain ⟨hb, hrest⟩ := List.forall_mem_cons.mp hblank
    have hline : b ≠ '\n' := by
      rintro rfl
      rcases hb with hb | hb <;> cases hb
    rw [List.cons_append, premise?, if_neg hline]
    by_cases hnil : g = []
    · subst hnil
      rw [List.nil_append, conclusion?_of_startsSolid ht]
      rfl
    · -- what is left of the gap is one too, and the same follows it
      have hgap : Gap g := ⟨hnil, hrest⟩
      have hsame : conclusion? (g ++ t) = none := by
        rw [← hconclusion, conclusion?, conclusion?,
          afterBlanksAnd?_append hgap.all_blank hnil ht,
          afterBlanksAnd?_append (Gap.all_blank ⟨hne, hblank⟩) hne ht]
      rw [hsame, ih hsame hnil hrest]
      show ((premise? t).map _).map _ = (premise? t).map _
      rw [Option.map_map]
      rfl

/-! ## Clauses put together -/

/-- A run without blanks that is not spelled like a keyword. -/
structure Plainly (x : Text) : Prop extends Solid x where
  not_and : ¬ ReadAs ['a', 'n', 'd'] x
  not_then : ¬ ReadAs ['t', 'h', 'e', 'n'] x

namespace Conjunction

variable {cs : List Text} {p : Text}

theorem clauses_ne_nil (h : Conjunction cs p) : cs ≠ [] := by
  cases h <;> exact List.cons_ne_nil _ _

/-- A conjunction starts with its first clause, behind which there is a blank or nothing. -/
theorem exists_head (h : Conjunction cs p) : ∃ c ∈ cs, ∃ t, p = c ++ t ∧ StartsBlank t := by
  cases h with
  | single => exact ⟨p, List.mem_singleton_self p, [], by simp, fun c hc => by cases hc⟩
  | cons c hg => exact ⟨c, List.mem_cons_self .., _, rfl, hg.append _⟩

/-- It ends with a clause and holds no line feed. -/
theorem exists_last (h : Conjunction cs p) (hcs : ∀ c ∈ cs, Solid c) :
    '\n' ∉ p ∧ ∃ t x, p = t ++ x ∧ Solid x := by
  have hline : ∀ {x : Text}, Solid x → '\n' ∉ x := by
    intro x hx hmem
    cases hx.not_blank _ hmem
  induction h with
  | single c =>
    have hc := hcs c (List.mem_singleton_self c)
    exact ⟨hline hc, [], c, rfl, hc⟩
  | @cons c cs g w g' t hg hw hg' _ ih =>
    obtain ⟨hc, hcs⟩ := List.forall_mem_cons.mp hcs
    obtain ⟨ht, t', x, rfl, hx⟩ := ih hcs
    have hgap : ∀ {g : Text}, Gap g → '\n' ∉ g := by
      intro g hg hmem
      rcases hg.blank _ hmem with h | h <;> cases h
    have hword : Solid w := hw.readAs.solid (forall_of_all (by decide)) (by decide)
    refine ⟨?_, c ++ (g ++ (w ++ (g' ++ t'))), x, by simp only [List.append_assoc], hx⟩
    simp only [List.mem_append, not_or] at ht ⊢
    exact ⟨hline hc, hgap hg, hline hword, hgap hg', ht⟩

theorem startsSolid_append (h : Conjunction cs p) (hcs : ∀ c ∈ cs, Solid c) (t : Text) :
    StartsSolid (p ++ t) := by
  obtain ⟨c, hc, t', rfl, -⟩ := h.exists_head
  rw [List.append_assoc]
  exact (hcs c hc).append _

/-- A conjunction at the end of a sentence is a part as it stands. -/
theorem lastPart?_eq (h : Conjunction cs p) (hcs : ∀ c ∈ cs, Solid c) : lastPart? p = some p := by
  obtain ⟨hline, t, x, rfl, hx⟩ := h.exists_last hcs
  obtain ⟨c, hc⟩ := List.exists_mem_of_ne_nil x hx.ne_nil
  have hblank : allBlank (t ++ x) = false := by
    rw [allBlank, List.all_eq_false]
    exact ⟨c, List.mem_append_right t hc, by simp [hx.not_blank c hc]⟩
  have hend : stripEnd (t ++ x) = t ++ x := by
    have hreverse : Solid x.reverse :=
      ⟨by simp [hx.ne_nil], fun c hc => hx.not_blank c (List.mem_reverse.mp hc)⟩
    have hstart := (hreverse.append t.reverse).stripStart_eq
    rw [stripStart] at hstart
    rw [stripEnd, List.reverse_append, hstart, List.reverse_append, List.reverse_reverse,
      List.reverse_reverse]
  have hempty : (t ++ x).isEmpty = false := by simp [hx.ne_nil]
  have hcontains : (t ++ x).contains '\n' = false := by simpa using hline
  rw [lastPart?, hblank, if_neg Bool.false_ne_true, hend]
  simp only [hempty, hcontains, Bool.or_false, Bool.false_eq_true, if_false]

/-- The shortest premise is the whole conjunction in front of the first conclusion. -/
theorem premise?_append (h : Conjunction cs p) (hcs : ∀ c ∈ cs, Plainly c) {t conclusion : Text}
    (ht : StartsBlank t) (hconclusion : conclusion? t = some conclusion) :
    premise? (p ++ t) = some (p, conclusion) := by
  induction h with
  | single c =>
    rw [premise?_solid_append (hcs c (List.mem_singleton_self c)).toSolid, hconclusion]
  | @cons c cs g w g' s hg hw hg' hs ih =>
    obtain ⟨hc, hcs⟩ := List.forall_mem_cons.mp hcs
    have hword : Solid w := hw.readAs.solid (forall_of_all (by decide)) (by decide)
    have hnot : ¬ ReadAs ['t', 'h', 'e', 'n'] w := by
      intro hthen
      cases hw.readAs.length_eq.trans hthen.length_eq.symm
    have hstart := hs.startsSolid_append (fun d hd => (hcs d hd).toSolid) t
    -- neither `and` nor the clause behind it is a conclusion
    have hand : conclusion? (g ++ (w ++ (g' ++ (s ++ t)))) = none :=
      conclusion?_eq_none hg hword (hg'.append _) hnot
    have hclause : conclusion? (g' ++ (s ++ t)) = none := by
      obtain ⟨d, hd, s', rfl, hs'⟩ := hs.exists_head
      rw [List.append_assoc]
      refine conclusion?_eq_none hg' (hcs d hd).toSolid (fun e he => ?_) (hcs d hd).not_then
      cases s' with
      | nil => exact ht e he
      | cons f s' => exact hs' e he
    simp only [List.append_assoc]
    rw [premise?_solid_append hc.toSolid, hand, premise?_gap_append hg (hword.append _) hand,
      premise?_solid_append hword, hclause, premise?_gap_append hg' hstart hclause, ih hcs]
    rfl

end Conjunction

/-! ## Cutting into clauses -/

theorem clausesFrom_length_append (s t : Text) :
    clausesFrom s.length (s ++ t) = clausesFrom 0 t := by
  induction s with
  | nil => rfl
  | cons c s ih => exact ih

theorem clausesFrom_solid_append {x : Text} (hx : ∀ c ∈ x, isBlank c = false) (t : Text) :
    clausesFrom 0 (x ++ t) = x.foldr consPiece (clausesFrom 0 t) := by
  induction x with
  | nil => rfl
  | cons c x ih =>
    obtain ⟨hc, hx⟩ := List.forall_mem_cons.mp hx
    have hstart : StartsSolid (c :: (x ++ t)) := by
      intro d hd
      cases hd
      exact hc
    rw [List.cons_append, clausesFrom_zero_cons, afterBlanksAnd?_of_startsSolid hstart, ih hx]
    rfl

theorem foldr_consPiece (x p : Text) (ps : List Text) :
    x.foldr consPiece (p :: ps) = (x ++ p) :: ps := by
  induction x with
  | nil => rfl
  | cons c x ih =>
    rw [List.foldr_cons, ih]
    rfl

/-- At the word `and` between gaps a clause ends and the next one begins. -/
theorem clausesFrom_and {g w g' t : Text} (hg : Gap g) (hw : Spells ['a', 'n', 'd'] w)
    (hg' : Gap g') (ht : StartsSolid t) :
    clausesFrom 0 (g ++ (w ++ (g' ++ t))) = [] :: clausesFrom 0 t := by
  have hsolid : Solid w := hw.readAs.solid (forall_of_all (by decide)) (by decide)
  obtain ⟨later, hlater⟩ := hg'.partStarts_append ht
  have hafter : afterBlanksAnd? ['a', 'n', 'd'] (g ++ (w ++ (g' ++ t))) = some (g' ++ t) := by
    rw [afterBlanksAnd?_append hg.all_blank hg.ne_nil (hsolid.append _), hw.afterKeyword?]
  obtain ⟨b, g, rfl⟩ := List.exists_cons_of_ne_nil hg.ne_nil
  rw [List.cons_append] at hafter ⊢
  rw [clausesFrom_zero_cons, hafter, Option.bind_some, hlater, List.head?_cons]
  have hskip : g ++ (w ++ (g' ++ t)) = (g ++ (w ++ g')) ++ t := by simp only [List.append_assoc]
  dsimp only
  rw [hskip, List.length_append, Nat.add_sub_cancel, clausesFrom_length_append]

/-- A part is cut into the clauses that it was put together from. -/
theorem Conjunction.clauses_eq {cs : List Text} {p : Text} (h : Conjunction cs p)
    (hcs : ∀ c ∈ cs, Solid c) : clauses p = cs := by
  induction h with
  | single c =>
    have hc := clausesFrom_solid_append (hcs c (List.mem_singleton_self c)).not_blank []
    rw [List.append_nil] at hc
    rw [clauses, hc, show clausesFrom 0 [] = [[]] from rfl, foldr_consPiece, List.append_nil]
  | @cons c cs g w g' t hg hw hg' ht ih =>
    obtain ⟨hc, hcs⟩ := List.forall_mem_cons.mp hcs
    have hstart := ht.startsSolid_append hcs []
    rw [List.append_nil] at hstart
    rw [clauses, clausesFrom_solid_append hc.not_blank, clausesFrom_and hg hw hg' hstart,
      foldr_consPiece, List.append_nil]
    exact congrArg (c :: ·) (ih hcs)

/-! ## Clauses in both forms -/

theorem IsClause.of_isOk {c : Text} (hstrip : strip c = c) (hkind : TagKind.ofText? c = some .fact)
    (hread : (Fact.parse c .certain).isOk = true) : IsClause c := by
  obtain ⟨f, hf⟩ := exists_eq_ok_of_isOk hread
  refine .fact f hstrip ?_
  rw [Tag.parse, hstrip]
  simp only [hkind]
  exact map_eq_ok_iff.mpr ⟨f, hf, rfl⟩

/-- The clause is read as the tag, one that can stand in a list and does not disturb it. -/
structure ClauseFor (c : Text) (t : Tag) : Prop where
  item : t.IsItem
  text : t.text = c
  undisturbed : ∀ r, t = .recommendation r →
    ClosedAt 0 r.text ∧ splitArrow? r.text = none ∧ r.text.getLast? ≠ some ']'
  /-- A character that no keyword has. -/
  marked : '(' ∈ c ∨ '@' ∈ c

theorem IsClause.exists_clauseFor {c : Text} (h : IsClause c) : ∃ t, ClauseFor c t := by
  cases h with
  | fact f hstrip hparse =>
    have hitem : (Tag.fact f).IsItem := by
      rcases Tag.isItem_or_rule hparse with hitem | ⟨r, hr, -⟩
      · exact hitem
      · cases hr
    have htext : f.text = c := by
      rcases Tag.parse_eq_ok hparse with ⟨f', hf', -, hf⟩ | ⟨d, hd, -⟩ | ⟨r, hr, -⟩
      · cases hf'
        rw [(Fact.parse_eq_ok hf).2, hstrip]
      · cases hd
      · cases hr
    refine ⟨.fact f, hitem, htext, (fun r hr => by cases hr), .inl ?_⟩
    rw [← htext, Fact.text]
    simp
  | recommendation name hc hname hchars hdouble hsingle =>
    have hblank : ∀ d ∈ c, isBlank d = false := by
      rw [hc, List.forall_mem_cons]
      exact ⟨by decide, fun d hd => (hchars d hd).1⟩
    obtain ⟨d, name', rfl⟩ := List.exists_cons_of_ne_nil hname
    have hwritten : Recommendation.isWritten c = true := by
      rw [hc, Recommendation.isWritten, Bool.not_eq_true', List.any_eq_false]
      exact fun e he => by simp [(hchars e he).1]
    have hkind : TagKind.ofText? c = some .recommendation := by
      rw [TagKind.ofText?, if_pos (by rw [hc]; rfl)]
    have hread : ∀ onRule, Tag.parseSimple onRule c = .ok (.recommendation ⟨c, hwritten⟩) := by
      intro onRule
      rw [Tag.parseSimple, strip_eq_self hblank]
      simp only [hkind]
      rw [Recommendation.parse, dif_pos hwritten]
      rfl
    refine ⟨.recommendation ⟨c, hwritten⟩, ⟨fun _ => .malformed .tag c, c, hread _⟩, rfl, ?_,
      .inr (by rw [hc]; exact List.mem_cons_self ..)⟩
    rintro r hr
    cases hr
    have hplain : ∀ e ∈ c, e ∉ ['(', ')', ',', ']'] := by
      rw [hc, List.forall_mem_cons]
      exact ⟨by decide, fun e he => (hchars e he).2⟩
    refine ⟨?_, splitArrow?_eq_none_iff.mpr ⟨hdouble, hsingle⟩, fun hlast => ?_⟩
    · have hclosed : ClosedAt 0 (c ++ []) := closedAt_append (fun e he => ?_) rfl
      · rwa [List.append_nil] at hclosed
      · have := hplain e he
        simp only [List.mem_cons, not_or] at this
        exact ⟨this.1, this.2.1, fun h => absurd h this.2.2.1⟩
    · exact hplain ']' (List.mem_of_mem_getLast? hlast) (by simp)

namespace ClauseFor

variable {c : Text} {t : Tag}

theorem solid (h : ClauseFor c t) : Solid c := by
  rw [← h.text]
  exact ⟨h.item.text_ne_nil, h.item.not_isBlank⟩

theorem plainly (h : ClauseFor c t) : Plainly c := by
  -- a keyword is made of letters, and the clause is not
  have hnot : ∀ word, (∀ letter ∈ word, isLetter letter '(' = false ∧ isLetter letter '@' = false) →
      ¬ ReadAs word c := by
    intro word hword hread
    rcases h.marked with hmem | hmem
    · obtain ⟨letter, hletter, hread⟩ := exists_mem_of_forall₂ hread.flip hmem
      rw [(hword letter hletter).1] at hread
      cases hread
    · obtain ⟨letter, hletter, hread⟩ := exists_mem_of_forall₂ hread.flip hmem
      rw [(hword letter hletter).2] at hread
      cases hread
  exact ⟨h.solid, hnot _ (forall_of_all (by decide)), hnot _ (forall_of_all (by decide))⟩

theorem parseClause_eq (h : ClauseFor c t) (sentence : Text) : parseClause sentence c = .ok t := by
  have hread : Tag.parse c = .ok t := by
    rw [← h.text]
    exact h.item.parse_text
  rw [parseClause, hread]
  rcases h.item.fact_or_recommendation with ⟨f, rfl⟩ | ⟨d, rfl⟩ <;> rfl

end ClauseFor

section Lists

variable {cs : List Text} {ts : List Tag} (h : List.Forall₂ ClauseFor cs ts)
include h

theorem texts_eq_of_clauseFor : Tag.texts ts = cs := by
  rw [Tag.texts_eq_map, ← List.forall₂_eq_eq_eq, List.forall₂_map_left_iff]
  exact h.flip.imp fun _ _ hc => hc.text

theorem isItem_of_clauseFor : ∀ t ∈ ts, t.IsItem := by
  intro t ht
  obtain ⟨c, -, hc⟩ := exists_mem_of_forall₂ h.flip ht
  exact hc.item

theorem undisturbed_of_clauseFor : ∀ r, .recommendation r ∈ ts →
    ClosedAt 0 r.text ∧ splitArrow? r.text = none ∧ r.text.getLast? ≠ some ']' := by
  intro r hr
  obtain ⟨c, -, hc⟩ := exists_mem_of_forall₂ h.flip hr
  exact hc.undisturbed r rfl

/-- Clauses joined by commas are read as a list of their tags. -/
theorem listRead_of_clauseFor (hcs : cs ≠ []) (onRule : Text → ParseError) :
    Tag.ListRead onRule (join [','] (Tag.texts ts)) ts := by
  have hbracketed : ¬ Tag.Bracketed ts := by
    rintro ⟨-, r, hlast, hclose⟩
    exact (undisturbed_of_clauseFor h r (List.mem_of_mem_getLast? hlast)).2.2 hclose
  have hread := Tag.listRead_bracketed (ne_nil_of_forall₂ hcs h) (isItem_of_clauseFor h)
    (fun r hr => (undisturbed_of_clauseFor h r hr).1) onRule
  exact hread.reread hbracketed onRule

/-- The clauses of a part that is put together from them are read one by one. -/
theorem mapM_parseClause_of_clauseFor {p : Text} (hp : Conjunction cs p) (sentence : Text) :
    (clauses p).mapM (parseClause sentence) = .ok ts := by
  have hsolid : ∀ c ∈ cs, Solid c := by
    intro c hc
    obtain ⟨t, -, ht⟩ := exists_mem_of_forall₂ h hc
    exact ht.solid
  rw [hp.clauses_eq hsolid, mapM_eq_ok_iff]
  exact h.imp fun _ _ hc => hc.parseClause_eq sentence

end Lists

/-- The keywords are found where they were written. -/
theorem InWords.ifThen?_eq {inputs outputs : List Text} {w g premise g' w' g'' conclusion : Text}
    (hinputs : ∀ c ∈ inputs, Plainly c) (houtputs : ∀ c ∈ outputs, Plainly c)
    (hw : Spells ['i', 'f'] w) (hg : Gap g) (hpremise : Conjunction inputs premise) (hg' : Gap g')
    (hw' : Spells ['t', 'h', 'e', 'n'] w') (hg'' : Gap g'')
    (hconclusion : Conjunction outputs conclusion) :
    ifThen? (w ++ (g ++ (premise ++ (g' ++ (w' ++ (g'' ++ conclusion)))))) =
      some (premise, conclusion) := by
  have hif : Solid w := hw.readAs.solid (forall_of_all (by decide)) (by decide)
  have houtputs : ∀ c ∈ outputs, Solid c := fun c hc => (houtputs c hc).toSolid
  have hstart := hconclusion.startsSolid_append houtputs []
  rw [List.append_nil] at hstart
  have hthen := conclusion?_then hg' hw' hg'' hstart (hconclusion.lastPart?_eq houtputs)
  obtain ⟨later, hlater⟩ := hg.partStarts_append
    (hpremise.startsSolid_append (fun c hc => (hinputs c hc).toSolid) _)
  rw [ifThen?, (hif.append _).stripStart_eq, hw.afterKeyword?, Option.bind_some, hlater,
    List.findSome?_cons, hpremise.premise?_append hinputs (hg'.append _) hthen]

/-- A rule in words is read, whatever the case of its keywords and the blanks between them, as the
same rule as its clauses joined by commas around an arrow. -/
theorem parse_inWords_eq_arrowForm {inputs outputs : List Text} {sentence : Text}
    (hinputs : ∀ c ∈ inputs, IsClause c) (houtputs : ∀ c ∈ outputs, IsClause c)
    (hsentence : InWords inputs outputs sentence) :
    ∃ r, parse sentence = .ok r.toTag ∧
      Rule.parse (join [','] inputs ++ '=' :: '>' :: join [','] outputs) = .ok r := by
  obtain ⟨is, his⟩ := exists_forall₂ fun c hc => (hinputs c hc).exists_clauseFor
  obtain ⟨os, hos⟩ := exists_forall₂ fun c hc => (houtputs c hc).exists_clauseFor
  have hplain : ∀ {cs : List Text} {ts : List Tag}, List.Forall₂ ClauseFor cs ts →
      ∀ c ∈ cs, Plainly c := by
    intro cs ts h c hc
    obtain ⟨t, -, ht⟩ := exists_mem_of_forall₂ h hc
    exact ht.plainly
  cases hsentence with
  | @intro w g premise g' w' g'' conclusion hw hg hpremise hg' hw' hg'' hconclusion =>
  refine ⟨⟨is, os⟩, ?_, ?_⟩
  · have hparts := InWords.ifThen?_eq (hplain his) (hplain hos) hw hg hpremise hg' hw' hg''
      hconclusion
    have hif : Solid w := hw.readAs.solid (forall_of_all (by decide)) (by decide)
    have hblank : allBlank (w ++ (g ++ (premise ++ (g' ++ (w' ++ (g'' ++ conclusion)))))) =
        false := by
      rw [← Bool.not_eq_true, ← stripStart_eq_nil_iff, (hif.append _).stripStart_eq]
      exact List.append_ne_nil_of_left_ne_nil hif.ne_nil _
    rw [parse, hblank]
    simp only [hparts, mapM_parseClause_of_clauseFor his hpremise,
      mapM_parseClause_of_clauseFor hos hconclusion]
    rfl
  · rw [← texts_eq_of_clauseFor his, ← texts_eq_of_clauseFor hos]
    refine Rule.parseWith_eq_ok_iff.mpr ⟨_, _, ?_,
      listRead_of_clauseFor his hpremise.clauses_ne_nil _,
      listRead_of_clauseFor hos hconclusion.clauses_ne_nil _⟩
    exact Rule.splitArrow?_text (isItem_of_clauseFor his)
      (fun r hr => (undisturbed_of_clauseFor his r hr).2.1) os

/-- Names that start like keywords, a bracket that is never closed, and a sign in front of the
arrow that could be taken for its start. -/
theorem parse_inWords_eq_arrowForm_keyword_names :
    let inputs := ["[then(?x,>3)".toList, "@and=".toList]
    let outputs := ["if(?x)".toList, "@-".toList]
    let sentence := "iF [then(?x,>3)\t AND @and= tHeN  if(?x) and @-".toList
    (∀ c ∈ inputs, IsClause c) ∧ (∀ c ∈ outputs, IsClause c) ∧ InWords inputs outputs sentence ∧
      ∃ r, parse sentence = .ok r.toTag ∧
        Rule.parse (join [','] inputs ++ '=' :: '>' :: join [','] outputs) = .ok r := by
  intro inputs outputs sentence
  have hinputs : ∀ c ∈ inputs, IsClause c := by
    rw [List.forall_mem_cons, List.forall_mem_singleton]
    exact ⟨.of_isOk (by decide +kernel) (by decide +kernel) (by decide +kernel),
      .recommendation "and=".toList rfl (by decide) (forall_of_all (by decide +kernel))
        (by decide +kernel) (by decide +kernel)⟩
  have houtputs : ∀ c ∈ outputs, IsClause c := by
    rw [List.forall_mem_cons, List.forall_mem_singleton]
    exact ⟨.of_isOk (by decide +kernel) (by decide +kernel) (by decide +kernel),
      .recommendation "-".toList rfl (by decide) (forall_of_all (by decide +kernel))
        (by decide +kernel) (by decide +kernel)⟩
  have hgap : ∀ g ∈ [[' '], ['\t', ' '], [' ', ' ']], Gap g := by
    intro g hg
    simp only [List.mem_cons, List.not_mem_nil, or_false] at hg
    rcases hg with rfl | rfl | rfl <;> exact ⟨by decide, forall_of_all (by decide)⟩
  have hsentence : InWords inputs outputs sentence :=
    @InWords.intro inputs outputs "iF".toList [' '] _ [' '] "tHeN".toList [' ', ' '] _ rfl
      (hgap _ (by decide))
      (@Conjunction.cons _ _ ['\t', ' '] "AND".toList [' '] _ (hgap _ (by decide)) rfl
        (hgap _ (by decide)) (.single _))
      (hgap _ (by decide)) rfl (hgap _ (by decide))
      (@Conjunction.cons _ _ [' '] "and".toList [' '] _ (hgap _ (by decide)) rfl
        (hgap _ (by decide)) (.single _))
  exact ⟨hinputs, houtputs, hsentence, parse_inWords_eq_arrowForm hinputs houtputs hsentence⟩

end Sentence
end TagReasoner
