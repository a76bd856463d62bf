import TagReasoner.Proofs.Tag.Reading

/-!
# Lists of tags and their commas

Which commas separate the tags of a list is a matter of counting: a comma is at the top level when
as many parentheses have been closed as opened in front of it. `commaPieces` are the texts between
consecutive commas of this kind, told from their places. Cutting a list with a depth in hand finds
the same pieces, and it fails just when the parentheses do not balance
(`topLevelPieces?_eq_some_iff`). So `splitTagList_at_topLevelCommas` says for every text whether it
is a list and what its items are.
-/

namespace TagReasoner

open Text

/-- The text without the blanks around it, and without brackets if the rest has both. -/
def Text.listBody (v : Text) : Text :=
  if (strip v).head? = some '[' ∧ (strip v).getLast? = some ']' then (strip v).tail.dropLast
  else strip v

/-- No prefix closes more parentheses than it opens, and the whole closes as many. -/
structure Text.Balanced (t : Text) : Prop where
  prefixes : ∀ p, p <+: t → p.count ')' ≤ p.count '('
  whole : t.count '(' = t.count ')'

/-- The same with some parentheses open in front of the text. -/
structure Text.BalancedFrom (depth : Nat) (t : Text) : Prop where
  prefixes : ∀ p, p <+: t → p.count ')' ≤ depth + p.count '('
  whole : depth + t.count '(' = t.count ')'

/-- The places of the commas in front of which as many parentheses are closed as opened, with some
open before the text. -/
def Text.commaPlacesFrom (depth : Nat) (t : Text) : List Nat :=
  (List.range t.length).filter fun i =>
    t[i]? == some ',' && depth + (t.take i).count '(' == (t.take i).count ')'

/-- What a text holds from a place on, between separators at the places listed. -/
def Text.piecesBetween (t : Text) : Nat → List Nat → List Text
  | start, [] => [t.drop start]
  | start, i :: is => (t.drop start).take (i - start) :: piecesBetween t (i + 1) is

/-- The pieces between consecutive top-level commas. -/
def Text.commaPieces (t : Text) : List Text := piecesBetween t 0 (commaPlacesFrom 0 t)

theorem Text.balancedFrom_zero_iff {t : Text} : BalancedFrom 0 t ↔ Balanced t := by
  constructor
  · intro h
    exact ⟨fun p hp => by simpa using h.prefixes p hp, by simpa using h.whole⟩
  · intro h
    exact ⟨fun p hp => by simpa using h.prefixes p hp, by simpa using h.whole⟩

/-! ## One character more in front -/

/-- How many parentheses are open behind a character. -/
def depthBehind (depth : Nat) (c : Char) : Nat :=
  if c = '(' then depth + 1 else if c = ')' then depth - 1 else depth

section Cons

variable {depth : Nat} {c : Char}

/-- Counting from behind a character comes to the same, unless that closes what is not open. -/
theorem depthBehind_add_count (hc : c = ')' → depth ≠ 0) (p : Text) :
    (depthBehind depth c + p.count '(' = p.count ')' ↔
        depth + (c :: p).count '(' = (c :: p).count ')') ∧
      (p.count ')' ≤ depthBehind depth c + p.count '(' ↔
        (c :: p).count ')' ≤ depth + (c :: p).count '(') := by
  unfold depthBehind
  by_cases hopen : c = '('
  · subst hopen
    simp only [if_true, List.count_cons_self, List.count_cons_of_ne (show '(' ≠ ')' by decide)]
    omega
  · by_cases hclose : c = ')'
    · subst hclose
      have := hc rfl
      simp only [if_neg hopen, if_true, List.count_cons_self,
        List.count_cons_of_ne (show ')' ≠ '(' by decide)]
      omega
    · simp only [if_neg hopen, if_neg hclose, List.count_cons_of_ne hopen,
        List.count_cons_of_ne hclose, and_self]

theorem balancedFrom_cons_iff {t : Text} :
    BalancedFrom depth (c :: t) ↔ (c = ')' → depth ≠ 0) ∧ BalancedFrom (depthBehind depth c) t := by
  constructor
  · intro h
    have hc : c = ')' → depth ≠ 0 := by
      rintro rfl rfl
      have := h.prefixes [')'] (List.prefix_append [')'] t)
      simp at this
    refine ⟨hc, fun p hp => ?_, ((depthBehind_add_count hc t).1).mpr h.whole⟩
    exact ((depthBehind_add_count hc p).2).mpr (h.prefixes _ (List.cons_prefix_cons.mpr ⟨rfl, hp⟩))
  · rintro ⟨hc, h⟩
    refine ⟨fun p hp => ?_, ((depthBehind_add_count hc t).1).mp h.whole⟩
    cases p with
    | nil => exact Nat.zero_le _
    | cons d p =>
      obtain ⟨rfl, hpt⟩ := List.cons_prefix_cons.mp hp
      exact ((depthBehind_add_count hc p).2).mp (h.prefixes p hpt)

theorem commaPlacesFrom_cons (hc : c = ')' → depth ≠ 0) (t : Text) :
    commaPlacesFrom depth (c :: t) =
      (if c = ',' ∧ depth = 0 then [0] else []) ++
        (commaPlacesFrom (depthBehind depth c) t).map (· + 1) := by
  have hplace : ∀ i, (depth + ((c :: t).take (i + 1)).count '(' ==
      ((c :: t).take (i + 1)).count ')') =
        (depthBehind depth c + (t.take i).count '(' == (t.take i).count ')') := by
    intro i
    rw [Bool.eq_iff_iff, beq_iff_eq, beq_iff_eq, List.take_succ_cons]
    exact (depthBehind_add_count hc (t.take i)).1.symm
  have hfirst : ((c :: t)[0]? == some ',' && depth + ((c :: t).take 0).count '(' ==
      ((c :: t).take 0).count ')') = decide (c = ',' ∧ depth = 0) := by
    simp [Bool.beq_eq_decide_eq]
  rw [commaPlacesFrom, List.length_cons, List.range_succ_eq_map, List.filter_cons, hfirst,
    List.filter_map]
  simp only [Function.comp_def, Nat.succ_eq_add_one, hplace, List.getElem?_cons_succ,
    decide_eq_true_eq]
  split <;> rfl

/-- Pieces that begin behind the first character are those of the rest. -/
theorem piecesBetween_cons (t : Text) (start : Nat) (is : List Nat) :
    piecesBetween (c :: t) (start + 1) (is.map (· + 1)) = piecesBetween t start is := by
  induction is generalizing start with
  | nil => rfl
  | cons i is ih =>
    rw [List.map_cons, piecesBetween, piecesBetween, ih, List.drop_succ_cons, Nat.add_sub_add_right]

theorem piecesBetween_zero_cons (t : Text) (is : List Nat) :
    piecesBetween (c :: t) 0 (is.map (· + 1)) = consPiece c (piecesBetween t 0 is) := by
  cases is with
  | nil => rfl
  | cons i is =>
    rw [List.map_cons, piecesBetween, piecesBetween, piecesBetween_cons, List.drop_zero,
      List.drop_zero, Nat.sub_zero, Nat.sub_zero, List.take_succ_cons, consPiece]

theorem topLevelPieces?_cons (t : Text) :
    topLevelPieces? depth (c :: t) =
      if c = ')' ∧ depth = 0 then none
      else (topLevelPieces? (depthBehind depth c) t).map
        (if c = ',' ∧ depth = 0 then ([] :: ·) else consPiece c) := by
  by_cases hopen : c = '('
  · subst hopen
    simp [topLevelPieces?, depthBehind]
  · by_cases hclose : c = ')'
    · subst hclose
      cases depth <;> simp [topLevelPieces?, depthBehind]
    · by_cases hcomma : c = ',' ∧ depth = 0
      · obtain ⟨rfl, rfl⟩ := hcomma
        simp [topLevelPieces?, depthBehind]
      · rw [topLevelPieces?_cons_of_ne hopen hclose fun hc hdepth => hcomma ⟨hc, hdepth⟩]
        simp [depthBehind, hopen, hclose, hcomma]

end Cons

/-! ## The whole list -/

/-- Cutting with a depth in hand is cutting at the commas that counting finds. -/
theorem topLevelPieces?_eq_some_iff {depth : Nat} {t : Text} {ps : List Text} :
    topLevelPieces? depth t = some ps ↔
      BalancedFrom depth t ∧ ps = piecesBetween t 0 (commaPlacesFrom depth t) := by
  induction t generalizing depth ps with
  | nil =>
    have hbalanced : BalancedFrom depth [] ↔ depth = 0 :=
      ⟨fun h => h.whole, fun h => ⟨fun p hp => by simp [List.prefix_nil.mp hp], h⟩⟩
    rw [hbalanced]
    cases depth with
    | zero =>
      rw [topLevelPieces?, Option.some.injEq, eq_comm]
      exact (and_iff_right rfl).symm
    | succ depth => simp [topLevelPieces?]
  | cons c t ih =>
    rw [topLevelPieces?_cons, balancedFrom_cons_iff]
    by_cases hc : c = ')' ∧ depth = 0
    · rw [if_pos hc]
      constructor
      · intro h
        cases h
      · rintro ⟨⟨hopen, -⟩, -⟩
        exact absurd hc.2 (hopen hc.1)
    · have hc' : c = ')' → depth ≠ 0 := fun h hdepth => hc ⟨h, hdepth⟩
      rw [if_neg hc, commaPlacesFrom_cons hc']
      have hpieces : piecesBetween (c :: t) 0 ((if c = ',' ∧ depth = 0 then [0] else []) ++
            (commaPlacesFrom (depthBehind depth c) t).map (· + 1)) =
          (if c = ',' ∧ depth = 0 then ([] :: ·) else consPiece c)
            (piecesBetween t 0 (commaPlacesFrom (depthBehind depth c) t)) := by
        split
        · exact congrArg ([] :: ·) (piecesBetween_cons t 0 _)
        · exact piecesBetween_zero_cons t _
      rw [hpieces, Option.map_eq_some_iff]
      constructor
      · rintro ⟨qs, hqs, rfl⟩
        obtain ⟨hbalanced, rfl⟩ := ih.mp hqs
        exact ⟨⟨hc', hbalanced⟩, rfl⟩
      · rintro ⟨⟨-, hbalanced⟩, rfl⟩
        exact ⟨_, ih.mpr ⟨hbalanced, rfl⟩, rfl⟩

theorem Text.unbracketed_strip (v : Text) : unbracketed (strip v) = listBody v := by
  unfold listBody
  split
  next h =>
    obtain ⟨inner, hinner⟩ := exists_bracketed h.1 h.2
    rw [hinner, unbracketed_bracketed, List.tail_cons, List.dropLast_concat]
  next h => exact unbracketed_eq_self h

theorem piecesBetween_ne_nil (t : Text) (start : Nat) (is : List Nat) :
    piecesBetween t start is ≠ [] := by
  cases is <;> exact List.cons_ne_nil _ _

/-- Nothing is lost between the places of commas. -/
theorem join_piecesBetween {t : Text} {start : Nat} {is : List Nat} (hsorted : is.Pairwise (· < ·))
    (hcommas : ∀ i ∈ is, start ≤ i ∧ t[i]? = some ',') :
    join [','] (piecesBetween t start is) = t.drop start := by
  induction is generalizing start with
  | nil => rfl
  | cons i is ih =>
    obtain ⟨⟨hstart, hi⟩, hrest⟩ := List.forall_mem_cons.mp hcommas
    obtain ⟨hlater, hsorted⟩ := List.pairwise_cons.mp hsorted
    obtain ⟨hlt, hcomma⟩ := List.getElem?_eq_some_iff.mp hi
    have hrest : join [','] (piecesBetween t (i + 1) is) = t.drop (i + 1) :=
      ih hsorted fun j hj => ⟨hlater j hj, (hrest j hj).2⟩
    calc join [','] (piecesBetween t start (i :: is))
      _ = (t.drop start).take (i - start) ++ [','] ++ t.drop (i + 1) := by
        rw [piecesBetween, join_cons (piecesBetween_ne_nil t _ is), hrest]
      _ = (t.drop start).take (i - start) ++ t.drop i := by
        rw [List.append_assoc, List.drop_eq_getElem_cons hlt, hcomma, List.singleton_append]
      _ = (t.drop start).take (i - start) ++ (t.drop start).drop (i - start) := by
        rw [List.drop_drop, Nat.add_sub_cancel' hstart]
      _ = t.drop start := List.take_append_drop _ _

theorem join_commaPieces (t : Text) : join [','] (commaPieces t) = t := by
  refine join_piecesBetween (List.pairwise_lt_range.filter _) fun i hi => ⟨Nat.zero_le i, ?_⟩
  have hcomma := (List.mem_filter.mp hi).2
  rw [Bool.and_eq_true, beq_iff_eq] at hcomma
  exact hcomma.1

/-- Reading a list asks for balance first, then whether it is blank, then whether a piece is. -/
theorem splitTagList_eq_ok_iff_commaPieces {v : Text} {items : List Text} :
    splitTagList v = .ok items ↔ Balanced (listBody v) ∧
      if allBlank (listBody v) then items = []
      else (∀ p ∈ commaPieces (listBody v), allBlank p = false) ∧
        items = (commaPieces (listBody v)).map strip := by
  rw [splitTagList, unbracketed_strip]
  cases hpieces : topLevelPieces? 0 (listBody v) with
  | none =>
    have hunbalanced : ¬ Balanced (listBody v) := by
      intro hbalanced
      rw [topLevelPieces?_eq_some_iff.mpr ⟨balancedFrom_zero_iff.mpr hbalanced, rfl⟩] at hpieces
      cases hpieces
    simp [hunbalanced]
  | some ps =>
    obtain ⟨hbalanced, hps⟩ := topLevelPieces?_eq_some_iff.mp hpieces
    have hps : commaPieces (listBody v) = ps := hps.symm
    rw [hps, and_iff_right (balancedFrom_zero_iff.mp hbalanced)]
    dsimp only
    cases hblank : allBlank (listBody v) with
    | true =>
      simp only [if_true, Except.ok.injEq]
      exact eq_comm
    | false =>
      have hany : ps.any allBlank = false ↔ ∀ p ∈ ps, allBlank p = false := by
        simp only [List.any_eq_false, Bool.not_eq_true]
      rw [← hany]
      cases ps.any allBlank with
      | true => simp
      | false =>
        simp only [Bool.false_eq_true, if_false, true_and, Except.ok.injEq]
        exact eq_comm

/-- A list can be read just when its parentheses balance and, unless all of it is blank, no piece
between top-level commas is. Its items are then those pieces, trimmed, in order. -/
theorem splitTagList_at_topLevelCommas (v : Text) :
    ((∃ items, splitTagList v = .ok items) ↔
        Balanced (listBody v) ∧
          (allBlank (listBody v) = true ∨ ∀ p ∈ commaPieces (listBody v), allBlank p = false)) ∧
      (∀ items, splitTagList v = .ok items →
        items = if allBlank (listBody v) then [] else (commaPieces (listBody v)).map strip) ∧
      join [','] (commaPieces (listBody v)) = listBody v := by
  refine ⟨?_, fun items h => ?_, join_commaPieces (listBody v)⟩
  · simp only [splitTagList_eq_ok_iff_commaPieces, exists_and_left]
    refine and_congr_right fun _ => ?_
    cases allBlank (listBody v) <;> simp
  · have hitems := (splitTagList_eq_ok_iff_commaPieces.mp h).2
    cases hblank : allBlank (listBody v) <;> simp_all

/-- Commas inside parentheses cut nothing, and pieces are not trimmed. -/
example : commaPieces ['A', '(', 'x', ',', 'y', ')', ',', ' ', '@', 'b'] =
    [['A', '(', 'x', ',', 'y', ')'], [' ', '@', 'b']] := by decide

end TagReasoner
