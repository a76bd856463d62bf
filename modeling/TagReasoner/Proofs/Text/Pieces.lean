import TagReasoner.Text.Pieces
import Mathlib.Data.List.Infix
import Mathlib.Data.List.TakeWhile

/-!
# Pieces and blanks

A scan stops at the first character that it does not keep (`span_eq_iff`), and a cut is made at each
separator and nowhere else (`splitOn_append_cons`). Pieces without the separator that are put
together with `join` are what it is cut into again (`splitOn_join`). What is put together can be
taken apart by any predicate that keeps the separator (`filter_join`), each piece is still there
(`isInfix_join`), and trimming takes away blanks at the ends and nothing else (`isInfix_strip`,
`withoutBlanks_strip`).
-/

namespace TagReasoner
namespace Text

/-! ## Scanning and cutting -/

theorem span_of_forall {keep : Char → Bool} {t : Text} (h : ∀ c ∈ t, keep c = true) :
    t.span keep = (t, []) := by
  rw [List.span_eq_takeWhile_dropWhile, List.takeWhile_eq_self_iff.mpr h,
    List.dropWhile_eq_nil_iff.mpr h]

theorem span_append_cons {keep : Char → Bool} {s t : Text} {c : Char}
    (hs : ∀ d ∈ s, keep d = true) (hc : keep c = false) :
    (s ++ c :: t).span keep = (s, c :: t) := by
  rw [List.span_eq_takeWhile_dropWhile, List.takeWhile_append_of_pos hs,
    List.dropWhile_append_of_pos hs, List.takeWhile_cons_of_neg (by simp [hc]),
    List.dropWhile_cons_of_neg (by simp [hc]), List.append_nil]

/-- A scan that stops does so at the first character that is not kept. -/
theorem span_eq_iff {keep : Char → Bool} {t before rest : Text} {c : Char} :
    t.span keep = (before, c :: rest) ↔
      t = before ++ c :: rest ∧ (∀ d ∈ before, keep d = true) ∧ keep c = false := by
  constructor
  · intro h
    rw [List.span_eq_takeWhile_dropWhile, Prod.mk.injEq] at h
    obtain ⟨rfl, hrest⟩ := h
    refine ⟨?_, fun d hd => List.all_eq_true.mp List.all_takeWhile d hd, ?_⟩
    · rw [← hrest, List.takeWhile_append_dropWhile]
    · have hstop := List.head?_dropWhile_not keep t
      rw [hrest] at hstop
      simpa using hstop
  · rintro ⟨rfl, hbefore, hc⟩
    exact span_append_cons hbefore hc

/-- A scan that does not stop has kept everything. -/
theorem span_eq_nil_iff {keep : Char → Bool} {t before : Text} :
    t.span keep = (before, []) ↔ t = before ∧ ∀ c ∈ t, keep c = true := by
  constructor
  · intro h
    rw [List.span_eq_takeWhile_dropWhile, Prod.mk.injEq, List.dropWhile_eq_nil_iff] at h
    exact ⟨(List.takeWhile_eq_self_iff.mpr h.2).symm.trans h.1, h.2⟩
  · rintro ⟨rfl, h⟩
    exact span_of_forall h

theorem splitOn_of_not_mem {sep : Char} {t : Text} (h : sep ∉ t) : splitOn sep t = [t] := by
  induction t with
  | nil => rfl
  | cons c t ih =>
    rw [List.mem_cons, not_or] at h
    rw [splitOn, if_neg (Ne.symm h.1), ih h.2]
    rfl

theorem splitOn_append_cons {sep : Char} {s : Text} (h : sep ∉ s) (t : Text) :
    splitOn sep (s ++ sep :: t) = s :: splitOn sep t := by
  induction s with
  | nil => rw [List.nil_append, splitOn, if_pos rfl]
  | cons c s ih =>
    rw [List.mem_cons, not_or] at h
    rw [List.cons_append, splitOn, if_neg (Ne.symm h.1), ih h.2]
    rfl

theorem not_mem_of_mem_splitOn {sep : Char} {t p : Text} (hp : p ∈ splitOn sep t) : sep ∉ p := by
  induction t generalizing p with
  | nil =>
    rw [List.mem_singleton.mp hp]
    exact List.not_mem_nil
  | cons c t ih =>
    rw [splitOn] at hp
    split at hp
    next =>
      rcases List.mem_cons.mp hp with rfl | hp
      · exact List.not_mem_nil
      · exact ih hp
    next hc =>
      obtain ⟨q, qs, hq⟩ := List.exists_cons_of_ne_nil (splitOn_ne_nil sep t)
      rw [hq, consPiece, List.mem_cons] at hp
      rcases hp with rfl | hp
      · rw [List.mem_cons, not_or]
        exact ⟨Ne.symm hc, ih (hq ▸ List.mem_cons_self ..)⟩
      · exact ih (hq ▸ List.mem_cons_of_mem q hp)

/-! ## Joining -/

theorem join_cons {sep p : Text} {ps : List Text} (h : ps ≠ []) :
    join sep (p :: ps) = p ++ sep ++ join sep ps := by
  cases ps with
  | nil => exact absurd rfl h
  | cons q ps => rfl

/-- Pieces without the separator are found again where they were joined. -/
theorem splitOn_join {sep : Char} {ps : List Text} (hne : ps ≠ []) (h : ∀ p ∈ ps, sep ∉ p) :
    splitOn sep (join [sep] ps) = ps := by
  induction ps with
  | nil => exact absurd rfl hne
  | cons p ps ih =>
    obtain ⟨hp, hps⟩ := List.forall_mem_cons.mp h
    by_cases hnil : ps = []
    · subst hnil
      exact splitOn_of_not_mem hp
    · rw [join_cons hnil, List.append_assoc, List.singleton_append, splitOn_append_cons hp,
        ih hnil hps]

theorem join_consPiece (sep : Text) (c : Char) (ps : List Text) :
    join sep (consPiece c ps) = c :: join sep ps := by
  cases ps with
  | nil => rfl
  | cons p ps => cases ps <;> rfl

theorem filter_join {keep : Char → Bool} {sep : Char} (hsep : keep sep = true) (ps : List Text) :
    (join [sep] ps).filter keep = join [sep] (ps.map (List.filter keep)) := by
  induction ps with
  | nil => rfl
  | cons p ps ih =>
    cases hps : ps with
    | nil => rfl
    | cons q qs =>
      rw [← hps, List.map_cons, join_cons (by simp [hps]), join_cons (by simp [hps]),
        List.filter_append, List.filter_append, ih, List.filter_singleton, hsep]
      rfl

theorem mem_join {sep c : Char} {ps : List Text} (h : c ∈ join [sep] ps) :
    c = sep ∨ ∃ p ∈ ps, c ∈ p := by
  induction ps with
  | nil => cases h
  | cons p ps ih =>
    by_cases hps : ps = []
    · subst hps
      exact .inr ⟨p, List.mem_singleton_self p, h⟩
    · rw [join_cons hps, List.mem_append, List.mem_append, List.mem_singleton] at h
      rcases h with (h | h) | h
      · exact .inr ⟨p, List.mem_cons_self .., h⟩
      · exact .inl h
      · refine (ih h).imp_right ?_
        rintro ⟨q, hq, hcq⟩
        exact ⟨q, List.mem_cons_of_mem p hq, hcq⟩

theorem isPrefix_join (sep p : Text) (ps : List Text) : p <+: join sep (p :: ps) := by
  cases ps with
  | nil => exact List.prefix_refl p
  | cons q ps =>
    rw [join, List.append_assoc]
    exact List.prefix_append ..

theorem isInfix_join {sep p : Text} {ps : List Text} (h : p ∈ ps) : p <:+: join sep ps := by
  induction ps with
  | nil => cases h
  | cons q ps ih =>
    by_cases hps : ps = []
    · subst hps
      rw [List.mem_singleton.mp h]
      exact List.infix_refl q
    · rw [join_cons hps]
      rcases List.mem_cons.mp h with rfl | h
      · rw [List.append_assoc]
        exact (List.prefix_append ..).isInfix
      · exact (ih h).trans (List.suffix_append ..).isInfix

theorem head?_join {sep p : Text} {ps : List Text} (hp : p ≠ []) :
    (join sep (p :: ps)).head? = p.head? := by
  cases ps with
  | nil => rfl
  | cons q ps =>
    rw [join, List.append_assoc]
    exact List.head?_append_of_ne_nil p hp

theorem getLast?_join {sep p : Text} {ps : List Text} (hp : p ≠ []) (hlast : ps.getLast? = some p) :
    (join sep ps).getLast? = p.getLast? := by
  induction ps with
  | nil => cases hlast
  | cons q ps ih =>
    cases hps : ps with
    | nil =>
      rw [hps, List.getLast?_singleton, Option.some.injEq] at hlast
      rw [hlast]
      rfl
    | cons q' qs =>
      have hne : ps ≠ [] := by simp [hps]
      have hlast' : ps.getLast? = some p := by
        rwa [hps, List.getLast?_cons_cons, ← hps] at hlast
      have hrest := ih hlast'
      have hsome : join sep ps ≠ [] := by
        intro hnil
        rw [hnil, List.getLast?_nil, eq_comm, List.getLast?_eq_none_iff] at hrest
        exact hp hrest
      rw [← hps, join_cons hne, List.getLast?_append_of_ne_nil _ hsome, hrest]

/-! ## Blanks -/

/-- The text without its blanks, wherever they stand. -/
def withoutBlanks (t : Text) : Text := t.filter fun c => !isBlank c

theorem withoutBlanks_eq_self {t : Text} (h : ∀ c ∈ t, isBlank c = false) : withoutBlanks t = t :=
  List.filter_eq_self.mpr fun c hc => by rw [h c hc]; rfl

theorem isSuffix_stripStart (t : Text) : stripStart t <:+ t := List.dropWhile_suffix _

theorem isPrefix_stripEnd (t : Text) : stripEnd t <+: t := by
  have h := List.reverse_prefix.mpr (List.dropWhile_suffix isBlank (l := t.reverse))
  rwa [List.reverse_reverse] at h

theorem isInfix_strip (t : Text) : strip t <:+: t :=
  (isPrefix_stripEnd _).isInfix.trans (isSuffix_stripStart t).isInfix

theorem stripStart_eq_self {t : Text} (h : ∀ c ∈ t, isBlank c = false) : stripStart t = t := by
  cases t with
  | nil => rfl
  | cons c t =>
    rw [stripStart_cons, h c (List.mem_cons_self ..)]
    rfl

theorem strip_eq_self {t : Text} (h : ∀ c ∈ t, isBlank c = false) : strip t = t := by
  have hreverse : ∀ c ∈ t.reverse, isBlank c = false := fun c hc => h c (List.mem_reverse.mp hc)
  rw [strip, stripStart_eq_self h, stripEnd]
  exact (congrArg List.reverse (stripStart_eq_self hreverse)).trans t.reverse_reverse

theorem withoutBlanks_stripStart (t : Text) : withoutBlanks (stripStart t) = withoutBlanks t := by
  induction t with
  | nil => rfl
  | cons c t ih =>
    rw [stripStart_cons]
    cases hc : isBlank c with
    | true =>
      rw [if_pos rfl, ih, withoutBlanks, withoutBlanks, List.filter_cons_of_neg (by simp [hc])]
    | false => rfl

theorem withoutBlanks_strip (t : Text) : withoutBlanks (strip t) = withoutBlanks t := by
  have hreverse := withoutBlanks_stripStart (stripStart t).reverse
  rw [withoutBlanks, withoutBlanks, List.filter_reverse] at hreverse
  rw [strip, stripEnd, withoutBlanks, List.filter_reverse]
  exact (congrArg List.reverse hreverse).trans
    ((List.reverse_reverse _).trans (withoutBlanks_stripStart t))

end Text
end TagReasoner
