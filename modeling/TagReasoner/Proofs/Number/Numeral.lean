import TagReasoner.Proofs.Binary64.Display
import TagReasoner.Proofs.Text.Pieces
import TagReasoner.Number.Numeral

/-!
# Reading numbers that were written

What is read as a plain number is digits, perhaps with a minus sign in front and a fraction behind
(`isSome_plainNumber?_iff`). A whole number is read back from its digits, up to the most digits that
are read (`wholeNumber?_ofInt`). What the general style writes for a double can be read as a real
number (`isSome_realNumber?_general`), but it is no whole number where there is an exponent in it
(`wholeNumber?_of_mem`).
-/

namespace TagReasoner
namespace Number

open Text Binary64

/-! ## Numerals -/

theorem isDigit_digitChar {d : Nat} (hd : d < 10) : isDigit (digitChar d) = true := by
  rw [isDigit, digitValue?_digitChar d hd]
  rfl

theorem not_mem_of_isNumeral {t : Text} {c : Char} (h : IsNumeral t)
    (hc : ∀ d < 10, digitChar d ≠ c) : c ∉ t := by
  intro hmem
  obtain ⟨d, hd, hcd⟩ := h c hmem
  exact hc d hd hcd.symm

theorem ungrouped?_of_isNumeral {t : Text} (hne : t ≠ []) (h : IsNumeral t) :
    ungrouped? t = some t := by
  have hall : t.all isDigit = true :=
    List.all_eq_true.mpr (h.all fun _ => isDigit_digitChar)
  rw [ungrouped?, splitOn_of_not_mem (not_mem_of_isNumeral h (by decide +kernel))]
  simp [hne, hall]

theorem exists_digitChar_cons {t : Text} (hne : t ≠ []) (h : IsNumeral t) :
    ∃ d < 10, ∃ rest, t = digitChar d :: rest := by
  obtain ⟨c, rest, rfl⟩ := List.exists_cons_of_ne_nil hne
  obtain ⟨d, hd, rfl⟩ := h c (List.mem_cons_self ..)
  exact ⟨d, hd, rest, rfl⟩

/-! ## Signs -/

/-- A sign is told from a digit. -/
theorem takeSign_withSign (negative : Bool) {d : Nat} (hd : d < 10) (rest : Text) :
    takeSign (withSign negative (digitChar d :: rest)) = (negative, digitChar d :: rest) := by
  have hsign : ∀ d < 10, digitChar d ≠ '-' ∧ digitChar d ≠ '+' := by decide +kernel
  cases negative with
  | true => rfl
  | false =>
    rw [withSign, if_neg Bool.false_ne_true, takeSign]
    · intro r hr
      exact (hsign d hd).1 (List.cons.inj hr).1
    · intro r hr
      exact (hsign d hd).2 (List.cons.inj hr).1

/-! ## Plain numbers -/

/-- One digit or more, of any script. -/
def IsDigits (t : Text) : Prop := t ≠ [] ∧ ∀ c ∈ t, isDigit c = true

/-- Digits, perhaps with a point and more digits behind. -/
inductive IsUnsigned : Text → Prop
  | whole {whole : Text} (digits : IsDigits whole) : IsUnsigned whole
  | fraction {whole fraction : Text} (digits : IsDigits whole)
      (fraction_digits : IsDigits fraction) : IsUnsigned (whole ++ '.' :: fraction)

/-- A complete decimal number: perhaps a minus sign, digits, and perhaps a fraction. -/
inductive IsPlain : Text → Prop
  | signed {t : Text} (negative : Bool) (unsigned : IsUnsigned t) : IsPlain (withSign negative t)

theorem isDigits_iff {t : Text} : IsDigits t ↔ (!t.isEmpty && t.all isDigit) = true := by
  rw [IsDigits, Bool.and_eq_true, Bool.not_eq_true', List.isEmpty_eq_false_iff, List.all_eq_true]

theorem IsUnsigned.exists_cons {t : Text} (h : IsUnsigned t) :
    ∃ c r, t = c :: r ∧ isDigit c = true := by
  cases h with
  | whole h | fraction h =>
    obtain ⟨c, r, rfl⟩ := List.exists_cons_of_ne_nil h.1
    exact ⟨c, _, rfl, h.2 c (List.mem_cons_self ..)⟩

theorem takeMinus_withSign {t : Text} (h : IsUnsigned t) (negative : Bool) :
    takeMinus (withSign negative t) = (negative, t) := by
  obtain ⟨c, r, rfl, hc⟩ := h.exists_cons
  cases negative with
  | true => rfl
  | false =>
    rw [withSign, if_neg Bool.false_ne_true, takeMinus]
    intro s hs
    rw [(List.cons.inj hs).1] at hc
    exact absurd hc (by decide +kernel)

theorem withSign_takeMinus (t : Text) : withSign (takeMinus t).1 (takeMinus t).2 = t := by
  unfold takeMinus
  split <;> rfl

/-- Behind the sign, the digits are what is scanned. -/
theorem isSome_plainNumber?_iff_isUnsigned {t r : Text} {negative : Bool}
    (hsign : takeMinus t = (negative, r)) : (plainNumber? t).isSome = true ↔ IsUnsigned r := by
  have hpoint : isDigit '.' = false := by decide +kernel
  rw [plainNumber?, hsign]
  constructor
  · intro h
    simp only at h
    split at h
    next => cases h
    next whole hne hspan =>
      obtain ⟨rfl, hdigits⟩ := span_eq_nil_iff.mp hspan
      exact .whole ⟨hne, hdigits⟩
    next whole fraction hne hspan =>
      obtain ⟨rfl, hdigits, -⟩ := span_eq_iff.mp hspan
      by_cases hfraction : (!fraction.isEmpty && fraction.all isDigit) = true
      · exact .fraction ⟨hne, hdigits⟩ (isDigits_iff.mpr hfraction)
      · rw [if_neg hfraction] at h
        cases h
    next => cases h
  · intro h
    cases h with
    | whole h =>
      obtain ⟨c, s, rfl⟩ := List.exists_cons_of_ne_nil h.1
      simp only [span_of_forall h.2]
      rfl
    | @fraction whole fraction h hfraction =>
      obtain ⟨c, s, rfl⟩ := List.exists_cons_of_ne_nil h.1
      simp only [span_append_cons h.2 hpoint, if_pos (isDigits_iff.mp hfraction)]
      rfl

/-- The complete decimal numbers are just the texts that arguments read as numbers. -/
theorem isSome_plainNumber?_iff {t : Text} : (plainNumber? t).isSome = true ↔ IsPlain t := by
  constructor
  · intro h
    rw [← withSign_takeMinus t]
    exact .signed _ ((isSome_plainNumber?_iff_isUnsigned rfl).mp h)
  · rintro ⟨negative, h⟩
    exact (isSome_plainNumber?_iff_isUnsigned (takeMinus_withSign h negative)).mpr h

/-! ## Whole numbers -/

theorem wholeNumber?_withSign {t : Text} (hne : t ≠ []) (h : IsNumeral t)
    (hlength : t.length ≤ digitLimit) (negative : Bool) : wholeNumber? (withSign negative t) =
      some (if negative then -(digitsValue t : Int) else digitsValue t) := by
  have hblank : ∀ c ∈ t, isBlank c = false := by
    simpa using h.all (p := fun c => !isBlank c) (by decide +kernel)
  obtain ⟨d, hd, rest, ht⟩ := exists_digitChar_cons hne h
  rw [wholeNumber?, strip_eq_self (not_isBlank_withSign hblank negative), ht,
    takeSign_withSign negative hd, ← ht]
  simp [ungrouped?_of_isNumeral hne h, hlength]

/-- A whole number is read back from its digits. -/
theorem wholeNumber?_ofInt {z : Int} (h : (Text.ofNat z.natAbs).length ≤ digitLimit) :
    wholeNumber? (Text.ofInt z) = some z := by
  have hread := wholeNumber?_withSign (ofNat_ne_nil _) (isNumeral_ofNat z.natAbs) h (z < 0)
  rw [digitsValue_ofNat] at hread
  by_cases hz : z < 0
  · rw [decide_eq_true hz] at hread
    rw [Text.ofInt, if_pos hz]
    exact hread.trans (congrArg some (by simp only [if_true]; omega))
  · rw [decide_eq_false hz] at hread
    rw [Text.ofInt, if_neg hz]
    exact hread.trans (congrArg some (by simp only [Bool.false_eq_true, if_false]; omega))

theorem mem_takeSign {t : Text} {c : Char} (hc : c ∈ t) (hminus : c ≠ '-') (hplus : c ≠ '+') :
    c ∈ (takeSign t).2 := by
  unfold takeSign
  split
  next => exact (List.mem_cons.mp hc).resolve_left hminus
  next => exact (List.mem_cons.mp hc).resolve_left hplus
  next => exact hc

/-- A character that can stand nowhere in a whole number. -/
theorem wholeNumber?_of_mem {t : Text} {c : Char} (hc : c ∈ t) (hblank : isBlank c = false)
    (hdigit : isDigit c = false) (hmark : c ∉ ['-', '+', '_']) : wholeNumber? t = none := by
  simp only [List.mem_cons, List.not_mem_nil, or_false, not_or] at hmark
  obtain ⟨hminus, hplus, hunderscore⟩ := hmark
  have hstrip : c ∈ strip t := by
    have hkept : c ∈ withoutBlanks t := List.mem_filter.mpr ⟨hc, by rw [hblank]; rfl⟩
    rw [← withoutBlanks_strip] at hkept
    exact (List.mem_filter.mp hkept).1
  have hrest := mem_takeSign hstrip hminus hplus
  have hungrouped : ungrouped? (takeSign (strip t)).2 = none := by
    rw [ungrouped?]
    refine if_neg fun hgroups => ?_
    rw [List.all_eq_true] at hgroups
    rw [← join_splitOn '_' (takeSign (strip t)).2] at hrest
    rcases mem_join hrest with hsep | ⟨group, hgroup, hmem⟩
    · exact hunderscore hsep
    · have hall := (Bool.and_eq_true_iff.mp (hgroups group hgroup)).2
      rw [List.all_eq_true.mp hall c hmem] at hdigit
      cases hdigit
  rw [wholeNumber?]
  simp only [hungrouped]
  rfl

/-! ## Real numbers -/

theorem isSome_decimal? {t : Text} (h : IsMantissa t) (negative : Bool) (e : Int) :
    (decimal? negative t e).isSome = true := by
  cases h with
  | whole hne hnumeral =>
    rw [decimal?, splitOn_of_not_mem (not_mem_of_isNumeral hnumeral (by decide +kernel))]
    simp [ungrouped?_of_isNumeral hne hnumeral]
  | fraction hne hnumeral hfne hfnumeral =>
    rw [decimal?, splitOn_append_cons (not_mem_of_isNumeral hnumeral (by decide +kernel)),
      splitOn_of_not_mem (not_mem_of_isNumeral hfnumeral (by decide +kernel))]
    simp [ungroupedOrNil?, hne, hfne, ungrouped?_of_isNumeral hne hnumeral,
      ungrouped?_of_isNumeral hfne hfnumeral]

/-- The power of ten that stands behind the letter of an exponent. -/
theorem exists_exponent? (e : Int) :
    ∃ power, exponentText e = 'e' :: power ∧ (exponent? power).isSome = true := by
  obtain ⟨digits, hne, hnumeral, htext⟩ := exponentText_eq e
  refine ⟨_, htext, ?_⟩
  have hsign : (takeSign ((if e < 0 then '-' else '+') :: digits)).2 = digits := by
    by_cases he : e < 0
    · rw [if_pos he]
      rfl
    · rw [if_neg he]
      rfl
  rw [exponent?]
  simp only [hsign, ungrouped?_of_isNumeral hne hnumeral]
  rfl

theorem exists_digitChar_cons_of_isMantissa {t : Text} (h : IsMantissa t) :
    ∃ d < 10, ∃ rest, t = digitChar d :: rest := by
  cases h with
  | whole hne hnumeral => exact exists_digitChar_cons hne hnumeral
  | fraction hne hnumeral =>
    obtain ⟨d, hd, rest, rfl⟩ := exists_digitChar_cons hne hnumeral
    exact ⟨d, hd, _, rfl⟩

theorem letterless_of_isMantissa {t : Text} (h : IsMantissa t) :
    ∀ c ∈ t, (!(c = 'e' || c = 'E')) = true :=
  h.forall_mem (p := fun c => !(c = 'e' || c = 'E')) (by decide +kernel) (by decide)

/-- A text with a digit in front is not one of the names of special values. -/
theorem not_name_of_digit {d : Nat} (hd : d < 10) (rest : Text) :
    lowerAscii (digitChar d :: rest) ≠ ['n', 'a', 'n'] ∧
      infinityNames.contains (lowerAscii (digitChar d :: rest)) = false := by
  have hletter : ∀ d < 10, (digitChar d).toLower ≠ 'n' ∧ (digitChar d).toLower ≠ 'i' := by
    decide +kernel
  obtain ⟨hn, hi⟩ := hletter d hd
  refine ⟨fun h => hn (List.cons.inj h).1, ?_⟩
  simp only [infinityNames, List.contains_eq_mem, List.mem_cons, List.not_mem_nil, or_false,
    decide_eq_false_iff_not, not_or]
  exact ⟨fun h => hi (List.cons.inj h).1, fun h => hi (List.cons.inj h).1⟩

section Scan

variable {t rest mantissa power : Text} {d : Nat} {negative : Bool}

/-- A number without the letter of an exponent. -/
theorem realNumber?_of_positional (hd : d < 10)
    (hsign : takeSign (strip t) = (negative, digitChar d :: rest))
    (hspan : (digitChar d :: rest).span (fun c => !(c = 'e' || c = 'E')) = (mantissa, [])) :
    realNumber? t = decimal? negative mantissa 0 := by
  obtain ⟨hnan, hinf⟩ := not_name_of_digit hd rest
  rw [realNumber?, hsign]
  simp only [if_neg hnan, hinf, Bool.false_eq_true, if_false, hspan]

/-- A number with an exponent behind its letter. -/
theorem realNumber?_of_scientific {letter : Char} (hd : d < 10)
    (hsign : takeSign (strip t) = (negative, digitChar d :: rest))
    (hspan : (digitChar d :: rest).span (fun c => !(c = 'e' || c = 'E')) =
      (mantissa, letter :: power)) :
    realNumber? t = (exponent? power).bind (decimal? negative mantissa) := by
  obtain ⟨hnan, hinf⟩ := not_name_of_digit hd rest
  rw [realNumber?, hsign]
  simp only [if_neg hnan, hinf, Bool.false_eq_true, if_false, hspan]

end Scan

/-- A decimal is read. -/
theorem isSome_realNumber? {t : Text} (h : IsDecimal t) (negative : Bool) :
    (realNumber? (withSign negative t)).isSome = true := by
  have hstrip := strip_eq_self (not_isBlank_withSign h.not_isBlank negative)
  cases h with
  | positional hm =>
    obtain ⟨d, hd, rest, rfl⟩ := exists_digitChar_cons_of_isMantissa hm
    have hsign := takeSign_withSign negative hd rest
    have hspan := span_of_forall (letterless_of_isMantissa hm)
    rw [realNumber?_of_positional hd (hstrip.symm ▸ hsign) hspan]
    exact isSome_decimal? hm negative 0
  | @scientific m hm e =>
    obtain ⟨d, hd, rest, hrest⟩ := exists_digitChar_cons_of_isMantissa hm
    obtain ⟨power, hpower, hsome⟩ := exists_exponent? e
    obtain ⟨exponent, hexponent⟩ := Option.isSome_iff_exists.mp hsome
    have hcons : m ++ exponentText e = digitChar d :: (rest ++ 'e' :: power) := by
      rw [hrest, hpower, List.cons_append]
    have hsign := takeSign_withSign negative hd (rest ++ 'e' :: power)
    have hspan : (digitChar d :: (rest ++ 'e' :: power)).span (fun c => !(c = 'e' || c = 'E')) =
        (m, 'e' :: power) := by
      rw [← hcons, hpower]
      exact span_append_cons (letterless_of_isMantissa hm) (by decide)
    rw [hcons] at hstrip ⊢
    rw [realNumber?_of_scientific hd (hstrip.symm ▸ hsign) hspan, hexponent, Option.bind_some]
    exact isSome_decimal? hm negative exponent

/-- What the general style writes can be read. -/
theorem isSome_realNumber?_general (x : Binary64) : (realNumber? x.general).isSome = true := by
  rcases general_cases x with rfl | ⟨negative, rfl⟩ | ⟨negative, t, ht, hx⟩
  · decide
  · cases negative <;> decide
  · rw [hx]
    exact isSome_realNumber? ht negative

end Number
end TagReasoner
