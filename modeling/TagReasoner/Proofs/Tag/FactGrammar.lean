import TagReasoner.Proofs.Number.Numeral
import TagReasoner.Proofs.Tag.Reading

/-!
# The grammar of facts

A fact is written as a name, a parenthesis, tokens between commas and a parenthesis
(`Fact.Form`). The name and the tokens are not empty and hold no parentheses, commas or blanks, and
a token that is a number behind a run of operator characters has an operator that is known
(`Fact.IsToken`). A text has this form in one way at most (`Fact.Form.unique`), and the texts of
this form are just those that are read as facts: the fact has the name, the arguments that the
tokens are read as, and displays the text again (`Fact.parse_iff_form`).

Only in front of a number does a run of operator characters have to be known. The minus sign of a
number and its digits are no operator characters, so the run that a token starts with ends just
where the number begins (`span_operator`).
-/

namespace TagReasoner

open Text

/-! ## Operators and numbers -/

/-- The ways to write an operator; equality may go without one. -/
def Relation.spellings : Relation → List Text
  | eq => [[], ['='], ['=', '=']]
  | ne => [['!'], ['!', '=']]
  | gt => [['>']]
  | lt => [['<']]
  | ge => [['>', '=']]
  | le => [['<', '=']]

theorem Relation.ofRun_eq_ok_iff {run : Text} {r : Relation} :
    ofRun run = .ok r ↔ run ∈ r.spellings := by
  constructor
  · intro h
    unfold ofRun at h
    split at h <;> cases h <;> simp [spellings]
  · intro h
    cases r <;> simp only [spellings, List.mem_cons, List.not_mem_nil, or_false] at h
    case eq => rcases h with rfl | rfl | rfl <;> rfl
    case ne => rcases h with rfl | rfl <;> rfl
    case gt | lt | ge | le => subst h; rfl

theorem isDigit_of_isOperatorChar {c : Char} (h : isOperatorChar c = true) :
    isDigit c = false := by
  simp only [isOperatorChar, Bool.or_eq_true, decide_eq_true_eq] at h
  rcases h with ((rfl | rfl) | rfl) | rfl <;> decide +kernel

theorem Number.IsPlain.exists_cons {t : Text} (h : Number.IsPlain t) :
    ∃ c r, t = c :: r ∧ isOperatorChar c = false := by
  obtain ⟨negative, hunsigned⟩ := h
  cases negative with
  | true => exact ⟨'-', _, rfl, by decide⟩
  | false =>
    obtain ⟨c, r, rfl, hc⟩ := hunsigned.exists_cons
    refine ⟨c, r, rfl, Bool.eq_false_iff.mpr fun hoperator => ?_⟩
    rw [isDigit_of_isOperatorChar hoperator] at hc
    cases hc

/-- The run in front of a number is just the operator characters that the token starts with. -/
theorem span_operator {run number : Text} (hrun : ∀ c ∈ run, isOperatorChar c = true)
    (hnumber : Number.IsPlain number) :
    (run ++ number).span isOperatorChar = (run, number) := by
  obtain ⟨c, r, rfl, hc⟩ := hnumber.exists_cons
  exact span_append_cons hrun hc

namespace Argument

/-- Where the token is a number behind a run of operator characters, the operator is known. -/
def HasKnownOperator (token : Text) : Prop :=
  ∀ run number, token = run ++ number → (∀ c ∈ run, isOperatorChar c = true) →
    Number.IsPlain number → ∃ r : Relation, run ∈ r.spellings

/-- The operator is asked for at one place only, the end of the longest run. -/
theorem hasKnownOperator_iff_of_span {token run rest : Text}
    (hspan : token.span isOperatorChar = (run, rest)) :
    HasKnownOperator token ↔ (Number.IsPlain rest → ∃ r : Relation, run ∈ r.spellings) := by
  constructor
  · intro h
    rw [List.span_eq_takeWhile_dropWhile, Prod.mk.injEq] at hspan
    obtain ⟨rfl, rfl⟩ := hspan
    exact h _ _ List.takeWhile_append_dropWhile.symm fun c hc =>
      List.all_eq_true.mp List.all_takeWhile c hc
  · rintro h run' number rfl hrun hnumber
    rw [span_operator hrun hnumber] at hspan
    cases hspan
    exact h hnumber

/-- The tokens that are read as arguments. -/
theorem exists_parse_eq_ok_iff {token : Text} : (∃ a, parse token = .ok a) ↔
    token ≠ [] ∧ (∀ c ∈ token, isBlank c = false) ∧ HasKnownOperator token := by
  have hread : (token.isEmpty || token.any isBlank) = false ↔
      token ≠ [] ∧ ∀ c ∈ token, isBlank c = false := by
    simp only [Bool.or_eq_false_iff, List.isEmpty_eq_false_iff, List.any_eq_false,
      Bool.not_eq_true, ne_eq]
  rw [← and_assoc, ← hread, parse]
  cases hwritten : token.isEmpty || token.any isBlank with
  | true => simp
  | false =>
    obtain ⟨run, rest, hspan⟩ : ∃ run rest, token.span isOperatorChar = (run, rest) := ⟨_, _, rfl⟩
    rw [hasKnownOperator_iff_of_span hspan, ← Number.isSome_plainNumber?_iff, hspan]
    cases hnumber : Number.plainNumber? rest with
    | none => simp [hnumber]
    | some value => simp [hnumber, map_eq_ok_iff, Relation.ofRun_eq_ok_iff]

end Argument

/-! ## The form of a fact -/

namespace Fact

/-- What may stand between the commas of a fact. -/
structure IsToken (token : Text) : Prop where
  ne_nil : token ≠ []
  chars : ∀ c ∈ token, isNameChar c = true
  operator : Argument.HasKnownOperator token

/-- The text is the name with the tokens behind it, in parentheses and between commas. -/
structure Form (name : Text) (tokens : List Text) (t : Text) : Prop where
  text : t = name ++ '(' :: (join [','] tokens ++ [')'])
  named : name ≠ []
  name_chars : ∀ c ∈ name, isNameChar c = true
  tokens : ∀ token ∈ tokens, IsToken token

theorem isNameChar_iff {c : Char} :
    isNameChar c = true ↔ (c ≠ '(' ∧ c ≠ ')') ∧ c ≠ ',' ∧ isBlank c = false := by
  simp [isNameChar, and_assoc]

theorem isBodyChar_iff {c : Char} : isBodyChar c = true ↔ c ≠ '(' ∧ c ≠ ')' := by
  simp [isBodyChar]

theorem IsToken.exists_parse_eq_ok {token : Text} (h : IsToken token) :
    ∃ a, Argument.parse token = .ok a :=
  Argument.exists_parse_eq_ok_iff.mpr
    ⟨h.ne_nil, fun c hc => (isNameChar_iff.mp (h.chars c hc)).2.2, h.operator⟩

theorem IsToken.comma_not_mem {token : Text} (h : IsToken token) : ',' ∉ token :=
  fun hcomma => (isNameChar_iff.mp (h.chars _ hcomma)).2.1 rfl

theorem mem_of_mem_tokens {body token : Text} {c : Char} (htoken : token ∈ tokens body)
    (hc : c ∈ token) : c ∈ body := by
  rw [← join_tokens body]
  exact (isInfix_join htoken).subset hc

/-- A token of a body that can be read is one that may stand in a fact. -/
theorem isToken_of_mem_tokens {body token : Text} {a : Argument}
    (hbody : ∀ c ∈ body, isBodyChar c = true) (htoken : token ∈ tokens body)
    (ha : Argument.parse token = .ok a) : IsToken token := by
  obtain ⟨hne, hblank, hoperator⟩ := Argument.exists_parse_eq_ok_iff.mp ⟨a, ha⟩
  refine ⟨hne, fun c hc => isNameChar_iff.mpr ⟨?_, ?_, hblank c hc⟩, hoperator⟩
  · exact isBodyChar_iff.mp (hbody c (mem_of_mem_tokens htoken hc))
  · rintro rfl
    rw [tokens] at htoken
    split at htoken
    next => cases htoken
    next => exact not_mem_of_mem_splitOn htoken hc

/-- The tokens are found again in the body that they make up. No token is empty, so the body is
empty only where there is none. -/
theorem tokens_join {ts : List Text} (h : ∀ token ∈ ts, IsToken token) :
    tokens (join [','] ts) = ts := by
  cases ts with
  | nil => rfl
  | cons token ts =>
    have hbody : join [','] (token :: ts) ≠ [] := fun hnil =>
      (h token (List.mem_cons_self ..)).ne_nil
        (List.prefix_nil.mp (hnil ▸ isPrefix_join [','] token ts))
    rw [tokens, if_neg (by simpa using hbody)]
    exact splitOn_join (List.cons_ne_nil _ _) fun token' htoken' => (h token' htoken').comma_not_mem

namespace Form

variable {name name' t : Text} {ts ts' : List Text}

theorem parts? (h : Form name ts t) : Fact.parts? t = some (name, join [','] ts) := by
  refine parts?_eq_some_iff.mpr ⟨h.text, h.named, h.name_chars, fun c hc => isBodyChar_iff.mpr ?_⟩
  rcases mem_join hc with rfl | ⟨token, htoken, hc⟩
  · decide
  · exact (isNameChar_iff.mp ((h.tokens token htoken).chars c hc)).1

/-- A text has one name and one list of tokens at most. -/
theorem unique (h : Form name ts t) (h' : Form name' ts' t) : name = name' ∧ ts = ts' := by
  have hparts := h.parts?.symm.trans h'.parts?
  rw [Option.some.injEq, Prod.mk.injEq] at hparts
  refine ⟨hparts.1, ?_⟩
  rw [← tokens_join h.tokens, hparts.2, tokens_join h'.tokens]

end Form

/-- What is read as a fact has its form, with the predicate for a name and the arguments for what
the tokens are read as. -/
theorem parse_eq_ok_iff {t : Text} {confidence : Confidence} {f : Fact} :
    parse t confidence = .ok f ↔ f.confidence = confidence ∧ ∃ ts, Form f.predicate ts t ∧
      List.Forall₂ (fun token a => Argument.parse token = .ok a) ts f.arguments := by
  constructor
  · intro h
    rw [parse] at h
    split at h
    next => cases h
    next name body hparts =>
      obtain ⟨arguments, hread, rfl⟩ := map_eq_ok_iff.mp h
      rw [mapM_eq_ok_iff] at hread
      obtain ⟨htext, hnamed, hname, hbody⟩ := parts?_eq_some_iff.mp hparts
      refine ⟨rfl, tokens body, ⟨?_, hnamed, hname, fun token htoken => ?_⟩, hread⟩
      · rw [join_tokens, htext]
      · obtain ⟨a, -, ha⟩ := exists_mem_of_forall₂ hread htoken
        exact isToken_of_mem_tokens hbody htoken ha
  · rintro ⟨rfl, ts, hform, hread⟩
    rw [parse, hform.parts?]
    simp only [tokens_join hform.tokens, mapM_eq_ok_iff.mpr hread]
    rfl

theorem Form.exists_parse_eq_ok {name t : Text} {ts : List Text} (h : Form name ts t)
    (confidence : Confidence) : ∃ f, parse t confidence = .ok f := by
  obtain ⟨arguments, hread⟩ := exists_forall₂ fun token htoken =>
    (h.tokens token htoken).exists_parse_eq_ok
  exact ⟨⟨name, arguments, confidence⟩, parse_eq_ok_iff.mpr ⟨rfl, ts, h, hread⟩⟩

/-- The texts that are read as facts are those of the form of a fact, and any other text is an
error. The fact that is read displays the text, has its name, and its arguments are what its tokens
are read as, in their order. -/
theorem parse_iff_form (t : Text) (confidence : Confidence) :
    ((∃ f, parse t confidence = .ok f) ↔ ∃ name ts, Form name ts t) ∧
    ((∃ e, parse t confidence = .error e) ↔ ¬ ∃ name ts, Form name ts t) ∧
    ∀ f, parse t confidence = .ok f → f.text = t ∧ f.confidence = confidence ∧
      ∀ name ts, Form name ts t → f.predicate = name ∧
        List.Forall₂ (fun token a => Argument.parse token = .ok a) ts f.arguments := by
  have haccepted : (∃ f, parse t confidence = .ok f) ↔ ∃ name ts, Form name ts t := by
    constructor
    · rintro ⟨f, hf⟩
      obtain ⟨-, ts, hform, -⟩ := parse_eq_ok_iff.mp hf
      exact ⟨f.predicate, ts, hform⟩
    · rintro ⟨name, ts, hform⟩
      exact hform.exists_parse_eq_ok confidence
  refine ⟨haccepted, ?_, fun f hf => ?_⟩
  · rw [← haccepted]
    cases parse t confidence <;> simp
  · obtain ⟨hconfidence, ts, hform, hread⟩ := parse_eq_ok_iff.mp hf
    refine ⟨(parse_eq_ok hf).2, hconfidence, fun name ts' hform' => ?_⟩
    obtain ⟨rfl, rfl⟩ := hform.unique hform'
    exact ⟨rfl, hread⟩

/-- An unknown operator is refused in front of a number, and kept for display in front of a
variable. -/
example : (parse ['P', '(', '=', '>', '5', ')'] .certain).isOk = false ∧
    (parse ['P', '(', '=', '>', '?', 'x', ')'] .certain).isOk = true := by
  decide +kernel

end Fact
end TagReasoner
