import TagReasoner.Proofs.Tag.Equality
import TagReasoner.Proofs.Text.Pieces
import TagReasoner.Tag.Reading

/-!
# What can be read, and what it is read as

For each kind of tag: what a text looks like that can be read, and what the tag keeps of it. A fact
and a recommendation display just the text that they were read from, which holds no blanks. An arrow
is found where the first one is (`splitArrow?_append`), and a list is cut at its top-level commas:
nothing is lost in cutting (`join_topLevelPieces?`), and characters that are neither parentheses nor
commas make no difference (`topLevelPieces?_filter`).
-/

namespace TagReasoner

open Text

/-! ## Reading one by one -/

theorem exists_eq_ok_of_isOk {α ε : Type} {x : Except ε α} (h : x.isOk = true) :
    ∃ a, x = .ok a := by
  cases x with
  | error e => cases h
  | ok a => exact ⟨a, rfl⟩

theorem bind_eq_ok_iff {α β ε : Type} {x : Except ε α} {f : α → Except ε β} {b : β} :
    x >>= f = .ok b ↔ ∃ a, x = .ok a ∧ f a = .ok b := by
  cases x with
  | error e =>
    constructor
    · intro h
      cases h
    · rintro ⟨a, h, -⟩
      cases h
  | ok a =>
    constructor
    · exact fun h => ⟨a, rfl, h⟩
    · rintro ⟨_, h, hf⟩
      cases h
      exact hf

theorem map_eq_ok_iff {α β ε : Type} {x : Except ε α} {f : α → β} {b : β} :
    x.map f = .ok b ↔ ∃ a, x = .ok a ∧ f a = b := by
  cases x with
  | error e => simp [Except.map]
  | ok a => simp [Except.map]

theorem mapM_eq_ok_iff {α β ε : Type} {f : α → Except ε β} {as : List α} {bs : List β} :
    as.mapM f = .ok bs ↔ List.Forall₂ (fun a b => f a = .ok b) as bs := by
  induction as generalizing bs with
  | nil =>
    rw [List.mapM_nil, List.forall₂_nil_left_iff]
    exact ⟨fun h => (Except.ok.inj h).symm, fun h => by rw [h]; rfl⟩
  | cons a as ih =>
    rw [List.mapM_cons, bind_eq_ok_iff, List.forall₂_cons_left_iff]
    refine exists_congr fun b => ?_
    rw [bind_eq_ok_iff]
    constructor
    · rintro ⟨hb, bs', hbs', h⟩
      cases h
      exact ⟨bs', hb, ih.mp hbs', rfl⟩
    · rintro ⟨bs', hb, hbs', rfl⟩
      exact ⟨hb, bs', ih.mpr hbs', rfl⟩

/-! ## Arguments and facts -/

theorem Argument.parse_eq_ok {token : Text} {a : Argument} (h : parse token = .ok a) :
    a.token = token ∧ token ≠ [] ∧ ∀ c ∈ token, isBlank c = false := by
  rw [parse] at h
  split at h
  next => cases h
  next hwritten =>
    rw [Bool.not_eq_true, Bool.or_eq_false_iff, List.isEmpty_eq_false_iff, List.any_eq_false]
      at hwritten
    refine ⟨?_, hwritten.1, fun c hc => Bool.eq_false_iff.mpr (hwritten.2 c hc)⟩
    generalize token.span isOperatorChar = parts at h
    obtain ⟨run, rest⟩ := parts
    cases hnumber : Number.plainNumber? rest with
    | none =>
      simp only [hnumber] at h
      cases h
      unfold ofRest
      split <;> rfl
    | some value =>
      simp only [hnumber] at h
      cases hrelation : Relation.ofRun run with
      | error e =>
        rw [hrelation] at h
        cases h
      | ok relation =>
        rw [hrelation] at h
        cases h
        rfl

/-- The fact can be written down: its predicate is a name, and no token is empty or holds a
blank. -/
structure Fact.Written (f : Fact) : Prop where
  named : f.predicate ≠ []
  name : ∀ c ∈ f.predicate, isNameChar c = true
  tokens : ∀ a ∈ f.arguments, a.token ≠ [] ∧ ∀ c ∈ a.token, isBlank c = false

namespace Fact

theorem parts?_eq_some_iff {t name body : Text} :
    parts? t = some (name, body) ↔ t = name ++ '(' :: (body ++ [')']) ∧ name ≠ [] ∧
      (∀ c ∈ name, isNameChar c = true) ∧ ∀ c ∈ body, isBodyChar c = true := by
  constructor
  · intro h
    rw [parts?] at h
    split at h
    next => cases h
    next name' r hnamed hspan =>
      split at h
      next body' hbody =>
        cases h
        obtain ⟨rfl, hnamechars, -⟩ := span_eq_iff.mp hspan
        obtain ⟨rfl, hbodychars, -⟩ := span_eq_iff.mp hbody
        exact ⟨rfl, hnamed, hnamechars, hbodychars⟩
      next => cases h
    next => cases h
  · rintro ⟨rfl, hnamed, hname, hbody⟩
    have hspan := span_append_cons (t := body ++ [')']) (c := '(') hname (by decide)
    have hspan' := span_append_cons (t := []) (c := ')') hbody (by decide)
    rw [parts?, hspan]
    cases name with
    | nil => exact absurd rfl hnamed
    | cons c name => simp only [hspan']

theorem join_tokens (body : Text) : join [','] (tokens body) = body := by
  rw [tokens]
  split
  next h => exact (List.isEmpty_iff.mp h).symm
  next => exact join_splitOn ',' body

theorem parse_eq_ok {t : Text} {confidence : Confidence} {f : Fact}
    (h : parse t confidence = .ok f) : f.Written ∧ f.text = t := by
  rw [parse] at h
  cases hparts : parts? t with
  | none =>
    rw [hparts] at h
    cases h
  | some parts =>
    obtain ⟨name, body⟩ := parts
    rw [hparts] at h
    cases harguments : (tokens body).mapM Argument.parse with
    | error e =>
      simp only [harguments] at h
      cases h
    | ok arguments =>
      simp only [harguments] at h
      cases h
      obtain ⟨htext, hnamed, hname, -⟩ := parts?_eq_some_iff.mp hparts
      have hread := (mapM_eq_ok_iff.mp harguments).imp fun _ _ => Argument.parse_eq_ok
      have htokens : arguments.map (·.token) = tokens body := by
        rw [← List.forall₂_eq_eq_eq, List.forall₂_map_left_iff]
        exact hread.flip.imp fun _ _ h => h.1
      refine ⟨⟨hnamed, hname, fun a ha => ?_⟩, ?_⟩
      · obtain ⟨token, -, htoken, hwritten⟩ := exists_mem_of_forall₂ hread.flip ha
        rwa [htoken]
      · rw [text, htokens, join_tokens, htext]
        simp

theorem Written.not_isBlank {f : Fact} (h : f.Written) : ∀ c ∈ f.text, isBlank c = false := by
  intro c hc
  rw [text, List.append_assoc, List.mem_append, List.cons_append, List.mem_cons, List.mem_append,
    List.mem_singleton] at hc
  rcases hc with hc | rfl | hc | rfl
  · have hname := h.name c hc
    simp only [isNameChar, Bool.not_eq_true', Bool.or_eq_false_iff] at hname
    exact hname.2
  · decide
  · rcases mem_join hc with rfl | ⟨token, htoken, hc⟩
    · decide
    · obtain ⟨a, ha, rfl⟩ := List.mem_map.mp htoken
      exact (h.tokens a ha).2 c hc
  · decide

end Fact

/-! ## Recommendations -/

theorem Recommendation.text_eq_cons (c : Recommendation) :
    ∃ name, c.text = '@' :: name ∧ name ≠ [] ∧ ∀ d ∈ name, isBlank d = false := by
  obtain ⟨text, hwritten⟩ := c
  unfold isWritten at hwritten
  split at hwritten
  next d r =>
    rw [Bool.not_eq_true', List.any_eq_false] at hwritten
    exact ⟨d :: r, rfl, List.cons_ne_nil d r, fun x hx => Bool.eq_false_iff.mpr (hwritten x hx)⟩
  next => cases hwritten

theorem Recommendation.not_isBlank (c : Recommendation) : ∀ d ∈ c.text, isBlank d = false := by
  obtain ⟨name, htext, -, hname⟩ := c.text_eq_cons
  rw [htext, List.forall_mem_cons]
  exact ⟨by decide, hname⟩

theorem Recommendation.parse_eq_ok {t : Text} {c : Recommendation} (h : parse t = .ok c) :
    c.text = t := by
  rw [parse] at h
  split at h
  next =>
    cases h
    rfl
  next => cases h

/-! ## Arrows -/

theorem splitArrow?_cons {c : Char} {t : Text} (h : ∀ s, c = '=' ∨ c = '-' → t ≠ '>' :: s) :
    splitArrow? (c :: t) = (splitArrow? t).map fun (before, after) => (c :: before, after) := by
  rw [splitArrow?]
  · rintro s rfl ht
    exact h s (.inl rfl) ht
  · rintro s rfl ht
    exact h s (.inr rfl) ht

theorem splitArrow?_eq_none_iff {t : Text} :
    splitArrow? t = none ↔ ¬ ['=', '>'] <:+: t ∧ ¬ ['-', '>'] <:+: t := by
  fun_induction splitArrow? t with
  | case1 => simp
  | case2 r =>
    have hpart : ['=', '>'] <:+: '=' :: '>' :: r := (List.prefix_append ['=', '>'] r).isInfix
    simp [hpart]
  | case3 r =>
    have hpart : ['-', '>'] <:+: '-' :: '>' :: r := (List.prefix_append ['-', '>'] r).isInfix
    simp [hpart]
  | case4 c r hdouble hsingle ih =>
    have hdouble' : ¬ ['=', '>'] <+: c :: r := by
      rintro ⟨s, hs⟩
      obtain ⟨rfl, rfl⟩ := List.cons.inj hs
      exact hdouble s rfl rfl
    have hsingle' : ¬ ['-', '>'] <+: c :: r := by
      rintro ⟨s, hs⟩
      obtain ⟨rfl, rfl⟩ := List.cons.inj hs
      exact hsingle s rfl rfl
    rw [Option.map_eq_none_iff, ih, List.infix_cons_iff, List.infix_cons_iff]
    simp only [hdouble', hsingle', false_or]

theorem splitArrow?_of_isInfix {s t : Text} (ht : splitArrow? t = none) (hst : s <:+: t) :
    splitArrow? s = none := by
  rw [splitArrow?_eq_none_iff] at ht ⊢
  exact ⟨fun h => ht.1 (h.trans hst), fun h => ht.2 (h.trans hst)⟩

/-- A text is split at an arrow, and there is none in front of that. -/
theorem splitArrow?_eq_some {t before after : Text} (h : splitArrow? t = some (before, after)) :
    splitArrow? before = none ∧ ∃ c, (c = '=' ∨ c = '-') ∧ t = before ++ c :: '>' :: after := by
  fun_induction splitArrow? t generalizing before with
  | case1 => cases h
  | case2 r =>
    cases h
    exact ⟨rfl, '=', .inl rfl, rfl⟩
  | case3 r =>
    cases h
    exact ⟨rfl, '-', .inr rfl, rfl⟩
  | case4 c r hdouble hsingle ih =>
    obtain ⟨⟨before', after'⟩, hr, hsides⟩ := Option.map_eq_some_iff.mp h
    cases hsides
    obtain ⟨hnone, d, hd, rfl⟩ := ih hr
    refine ⟨?_, d, hd, rfl⟩
    rw [splitArrow?_cons, hnone]
    · rfl
    · rintro s (rfl | rfl) rfl
      · exact hdouble _ rfl rfl
      · exact hsingle _ rfl rfl

/-- Behind a text without an arrow, the first arrow is the first one of the rest, unless the rest
starts with a tip. -/
theorem splitArrow?_append {s t : Text} (hs : splitArrow? s = none) (ht : t.head? ≠ some '>') :
    splitArrow? (s ++ t) = (splitArrow? t).map fun (before, after) => (s ++ before, after) := by
  fun_induction splitArrow? s with
  | case1 => simp
  | case2 | case3 => cases hs
  | case4 c r hdouble hsingle ih =>
    rw [List.cons_append, splitArrow?_cons, ih (Option.map_eq_none_iff.mp hs), Option.map_map]
    · rfl
    · intro s' hc hr
      cases r with
      | nil => exact ht (congrArg List.head? hr)
      | cons d r =>
        cases hr
        rcases hc with rfl | rfl
        · exact hdouble r rfl rfl
        · exact hsingle r rfl rfl

theorem splitArrow?_arrow {before : Text} (h : splitArrow? before = none) (after : Text) :
    splitArrow? (before ++ '=' :: '>' :: after) = some (before, after) := by
  have hhead : ('=' :: '>' :: after).head? ≠ some '>' := by simp
  rw [splitArrow?_append h hhead, splitArrow?]
  exact congrArg (fun b => some (b, after)) before.append_nil

theorem splitArrow?_join {ps : List Text} (h : ∀ p ∈ ps, splitArrow? p = none) :
    splitArrow? (join [','] ps) = none := by
  induction ps with
  | nil => rfl
  | cons p ps ih =>
    obtain ⟨hp, hps⟩ := List.forall_mem_cons.mp h
    by_cases hnil : ps = []
    · subst hnil
      exact hp
    · have hcomma : splitArrow? (',' :: join [','] ps) = none := by
        rw [splitArrow?_cons (by rintro s (h | h) <;> cases h), ih hps]
        rfl
      rw [join_cons hnil, List.append_assoc, splitArrow?_append hp (by simp), List.singleton_append,
        hcomma]
      rfl

/-! ## Lists -/

theorem topLevelPieces?_cons_of_ne {c : Char} {depth : Nat} (hopen : c ≠ '(') (hclose : c ≠ ')')
    (hcomma : c = ',' → depth ≠ 0) (t : Text) :
    topLevelPieces? depth (c :: t) = (topLevelPieces? depth t).map (consPiece c) := by
  rw [topLevelPieces?]
  · exact hopen
  · exact fun _ => hclose
  · exact fun _ _ => hclose
  · exact fun hdepth hc => hcomma hc hdepth

theorem topLevelPieces?_ne_nil {depth : Nat} {t : Text} {ps : List Text}
    (h : topLevelPieces? depth t = some ps) : ps ≠ [] := by
  fun_induction topLevelPieces? depth t generalizing ps with
  | case1 =>
    cases h
    exact List.cons_ne_nil _ _
  | case2 | case4 => cases h
  | case3 | case5 | case6 | case7 =>
    obtain ⟨qs, -, rfl⟩ := Option.map_eq_some_iff.mp h
    cases qs <;> exact List.cons_ne_nil _ _

/-- Nothing is lost by cutting. -/
theorem join_topLevelPieces? {depth : Nat} {t : Text} {ps : List Text}
    (h : topLevelPieces? depth t = some ps) : join [','] ps = t := by
  fun_induction topLevelPieces? depth t generalizing ps with
  | case1 =>
    cases h
    rfl
  | case2 | case4 => cases h
  | case3 _ _ ih | case5 _ _ ih | case7 _ _ _ _ _ _ _ ih =>
    obtain ⟨qs, hqs, rfl⟩ := Option.map_eq_some_iff.mp h
    rw [join_consPiece, ih hqs]
  | case6 r ih =>
    obtain ⟨qs, hqs, rfl⟩ := Option.map_eq_some_iff.mp h
    rw [join_cons (topLevelPieces?_ne_nil hqs), ih hqs]
    rfl

section Filter

variable {keep : Char → Bool}

theorem map_filter_consPiece {c : Char} {ps : List Text} (hps : ps ≠ []) :
    (consPiece c ps).map (List.filter keep) =
      if keep c then consPiece c (ps.map (List.filter keep)) else ps.map (List.filter keep) := by
  cases ps with
  | nil => exact absurd rfl hps
  | cons p ps =>
    rw [consPiece, List.map_cons, List.filter_cons]
    split <;> rfl

theorem topLevelPieces?_map_filter_cons (c : Char) (depth : Nat) (t : Text) :
    ((topLevelPieces? depth t).map (consPiece c)).map (List.map (List.filter keep)) =
      if keep c then ((topLevelPieces? depth t).map (List.map (List.filter keep))).map (consPiece c)
      else (topLevelPieces? depth t).map (List.map (List.filter keep)) := by
  cases hpieces : topLevelPieces? depth t with
  | none => exact (ite_self none).symm
  | some ps =>
    rw [Option.map_some, Option.map_some, map_filter_consPiece (topLevelPieces?_ne_nil hpieces)]
    split <;> rfl

/-- Only parentheses and commas matter for where a list is cut. -/
theorem topLevelPieces?_filter (hopen : keep '(' = true) (hclose : keep ')' = true)
    (hcomma : keep ',' = true) (depth : Nat) (t : Text) :
    topLevelPieces? depth (t.filter keep) =
      (topLevelPieces? depth t).map (List.map (List.filter keep)) := by
  fun_induction topLevelPieces? depth t with
  | case1 | case2 => rfl
  | case3 depth r ih =>
    rw [topLevelPieces?_map_filter_cons, if_pos hopen, List.filter_cons_of_pos hopen,
      topLevelPieces?, ih]
  | case4 r =>
    rw [List.filter_cons_of_pos hclose]
    rfl
  | case5 depth r ih =>
    rw [topLevelPieces?_map_filter_cons, if_pos hclose, List.filter_cons_of_pos hclose,
      topLevelPieces?, ih]
  | case6 r ih =>
    rw [List.filter_cons_of_pos hcomma, topLevelPieces?, ih, Option.map_map, Option.map_map]
    rfl
  | case7 depth c r hnotopen hnotclose hnotclose' hnotcomma ih =>
    have hc : c ≠ ')' := by
      intro hc
      cases depth with
      | zero => exact hnotclose rfl hc
      | succ depth => exact hnotclose' depth rfl hc
    rw [topLevelPieces?_map_filter_cons, List.filter_cons]
    split
    · rw [topLevelPieces?_cons_of_ne hnotopen hc fun h hdepth => hnotcomma hdepth h, ih]
    · exact ih

end Filter

/-- A list with something in it is cut, its brackets taken off, into pieces of which none is
blank. -/
theorem splitTagList_eq_ok_iff {t : Text} {items : List Text} (hitems : items ≠ []) :
    splitTagList t = .ok items ↔ ∃ ps, topLevelPieces? 0 (unbracketed (strip t)) = some ps ∧
      (∀ p ∈ ps, allBlank p = false) ∧ items = ps.map strip := by
  rw [splitTagList]
  generalize unbracketed (strip t) = list
  cases hpieces : topLevelPieces? 0 list with
  | none => simp
  | some ps =>
    -- in a blank list every piece is blank, and there is at least one
    have hblank : allBlank list = true → ∃ p ∈ ps, allBlank p = true := by
      intro hlist
      obtain ⟨p, hp⟩ := List.exists_mem_of_ne_nil ps (topLevelPieces?_ne_nil hpieces)
      have hpart : p <:+: list := join_topLevelPieces? hpieces ▸ isInfix_join hp
      refine ⟨p, hp, List.all_eq_true.mpr fun c hc => ?_⟩
      exact List.all_eq_true.mp hlist c (hpart.subset hc)
    have hany : ps.any allBlank = false ↔ ∀ p ∈ ps, allBlank p = false := by
      simp only [List.any_eq_false, Bool.not_eq_true]
    simp only [Option.some.injEq, exists_eq_left', ← hany]
    cases hps : ps.any allBlank with
    | true =>
      refine iff_of_false (fun h => ?_) (by simp)
      split at h
      · exact hitems (Except.ok.inj h).symm
      · cases h
    | false =>
      have hlist : allBlank list = false := by
        rw [Bool.eq_false_iff]
        intro hlist
        obtain ⟨p, hp, hpblank⟩ := hblank hlist
        rw [hany.mp hps p hp] at hpblank
        cases hpblank
      rw [hlist]
      simp only [Bool.false_eq_true, if_false, true_and]
      exact ⟨fun h => (Except.ok.inj h).symm, fun h => by rw [h]⟩

theorem exists_bracketed {t : Text} (hopen : t.head? = some '[') (hclose : t.getLast? = some ']') :
    ∃ inner, t = '[' :: (inner ++ [']']) := by
  obtain ⟨r, rfl⟩ := List.head?_eq_some_iff.mp hopen
  rcases List.eq_nil_or_concat r with rfl | ⟨inner, c, rfl⟩
  · cases hclose
  · rw [List.concat_eq_append, ← List.cons_append, List.getLast?_concat] at hclose
    cases hclose
    exact ⟨inner, by rw [List.concat_eq_append]⟩

theorem unbracketed_bracketed (t : Text) : unbracketed ('[' :: (t ++ [']'])) = t := by
  rw [unbracketed, if_pos List.getLast?_concat, List.dropLast_concat]

theorem unbracketed_eq_self {t : Text} (h : ¬ (t.head? = some '[' ∧ t.getLast? = some ']')) :
    unbracketed t = t := by
  unfold unbracketed
  split
  next r =>
    refine if_neg fun hlast => h ⟨rfl, ?_⟩
    rw [List.getLast?_cons, hlast]
    rfl
  next => rfl

theorem isInfix_unbracketed (t : Text) : unbracketed t <:+: t := by
  unfold unbracketed
  split
  next r =>
    split
    · exact (List.dropLast_prefix r).isInfix.trans (List.suffix_cons '[' r).isInfix
    · exact List.infix_refl _
  next => exact List.infix_refl _

/-! ## Tags in a list -/

section Simple

variable {onRule : Text → ParseError} {t : Text} {tag : Tag}

/-- A tag that is read in a list is a recommendation, or a fact that can be written down, and
displays the trimmed text. -/
theorem Tag.parseSimple_eq_ok (h : Tag.parseSimple onRule t = .ok tag) :
    (∃ c, tag = .recommendation c ∧ c.text = strip t) ∨
      ∃ f, tag = .fact f ∧ f.Written ∧ f.text = strip t := by
  rw [parseSimple] at h
  generalize strip t = text at h ⊢
  cases hkind : TagKind.ofText? text with
  | none =>
    simp only [hkind] at h
    cases h
  | some kind =>
    simp only [hkind] at h
    cases kind with
    | rule => cases h
    | fact =>
      cases hparse : Fact.parse text .certain with
      | error e =>
        rw [hparse] at h
        cases h
      | ok f =>
        rw [hparse] at h
        cases h
        exact .inr ⟨f, rfl, Fact.parse_eq_ok hparse⟩
    | recommendation =>
      cases hparse : Recommendation.parse text with
      | error e =>
        rw [hparse] at h
        cases h
      | ok c =>
        rw [hparse] at h
        cases h
        exact .inl ⟨c, rfl, Recommendation.parse_eq_ok hparse⟩

theorem Tag.text_of_parseSimple (h : Tag.parseSimple onRule t = .ok tag) :
    tag.text = strip t := by
  rcases Tag.parseSimple_eq_ok h with ⟨c, rfl, htext⟩ | ⟨f, rfl, -, htext⟩
  · exact htext
  · exact htext

theorem Tag.not_isBlank_of_parseSimple (h : Tag.parseSimple onRule t = .ok tag) :
    tag.text ≠ [] ∧ ∀ c ∈ tag.text, isBlank c = false := by
  rcases Tag.parseSimple_eq_ok h with ⟨c, rfl, -⟩ | ⟨f, rfl, hwritten, -⟩
  · obtain ⟨name, htext, -, -⟩ := c.text_eq_cons
    refine ⟨?_, c.not_isBlank⟩
    show c.text ≠ []
    rw [htext]
    exact List.cons_ne_nil _ _
  · refine ⟨?_, hwritten.not_isBlank⟩
    show f.text ≠ []
    rw [Fact.text]
    simp

/-- The text that a tag of a list displays is read as the tag, whatever the error for a rule. -/
theorem Tag.parseSimple_text (h : Tag.parseSimple onRule t = .ok tag)
    (onRule' : Text → ParseError) : Tag.parseSimple onRule' tag.text = .ok tag := by
  have hstrip : strip tag.text = strip t := by
    rw [strip_eq_self (not_isBlank_of_parseSimple h).2, text_of_parseSimple h]
  rw [parseSimple] at h ⊢
  rw [hstrip]
  generalize strip t = text at h ⊢
  cases hkind : TagKind.ofText? text with
  | none =>
    simp only [hkind] at h
    cases h
  | some kind =>
    simp only [hkind] at h ⊢
    cases kind with
    | rule => cases h
    | fact | recommendation => exact h

end Simple

/-! ## Rules -/

/-- The text is a list, not an empty one, of which the tags are read one by one. -/
def Tag.ListRead (onRule : Text → ParseError) (side : Text) (ts : List Tag) : Prop :=
  ∃ items, splitTagList side = .ok items ∧ items ≠ [] ∧
    List.Forall₂ (fun item t => Tag.parseSimple onRule item = .ok t) items ts

/-- A rule is read when there is an arrow between two lists that can be read. -/
theorem Rule.parseWith_eq_ok_iff {onRule : Text → ParseError} {t : Text} {r : Rule} :
    Rule.parseWith onRule t = .ok r ↔ ∃ before after, splitArrow? t = some (before, after) ∧
      Tag.ListRead onRule before r.inputs ∧ Tag.ListRead onRule after r.outputs := by
  rw [parseWith]
  cases hsplit : splitArrow? t with
  | none =>
    constructor
    · intro h
      cases h
    · rintro ⟨_, _, hsides, -⟩
      cases hsides
  | some sides =>
    obtain ⟨before, after⟩ := sides
    simp only [bind_eq_ok_iff]
    constructor
    · rintro ⟨ins, hins, outs, houts, h⟩
      cases hempty : ins.isEmpty || outs.isEmpty with
      | true =>
        rw [hempty] at h
        cases h
      | false =>
        rw [hempty] at h
        simp only [Bool.false_eq_true, if_false, bind_eq_ok_iff, mapM_eq_ok_iff] at h
        rw [Bool.or_eq_false_iff, List.isEmpty_eq_false_iff, List.isEmpty_eq_false_iff] at hempty
        obtain ⟨i, hi, o, ho, hr⟩ := h
        cases hr
        exact ⟨before, after, rfl, ⟨ins, hins, hempty.1, hi⟩, ⟨outs, houts, hempty.2, ho⟩⟩
    · rintro ⟨_, _, hsides, ⟨ins, hins, hinsne, hi⟩, ⟨outs, houts, houtsne, ho⟩⟩
      cases hsides
      have hempty : (ins.isEmpty || outs.isEmpty) = false := by
        rw [Bool.or_eq_false_iff, List.isEmpty_eq_false_iff, List.isEmpty_eq_false_iff]
        exact ⟨hinsne, houtsne⟩
      refine ⟨ins, hins, outs, houts, ?_⟩
      rw [hempty]
      simp only [Bool.false_eq_true, if_false, bind_eq_ok_iff, mapM_eq_ok_iff]
      exact ⟨r.inputs, hi, r.outputs, ho, rfl⟩

end TagReasoner
