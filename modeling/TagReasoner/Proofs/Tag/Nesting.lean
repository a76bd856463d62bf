import TagReasoner.Proofs.Tag.Reading

/-!
# Rules one inside another

A rule in the list of a rule is refused, but it is read before that, and so are the rules in its own
lists. With a limit on this (`Tag.parseWithin`) a tag is read as it is without one, or not at all;
the latter happens only to texts with more arrows than there is room for rules
(`Tag.limited_parseWithin`), and it does happen, whatever the room
(`Rule.parseWithin_ruleChain_iff`).

That the two readers go the same way rests on what a reader makes of a rule in its way: it ends with
the error for the first one that it comes to, and what that error is has no influence on how it gets
there (`MeetsRule`). The rule it comes to stands behind the first arrow, so it has fewer arrows.
-/

namespace TagReasoner

open Text

/-! ## Arrows -/

/-- How many arrows a text has. -/
def arrowCount : Text → Nat
  | [] => 0
  | '=' :: '>' :: r => arrowCount r + 1
  | '-' :: '>' :: r => arrowCount r + 1
  | _ :: r => arrowCount r

theorem arrowCount_le_cons (c : Char) (t : Text) : arrowCount t ≤ arrowCount (c :: t) := by
  generalize hu : c :: t = u
  fun_cases arrowCount u with
  | case1 => cases hu
  | case2 r | case3 r =>
    cases hu
    exact Nat.le_succ (arrowCount r)
  | case4 =>
    cases hu
    exact Nat.le_refl _

theorem arrowCount_le_append (s t : Text) : arrowCount s ≤ arrowCount (s ++ t) := by
  fun_induction arrowCount s with
  | case1 => exact Nat.zero_le _
  | case2 r ih | case3 r ih => exact Nat.succ_le_succ ih
  | case4 c r _ _ ih => exact ih.trans (arrowCount_le_cons c (r ++ t))

theorem arrowCount_le_of_isInfix {s t : Text} (h : s <:+: t) : arrowCount s ≤ arrowCount t := by
  obtain ⟨before, after, rfl⟩ := h
  rw [List.append_assoc]
  refine (arrowCount_le_append s after).trans ?_
  induction before with
  | nil => exact Nat.le_refl _
  | cons c before ih => exact ih.trans (arrowCount_le_cons c _)

/-- Behind the first arrow there is one arrow less. -/
theorem arrowCount_of_splitArrow? {t before after : Text}
    (h : splitArrow? t = some (before, after)) : arrowCount t = arrowCount after + 1 := by
  fun_induction splitArrow? t generalizing before with
  | case1 => cases h
  | case2 r | case3 r =>
    cases h
    rfl
  | case4 c r hdouble hsingle ih =>
    obtain ⟨⟨before', after'⟩, hr, hsides⟩ := Option.map_eq_some_iff.mp h
    cases hsides
    rw [arrowCount, ih hr]
    · exact hdouble
    · exact hsingle

theorem arrowCount_pos {t : Text} (h : (splitArrow? t).isSome = true) : 0 < arrowCount t := by
  obtain ⟨⟨before, after⟩, hsplit⟩ := Option.isSome_iff_exists.mp h
  rw [arrowCount_of_splitArrow? hsplit]
  omega

/-! ## What a reader makes of a rule in its way -/

section Meets

variable {α β : Type} {P Q : Text → Prop}

/-- Whatever the error for a rule inside a rule is, a reader comes to no such rule, or it ends with
the error for one of which `P` holds. -/
inductive MeetsRule (P : Text → Prop) (read : (Text → ParseError) → Except ParseError α) : Prop where
  | none (result : Except ParseError α) (same : ∀ onRule, read onRule = result)
      (other : ∀ inner, result ≠ .error (.malformed .nestedRule inner))
  | rule (inner : Text) (holds : P inner) (ends : ∀ onRule, read onRule = .error (onRule inner))

namespace MeetsRule

variable {read : (Text → ParseError) → Except ParseError α}

theorem const {result : Except ParseError α}
    (h : ∀ inner, result ≠ .error (.malformed .nestedRule inner)) :
    MeetsRule P fun _ => result :=
  .none result (fun _ => rfl) h

theorem imp (h : MeetsRule P read) (hPQ : ∀ inner, P inner → Q inner) : MeetsRule Q read := by
  cases h with
  | none result same other => exact .none result same other
  | rule inner holds ends => exact .rule inner (hPQ inner holds) ends

/-- One reader after the other: the second one is started when the first met no rule. -/
theorem bind (h : MeetsRule P read) {next : α → (Text → ParseError) → Except ParseError β}
    (hnext : ∀ a, (∀ onRule, read onRule = .ok a) → MeetsRule P (next a)) :
    MeetsRule P fun onRule => read onRule >>= fun a => next a onRule := by
  cases h with
  | none result same other =>
    simp only [same]
    cases result with
    | error e => exact const fun inner hinner => other inner (congrArg _ (Except.error.inj hinner))
    | ok a => exact hnext a same
  | rule inner holds ends =>
    refine .rule inner holds fun onRule => ?_
    rw [ends]
    rfl

theorem mapM {read : (Text → ParseError) → Text → Except ParseError α} {items : List Text}
    (h : ∀ item ∈ items, MeetsRule P fun onRule => read onRule item) :
    MeetsRule P fun onRule => items.mapM (read onRule) := by
  induction items with
  | nil => exact const fun inner hinner => by cases hinner
  | cons item items ih =>
    obtain ⟨hitem, hitems⟩ := List.forall_mem_cons.mp h
    simp only [List.mapM_cons]
    exact hitem.bind fun a _ => (ih hitems).bind fun as _ => const fun inner hinner => by cases hinner

end MeetsRule
end Meets

/-! ## Readers -/

theorem Argument.parse_ne_nestedRule (token inner : Text) :
    parse token ≠ .error (.malformed .nestedRule inner) := by
  intro h
  rw [parse] at h
  split at h
  next => cases h
  next =>
    generalize token.span isOperatorChar = parts at h
    obtain ⟨run, rest⟩ := parts
    cases hnumber : Number.plainNumber? rest with
    | none =>
      simp only [hnumber] at h
      cases h
    | some value =>
      simp only [hnumber] at h
      unfold Relation.ofRun at h
      split at h <;> cases h

theorem Fact.parse_ne_nestedRule (t : Text) (confidence : Confidence) (inner : Text) :
    parse t confidence ≠ .error (.malformed .nestedRule inner) := by
  intro h
  rw [parse] at h
  split at h
  next => cases h
  next name body _ =>
    -- the arguments are read without regard to rules
    have hmeets : MeetsRule (fun _ => False) fun _ => (tokens body).mapM Argument.parse :=
      .mapM fun token _ => .const (Argument.parse_ne_nestedRule token)
    cases hmeets with
    | none result same other =>
      rw [same fun _ => .malformed .fact t] at h
      cases result with
      | error e => exact other inner (congrArg _ (Except.error.inj h))
      | ok arguments => cases h
    | rule _ holds => exact holds

theorem splitTagList_ne_nestedRule (t inner : Text) :
    splitTagList t ≠ .error (.malformed .nestedRule inner) := by
  intro h
  simp only [splitTagList] at h
  split at h
  · cases h
  · split at h
    · cases h
    · split at h <;> cases h

/-- What a list is split into are parts of it. -/
theorem isInfix_of_mem_splitTagList {side item : Text} {items : List Text}
    (h : splitTagList side = .ok items) (hitem : item ∈ items) : item <:+: side := by
  obtain ⟨ps, hpieces, -, rfl⟩ := (splitTagList_eq_ok_iff (List.ne_nil_of_mem hitem)).mp h
  obtain ⟨p, hp, rfl⟩ := List.mem_map.mp hitem
  have hpart : p <:+: unbracketed (strip side) := join_topLevelPieces? hpieces ▸ isInfix_join hp
  exact ((isInfix_strip p).trans hpart).trans
    ((isInfix_unbracketed _).trans (isInfix_strip side))

/-- The text has an arrow and is part of another one. -/
def IsRuleIn (t inner : Text) : Prop := (splitArrow? inner).isSome = true ∧ inner <:+: t

theorem TagKind.isSome_splitArrow? {t : Text} (h : TagKind.ofText? t = some .rule) :
    (splitArrow? t).isSome = true := by
  unfold TagKind.ofText? at h
  split at h
  · cases h
  · split at h
    next harrow => exact harrow
    next => split at h <;> cases h

theorem Tag.meetsRule_parseSimple (item : Text) :
    MeetsRule (IsRuleIn item) fun onRule => Tag.parseSimple onRule item := by
  simp only [parseSimple]
  cases hkind : TagKind.ofText? (strip item) with
  | none => exact .const fun inner hinner => by cases hinner
  | some kind =>
    cases kind with
    | recommendation =>
      refine .const fun inner hinner => ?_
      unfold Recommendation.parse at hinner
      by_cases hwritten : Recommendation.isWritten (strip item) = true
      · rw [dif_pos hwritten] at hinner
        cases hinner
      · rw [dif_neg hwritten] at hinner
        cases hinner
    | fact =>
      refine .const fun inner hinner => ?_
      cases hparse : Fact.parse (strip item) .certain with
      | error e =>
        rw [hparse] at hinner
        cases hinner
        exact Fact.parse_ne_nestedRule _ _ _ hparse
      | ok f =>
        rw [hparse] at hinner
        cases hinner
    | rule =>
      have harrow := TagKind.isSome_splitArrow? hkind
      exact .rule (strip item) ⟨harrow, isInfix_strip item⟩ fun onRule => rfl

theorem Tag.meetsRule_list {side : Text} {items : List Text} (h : splitTagList side = .ok items) :
    MeetsRule (IsRuleIn side) fun onRule => items.mapM (Tag.parseSimple onRule) := by
  refine .mapM fun item hitem => (meetsRule_parseSimple item).imp fun inner hinner => ?_
  exact ⟨hinner.1, hinner.2.trans (isInfix_of_mem_splitTagList h hitem)⟩

/-- The first rule inside a rule stands behind the first arrow. -/
theorem Rule.meetsRule_parseWith (t : Text) :
    MeetsRule (fun inner => ∃ before after, splitArrow? t = some (before, after) ∧
      IsRuleIn after inner) fun onRule => Rule.parseWith onRule t := by
  unfold Rule.parseWith
  cases hsplit : splitArrow? t with
  | none => exact .const fun inner hinner => by cases hinner
  | some sides =>
    obtain ⟨before, after⟩ := sides
    -- there is no arrow in front of the first one
    have hnone : ∀ inner, ¬ IsRuleIn before inner := fun inner hinner => by
      have hno := splitArrow?_of_isInfix (splitArrow?_eq_some hsplit).1 hinner.2
      rw [IsRuleIn, hno] at hinner
      cases hinner.1
    refine (MeetsRule.const (splitTagList_ne_nestedRule before)).bind fun inputs hinputs => ?_
    refine (MeetsRule.const (splitTagList_ne_nestedRule after)).bind fun outputs houtputs => ?_
    cases inputs.isEmpty || outputs.isEmpty with
    | true => exact .const fun inner hinner => by cases hinner
    | false =>
      have hin := Tag.meetsRule_list (hinputs (.malformed .nestedRule))
      have hout := Tag.meetsRule_list (houtputs (.malformed .nestedRule))
      exact (hin.imp fun inner hinner => absurd hinner (hnone inner)).bind fun i _ =>
        (hout.imp fun inner hinner => ⟨before, after, rfl, hinner⟩).bind fun o _ =>
          .const fun inner hinner => by cases hinner

/-! ## Reading with little room and with enough -/

section Limited

variable {α β : Type} {P Q : Prop}

/-- A reader with limited room goes too deep, which happens only where `P` holds, or it reads what
one with all the room reads. -/
inductive Limited (P : Prop) (limited : Except Fault α) (free : Except ParseError α) : Prop where
  | tooDeep (stops : limited = .error .tooDeep) (holds : P)
  | same (equal : limited = free.mapError .parse)

namespace Limited

variable {limited : Except Fault α} {free : Except ParseError α}

theorem imp (h : Limited P limited free) (hPQ : P → Q) : Limited Q limited free := by
  cases h with
  | tooDeep stops holds => exact .tooDeep stops (hPQ holds)
  | same equal => exact .same equal

theorem bind (h : Limited P limited free) {next : α → Except Fault β}
    {nextFree : α → Except ParseError β} (hnext : ∀ a, Limited P (next a) (nextFree a)) :
    Limited P (limited >>= next) (free >>= nextFree) := by
  cases h with
  | tooDeep stops holds =>
    rw [stops]
    exact .tooDeep rfl holds
  | same equal =>
    rw [equal]
    cases free with
    | error e => exact .same rfl
    | ok a => exact hnext a

end Limited
end Limited

namespace Rule

/-- A rule inside a rule is read before it is refused. -/
theorem nestedRuleError_succ {t : Text} {n : Nat} (h : parseWith (nestedRuleError n) t = parse t) :
    .error (nestedRuleError (n + 1) t) =
      parse t >>= fun _ => (.error (.malformed .nestedRule t) : Except ParseError Rule) := by
  rw [nestedRuleError, h]
  cases parse t <;> rfl

/-- It takes no more room than the text is long to read a rule. -/
theorem parseWith_nestedRuleError {t : Text} {n : Nat} (h : t.length ≤ n) :
    parseWith (nestedRuleError n) t = parse t := by
  induction hlength : t.length using Nat.strongRecOn generalizing t n with
  | ind length ih =>
    subst hlength
    rw [parse]
    cases meetsRule_parseWith t with
    | none result same => rw [same, same]
    | rule inner holds ends =>
      obtain ⟨before, after, hsplit, -, hinner⟩ := holds
      obtain ⟨-, c, -, ht⟩ := splitArrow?_eq_some hsplit
      have hshorter : inner.length < t.length := by
        have hafter := hinner.length_le
        rw [ht, List.length_append, List.length_cons, List.length_cons]
        omega
      have hinside : ∀ m, inner.length < m → .error (nestedRuleError m inner) =
          parse inner >>= fun _ =>
            (.error (.malformed .nestedRule inner) : Except ParseError Rule) := by
        intro m hm
        obtain ⟨m, rfl⟩ := Nat.exists_eq_add_one_of_ne_zero (show m ≠ 0 by omega)
        exact nestedRuleError_succ (ih inner.length hshorter (Nat.le_of_lt_succ hm) rfl)
      rw [ends, ends, hinside n (by omega), hinside t.length hshorter]

/-- A rule goes too deep only if it has more arrows than there is room for. -/
theorem limited_parseWithin (depth : Nat) (t : Text) :
    Limited (0 < arrowCount t → depth < arrowCount t) (parseWithin depth t) (parse t) := by
  induction depth generalizing t with
  | zero => exact .tooDeep rfl id
  | succ depth ih =>
    rw [parseWithin]
    cases meetsRule_parseWith t with
    | none result same other =>
      refine .same ?_
      rw [parse, same, same]
      split
      next inner => exact absurd rfl (other inner)
      next => rfl
    | rule inner holds ends =>
      obtain ⟨before, after, hsplit, harrow, hinner⟩ := holds
      have hlength : inner.length ≤ t.length := by
        obtain ⟨-, c, -, rfl⟩ := splitArrow?_eq_some hsplit
        exact hinner.length_le.trans (by simp; omega)
      rw [ends, ← parseWith_nestedRuleError (Nat.le_succ t.length), ends,
        nestedRuleError_succ (parseWith_nestedRuleError hlength)]
      refine ((ih inner).imp fun hcount _ => ?_).bind fun _ => .same rfl
      -- the rule inside has an arrow of its own, and at least one less than the text
      have hmore := hcount (arrowCount_pos harrow)
      have hless := arrowCount_le_of_isInfix hinner
      rw [arrowCount_of_splitArrow? hsplit]
      omega

end Rule

theorem Tag.limited_parseWithin (depth : Nat) (t : Text) :
    Limited (depth < arrowCount t) (parseWithin depth t) (parse t) := by
  simp only [parseWithin]
  split
  next hkind =>
    have hpos := arrowCount_pos (TagKind.isSome_splitArrow? hkind)
    have hle := arrowCount_le_of_isInfix (isInfix_strip t)
    simp only [parse, hkind, parseAs]
    exact ((Rule.limited_parseWithin depth (strip t)).imp fun hcount =>
      (hcount hpos).trans_le hle).bind fun _ => .same rfl
  next => exact .same rfl

/-! ## Chains -/

/-- A rule of a rule of a rule, `n` of them. -/
def ruleChain : Nat → Text
  | 0 => "A(a)".toList
  | n + 1 => 'A' :: '(' :: 'a' :: ')' :: '=' :: '>' :: ruleChain n

theorem not_isBlank_ruleChain (n : Nat) : ∀ c ∈ ruleChain n, isBlank c = false := by
  have hall : ("A(a)=>".toList.all fun c => !isBlank c) = true := by decide
  have harrow : ∀ c ∈ "A(a)=>".toList, isBlank c = false := fun c hc =>
    Bool.not_eq_eq_eq_not.mp (List.all_eq_true.mp hall c hc)
  induction n with
  | zero => exact fun c hc => harrow c (List.mem_append_left ['=', '>'] hc)
  | succ n ih => exact List.forall_mem_append.mpr ⟨harrow, ih⟩

theorem splitArrow?_ruleChain (n : Nat) :
    splitArrow? (ruleChain (n + 1)) = some ("A(a)".toList, ruleChain n) := by
  have hnone : splitArrow? "A(a)".toList = none := by decide
  exact splitArrow?_arrow hnone (ruleChain n)

theorem splitTagList_ruleChain (n : Nat) : splitTagList (ruleChain n) = .ok [ruleChain n] := by
  have hpieces : topLevelPieces? 0 (ruleChain n) = some [ruleChain n] := by
    induction n with
    | zero => rfl
    | succ n ih => simp [ruleChain, topLevelPieces?, ih, consPiece]
  have hstrip : strip (ruleChain n) = ruleChain n := strip_eq_self (not_isBlank_ruleChain n)
  obtain ⟨r, hr⟩ : ∃ r, ruleChain n = 'A' :: r := by
    cases n <;> exact ⟨_, rfl⟩
  have hblank : allBlank (ruleChain n) = false := by
    rw [hr]
    rfl
  have hbare : unbracketed (ruleChain n) = ruleChain n := by
    rw [hr]
    rfl
  refine (splitTagList_eq_ok_iff (List.cons_ne_nil _ _)).mpr ⟨[ruleChain n], ?_, ?_, ?_⟩
  · rw [hstrip, hbare, hpieces]
  · exact List.forall_mem_singleton.mpr hblank
  · rw [List.map_singleton, hstrip]

theorem ofText?_ruleChain (n : Nat) : TagKind.ofText? (ruleChain (n + 1)) = some .rule := by
  have hhead : (ruleChain (n + 1)).head? ≠ some '@' := by simp [ruleChain]
  rw [TagKind.ofText?, if_neg hhead, splitArrow?_ruleChain]
  rfl

/-- A chain ends with the error for the next chain in it. -/
theorem parseWith_ruleChain (onRule : Text → ParseError) (n : Nat) :
    Rule.parseWith onRule (ruleChain (n + 2)) = .error (onRule (ruleChain (n + 1))) := by
  have hfact : Tag.parseSimple onRule "A(a)".toList =
      .ok (.fact ⟨['A'], [.literal ['a']], .certain⟩) := by rfl
  have hrule : Tag.parseSimple onRule (ruleChain (n + 1)) = .error (onRule (ruleChain (n + 1))) := by
    rw [Tag.parseSimple, strip_eq_self (not_isBlank_ruleChain (n + 1))]
    simp only [ofText?_ruleChain]
  have hbefore : splitTagList "A(a)".toList = .ok ["A(a)".toList] := splitTagList_ruleChain 0
  rw [Rule.parseWith, splitArrow?_ruleChain]
  simp only [hbefore, splitTagList_ruleChain]
  show (["A(a)".toList].mapM (Tag.parseSimple onRule) >>= fun inputs =>
    [ruleChain (n + 1)].mapM (Tag.parseSimple onRule) >>= fun outputs =>
      pure (⟨inputs, outputs⟩ : Rule)) = _
  rw [List.mapM_cons, List.mapM_cons, hfact, hrule]
  rfl

theorem arrowCount_ruleChain (n : Nat) : arrowCount (ruleChain n) = n := by
  induction n with
  | zero => rfl
  | succ n ih => simp [ruleChain, arrowCount, ih]

/-- A chain of rules goes too deep just when it is longer than there is room for. So there is no
better bound by the number of arrows. -/
theorem Rule.parseWithin_ruleChain_iff {depth n : Nat} :
    Rule.parseWithin depth (ruleChain (n + 1)) = .error .tooDeep ↔ depth ≤ n := by
  constructor
  · intro hdeep
    cases limited_parseWithin depth (ruleChain (n + 1)) with
    | tooDeep _ hcount =>
      rw [arrowCount_ruleChain] at hcount
      omega
    | same equal =>
      rw [equal] at hdeep
      cases hparse : parse (ruleChain (n + 1)) <;> rw [hparse] at hdeep <;> cases hdeep
  · intro h
    induction depth generalizing n with
    | zero => rfl
    | succ depth ih =>
      obtain ⟨n, rfl⟩ := Nat.exists_eq_add_one_of_ne_zero (show n ≠ 0 by omega)
      rw [parseWithin, parseWith_ruleChain]
      show (parseWithin depth (ruleChain (n + 1))).bind _ = _
      rw [ih (by omega)]
      rfl

end TagReasoner
