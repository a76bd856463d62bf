import TagReasoner.Network.Loading
import TagReasoner.Proofs.Tag.Nesting

/-!
# Strict and lenient loading agree

On each line of a flat file that holds a record, a loading finds either a node or a reason why there
is none (`DataFile.readings`). What it makes of the reasons that are parse errors is all that
strictness decides. A lenient loading keeps the nodes and tells those reasons, both in the order of
the lines. A strict one succeeds just where a lenient one does and has nothing to tell, with the same
nodes, and fails with what would be told first otherwise (`DataFile.load_strict_iff_lenient`).

A lenient loading does not always succeed. Where the bytes of the file are no text, it reads no
record at all; and a record with more rules one inside another than there is room for stops it, as
there always is one that does (`DataFile.not_load_lenient`). Records whose tokens have no more arrows
than that never do.

That the two go together does not depend on where the records come from. It holds for the records of
a document as well, wherever a lenient loading of them succeeds (`readNodes_strict`).
-/

namespace TagReasoner

open Text

/-! ## Paths -/

/-- The path that is told has the same parts. -/
theorem pathParts_plainPath (path : Text) : pathParts (plainPath path) = pathParts path := by
  have hparts : ∀ part ∈ pathParts path, '/' ∉ part ∧ (!part.isEmpty && part != ['.']) = true := by
    intro part hpart
    obtain ⟨hpart, hkept⟩ := List.mem_filter.mp hpart
    exact ⟨not_mem_of_mem_splitOn hpart, hkept⟩
  have hjoin : pathParts (join ['/'] (pathParts path)) = pathParts path := by
    by_cases hnone : pathParts path = []
    · rw [hnone]
      rfl
    · rw [pathParts, splitOn_join hnone fun part hpart => (hparts part hpart).1,
        List.filter_eq_self.mpr fun part hpart => (hparts part hpart).2]
  have hroot : ∀ t, pathParts (pathRoot path ++ t) = pathParts t := by
    intro t
    unfold pathRoot
    split <;> simp [pathParts, splitOn]
  rw [plainPath]
  split
  next hempty =>
    rw [← hroot, hempty] at hjoin
    rw [← hjoin]
    rfl
  next => rw [hroot, hjoin]

/-- The path that is told says as well whether the file holds a document. -/
theorem DataFile.isDocument_plainPath (path content : Text) :
    (ofText (plainPath path) content).isDocument = (ofText path content).isDocument := by
  simp only [isDocument, suffix, name, ofText, pathParts_plainPath]

example : (DataFile.ofText "data/net.YAML/.".toList []).isDocument = true := by decide +kernel

/-! ## Lines with a record -/

/-- The line is not blank and no comment. -/
def HoldsRecord (line : Text) : Prop := strip line ≠ [] ∧ (strip line).head? ≠ some '#'

instance : DecidablePred HoldsRecord := fun line =>
  inferInstanceAs (Decidable (strip line ≠ [] ∧ (strip line).head? ≠ some '#'))

/-- The number of a line, and the tokens between the delimiters on it. -/
def cutLine (delimiter : Text) (l : Text × Nat) : Nat × List Text :=
  (l.2, splitOnTextFrom delimiter 0 (strip l.1))

/-- The lines that hold a record, cut at the delimiter. All the lines are counted. -/
def numberedRecords (delimiter : Text) (number : Nat) (lines : List Text) :
    List (Nat × List Text) :=
  ((lines.zipIdx number).filter fun l => HoldsRecord l.1).map (cutLine delimiter)

theorem numberedRecords_cons (delimiter : Text) (number : Nat) (line : Text) (lines : List Text) :
    numberedRecords delimiter number (line :: lines) =
      if HoldsRecord line then
        cutLine delimiter (line, number) :: numberedRecords delimiter (number + 1) lines
      else numberedRecords delimiter (number + 1) lines := by
  rw [numberedRecords, List.zipIdx_cons, List.filter_cons]
  simp only [decide_eq_true_eq]
  split <;> rfl

/-- A delimiter that is not empty cuts every line that holds a record. -/
theorem readRecordsFrom_eq_ok {delimiter : Text} (hdelimiter : delimiter ≠ []) (number : Nat)
    (lines : List Text) :
    readRecordsFrom delimiter number lines = .ok (numberedRecords delimiter number lines) := by
  have hcut (t : Text) : splitOnText? delimiter t = some (splitOnTextFrom delimiter 0 t) := by
    rw [splitOnText?, if_neg (by simpa using hdelimiter)]
  induction lines generalizing number with
  | nil => rfl
  | cons line lines ih =>
    rw [readRecordsFrom, numberedRecords_cons]
    split
    next hblank => rw [if_neg fun h => h.1 hblank, ih]
    next r hcomment => rw [if_neg fun h => h.2 (congrArg List.head? hcomment), ih]
    next hblank hcomment =>
      have hholds : HoldsRecord line := by
        refine ⟨hblank, fun hhead => ?_⟩
        obtain ⟨r, hr⟩ := List.head?_eq_some_iff.mp hhead
        exact hcomment r hr
      rw [if_pos hholds, hcut, ih]
      rfl

theorem DataFile.records_of_flat {f : DataFile} {delimiter : Text} (hflat : f.isDocument = false)
    (hdelimiter : delimiter ≠ []) : f.records delimiter =
      if f.brokenOff then .error .undecodable
      else .ok ((numberedRecords delimiter 1 f.lines).map fun r => (r.1, .ok r.2)) := by
  rw [records, hflat, lineRecords, readRecords, readRecordsFrom_eq_ok hdelimiter]
  rfl

/-! ## Records read with limited room -/

/-- A token has more arrows than there is room for rules. -/
def TooManyArrows (depth : Nat) (tokens : List Text) : Prop :=
  ∃ token ∈ tokens, depth < arrowCount token

instance (depth : Nat) : DecidablePred (TooManyArrows depth) := fun tokens =>
  inferInstanceAs (Decidable (∃ token ∈ tokens, depth < arrowCount token))

theorem TooManyArrows.mono {depth : Nat} {ts us : List Text} (h : TooManyArrows depth ts)
    (hsub : ts ⊆ us) : TooManyArrows depth us := by
  obtain ⟨token, htoken, hcount⟩ := h
  exact ⟨token, hsub htoken, hcount⟩

theorem limited_readOutputsWith (depth : Nat) (tokens : List Text) (m : Keyed Tag Binary64) :
    Limited (TooManyArrows depth tokens)
      (readOutputsWith .parse (Tag.parseWithin depth) tokens m)
      (readOutputsWith id Tag.parse tokens m) :=
  match tokens, m with
  | tag :: weight :: rest, m => by
    rw [readOutputsWith, readOutputsWith]
    cases Number.realNumber? weight with
    | none => exact .same rfl
    | some w =>
      have htag : Limited (TooManyArrows depth (tag :: weight :: rest)) _ _ :=
        (Tag.limited_parseWithin depth tag).imp fun hcount => ⟨tag, List.mem_cons_self .., hcount⟩
      have hrest : rest ⊆ tag :: weight :: rest := (List.suffix_append [tag, weight] rest).subset
      exact htag.bind fun t => (limited_readOutputsWith depth rest (m.put t w)).imp (·.mono hrest)
  | [_], _ => .same rfl
  | [], _ => .same rfl

/-- A record goes too deep only if one of its tokens has more arrows than there is room for. -/
theorem Node.limited_ofRecordWithin (depth : Nat) (s : Settings) (now : Binary64)
    (tokens : List Text) :
    Limited (TooManyArrows depth tokens) (Node.ofRecordWithin depth s now tokens)
      (Node.ofRecord s now tokens) := by
  have hstripped : TooManyArrows depth (tokens.map strip) → TooManyArrows depth tokens := by
    rintro ⟨_, hmem, hcount⟩
    obtain ⟨token, htoken, rfl⟩ := List.mem_map.mp hmem
    exact ⟨token, htoken, hcount.trans_le (arrowCount_le_of_isInfix (isInfix_strip token))⟩
  refine Limited.imp ?_ hstripped
  simp only [Node.ofRecordWithin, Node.ofRecord, Node.ofRecordWith]
  generalize tokens.map strip = tokens
  split
  next tag threshold outputs =>
    split
    next => exact .same rfl
    next =>
      have htag : Limited (TooManyArrows depth (tag :: threshold :: outputs)) _ _ :=
        (Tag.limited_parseWithin depth tag).imp fun hcount => ⟨tag, List.mem_cons_self .., hcount⟩
      have houtputs : outputs ⊆ tag :: threshold :: outputs :=
        (List.suffix_append [tag, threshold] outputs).subset
      refine htag.bind fun t => ?_
      cases Number.wholeNumber? threshold with
      | none => exact .same rfl
      | some z =>
        exact ((limited_readOutputsWith depth outputs .empty).imp (·.mono houtputs)).bind
          fun os => .same rfl
  next => exact .same rfl

/-! ## What is found in a record -/

/-- What is found in a record: a node, or why there is none. -/
structure Reading where
  number : Nat
  found : Except Fault Node

namespace Reading

/-- What is found in the tokens of a numbered record. -/
def ofRecord (depth : Nat) (s : Settings) (now : Binary64) (record : Nat × List Text) : Reading :=
  ⟨record.1, Node.ofRecordWithin depth s now record.2⟩

/-- A record is read as it is with all the room, if no token has too many arrows. -/
theorem ofRecord_of_room {depth : Nat} {s : Settings} {now : Binary64} {r : Nat × List Text}
    (h : ¬ TooManyArrows depth r.2) :
    ofRecord depth s now r = ⟨r.1, (Node.ofRecord s now r.2).mapError .parse⟩ := by
  cases Node.limited_ofRecordWithin depth s now r.2 with
  | tooDeep _ holds => exact absurd holds h
  | same equal => rw [ofRecord, equal]

/-- There was not enough room to read the record. -/
def overflows (r : Reading) : Bool :=
  match r.found with
  | .error .tooDeep => true
  | _ => false

/-- The node, if there is one. -/
def node? (r : Reading) : Option Node := r.found.toOption

/-- Why the record cannot be read, with its place. -/
def refusal? (path : Text) (r : Reading) : Option ParseError :=
  match r.found with
  | .error (.parse cause) => some (.inRecord path r.number cause)
  | _ => none

end Reading

/-- What is found on the lines of a file, in their order. -/
def DataFile.readings (f : DataFile) (depth : Nat) (s : Settings) (delimiter : Text)
    (now : Binary64) : List Reading :=
  (numberedRecords delimiter 1 f.lines).map (Reading.ofRecord depth s now)

/-! ## The two loadings -/

section ReadNodes

variable {depth : Nat} {s : Settings} {now : Binary64} {path : Text}

/-- A lenient loading of records that have tokens comes to its end, whatever is found in them, unless
there is not enough room for one. -/
theorem readNodes_lenient (rs : List (Nat × List Text)) :
    readNodes depth s now path false (rs.map fun r => (r.1, .ok r.2)) =
      if (rs.map (Reading.ofRecord depth s now)).any Reading.overflows then .error .tooDeep
      else .ok ((rs.map (Reading.ofRecord depth s now)).filterMap Reading.node?,
        (rs.map (Reading.ofRecord depth s now)).filterMap (Reading.refusal? path)) := by
  induction rs with
  | nil => rfl
  | cons r rs ih =>
    simp only [List.map_cons, List.filterMap_cons, List.any_cons, readNodes, Numbered.node,
      Except.bind, ih, Reading.ofRecord, Reading.overflows, Reading.node?, Reading.refusal?]
    cases Node.limited_ofRecordWithin depth s now r.2 with
    | tooDeep stops =>
      rw [stops]
      rfl
    | same equal =>
      rw [equal]
      cases Node.ofRecord s now r.2 with
      | ok n => cases (rs.map (Reading.ofRecord depth s now)).any Reading.overflows <;> rfl
      | error cause => cases (rs.map (Reading.ofRecord depth s now)).any Reading.overflows <;> rfl

/-- What a strict loading makes of what a lenient one gives. -/
def strictly : List Node × List ParseError → Except Fault (List Node × List ParseError)
  | (nodes, []) => .ok (nodes, [])
  | (_, e :: _) => .error (.parse e)

/-- Where a lenient loading comes to its end, a strict one of the same records gives the same nodes,
or fails with what is told first. -/
theorem readNodes_strict {rs : List Numbered} {result : List Node × List ParseError}
    (h : readNodes depth s now path false rs = .ok result) :
    readNodes depth s now path true rs = strictly result := by
  induction rs generalizing result with
  | nil =>
    cases h
    rfl
  | cons r rs ih =>
    rw [readNodes] at h ⊢
    cases hread : r.node depth s now with
    | ok n =>
      simp only [hread] at h ⊢
      obtain ⟨⟨nodes, errors⟩, hrest, rfl⟩ := map_eq_ok_iff.mp h
      rw [ih hrest]
      cases errors <;> rfl
    | error fault =>
      cases fault with
      | parse e =>
        simp only [hread] at h ⊢
        obtain ⟨⟨nodes, errors⟩, hrest, rfl⟩ := map_eq_ok_iff.mp h
        rfl
      | _ =>
        simp only [hread] at h
        cases h

/-- What is told of a record names its place. -/
theorem readNodes_errors {rs : List Numbered} {result : List Node × List ParseError}
    (h : readNodes depth s now path false rs = .ok result) :
    ∀ e ∈ result.2, ∃ number cause, e = .inRecord path number cause := by
  induction rs generalizing result with
  | nil =>
    cases h
    exact fun e he => absurd he List.not_mem_nil
  | cons r rs ih =>
    rw [readNodes] at h
    cases hread : r.node depth s now with
    | ok n =>
      simp only [hread] at h
      obtain ⟨rest, hrest, rfl⟩ := map_eq_ok_iff.mp h
      have hplaces := ih hrest
      exact hplaces
    | error fault =>
      cases fault with
      | parse e =>
        simp only [hread] at h
        obtain ⟨rest, hrest, rfl⟩ := map_eq_ok_iff.mp h
        exact List.forall_mem_cons.mpr ⟨⟨r.1, e, rfl⟩, ih hrest⟩
      | _ =>
        simp only [hread] at h
        cases h

/-- Where a lenient loading fails, a strict one does, with the same fault or with a parse error that
comes before it. -/
theorem readNodes_strict_of_error {rs : List Numbered} {fault : Fault}
    (h : readNodes depth s now path false rs = .error fault) :
    readNodes depth s now path true rs = .error fault ∨
      ∃ e, readNodes depth s now path true rs = .error (.parse e) := by
  induction rs with
  | nil => cases h
  | cons r rs ih =>
    rw [readNodes] at h ⊢
    cases hread : r.node depth s now with
    | ok n =>
      simp only [hread] at h ⊢
      cases hrest : readNodes depth s now path false rs with
      | ok result =>
        rw [hrest] at h
        cases h
      | error fault' =>
        rw [hrest] at h
        cases h
        rcases ih hrest with hsame | ⟨e, hparse⟩
        · exact .inl (by rw [hsame]; rfl)
        · exact .inr ⟨e, by rw [hparse]; rfl⟩
    | error fault' =>
      cases fault' with
      | parse e => exact .inr ⟨_, rfl⟩
      | _ =>
        simp only [hread] at h ⊢
        exact .inl h

end ReadNodes

namespace DataFile

variable {f : DataFile} {depth : Nat} {s : Settings} {delimiter : Text} {now : Binary64}

theorem readings_of_room
    (h : ∀ r ∈ numberedRecords delimiter 1 f.lines, ¬ TooManyArrows depth r.2) :
    f.readings depth s delimiter now = (numberedRecords delimiter 1 f.lines).map fun r =>
      ⟨r.1, (Node.ofRecord s now r.2).mapError .parse⟩ :=
  List.map_congr_left fun r hr => Reading.ofRecord_of_room (h r hr)

/-- Loading a flat file leniently gives what is found on its lines, if the file is text and there is
room for all its records. -/
theorem load_lenient (hflat : f.isDocument = false) (hdelimiter : delimiter ≠ []) :
    f.load depth s delimiter now false =
      if f.brokenOff then .error .undecodable
      else if (f.readings depth s delimiter now).any Reading.overflows then .error .tooDeep
      else .ok ⟨(f.readings depth s delimiter now).filterMap Reading.node?,
        ((f.readings depth s delimiter now).filterMap
          (Reading.refusal? (plainPath f.path))).map .skipped⟩ := by
  rw [load, records_of_flat hflat hdelimiter]
  cases f.brokenOff with
  | true => rfl
  | false =>
    show (readNodes depth s now (plainPath f.path) false
      ((numberedRecords delimiter 1 f.lines).map fun r => (r.1, .ok r.2))).map _ = _
    rw [readNodes_lenient, ← readings]
    cases (f.readings depth s delimiter now).any Reading.overflows <;> rfl

/-- What a strict loading does where a lenient one succeeds. -/
theorem load_strict_of_ok {loaded : Loaded} (h : f.load depth s delimiter now false = .ok loaded) :
    ∃ errors, loaded.notices = errors.map .skipped ∧
      (∀ e ∈ errors, ∃ number cause, e = .inRecord (plainPath f.path) number cause) ∧
      f.load depth s delimiter now true = (strictly (loaded.nodes, errors)).map fun r =>
        ⟨r.1, r.2.map .skipped⟩ := by
  obtain ⟨records, hrecords, hread⟩ := bind_eq_ok_iff.mp h
  obtain ⟨result, hresult, rfl⟩ := map_eq_ok_iff.mp hread
  refine ⟨result.2, rfl, readNodes_errors hresult, ?_⟩
  rw [load, hrecords]
  exact congrArg (Except.map _) (readNodes_strict hresult)

/-- Where a lenient loading succeeds, a strict one fails just with what is told first. -/
theorem load_strict_eq_error_iff {loaded : Loaded} {fault : Fault}
    (h : f.load depth s delimiter now false = .ok loaded) :
    f.load depth s delimiter now true = .error fault ↔ ∃ number cause,
      loaded.notices.head? = some (.skipped (.inRecord (plainPath f.path) number cause)) ∧
        fault = .parse (.inRecord (plainPath f.path) number cause) := by
  obtain ⟨errors, hnotices, hplaces, hstrict⟩ := load_strict_of_ok h
  rw [hstrict, hnotices]
  cases errors with
  | nil => simp [strictly, Except.map]
  | cons e errors =>
    obtain ⟨number, cause, rfl⟩ := hplaces e (List.mem_cons_self ..)
    simp [strictly, Except.map, eq_comm]

/-- What a strict loading does where a lenient one fails. -/
theorem load_strict_of_error {fault : Fault}
    (h : f.load depth s delimiter now false = .error fault) :
    f.load depth s delimiter now true = .error fault ∨
      ∃ e, f.load depth s delimiter now true = .error (.parse e) := by
  rw [load] at h ⊢
  cases hrecords : f.records delimiter with
  | error fault' =>
    rw [hrecords] at h
    exact .inl h
  | ok records =>
    rw [hrecords] at h
    simp only [Except.bind] at h ⊢
    cases hread : readNodes depth s now (plainPath f.path) false records with
    | ok result =>
      rw [hread] at h
      cases h
    | error fault' =>
      rw [hread] at h
      cases h
      rcases readNodes_strict_of_error hread with hsame | ⟨e, hparse⟩
      · exact .inl (by rw [hsame]; rfl)
      · exact .inr ⟨e, by rw [hparse]; rfl⟩

/-- A strict loading succeeds just where a lenient one does with nothing to tell. -/
theorem load_strict_eq_ok_iff (loaded : Loaded) :
    f.load depth s delimiter now true = .ok loaded ↔
      f.load depth s delimiter now false = .ok loaded ∧
        loaded.notices.filter Notice.isWarning = [] := by
  cases hlenient : f.load depth s delimiter now false with
  | error fault =>
    refine iff_of_false (fun hstrict => ?_) fun h => by cases h.1
    rcases load_strict_of_error hlenient with hsame | ⟨e, hparse⟩
    · cases hstrict.symm.trans hsame
    · cases hstrict.symm.trans hparse
  | ok found =>
    obtain ⟨nodes, notices⟩ := found
    obtain ⟨errors, rfl, -, hstrict⟩ := load_strict_of_ok hlenient
    rw [hstrict]
    cases errors with
    | nil =>
      constructor
      · rintro ⟨⟩
        exact ⟨rfl, rfl⟩
      · rintro ⟨⟨⟩, -⟩
        rfl
    | cons e errors =>
      refine iff_of_false (fun h => by cases h) ?_
      rintro ⟨⟨⟩, hwarning⟩
      cases hwarning

/-- A lenient loading of a flat file succeeds just where the file is text and there is room for the
rules of all its records. It then gives the nodes of just those records that can be read, and tells
of each other record its number among all the lines and what is wrong with it; and a strict loading
fails with what is told first, if something is. A strict loading succeeds just where a lenient one
does with nothing to tell. Where no token has more arrows than there is room for, the records are
read as they are with all the room. -/
theorem load_strict_iff_lenient (depth : Nat) (s : Settings) (now : Binary64)
    (hflat : f.isDocument = false) (hdelimiter : delimiter ≠ []) :
    let readings := f.readings depth s delimiter now
    let lenient := f.load depth s delimiter now false
    let strict := f.load depth s delimiter now true
    ((∃ loaded, lenient = .ok loaded) ↔
      f.brokenOff = false ∧ ∀ r ∈ readings, r.overflows = false) ∧
    (∀ loaded, lenient = .ok loaded →
      loaded.nodes = readings.filterMap Reading.node? ∧
      loaded.notices = (readings.filterMap (Reading.refusal? (plainPath f.path))).map .skipped ∧
      ∀ fault, strict = .error fault ↔ ∃ number cause,
        loaded.notices.head? = some (.skipped (.inRecord (plainPath f.path) number cause)) ∧
          fault = .parse (.inRecord (plainPath f.path) number cause)) ∧
    (∀ loaded, strict = .ok loaded ↔
      lenient = .ok loaded ∧ loaded.notices.filter Notice.isWarning = []) ∧
    (∀ fault, lenient = .error fault →
      fault = (if f.brokenOff then .undecodable else .tooDeep) ∧
        (strict = .error fault ∨ ∃ e, strict = .error (.parse e))) ∧
    (f.brokenOff = false →
      (∀ r ∈ numberedRecords delimiter 1 f.lines, ¬ TooManyArrows depth r.2) →
        (∃ loaded, lenient = .ok loaded) ∧
          readings = (numberedRecords delimiter 1 f.lines).map fun r =>
            ⟨r.1, (Node.ofRecord s now r.2).mapError .parse⟩) := by
  intro readings lenient strict
  have hload : lenient = _ := load_lenient hflat hdelimiter
  have hroom : readings.any Reading.overflows = false ↔ ∀ r ∈ readings, r.overflows = false := by
    simp only [List.any_eq_false, Bool.not_eq_true]
  have hsucceeds : (∃ loaded, lenient = .ok loaded) ↔
      f.brokenOff = false ∧ ∀ r ∈ readings, r.overflows = false := by
    rw [hload, ← hroom]
    cases f.brokenOff <;> cases readings.any Reading.overflows <;> simp
  refine ⟨hsucceeds, fun loaded hloaded => ?_, load_strict_eq_ok_iff, fun fault hfault => ?_,
    fun hwhole harrows => ?_⟩
  · obtain ⟨hwhole, hfits⟩ := hsucceeds.mp ⟨loaded, hloaded⟩
    rw [hwhole, hroom.mpr hfits, hloaded] at hload
    cases hload
    exact ⟨rfl, rfl, fun fault => load_strict_eq_error_iff hloaded⟩
  · refine ⟨?_, load_strict_of_error hfault⟩
    rw [hload] at hfault
    split at hfault
    next hbroken =>
      cases hfault
      rw [if_pos hbroken]
    next hbroken =>
      rw [if_neg hbroken]
      split at hfault
      · cases hfault
        rfl
      · cases hfault
  · have hread : readings = _ := readings_of_room harrows
    refine ⟨hsucceeds.mpr ⟨hwhole, ?_⟩, hread⟩
    rw [hread, List.forall_mem_map]
    intro r hr
    rw [Reading.overflows]
    cases Node.ofRecord s now r.2 <;> rfl

/-- A comment, a blank line, two records, and between them three lines that cannot be read: the last
one has a rule inside a rule, for which there is just enough room. -/
def mixedLines : DataFile :=
  ofText "net.txt".toList "# net\n\nP(a);1\nbad\nQ(b);x\nP(a)=>Q(b)=>@c;1\nR(c);2\n".toList

theorem load_strict_iff_lenient_mixed_lines :
    mixedLines.isDocument = false ∧ ([';'] : Text) ≠ [] ∧
      ∃ lenient, mixedLines.load 2 .standard [';'] (.ofNat 0) false = .ok lenient ∧
        lenient.nodes.map Node.threshold = [1, 2] ∧
        lenient.notices =
          [.skipped (.inRecord mixedLines.path 4 (.malformed .shortRecord "bad".toList)),
            .skipped (.inRecord mixedLines.path 5 (.malformed .threshold "x".toList)),
            .skipped (.inRecord mixedLines.path 6 (.malformed .nestedRule "Q(b)=>@c".toList))] ∧
        mixedLines.load 2 .standard [';'] (.ofNat 0) true =
          .error (.parse (.inRecord mixedLines.path 4 (.malformed .shortRecord "bad".toList))) := by
  have hflat : mixedLines.isDocument = false := by decide +kernel
  have hdelimiter : ([';'] : Text) ≠ [] := List.cons_ne_nil _ _
  obtain ⟨-, hfound, -, -, hroom⟩ :=
    load_strict_iff_lenient 2 .standard (.ofNat 0) hflat hdelimiter
  obtain ⟨⟨lenient, hlenient⟩, -⟩ := hroom rfl (by decide +kernel)
  obtain ⟨hnodes, hnotices, hstrict⟩ := hfound lenient hlenient
  have hnotices' : lenient.notices =
      [.skipped (.inRecord mixedLines.path 4 (.malformed .shortRecord "bad".toList)),
        .skipped (.inRecord mixedLines.path 5 (.malformed .threshold "x".toList)),
        .skipped (.inRecord mixedLines.path 6 (.malformed .nestedRule "Q(b)=>@c".toList))] := by
    rw [hnotices]
    decide +kernel
  refine ⟨hflat, hdelimiter, lenient, hlenient, ?_, hnotices', (hstrict _).mpr ?_⟩
  · rw [hnodes]
    decide +kernel
  · exact ⟨4, _, congrArg List.head? hnotices', rfl⟩

/-- A file with one record, the tag of which is a chain of rules. -/
def chainRecord (n : Nat) : DataFile :=
  ofText "net.txt".toList (ruleChain n ++ [';', '1', '\n'])

theorem numberedRecords_chainRecord (n : Nat) :
    numberedRecords [';'] 1 (chainRecord n).lines = [(1, [ruleChain n, ['1']])] := by
  have hcut : ∀ n, splitOnTextFrom [';'] 0 (ruleChain n ++ [';', '1']) = [ruleChain n, ['1']] := by
    intro n
    induction n with
    | zero => rfl
    | succ n ih => simp [ruleChain, splitOnTextFrom, ih, consPiece]
  have hlines : (chainRecord n).lines = [ruleChain n ++ [';', '1']] := by
    show Text.lines (ruleChain n ++ [';', '1', '\n']) = _
    induction n with
    | zero => rfl
    | succ n ih => simp [ruleChain, Text.lines, ih, consPiece]
  have hstrip : strip (ruleChain n ++ [';', '1']) = ruleChain n ++ [';', '1'] :=
    strip_eq_self (List.forall_mem_append.mpr ⟨not_isBlank_ruleChain n,
      List.forall_mem_cons.mpr ⟨by decide, List.forall_mem_singleton.mpr (by decide)⟩⟩)
  have hholds : HoldsRecord (ruleChain n ++ [';', '1']) := by
    rw [HoldsRecord, hstrip]
    cases n <;> simp [ruleChain]
  rw [hlines, numberedRecords_cons, if_pos hholds, cutLine, hstrip, hcut]
  rfl

/-- Whatever the room, a chain that is longer stops a lenient loading. -/
theorem load_lenient_chainRecord {n : Nat} (h : depth ≤ n) :
    (chainRecord (n + 1)).load depth s [';'] now false = .error .tooDeep := by
  have hflat : (chainRecord (n + 1)).isDocument = false := by
    show (chainRecord 0).isDocument = false
    decide +kernel
  have hdeep : Node.ofRecordWithin depth s now [ruleChain (n + 1), ['1']] = .error .tooDeep := by
    have hstrip : strip (ruleChain (n + 1)) = ruleChain (n + 1) :=
      strip_eq_self (not_isBlank_ruleChain (n + 1))
    have htag : Tag.parseWithin depth (ruleChain (n + 1)) = .error .tooDeep := by
      rw [Tag.parseWithin, hstrip]
      simp only [ofText?_ruleChain, Rule.parseWithin_ruleChain_iff.mpr h]
      rfl
    simp only [Node.ofRecordWithin, Node.ofRecordWith, List.map_cons, hstrip, htag]
    rfl
  rw [load_lenient hflat (List.cons_ne_nil _ _), readings, numberedRecords_chainRecord,
    List.map_singleton, Reading.ofRecord, hdeep]
  rfl

/-- A record goes too deep, and a comment is no text. Neither is skipped. -/
theorem not_load_lenient :
    let nested := chainRecord 1000
    let latin := ofBytes "net.txt".toList
      [0x23, 0x20, 0x63, 0x61, 0x66, 0xE9, 0x0A, 0x41, 0x28, 0x61, 0x29, 0x3B, 0x31, 0x0A]
    nested.isDocument = false ∧
      nested.load 250 .standard [';'] (.ofNat 0) false = .error .tooDeep ∧
      latin.isDocument = false ∧
      latin.load 250 .standard [';'] (.ofNat 0) false = .error .undecodable := by
  intro nested latin
  have hlatin : latin.isDocument = false := by decide +kernel
  refine ⟨by decide +kernel, load_lenient_chainRecord (by decide), hlatin, ?_⟩
  have hbroken : latin.brokenOff = true := by decide +kernel
  rw [load_lenient hlatin (List.cons_ne_nil _ _), if_pos hbroken]

end DataFile
end TagReasoner
