import Yurine.Search.Verification

/-! What verification records. The caches never change what a scan returns, so the recorded
distances are those of the candidates, each taken on its own. -/
namespace Yurine
open Outcome Minima

section Runs
variable {R : Type} [Number R] {policy : Policy R Symbol} {costs : EditCosts R Symbol}
  {known : Symbol → Prop} {queryString : List Symbol} {corpus : CorpusStore}
  {bound : StrictBound R}

def Entries (P : Nat → β → Prop) (entries : Std.TreeMap Nat β) : Prop :=
  ∀ position value, entries[position]? = some value → P position value

theorem Entries.insert {P : Nat → β → Prop} {entries : Std.TreeMap Nat β}
    (all : Entries P entries) {position : Nat} {value : β} (new : P position value) :
    Entries P (entries.insert position value) := by
  intro other found lookup
  rw [Std.TreeMap.getElem?_insert] at lookup
  split at lookup
  · rename_i same
    obtain rfl := Option.some.inj lookup
    rwa [← Std.LawfulEqCmp.compare_eq_iff_eq.mp same]
  · exact all other found lookup

/-- The caches of a call hold the columns of their own query strings. -/
structure Verification.Sound (policy : Policy R Symbol) (queryString : List Symbol)
    (state : Verification R) : Prop where
  backward : Entries (fun position (root : TrieNode R) =>
    root.Caches policy (queryString.take position).reverse []) state.backward
  forward : Entries (fun position (root : TrieNode R) =>
    root.Caches policy (queryString.drop (position + 1)) []) state.forward
  directional : Entries (fun position found =>
    found = ⟨(queryString.take position).reverse, queryString.drop (position + 1)⟩)
    state.directionalQueryStrings

/-- The candidate names a place of a readable string and of the query string. -/
structure Anchors (R : Type) (corpus : CorpusStore) (queryString : List Symbol)
    (candidate : Candidate) (string : List Symbol) : Prop where
  read : corpus.string (R := R) candidate.stringId = .ok (some string)
  stringPosition : candidate.stringPosition.val < string.length
  queryPosition : candidate.queryPosition.val < queryString.length

omit [Number R] in
theorem Anchors.unique {candidate : Candidate} {string other : List Symbol}
    (first : Anchors R corpus queryString candidate string)
    (second : Anchors R corpus queryString candidate other) : string = other := by
  have same := first.read.symm.trans second.read
  simpa using same

/-- The substrings that the two scans of a candidate reach within the bound. -/
def Recorded (bound : StrictBound R) (anchorCost : R) (candidate : Candidate)
    (backward forward : List R) (visited : Nat → Nat → Prop) (key : SubstringKey) (x : R) : Prop :=
  ∃ i j b f, visited i j ∧ backward[i]? = some b ∧ forward[j]? = some f ∧
    key = substringKey candidate.stringId (candidate.stringPosition.val - i)
      (candidate.stringPosition.val + j + 1) ∧
    x = addDistance (addDistance anchorCost b) f ∧ bound.admits x

/-- The distances that one candidate contributes. -/
def Contributes (policy : Policy R Symbol) (bound : StrictBound R) (queryString : List Symbol)
    (candidate : Candidate) (string : List Symbol) (key : SubstringKey) (x : R) : Prop :=
  ∃ a b, queryString[candidate.queryPosition.val]? = some a ∧
    string[candidate.stringPosition.val]? = some b ∧
    bound.admits (policy.substitution a b).get ∧
    Recorded bound (policy.substitution a b).get candidate
      (prefixDistances policy (queryString.take candidate.queryPosition.val).reverse
        (bound.residual (policy.substitution a b).get)
        (string.take candidate.stringPosition.val).reverse)
      (prefixDistances policy (queryString.drop (candidate.queryPosition.val + 1))
        (bound.residual (policy.substitution a b).get)
        (string.drop (candidate.stringPosition.val + 1)))
      (fun _ _ => True) key x

omit [Number R] in
theorem slice_before {xs : List α} {i : Nat} (inside : i < xs.length) :
    slice (ε := Error R) xs 0 i = .ok (xs.take i) :=
  slice_ok (Nat.zero_le i) inside.le

omit [Number R] in
theorem slice_after {xs : List α} {i : Nat} (inside : i < xs.length) :
    slice (ε := Error R) xs (i + 1) xs.length = .ok (xs.drop (i + 1)) := by
  rw [slice_ok inside (le_refl _), ← List.length_drop, List.take_length]

omit [Number R] in
theorem directionalQueryStrings_ok {position : Nat} (inside : position < queryString.length) :
    DirectionalQueryStrings.new (R := R) queryString position =
      .ok ⟨(queryString.take position).reverse, queryString.drop (position + 1)⟩ := by
  rw [DirectionalQueryStrings.new, slice_before inside, bind_ok, slice_after inside, bind_ok]
  rfl

omit [Number R] in
theorem directionalQueryStringsAt_ok {cache : Std.TreeMap Nat DirectionalQueryStrings}
    (holds : Entries (fun position (found : DirectionalQueryStrings) =>
      found = ⟨(queryString.take position).reverse, queryString.drop (position + 1)⟩) cache)
    {position : Nat} (inside : position < queryString.length) :
    directionalQueryStringsAt (R := R) queryString position cache =
      .ok ⟨(queryString.take position).reverse, queryString.drop (position + 1)⟩ := by
  unfold directionalQueryStringsAt
  split
  · rename_i directional found
    rw [holds _ _ found]
    rfl
  · exact directionalQueryStrings_ok inside

theorem scanDirection_ok (answers : costs.Answers policy known) (queryString : List Symbol)
    (query : ∀ symbol ∈ queryString, known symbol) (symbols : List Symbol)
    (strings : ∀ symbol ∈ symbols, known symbol) (budget : R) {position : Nat}
    {forest : Std.TreeMap Nat (TrieNode R)}
    (sound : ∀ root, forest[position]? = some root → root.Caches policy queryString []) :
    ∃ next root, scanDirection queryString symbols budget costs position forest =
        .ok (prefixDistances policy queryString budget symbols, next) ∧
      root.Caches policy queryString [] ∧ next = forest.insert position root := by
  have scan {root : TrieNode R} (caches : root.Caches policy queryString []) :=
    cachedPrefixDistances_ok answers query budget strings caches
  unfold scanDirection
  cases found : forest[position]? with
  | some root =>
    obtain ⟨after, scanned, caches⟩ := scan (sound root found)
    refine ⟨_, after, ?_, caches, rfl⟩
    simp only [pure, Except.pure, bind_ok, scanned]
  | none =>
    obtain ⟨root, fresh, made⟩ := TrieNode.root_ok answers query
    obtain ⟨after, scanned, caches⟩ := scan fresh
    refine ⟨_, after, ?_, caches, rfl⟩
    simp only [made, bind_ok, scanned]
    rfl

section Recording
variable {anchorCost : R} {candidate : Candidate} {backward forward : List R}
  {seen : SubstringKey → R → Prop} {i j : Nat}

def Visited (i j : Nat) (row column : Nat) : Prop :=
  row < i ∨ row = i ∧ column < j

theorem recorded_succ (row : i < backward.length) (column : j < forward.length)
    (key : SubstringKey) (x : R) :
    Recorded bound anchorCost candidate backward forward (Visited i (j + 1)) key x ↔
      Recorded bound anchorCost candidate backward forward (Visited i j) key x ∨
        (key = substringKey candidate.stringId (candidate.stringPosition.val - i)
            (candidate.stringPosition.val + j + 1) ∧
          x = addDistance (addDistance anchorCost backward[i]) forward[j] ∧ bound.admits x) := by
  unfold Recorded Visited
  constructor
  · rintro ⟨i', j', b, f, visited, hb, hf, rest⟩
    by_cases new : i' = i ∧ j' = j
    · obtain ⟨rfl, rfl⟩ := new
      rw [List.getElem?_eq_getElem row, Option.some.injEq] at hb
      rw [List.getElem?_eq_getElem column, Option.some.injEq] at hf
      subst hb hf
      exact .inr rest
    · exact .inl ⟨i', j', b, f, by omega, hb, hf, rest⟩
  · rintro (⟨i', j', b, f, visited, rest⟩ | rest)
    · exact ⟨i', j', b, f, by omega, rest⟩
    · exact ⟨i, j, _, _, by omega, List.getElem?_eq_getElem row, List.getElem?_eq_getElem column,
        rest⟩

theorem ensures_recordSubstring {substrings : Substrings R}
    (reach : i ≤ candidate.stringPosition.val) (row : i < backward.length)
    (column : j < forward.length)
    (minimal : Minimal substrings (fun key x => seen key x ∨
      Recorded bound anchorCost candidate backward forward (Visited i j) key x)) :
    Ensures (fun next : Substrings R => Minimal next (fun key x => seen key x ∨
        Recorded bound anchorCost candidate backward forward (Visited i (j + 1)) key x))
      (fun _ => False)
      (recordSubstring bound anchorCost candidate (backward[i], i) substrings (forward[j], j)) := by
  have start : subtract (R := R) candidate.stringPosition.val i =
      .ok (candidate.stringPosition.val - i) := if_pos reach
  simp only [recorded_succ row column, ← or_assoc]
  unfold recordSubstring
  refine ensures_ite (fun admitted => ?_) (fun refused => ?_)
  · rw [start, bind_ok, ensures_pure]
    refine (minimal.relax _ _).congr (fun key x => or_congr_right ?_)
    constructor
    · rintro ⟨rfl, rfl⟩
      exact ⟨rfl, rfl, admitted⟩
    · rintro ⟨rfl, rfl, _⟩
      exact ⟨rfl, rfl⟩
  · refine minimal.congr (fun key x => (or_iff_left ?_).symm)
    rintro ⟨_, rfl, admitted⟩
    exact refused admitted

theorem ensures_recordRow {substrings : Substrings R}
    (reach : i ≤ candidate.stringPosition.val) (row : i < backward.length)
    (minimal : Minimal substrings (fun key x => seen key x ∨
      Recorded bound anchorCost candidate backward forward (Visited i 0) key x)) :
    Ensures (fun next : Substrings R => Minimal next (fun key x => seen key x ∨
        Recorded bound anchorCost candidate backward forward (Visited (i + 1) 0) key x))
      (fun _ => False)
      (forward.zipIdx.foldlM (recordSubstring bound anchorCost candidate (backward[i], i))
        substrings) := by
  have cells := Ensures.foldlM_zipIdx (ε := Error R) (E := fun _ => False) (l := forward)
    (f := recordSubstring bound anchorCost candidate (backward[i], i)) (s := substrings)
    (motive := fun j (next : Substrings R) => Minimal next (fun key x => seen key x ∨
      Recorded bound anchorCost candidate backward forward (Visited i j) key x)) minimal
    (fun j column next minimal => ensures_recordSubstring reach row column minimal)
  refine cells.post (fun next minimal => minimal.congr (fun key x => or_congr_right ?_))
  unfold Recorded Visited
  constructor
  · rintro ⟨i', j, b, f, visited, rest⟩
    exact ⟨i', j, b, f, by omega, rest⟩
  · rintro ⟨i', j, b, f, visited, hb, hf, rest⟩
    have := (List.getElem?_eq_some_iff.mp hf).1
    exact ⟨i', j, b, f, by omega, hb, hf, rest⟩

theorem ensures_recordSubstrings {substrings : Substrings R}
    (reach : backward.length ≤ candidate.stringPosition.val + 1)
    (minimal : Minimal substrings seen) :
    Ensures (fun next : Substrings R => Minimal next (fun key x => seen key x ∨
        Recorded bound anchorCost candidate backward forward (fun _ _ => True) key x))
      (fun _ => False)
      (recordSubstrings bound anchorCost candidate backward forward substrings) := by
  have rows := Ensures.foldlM_zipIdx (ε := Error R) (E := fun _ => False) (l := backward)
    (f := fun substrings entry =>
      forward.zipIdx.foldlM (recordSubstring bound anchorCost candidate entry) substrings)
    (s := substrings)
    (motive := fun i (next : Substrings R) => Minimal next (fun key x => seen key x ∨
      Recorded bound anchorCost candidate backward forward (Visited i 0) key x)) ?_
    (fun i row next minimal => ensures_recordRow (by omega) row minimal)
  · refine rows.post (fun next minimal => minimal.congr (fun key x => or_congr_right ?_))
    constructor
    · rintro ⟨i, j, b, f, _, rest⟩
      exact ⟨i, j, b, f, trivial, rest⟩
    · rintro ⟨i, j, b, f, _, hb, rest⟩
      exact ⟨i, j, b, f, .inl (List.getElem?_eq_some_iff.mp hb).1, hb, rest⟩
  · refine minimal.congr (fun key x => (or_iff_left ?_).symm)
    rintro ⟨_, _, _, _, visited, _⟩
    unfold Visited at visited
    omega

end Recording

/-- Reading a string never panics, its symbols are known and its errors are not those of
the filter. -/
def Readable (R : Type) (known : Symbol → Prop) (corpus : CorpusStore) : Prop :=
  ∀ id, Ensures (fun found => ∀ string, found = some string → ∀ symbol ∈ string, known symbol)
    (fun e => e ≠ .thresholdSubsequenceUnavailable) (corpus.string (R := R) id)

omit [Number R] in
theorem ensures_validated (readable : Readable R known corpus) (candidate : Candidate) :
    Ensures (fun string => Anchors R corpus queryString candidate string ∧
        ∀ symbol ∈ string, known symbol)
      (fun e => e ≠ .thresholdSubsequenceUnavailable)
      (validatedCandidateString (R := R) queryString candidate corpus) := by
  unfold validatedCandidateString
  refine Ensures.bind (readable candidate.stringId).returned ?_
  rintro (_ | string) ⟨read, reads⟩
  · exact nofun
  · rw [okOr_some, bind_ok]
    refine ensures_ite (fun _ => nofun) (fun inside => ?_)
    refine ensures_ite (fun _ => nofun) (fun within => ?_)
    exact ⟨⟨read, by omega, by omega⟩, reads string rfl⟩

omit [Number R] in
/-- All candidates are checked first, and pass only in range. -/
theorem ensures_checks (queryString : List Symbol) (readable : Readable R known corpus)
    (candidates : List Candidate) :
    Ensures (fun _ => ∀ candidate ∈ candidates, ∃ string,
        Anchors R corpus queryString candidate string ∧ ∀ symbol ∈ string, known symbol)
      (fun e => e ≠ .thresholdSubsequenceUnavailable)
      (candidates.forM fun candidate => do
        let _ ← validatedCandidateString (R := R) queryString candidate corpus) := by
  apply Ensures.forM (motive := fun visited => ∀ candidate ∈ visited, ∃ string,
    Anchors R corpus queryString candidate string ∧ ∀ symbol ∈ string, known symbol) (by simp)
  intro before candidate after _ valid
  refine Ensures.bind (ensures_validated readable candidate) (fun string anchors => ?_)
  intro other mem
  rcases List.mem_append.mp mem with old | new
  · exact valid other old
  · exact List.mem_singleton.mp new ▸ ⟨string, anchors⟩

theorem ensures_verifyCandidate (answers : costs.Answers policy known)
    (query : ∀ symbol ∈ queryString, known symbol) {candidate : Candidate} {string : List Symbol}
    (anchors : Anchors R corpus queryString candidate string)
    (strings : ∀ symbol ∈ string, known symbol) {state : Verification R}
    {seen : SubstringKey → R → Prop} (sound : state.Sound policy queryString)
    (minimal : Minima.Minimal state.substrings seen) :
    Ensures (fun next : Verification R => next.Sound policy queryString ∧
        Minima.Minimal next.substrings (fun key x => seen key x ∨
          Contributes policy bound queryString candidate string key x))
      (fun _ => False) (verifyCandidate queryString corpus bound costs state candidate) := by
  have inside := anchors.stringPosition
  have within := anchors.queryPosition
  have here := strings _ (List.getElem_mem inside)
  unfold verifyCandidate
  simp only [anchors.read, bind_ok, okOr_some, index_ok inside, index_ok within,
    answers.substitution _ _ (query _ (List.getElem_mem within)) here]
  refine ensures_ite (fun refused => ?_) (fun admitted => ?_)
  · refine ⟨sound, minimal.congr (fun key x => (or_iff_left ?_).symm)⟩
    rintro ⟨a, b, ha, hb, admitted, _⟩
    rw [List.getElem?_eq_getElem within, Option.some.injEq] at ha
    rw [List.getElem?_eq_getElem inside, Option.some.injEq] at hb
    subst ha hb
    exact refused admitted
  · obtain ⟨backwardForest, backwardRoot, backward, backwardCaches, rfl⟩ :=
      scanDirection_ok answers (queryString.take candidate.queryPosition.val).reverse
        (fun symbol mem => query symbol (List.mem_of_mem_take (List.mem_reverse.mp mem)))
        (string.take candidate.stringPosition.val).reverse
        (fun symbol mem => strings symbol (List.mem_of_mem_take (List.mem_reverse.mp mem)))
        (bound.residual (policy.substitution queryString[candidate.queryPosition.val]
          string[candidate.stringPosition.val]).get)
        (sound.backward candidate.queryPosition.val)
    obtain ⟨forwardForest, forwardRoot, forward, forwardCaches, rfl⟩ :=
      scanDirection_ok answers (queryString.drop (candidate.queryPosition.val + 1))
        (fun symbol mem => query symbol (List.mem_of_mem_drop mem))
        (string.drop (candidate.stringPosition.val + 1))
        (fun symbol mem => strings symbol (List.mem_of_mem_drop mem))
        (bound.residual (policy.substitution queryString[candidate.queryPosition.val]
          string[candidate.stringPosition.val]).get)
        (sound.forward candidate.queryPosition.val)
    simp only [directionalQueryStringsAt_ok sound.directional within, bind_ok, slice_before inside,
      slice_after inside, backward, forward]
    refine Ensures.bind (ensures_recordSubstrings ?_ minimal) (fun next recorded => ?_)
    · refine (length_prefixDistances _ _ _ _).trans ?_
      simp
    · refine ⟨⟨sound.backward.insert backwardCaches, sound.forward.insert forwardCaches,
        sound.directional.insert rfl⟩, recorded.congr (fun key x => or_congr_right ?_)⟩
      simp [Contributes, within, inside, not_not.mp admitted]

/-- The distances of all candidates, for each substring. -/
def Seen (policy : Policy R Symbol) (bound : StrictBound R) (queryString : List Symbol)
    (corpus : CorpusStore) (candidates : List Candidate) (key : SubstringKey) (x : R) : Prop :=
  ∃ candidate ∈ candidates, ∃ string, Anchors R corpus queryString candidate string ∧
    Contributes policy bound queryString candidate string key x

/-- The match of an entry of the result map. -/
def Match.ofEntry (entry : SubstringKey × R) : Match R :=
  ⟨(ofLex entry.1).1.val, ofLex (ofLex entry.1).2, entry.2⟩

theorem ensures_createMatches (entries : List (SubstringKey × R)) :
    Ensures (fun found => found = entries.map Match.ofEntry)
      (fun e => e ≠ .thresholdSubsequenceUnavailable)
      (entries.mapM fun entry => do
        let distance ← Cost.new entry.2
        return createMatch entry.1 distance) := by
  have each (entry : SubstringKey × R) : Ensures (fun found => found = Match.ofEntry entry)
      (fun e : Error R => e ≠ .thresholdSubsequenceUnavailable) (do
        let distance ← Cost.new entry.2
        return createMatch entry.1 distance) := by
    refine Ensures.bind (P := fun cost : Cost R => cost.get = entry.2) ?_ ?_
    · unfold Cost.new
      split
      · rfl
      · intro same
        cases same
    · rintro cost same
      exact congrArg (Match.mk _ _) same
  refine (Ensures.mapM (fun entry _ => each entry)).post (fun found related => ?_)
  induction related with
  | nil => rfl
  | cons here _ ih => rw [List.map_cons, here, ih]

/-- The loop over the candidates records what they contribute, whatever the caches. -/
theorem ensures_verifyCandidates (answers : costs.Answers policy known)
    (query : ∀ symbol ∈ queryString, known symbol) {candidates : List Candidate}
    (valid : ∀ candidate ∈ candidates, ∃ string,
      Anchors R corpus queryString candidate string ∧ ∀ symbol ∈ string, known symbol)
    (bound : StrictBound R) :
    Ensures (fun state : Verification R =>
        Minima.Minimal state.substrings (Seen policy bound queryString corpus candidates))
      (fun _ => False)
      (candidates.foldlM (verifyCandidate queryString corpus bound costs) ⟨∅, ∅, ∅, ∅⟩) := by
  refine (Ensures.foldlM (motive := fun visited (state : Verification R) =>
    state.Sound policy queryString ∧
      Minima.Minimal state.substrings (Seen policy bound queryString corpus visited))
    ?_ ?_).post (fun _ h => h.2)
  · refine ⟨⟨?_, ?_, ?_⟩, minimal_empty.congr (by simp [Seen])⟩ <;>
      exact fun position found lookup => by simp at lookup
  · rintro before candidate after state split ⟨sound, minimal⟩
    obtain ⟨string, anchors, strings⟩ := valid candidate (by simp [split])
    refine (ensures_verifyCandidate answers query anchors strings sound minimal).post ?_
    rintro next ⟨sound, minimal⟩
    refine ⟨sound, minimal.congr (fun key x => ?_)⟩
    constructor
    · rintro (⟨old, mem, rest⟩ | new)
      · exact ⟨old, by simp [mem], rest⟩
      · exact ⟨candidate, by simp, string, anchors, new⟩
    · rintro ⟨other, mem, found, also, contributes⟩
      rcases List.mem_append.mp mem with old | new
      · exact .inl ⟨other, old, found, also, contributes⟩
      · obtain rfl := List.mem_singleton.mp new
        exact .inr (also.unique anchors ▸ contributes)

/-- Verification lists, in key order, the least distance of every substring that some
candidate contributes. -/
theorem ensures_verify (answers : costs.Answers policy known)
    (query : ∀ symbol ∈ queryString, known symbol) (readable : Readable R known corpus)
    (bound : StrictBound R) (candidates : List Candidate) :
    Ensures (fun found => ∃ substrings : Substrings R,
        found = substrings.toList.map Match.ofEntry ∧
        Minima.Minimal substrings (Seen policy bound queryString corpus candidates))
      (fun e => e ≠ .thresholdSubsequenceUnavailable)
      (verify queryString candidates corpus bound costs) := by
  unfold verify
  refine Ensures.bind (ensures_checks queryString readable candidates) (fun _ valid => ?_)
  refine Ensures.bind ((ensures_verifyCandidates answers query valid bound).mono
    (fun _ minimal => minimal) (fun _ impossible => impossible.elim)) ?_
  exact fun state minimal =>
    (ensures_createMatches _).post (fun found same => ⟨_, same, minimal⟩)

end Runs

section Returns
variable {R : Type} [MonotoneNumber R] {policy : Policy R Symbol} {costs : EditCosts R Symbol}
  {known : Symbol → Prop} {queryString : List Symbol} {corpus : CorpusStore}
  {bound : StrictBound R} {candidates : List Candidate}

theorem Seen.cost {key : SubstringKey} {x : R}
    (seen : Seen policy bound queryString corpus candidates key x) : 0 ≤ x ∧ x ≤ largest := by
  obtain ⟨candidate, _, string, _, a, b, _, _, _, i, j, before, after, _, hi, hj, _, rfl,
    admitted⟩ := seen
  refine ⟨?_, admitted.le.trans bound.cost.finite⟩
  apply addDistance_nonneg
  · apply addDistance_nonneg (Cost.nonneg _)
    exact prefixDistances_nonneg _ _ _ _ _ (List.mem_of_getElem? hi)
  · exact prefixDistances_nonneg _ _ _ _ _ (List.mem_of_getElem? hj)

omit [MonotoneNumber R] in
theorem validatedCandidateString_ok {candidate : Candidate} {string : List Symbol}
    (anchors : Anchors R corpus queryString candidate string) :
    validatedCandidateString (R := R) queryString candidate corpus = .ok string := by
  unfold validatedCandidateString
  rw [anchors.read, bind_ok, okOr_some, bind_ok, if_neg (not_le.mpr anchors.stringPosition),
    if_neg (not_le.mpr anchors.queryPosition)]
  rfl

/-- Verification of candidates in range returns: no distance below a bound is refused. -/
theorem verify_ok (answers : costs.Answers policy known)
    (query : ∀ symbol ∈ queryString, known symbol)
    (valid : ∀ candidate ∈ candidates, ∃ string,
      Anchors R corpus queryString candidate string ∧ ∀ symbol ∈ string, known symbol)
    (bound : StrictBound R) :
    ∃ substrings : Substrings R, verify queryString candidates corpus bound costs =
        .ok (substrings.toList.map Match.ofEntry) ∧
      Minima.Minimal substrings (Seen policy bound queryString corpus candidates) := by
  obtain ⟨state, ran, minimal⟩ := (ensures_verifyCandidates answers query valid bound).returns
  have checked : (candidates.forM fun candidate => do
      let _ ← validatedCandidateString (R := R) queryString candidate corpus) = .ok ⟨⟩ := by
    refine forM_eq_ok.mpr (fun candidate mem => ?_)
    obtain ⟨string, anchors, _⟩ := valid candidate mem
    rw [validatedCandidateString_ok anchors]
    rfl
  refine ⟨state.substrings, ?_, minimal⟩
  unfold verify
  rw [checked, bind_ok, ran, bind_ok]
  refine mapM_ok (fun entry mem => ?_)
  have seen := minimal.attained entry.1 entry.2 (Std.TreeMap.mem_toList_iff_getElem?_eq_some.mp mem)
  obtain ⟨nonneg, finite⟩ := seen.cost
  rw [Cost.new_eq_ok.mpr (show (⟨entry.2, nonneg, finite⟩ : Cost R).get = entry.2 from rfl), bind_ok]
  rfl

end Returns
end Yurine
