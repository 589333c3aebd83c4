import Yurine.Search.SmithWaterman

/-! Anchored and exhaustive verification agree. Over all anchors the anchored distances are the
costs of the scripts with a pair; an optimal script needs none only when substitutions are dear
and the deletions of the query are below the bound. -/
namespace Yurine
open Outcome EditScripts

section Runs
variable {R : Type} [MonotoneNumber R] {policy : Policy R Symbol} {costs : EditCosts R Symbol}
  {known : Symbol → Prop} {queryString : List Symbol} {bound : StrictBound R}
  {corpus : CorpusStore} {candidates : List Candidate}

def stringIds (candidates : List Candidate) : Std.TreeSet SequenceId :=
  candidates.foldl (fun stringIds candidate => stringIds.insert candidate.stringId) ∅

theorem mem_stringIds {id : SequenceId} :
    id ∈ stringIds candidates ↔ ∃ candidate ∈ candidates, candidate.stringId = id := by
  suffices h : ∀ ids : Std.TreeSet SequenceId,
      id ∈ candidates.foldl (fun ids candidate => ids.insert candidate.stringId) ids ↔
        id ∈ ids ∨ ∃ candidate ∈ candidates, candidate.stringId = id by
    simpa [stringIds] using h ∅
  induction candidates with
  | nil => simp
  | cons candidate candidates ih =>
    intro ids
    rw [List.foldl_cons, ih, Std.TreeSet.mem_insert]
    simp only [compare_eq_iff_eq, List.mem_cons, exists_eq_or_imp]
    rw [or_assoc, or_left_comm]

theorem verify_eq (queryString : List Symbol) (candidates : List Candidate) (corpus : CorpusStore)
    (bound : StrictBound R) (costs : EditCosts R Symbol) :
    SmithWaterman.verify queryString candidates corpus bound costs =
      (candidates.forM fun candidate => do
        let _ ← validatedCandidateString (R := R) queryString candidate corpus) >>= fun _ =>
      (stringIds candidates).toList.foldlM (fun found stringId => do
        let read ← corpus.string stringId
        let string ← okOr (.unknownString stringId.val) read
        SmithWaterman.enumerateSubstringMatches queryString string stringId bound costs found) [] := by
  unfold SmithWaterman.verify SmithWaterman.validatedCandidateStrings
  rw [foldlM_check, bind_assoc]
  rfl

/-- The matches of all substrings of the strings with the given identifiers. -/
def exhaustiveMatches (policy : Policy R Symbol) (bound : StrictBound R)
    (queryString : List Symbol) (corpus : CorpusStore) (ids : List SequenceId) : List (Match R) :=
  ids.flatMap fun id =>
    SmithWaterman.substringMatches policy bound queryString (corpus.strings[id.val]?.getD []) id

theorem exhaustive_ok (answers : costs.Answers policy known)
    (query : ∀ symbol ∈ queryString, known symbol) {ids : List SequenceId}
    (reads : ∀ id ∈ ids, ∃ string, corpus.string (R := R) id = .ok (some string) ∧
      corpus.strings[id.val]? = some string ∧ ∀ symbol ∈ string, known symbol)
    (found : List (Match R)) :
    ids.foldlM (fun found stringId => do
        let read ← corpus.string stringId
        let string ← okOr (.unknownString stringId.val) read
        SmithWaterman.enumerateSubstringMatches queryString string stringId bound costs found)
        found =
      .ok (found ++ exhaustiveMatches policy bound queryString corpus ids) := by
  induction ids generalizing found with
  | nil => simp [exhaustiveMatches, pure, Except.pure]
  | cons id ids ih =>
    obtain ⟨string, read, stored, strings⟩ := reads id (by simp)
    rw [List.foldlM_cons, read, bind_ok, okOr_some, bind_ok,
      SmithWaterman.enumerateSubstringMatches_ok answers query strings, bind_ok,
      ih (fun other mem => reads other (List.mem_cons_of_mem id mem)), exhaustiveMatches,
      exhaustiveMatches, List.flatMap_cons, stored, Option.getD_some, List.append_assoc]

theorem pairwise_exhaustiveMatches {ids : List SequenceId} (increasing : ids.Pairwise (· < ·)) :
    (exhaustiveMatches policy bound queryString corpus ids).Pairwise
      (fun a b => a.key < b.key) := by
  rw [exhaustiveMatches, List.pairwise_flatMap]
  refine ⟨fun id _ => SmithWaterman.pairwise_substringMatches id, increasing.imp ?_⟩
  intro id other less a ha b hb
  obtain ⟨_, _, _, _, _, rfl⟩ := SmithWaterman.mem_substringMatches.mp ha
  obtain ⟨_, _, _, _, _, rfl⟩ := SmithWaterman.mem_substringMatches.mp hb
  rw [Match.key, Match.key, Prod.Lex.toLex_lt_toLex]
  exact .inl less

end Runs

/-- A list of all anchors in range: every string, string position and query position. -/
structure ListsAnchors (R : Type) (corpus : CorpusStore) (queryString : List Symbol)
    (candidates : List Candidate) : Prop where
  inside : ∀ candidate ∈ candidates, candidate.rangeError (R := R) corpus queryString = none
  every : ∀ id string position queryPosition, corpus.strings[id]? = some string →
    position < string.length → queryPosition < queryString.length → ∃ candidate ∈ candidates,
      candidate.stringId.val = id ∧ candidate.stringPosition.val = position ∧
        candidate.queryPosition.val = queryPosition

section Exact
variable {R : Type} [ExactNumber R] {policy : Policy R Symbol} {bound : StrictBound R}
  {queryString string : List Symbol} {corpus : CorpusStore} {candidates : List Candidate}

/-- Substituting costs no more than deleting and inserting, or the bound does not admit
deleting the whole query. -/
def PairsSuffice (policy : Policy R Symbol) (bound : StrictBound R) (queryString : List Symbol) :
    Prop :=
  (∀ a b, (policy.substitution a b).get ≤ (policy.deletion a).get + (policy.insertion b).get) ∨
    ¬ bound.admits (sumInOrder (deletionCosts policy queryString))

theorem exists_optimal_pair (enough : PairsSuffice policy bound queryString)
    (query : queryString ≠ []) {word : List Symbol} (nonempty : word ≠ [])
    (admitted : bound.admits (distance policy.weights queryString word)) :
    ∃ script i j, source script = queryString ∧ target script = word ∧ Pairs script i j ∧
      total policy.weights script = distance policy.weights queryString word := by
  rcases enough with cheap | dear
  · exact exists_paired_script cheap query nonempty
  · obtain ⟨script, rfl, rfl, same⟩ := exists_script policy.weights queryString word
    by_cases paired : ∃ i j, Pairs script i j
    · obtain ⟨i, j, pair⟩ := paired
      exact ⟨script, i, j, rfl, rfl, pair, same⟩
    · exfalso
      refine dear ?_
      rw [← same, total_of_unpaired fun i j pair => paired ⟨i, j, pair⟩] at admitted
      rw [sumInOrder_eq_sum]
      refine lt_of_le_of_lt (le_add_of_nonneg_right (List.sum_nonneg ?_)) admitted
      rintro x mem
      obtain ⟨symbol, _, rfl⟩ := List.mem_map.mp mem
      exact Cost.nonneg _

/-- All anchors together see the scripts with a pair. -/
theorem ListsAnchors.pairedTotals_eq (lists : ListsAnchors R corpus queryString candidates)
    {id : Nat} (stored : corpus.strings[id]? = some string) {start stop : Nat}
    (inside : stop ≤ string.length) :
    { x | ∃ candidate ∈ candidates, candidate.stringId.val = id ∧
        x ∈ PairedTotals policy queryString string start stop candidate } =
      { x | ∃ script i j, source script = queryString ∧ target script = segment string start stop ∧
        Pairs script i j ∧ total policy.weights script = x } := by
  ext x
  constructor
  · rintro ⟨candidate, _, _, _, _, script, hs, ht, pair, same⟩
    exact ⟨script, _, _, hs, ht, pair, same⟩
  · rintro ⟨script, i, j, hs, ht, ⟨before, a, b, after, rfl, rfl, rfl⟩, same⟩
    have left := congrArg List.length hs
    have right := congrArg List.length ht
    rw [length_segment inside] at right
    simp only [source_append, target_append, source, target, List.length_append,
      List.length_cons] at left right
    obtain ⟨candidate, mem, rfl, place, position⟩ := lists.every id string
      (start + (target before).length) (source before).length stored (by omega) (by omega)
    exact ⟨candidate, mem, rfl, by omega, by omega, _, hs, ht,
      ⟨before, a, b, after, rfl, position.symm, by omega⟩, same⟩

/-- All anchors together see the distance, when it is below the bound. -/
theorem ListsAnchors.isLeast_iff (lists : ListsAnchors R corpus queryString candidates)
    (enough : PairsSuffice policy bound queryString) (query : queryString ≠ []) {id : Nat}
    (stored : corpus.strings[id]? = some string) {start stop : Nat} (ordered : start < stop)
    (inside : stop ≤ string.length) {x : R} :
    (IsLeast { x | ∃ candidate ∈ candidates, candidate.stringId.val = id ∧
        x ∈ PairedTotals policy queryString string start stop candidate } x ∧ bound.admits x) ↔
      x = distance policy.weights queryString (segment string start stop) ∧ bound.admits x := by
  rw [lists.pairedTotals_eq stored inside]
  have nonempty : segment string start stop ≠ [] := by
    intro empty
    have size : (segment string start stop).length = stop - start := length_segment inside
    rw [empty, List.length_nil] at size
    omega
  constructor
  · rintro ⟨⟨⟨script, i, j, hs, ht, pair, rfl⟩, least⟩, admitted⟩
    have below := distance_le (w := policy.weights) script
    rw [hs, ht] at below
    refine ⟨le_antisymm (least ?_) below, admitted⟩
    exact exists_optimal_pair enough query nonempty (below.trans_lt admitted)
  · rintro ⟨rfl, admitted⟩
    refine ⟨⟨exists_optimal_pair enough query nonempty admitted, ?_⟩, admitted⟩
    rintro y ⟨script, _, _, hs, ht, _, rfl⟩
    have below := distance_le (w := policy.weights) script
    rwa [hs, ht] at below

theorem mem_exhaustiveMatches {ids : List SequenceId} {m : Match R} :
    m ∈ exhaustiveMatches policy bound queryString corpus ids ↔
      ∃ id ∈ ids, ∃ string start stop, corpus.strings[id.val]? = some string ∧ start < stop ∧
        stop ≤ string.length ∧ ∃ x, x = distance policy.weights queryString
          (segment string start stop) ∧ bound.admits x ∧ m = ⟨id.val, (start, stop), x⟩ := by
  have cell (string : List Symbol) (start stop : Nat) :
      SmithWaterman.reached policy queryString string start stop =
        capped (distance policy.weights queryString (segment string start stop)) := last_cell _
  simp only [exhaustiveMatches, List.mem_flatMap, SmithWaterman.mem_substringMatches, cell]
  constructor
  · rintro ⟨id, mem, start, stop, ordered, inside, admitted, rfl⟩
    cases stored : corpus.strings[id.val]? with
    | none => simp [stored] at inside; omega
    | some string =>
      rw [stored, Option.getD_some] at inside admitted
      obtain ⟨same, below⟩ := eq_of_capped admitted
      exact ⟨id, mem, string, start, stop, stored, ordered, inside, _, rfl, below, by
        rw [Option.getD_some, same]⟩
  · rintro ⟨id, mem, string, start, stop, stored, ordered, inside, _, rfl, admitted, rfl⟩
    have same := capped_of_le (admitted.le.trans bound.cost.finite)
    refine ⟨id, mem, start, stop, ordered, ?_⟩
    rw [stored, Option.getD_some, same]
    exact ⟨inside, admitted, rfl⟩

section Lists
variable {costs : EditCosts R Symbol} {known : Symbol → Prop}

omit [ExactNumber R] in
/-- When all anchors pass their checks, every string of the corpus is read back. -/
theorem ListsAnchors.read (lists : ListsAnchors R corpus queryString candidates)
    (stored : corpus.WellFormed) (query : queryString ≠ [])
    (passed : ∀ candidate ∈ candidates, ∃ string,
      Anchors R corpus queryString candidate string) (id : SequenceId) :
    corpus.string (R := R) id = .ok corpus.strings[id.val]? := by
  by_cases listed : ∃ candidate ∈ candidates, candidate.stringId = id
  · obtain ⟨candidate, mem, rfl⟩ := listed
    obtain ⟨string, anchors⟩ := passed candidate mem
    have same := ((CorpusStore.ensures_string stored candidate.stringId).of_ok anchors.read).1
    rw [anchors.read, same]
  · -- a string without anchors has no symbol to check
    apply CorpusStore.string_ok stored
    intro string found symbol mem
    exfalso
    apply listed
    obtain ⟨candidate, listed, named, _⟩ := lists.every id.val string 0 0 found
      (List.length_pos_of_mem mem) (List.length_pos_of_ne_nil query)
    exact ⟨candidate, listed, Fin.ext named⟩

/-- The matches of all anchors are those of all substrings. -/
theorem ListsAnchors.verify_matches (lists : ListsAnchors R corpus queryString candidates)
    (stored : corpus.WellFormed) (answers : costs.Answers policy known)
    (query : ∀ symbol ∈ queryString, known symbol)
    (reads : ∀ string ∈ corpus.strings, ∀ symbol ∈ string, known symbol)
    (enough : PairsSuffice policy bound queryString) (nonempty : queryString ≠ [])
    (passed : ∀ candidate ∈ candidates, ∃ string,
      Anchors R corpus queryString candidate string) :
    ∃ found, verify queryString candidates corpus bound costs = .ok found ∧
      exhaustiveMatches policy bound queryString corpus (stringIds candidates).toList = found := by
  have read := lists.read stored nonempty passed
  obtain ⟨found, verified, ordered, content⟩ := verify_answers read reads answers query bound
    (List.findSome?_eq_none_iff.mpr lists.inside)
  refine ⟨found, verified, ?_⟩
  have increasing : (stringIds candidates).toList.Pairwise (· < ·) :=
    Std.TreeSet.ordered_toList.imp fun less => compare_lt_iff_lt.mp less
  apply Sorting.eq_of_strict (pairwise_exhaustiveMatches increasing) ordered
  rintro ⟨id, ⟨start, stop⟩, x⟩
  rw [content, mem_exhaustiveMatches]
  constructor
  · rintro ⟨id, _, string, start, stop, held, before, inside, x, same, admitted, ⟨⟩⟩
    exact ⟨string, held, inside, (lists.isLeast_iff enough nonempty held before inside).mpr
      ⟨same, admitted⟩⟩
  · rintro ⟨string, held, inside, least⟩
    obtain ⟨candidate, mem, rfl, first, last, _⟩ := least.1.1
    have before := first.trans_lt last
    obtain ⟨same, admitted⟩ := (lists.isLeast_iff enough nonempty held before inside).mp least
    refine ⟨candidate.stringId, ?_, string, start, stop, held, before, inside, x, same, admitted, rfl⟩
    rw [Std.TreeSet.mem_toList]
    exact mem_stringIds.mpr ⟨candidate, mem, rfl⟩

/-- The checks of the candidates end both verifiers with one error, or pass them all. -/
theorem verify_fail_or_passed (readable : Readable R known corpus) (candidates : List Candidate) :
    (∃ e, SmithWaterman.verify queryString candidates corpus bound costs = fail e ∧
      verify queryString candidates corpus bound costs = fail e) ∨
    ((candidates.forM fun candidate => do
        let _ ← validatedCandidateString (R := R) queryString candidate corpus) = .ok ⟨⟩ ∧
      ∀ candidate ∈ candidates, ∃ string, Anchors R corpus queryString candidate string) := by
  have checks := ensures_checks queryString readable candidates
  rw [verify_eq]
  unfold verify
  cases ran : (candidates.forM fun candidate => do
    let _ ← validatedCandidateString (R := R) queryString candidate corpus) with
  | ok _ =>
    refine .inr ⟨rfl, fun candidate mem => ?_⟩
    obtain ⟨string, anchors, _⟩ := checks.of_ok ran candidate mem
    exact ⟨string, anchors⟩
  | error failure =>
    cases failure with
    | error e => exact .inl ⟨e, rfl, rfl⟩
    | panic => exact absurd ran checks.ne_panic

/-- Over all anchors of a corpus the anchored verifier and the exhaustive one give the same
result, when substituting costs no more than deleting and inserting or the bound does not admit
deleting the whole query. With a candidate out of range both report the same error. -/
theorem verifiers_agree (stored : corpus.WellFormed) (answers : costs.Answers policy known)
    (query : ∀ symbol ∈ queryString, known symbol)
    (strings : ∀ symbol ∈ corpus.symbols.asSlice, known symbol) (bound : StrictBound R)
    (candidates : List Candidate) :
    (ListsAnchors R corpus queryString candidates → PairsSuffice policy bound queryString →
      SmithWaterman.verify queryString candidates corpus bound costs =
        verify queryString candidates corpus bound costs ∧
      ((∀ symbol ∈ corpus.symbols.asSlice, symbol.val < corpus.symbolCount) →
        ∃ found, verify queryString candidates corpus bound costs = .ok found)) ∧
    ((∃ candidate ∈ candidates, candidate.rangeError (R := R) corpus queryString ≠ none) →
      ∃ e, SmithWaterman.verify queryString candidates corpus bound costs = fail e ∧
        verify queryString candidates corpus bound costs = fail e) := by
  have reads : ∀ string ∈ corpus.strings, ∀ symbol ∈ string, known symbol :=
    fun string hs symbol mem =>
      strings symbol ((CorpusStore.mem_symbols_iff stored).mpr ⟨string, hs, mem⟩)
  have readable : Readable R known corpus := fun id =>
    (CorpusStore.ensures_string stored id).mono
      (fun found same string named => reads string (List.mem_of_getElem? (same.1 ▸ named)))
      (fun e raised => by
        obtain ⟨_, _, rfl⟩ := raised
        nofun)
  refine ⟨fun lists enough => ⟨?_, fun valid => ?_⟩, fun outside => ?_⟩
  · rcases verify_fail_or_passed readable candidates with ⟨e, left, right⟩ | ⟨checked, passed⟩
    · rw [left, right]
    · by_cases nonempty : queryString = []
      · -- an empty query has no anchors
        have empty : candidates = [] := by
          apply List.eq_nil_iff_forall_not_mem.mpr
          intro candidate mem
          obtain ⟨string, anchors⟩ := passed candidate mem
          exact absurd anchors.queryPosition (by simp [nonempty])
        subst empty
        rfl
      · obtain ⟨found, verified, rfl⟩ :=
          lists.verify_matches stored answers query reads enough nonempty passed
        rw [verified, verify_eq, checked, bind_ok, exhaustive_ok answers query, List.nil_append]
        intro id mem
        obtain ⟨candidate, listed, rfl⟩ := mem_stringIds.mp (Std.TreeSet.mem_toList.mp mem)
        obtain ⟨string, anchors⟩ := passed candidate listed
        have held := ((CorpusStore.ensures_string stored candidate.stringId).of_ok anchors.read).1
        exact ⟨string, anchors.read, held.symm, reads string (List.mem_of_getElem? held.symm)⟩
  · obtain ⟨found, verified, _⟩ := verify_answers (CorpusStore.string_eq stored valid) reads
      answers query bound (List.findSome?_eq_none_iff.mpr lists.inside)
    exact ⟨found, verified⟩
  · rcases verify_fail_or_passed readable candidates with same | ⟨_, passed⟩
    · exact same
    · obtain ⟨candidate, mem, outside⟩ := outside
      obtain ⟨string, anchors⟩ := passed candidate mem
      have held := ((CorpusStore.ensures_string stored candidate.stringId).of_ok anchors.read).1
      exfalso
      apply outside
      rw [Candidate.rangeError, ← held]
      dsimp only
      rw [if_neg (not_le.mpr anchors.stringPosition), if_neg (not_le.mpr anchors.queryPosition)]

end Lists
end Exact

theorem verifiers_agree_repeats :
    SmithWaterman.verify (R := Int) [0] [⟨0, 0, 0⟩, ⟨0, 1, 0⟩] (corpusOf [[0, 0]] 1)
        ⟨⟨2, by decide, by decide⟩⟩ (levenshteinCosts ⟨1, by decide, by decide⟩).costs =
      .ok [⟨0, (0, 1), 0⟩, ⟨0, (0, 2), 1⟩, ⟨0, (1, 2), 0⟩] := by
  obtain ⟨stored, content⟩ := corpusOf_wellFormed [[0, 0]] (show 1 < 2 ^ 32 by decide)
  have lists : ListsAnchors Int (corpusOf [[0, 0]] 1) [0] [⟨0, 0, 0⟩, ⟨0, 1, 0⟩] := by
    refine ⟨by decide +kernel, ?_⟩
    intro id string position queryPosition found before within
    rw [content] at found
    obtain ⟨inside, rfl⟩ := List.getElem?_eq_some_iff.mp found
    obtain rfl : id = 0 := Nat.lt_one_iff.mp inside
    obtain rfl : queryPosition = 0 := Nat.lt_one_iff.mp within
    obtain rfl | rfl : position = 0 ∨ position = 1 := by
      change position < 2 at before
      omega
    · exact ⟨⟨0, 0, 0⟩, by simp, rfl, rfl, rfl⟩
    · exact ⟨⟨0, 1, 0⟩, by simp, rfl, rfl, rfl⟩
  have cheap : PairsSuffice (R := Int) (levenshteinCosts ⟨1, by decide, by decide⟩)
      ⟨⟨2, by decide, by decide⟩⟩ [0] := by
    refine .inl fun a b => ?_
    unfold levenshteinCosts
    dsimp only
    split <;> decide
  rw [((verifiers_agree (R := Int) stored
    (Policy.costs_answers (levenshteinCosts ⟨1, by decide, by decide⟩) fun _ => True)
    (fun _ _ => trivial) (fun _ _ => trivial) ⟨⟨2, by decide, by decide⟩⟩
    [⟨0, 0, 0⟩, ⟨0, 1, 0⟩]).1 lists cheap).1]
  decide +kernel

end Yurine
