import Yurine.Costs.Rounded
import Yurine.Search.Declining

/-! The candidate limit. Counting reads posting-list lengths where generation expands the
lists, so a limit declines a search by the number of candidates it would have generated, and
changes nothing else. -/
namespace Yurine
open Outcome MinCandidateSelector

variable {T R : Type} [DecidableEq T]

section Limited
variable [Number R]

/-- How a search under a limit compares with the unlimited one. -/
structure LimitedBy (limit : Nat)
    (unlimited limited : Result R (List (Match R) × RangeSearchMetrics R)) : Prop where
  failed : ∀ failure, unlimited = .error failure → limited = .error failure
  served : ∀ found metrics, unlimited = .ok (found, metrics) →
    metrics.generatedCandidates ≤ limit → limited = .ok (found, metrics)
  declined : ∀ found metrics, unlimited = .ok (found, metrics) →
    limit < metrics.generatedCandidates → metrics.generatedCandidates < usizeRange →
    limited = fail (.searchTooExpensive metrics.generatedCandidates limit)
  /-- The count saturates, and is still above every limit but the largest. -/
  saturated : ∀ found metrics, unlimited = .ok (found, metrics) →
    usizeRange ≤ metrics.generatedCandidates → limit < usizeRange - 1 →
    ∃ counted, limited = fail (.searchTooExpensive counted limit)

variable {limit : Nat}

theorem LimitedBy.error (failure : Failure (Error R)) :
    LimitedBy limit (.error failure) (.error failure) := by
  constructor
  · exact fun other same => same
  all_goals
    intro found metrics impossible
    cases impossible

/-- What runs before the count is the same in both searches. -/
theorem LimitedBy.bind {α : Type} {first : Result R α}
    {unlimited limited : α → Result R (List (Match R) × RangeSearchMetrics R)}
    (rest : ∀ a, first = .ok a → LimitedBy limit (unlimited a) (limited a)) :
    LimitedBy limit (first >>= unlimited) (first >>= limited) := by
  cases first with
  | error failure => exact .error failure
  | ok a => exact rest a rfl

end Limited

namespace SearchEngine
variable [MonotoneNumber R] {engine : SearchEngine T} {policy : Policy R Symbol}
  {costs : EditCosts R Symbol} {known : Symbol → Prop} {queryString : List Symbol}
  {selected : List SelectedPosition}

omit [MonotoneNumber R] in
/-- Over exact postings the candidates of selected positions are in range. -/
theorem anchored_candidates [Number R] {neighborhood : SubstitutionNeighborhood}
    {policy : Policy R Symbol} {radius : Cost R} (wf : engine.WellFormed)
    (valid : ∀ symbol ∈ engine.store.symbols.asSlice, symbol.val < engine.vocabulary.len)
    (inverts : engine.index.Inverts engine.store) (readable : Readable R known engine.store)
    (selects : Selects neighborhood policy radius queryString selected) :
    ∀ candidate ∈ candidates selected engine.index, ∃ string,
      Anchors R engine.store queryString candidate string ∧ ∀ symbol ∈ string, known symbol := by
  intro candidate mem
  obtain ⟨chosen, hc, neighbor, _, posting, listed, rfl⟩ := mem_candidates.mp mem
  obtain ⟨symbol, found, _⟩ := selects.neighbors chosen hc
  have placed : engine.store.symbolAt posting.place = some neighbor :=
    (inverts.exact neighbor posting.place).mp (List.mem_map_of_mem listed)
  obtain ⟨string, stored, here⟩ := Option.bind_eq_some_iff.mp placed
  have read : engine.store.string (R := R) posting.stringId = .ok (some string) := by
    rw [wf.string_eq valid]
    exact congrArg Except.ok stored
  refine ⟨string, ⟨read, ?_, ?_⟩, ((readable posting.stringId).of_ok read) string rfl⟩
  · exact (List.getElem?_eq_some_iff.mp here).1
  · exact (List.getElem?_eq_some_iff.mp found).1

/-- Once positions are selected the unlimited search answers, with the count that the limit
is compared with. -/
theorem searchQueryString_limited (wf : engine.WellFormed)
    (valid : ∀ symbol ∈ engine.store.symbols.asSlice, symbol.val < engine.vocabulary.len)
    (inverts : engine.index.Inverts engine.store) (readable : Readable R known engine.store)
    (answers : costs.Answers policy known)
    (alphabet : ∀ symbol ∈ engine.neighborhood.alphabet, known symbol)
    (query : ∀ symbol ∈ queryString, known symbol) (bound : StrictBound R) (eta : Cost R)
    (limit : Nat) :
    LimitedBy limit (engine.searchQueryString queryString bound eta none costs)
      (engine.searchQueryString queryString bound eta (some limit) costs) := by
  unfold searchQueryString
  rw [anyRadiusCanSelect_ok answers query, bind_ok, bind_ok]
  by_cases admitted : bound.admits (sumInOrder (deletionCosts policy queryString))
  · simp only [admitted, decide_true, Bool.not_true, Bool.not_false, if_true, bind_fail]
    exact .error _
  · simp only [admitted, decide_false, Bool.not_false, Bool.not_true, Bool.false_eq_true, if_false]
    apply LimitedBy.bind
    rintro ⟨selected, adjusted⟩ found
    have sufficient := (ensures_selectPositions wf answers alphabet query bound eta
      admitted).of_ok found |>.1
    obtain ⟨substrings, verified, _⟩ := verify_ok answers query
      (anchored_candidates wf valid inverts readable sufficient.selects) bound
    simp only [generateCandidates_ok wf.indexed, countCandidates_ok wf.indexed, bind_ok, verified]
    constructor
    · intro failure impossible
      cases impossible
    · rintro found metrics answered few
      cases answered
      rw [if_neg (by simpa using fun h => absurd few (not_le.mpr h))]
      rfl
    · rintro found metrics answered many small
      cases answered
      rw [Nat.min_eq_left (Nat.le_sub_one_of_lt small), if_pos many]
      rfl
    · rintro found metrics answered huge small
      cases answered
      rw [if_pos (lt_min (small.trans_le ((Nat.sub_le _ _).trans huge)) small)]
      exact ⟨_, rfl⟩

/-- The candidate limit only declines, by the exact count: for an engine that passes
verification, a limited search fails as the unlimited one does, answers as it does when the
count is within the limit, and is declined otherwise. -/
theorem search_limited (engine : SearchEngine T) (constructed : engine.Constructed R)
    (verified : engine.verify (R := R) = .ok ⟨⟩) (policy : Policy R T) (querySequence : List T)
    (threshold : R) (limit : Nat) :
    LimitedBy limit (engine.searchWithMetrics policy querySequence ⟨threshold, none⟩)
      (engine.searchWithMetrics policy querySequence ⟨threshold, some limit⟩) := by
  have wf := constructed.wellFormed
  obtain ⟨⟨valid, _⟩, inverts⟩ := (decides_verify wf.toAligned).eq_ok.mp verified
  unfold searchWithMetrics
  apply LimitedBy.bind
  intro cost _
  apply LimitedBy.bind
  intro bound _
  apply LimitedBy.bind
  intro query encoded
  apply LimitedBy.bind
  intro eta _
  have named := (EncodedQuery.ensures_new querySequence engine.vocabulary).of_ok encoded
  exact searchQueryString_limited wf valid inverts (wf.readable_known query)
    (EncodedQuery.costs_answers policy) (wf.known_alphabet query)
    (EncodedQuery.known_string named) bound eta limit

theorem search_limited_banana : ∃ (engine : SearchEngine Char) (found : List (Match Single))
    (metrics : RangeSearchMetrics Single),
    (SearchEngineBuilder.new.addSequences (R := Single)
      ["ban".toList, [], "ana".toList]).2.build (R := Single) = .ok engine ∧
    engine.searchWithMetrics (levenshteinCosts Single.one) "an".toList ⟨0, some 3⟩ =
      .ok (found, metrics) ∧
    engine.searchWithMetrics (levenshteinCosts Single.one) "an".toList ⟨0, some 2⟩ =
      fail (.searchTooExpensive 3 2) := by
  obtain ⟨engine, built, ran⟩ := bind_eq_ok.mp (show ((SearchEngineBuilder.new.addSequences
      (R := Single) ["ban".toList, [], "ana".toList]).2.build (R := Single) >>= fun engine =>
        engine.verify (R := Single) >>= fun _ => engine.searchWithMetrics
          (levenshteinCosts Single.one) "an".toList ⟨0, none⟩ >>=
            fun answer => .ok answer.2.generatedCandidates) = .ok 3 by decide +kernel)
  obtain ⟨⟨⟩, verified, ran⟩ := bind_eq_ok.mp ran
  obtain ⟨⟨found, metrics⟩, answered, count⟩ := bind_eq_ok.mp ran
  replace count : metrics.generatedCandidates = 3 := Except.ok.inj count
  have limited (limit : Nat) := search_limited engine (.built _ built) verified
    (levenshteinCosts Single.one) "an".toList 0 limit
  refine ⟨engine, found, metrics, built, ?_, ?_⟩
  · exact (limited 3).served found metrics answered count.le
  · have declined := (limited 2).declined found metrics answered
    rw [count] at declined
    exact declined (by decide) (by decide)

end SearchEngine
end Yurine
