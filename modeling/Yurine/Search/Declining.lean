import Yurine.Search.Opened

/-! Which searches are declined, for every engine that a caller can have. Addition need only
be monotone with zero neutral, so the result covers rounding addition. -/
namespace Yurine
open Outcome MinCandidateSelector

variable {T R : Type} [DecidableEq T]

namespace SearchEngine

/-- The engines a caller can have. -/
inductive Constructed (R : Type) (engine : SearchEngine T) : Prop where
  | built (sequences : List (List T))
      (built : (SearchEngineBuilder.new.addSequences (R := R) sequences).2.build (R := R) =
        .ok engine)
  | opened (codec : TokenCodec R T) (bytes : List UInt8)
      (opened : openWith codec bytes = .ok engine)

variable {engine : SearchEngine T}

theorem Constructed.wellFormed (constructed : engine.Constructed R) : engine.WellFormed := by
  cases constructed with
  | built sequences built =>
    exact (SearchEngineBuilder.indexes_of_built built).2.wellFormed
  | opened codec bytes opened => exact opened_wellFormed opened

variable [MonotoneNumber R]

/-- A search is declined exactly when the deletions of the whole query fit below the bound.
Otherwise positions are selected, by the first attempt or at one of the wider radii, and a radius
selects exactly when its contributions do not fit. -/
theorem search_declined_iff (engine : SearchEngine T) (constructed : engine.Constructed R)
    (policy : Policy R T) (querySequence : List T) (short : querySequence.length < 2 ^ 32)
    (query : EncodedQuery T)
    (encoded : EncodedQuery.new (R := R) querySequence engine.vocabulary = .ok query)
    (bound : StrictBound R) :
    (∀ eta maxCandidates, engine.searchQueryString query.string bound eta maxCandidates
        (query.costs engine.vocabulary policy.costs) = fail .thresholdSubsequenceUnavailable ↔
      sumInOrder (querySequence.map fun token => (policy.deletion token).get) < bound.cost.get) ∧
    (anyRadiusCanSelect query.string bound (query.costs engine.vocabulary policy.costs) =
        .ok true →
      ∀ eta, ∃ found, engine.selectPositions query.string bound eta
          (query.costs engine.vocabulary policy.costs) = .ok found ∧
        engine.Attempts query.string bound eta (query.costs engine.vocabulary policy.costs)
          found) ∧
    ∀ eta, (∃ selected, engine.selectAt query.string bound eta
        (query.costs engine.vocabulary policy.costs) = .ok selected) ↔
      ¬ sumInOrder (contributions engine.neighborhood (query.policy engine.vocabulary policy) eta
        query.string) < bound.cost.get := by
  have wf := constructed.wellFormed
  have named := (EncodedQuery.ensures_new querySequence engine.vocabulary).of_ok encoded
  have known := EncodedQuery.known_string named
  have answers : (query.costs engine.vocabulary policy.costs).Answers
      (query.policy engine.vocabulary policy) (query.Known engine.vocabulary) :=
    EncodedQuery.costs_answers policy
  have alphabet := wf.known_alphabet query
  have length : query.string.length < 2 ^ 32 := named.length_eq ▸ short
  refine ⟨fun eta maxCandidates => ?_, fun selectable eta => ?_,
    selectAt_ok_iff wf answers alphabet known length bound⟩
  · rw [← EncodedQuery.deletionCosts_eq policy named]
    have outcome := ensures_searchQueryString wf answers alphabet known (wf.readable_known query)
      bound eta maxCandidates
    constructor
    · exact fun declined => (outcome.of_fail declined).mp rfl
    · intro below
      match result : engine.searchQueryString query.string bound eta maxCandidates
          (query.costs engine.vocabulary policy.costs) with
      | .ok found => exact absurd below (outcome.of_ok result).1
      | .error (.error e) => rw [(outcome.of_fail result).mpr below]; rfl
      | .error .panic => exact absurd result outcome.ne_panic
  · rw [anyRadiusCanSelect_ok answers known, Except.ok.injEq, Bool.not_eq_true',
      decide_eq_false_iff_not] at selectable
    have outcome := ensures_selectPositions wf answers alphabet known bound eta selectable
    obtain ⟨found, returned, _, attempts⟩ := (outcome.mono (F := fun _ => False) (fun _ h => h)
      (fun _ large => absurd length (not_lt.mpr large.2))).returns
    exact ⟨found, returned, attempts⟩

/-- Deleting both letters costs 2: a bound of 3 declines the search, under a bound of 2 the first
attempt selects. -/
theorem search_declined_iff_banana : ∃ (engine : SearchEngine Char) (query : EncodedQuery Char),
    (SearchEngineBuilder.new.addSequences (R := Int)
      ["ban".toList, [], "ana".toList]).2.build (R := Int) = .ok engine ∧
    EncodedQuery.new (R := Int) "an".toList engine.vocabulary = .ok query ∧
    (∀ eta maxCandidates, engine.searchQueryString query.string ⟨⟨3, by decide, by decide⟩⟩ eta
        maxCandidates (query.costs engine.vocabulary
          (levenshteinCosts (R := Int) ⟨1, by decide, by decide⟩).costs) =
      fail .thresholdSubsequenceUnavailable) ∧
    (∀ eta, ∃ found, engine.selectPositions query.string ⟨⟨2, by decide, by decide⟩⟩ eta
        (query.costs engine.vocabulary
          (levenshteinCosts (R := Int) ⟨1, by decide, by decide⟩).costs) = .ok found ∧
      engine.Attempts query.string ⟨⟨2, by decide, by decide⟩⟩ eta (query.costs engine.vocabulary
        (levenshteinCosts (R := Int) ⟨1, by decide, by decide⟩).costs) found) ∧
    ¬ sumInOrder (contributions engine.neighborhood (query.policy engine.vocabulary
      (levenshteinCosts (R := Int) ⟨1, by decide, by decide⟩)) Cost.zero query.string) < 2 := by
  obtain ⟨engine, built, ran⟩ := bind_eq_ok.mp (show ((SearchEngineBuilder.new.addSequences
      (R := Int) ["ban".toList, [], "ana".toList]).2.build (R := Int) >>= fun engine =>
        EncodedQuery.new "an".toList engine.vocabulary >>= fun query =>
          anyRadiusCanSelect query.string ⟨⟨2, by decide, by decide⟩⟩ (query.costs
            engine.vocabulary (levenshteinCosts ⟨1, by decide, by decide⟩).costs) >>= fun able =>
          engine.selectAt query.string ⟨⟨2, by decide, by decide⟩⟩ Cost.zero (query.costs
            engine.vocabulary (levenshteinCosts ⟨1, by decide, by decide⟩).costs) >>= fun _ =>
          .ok able) =
      .ok true by decide +kernel)
  obtain ⟨query, encoded, ran⟩ := bind_eq_ok.mp ran
  obtain ⟨able, selectable, ran⟩ := bind_eq_ok.mp ran
  obtain ⟨selected, chosen, same⟩ := bind_eq_ok.mp ran
  obtain rfl : able = true := Except.ok.inj same
  have declined (bound : StrictBound Int) := search_declined_iff engine (.built _ built)
    (levenshteinCosts ⟨1, by decide, by decide⟩) "an".toList (by decide) query encoded bound
  refine ⟨engine, query, built, encoded, fun eta maxCandidates => ?_, ?_, ?_⟩
  · exact ((declined ⟨⟨3, by decide, by decide⟩⟩).1 eta maxCandidates).mpr (by decide)
  · exact (declined ⟨⟨2, by decide, by decide⟩⟩).2.1 selectable
  · exact ((declined ⟨⟨2, by decide, by decide⟩⟩).2.2 Cost.zero).mp ⟨selected, chosen⟩

end SearchEngine
end Yurine
