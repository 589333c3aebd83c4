import Yurine.Search.Faithfulness
import Yurine.Search.Limit

/-! What a search over the sequences of an index fails of. Every reason is decided by its inputs,
and a search that has none of them is answered: no candidate is out of range and no distance below
the bound is refused. -/
namespace Yurine
open Outcome MinCandidateSelector

variable {T R : Type} [DecidableEq T]

/-- The reasons for which a search over these sequences is refused. -/
inductive Refused [Number R] (policy : Policy R T) (threshold : Cost R)
    (sequences : List (List T)) (querySequence : List T) : Error R → Prop where
  | threshold (top : threshold.get = largest) :
      Refused policy threshold sequences querySequence (.invalidThreshold threshold.get)
  | symbols (many : 2 ^ 32 ≤ (sequences.flatten ++ querySequence).dedup.length) :
      Refused policy threshold sequences querySequence .symbolOverflow
  | positions (long : 2 ^ 32 ≤ querySequence.length) :
      Refused policy threshold sequences querySequence .positionOverflow
  | deletions (cheap : sumInOrder (querySequence.map fun token => (policy.deletion token).get) <
        Number.nextUp threshold.get) :
      Refused policy threshold sequences querySequence .thresholdSubsequenceUnavailable

/-- A search is answered unless it is refused. Only a position that does not fit may remain
unnoticed, since it is counted when it is selected. -/
def Serves [Number R] (policy : Policy R T) (threshold : Cost R) (sequences : List (List T))
    (querySequence : List T) : Prop :=
  ∀ e, Refused policy threshold sequences querySequence e → e = .positionOverflow

/-- The tokens that have symbols are those of the sequences and those of the query. -/
theorem SearchEngineBuilder.Indexes.length_tokens {engine : SearchEngine T}
    {sequences : List (List T)} (indexes : Indexes engine sequences) (querySequence : List T) :
    engine.vocabulary.len + (EncodedQuery.queryOnly engine.vocabulary querySequence).length =
      (sequences.flatten ++ querySequence).dedup.length := by
  have apart : (engine.vocabulary.tokens ++
      EncodedQuery.queryOnly engine.vocabulary querySequence).Nodup := by
    apply List.nodup_append.mpr
    refine ⟨engine.vocabulary.assigns.nodup, List.nodup_dedup _, ?_⟩
    rintro token mem _ only rfl
    exact (EncodedQuery.mem_queryOnly.mp only).2 mem
  have same : (engine.vocabulary.tokens ++
      EncodedQuery.queryOnly engine.vocabulary querySequence).Perm
        (sequences.flatten ++ querySequence).dedup := by
    apply (List.perm_ext_iff_of_nodup apart (List.nodup_dedup _)).mpr
    intro token
    rw [List.mem_append, EncodedQuery.mem_queryOnly, List.mem_dedup, List.mem_append,
      ← indexes.tokens]
    by_cases known : token ∈ engine.vocabulary.tokens <;> simp [known]
  have length := same.length_eq
  rwa [List.length_append] at length

section Search
variable [MonotoneNumber R] {engine : SearchEngine T} {policy : Policy R Symbol}
  {costs : EditCosts R Symbol} {known : Symbol → Prop} {queryString : List Symbol}

theorem exists_automaticEta [SharedNumber R] (threshold : Cost R) (length : Nat) :
    ∃ eta, automaticEta threshold length = .ok eta := by
  by_cases empty : length = 0
  · exact ⟨_, if_pos empty⟩
  · obtain ⟨nonneg, finite⟩ :=
      SharedNumber.div_natCast threshold.get length threshold.nonneg threshold.finite empty
    exact ⟨⟨_, nonneg, finite⟩, (if_neg empty).trans (Cost.new_eq_ok.mpr rfl)⟩

namespace SearchEngine

/-- Over exact postings a search that is not declined is answered. -/
theorem ensures_searchQueryString_exact (wf : engine.WellFormed)
    (valid : ∀ symbol ∈ engine.store.symbols.asSlice, symbol.val < engine.vocabulary.len)
    (inverts : engine.index.Inverts engine.store) (readable : Readable R known engine.store)
    (answers : costs.Answers policy known)
    (alphabet : ∀ symbol ∈ engine.neighborhood.alphabet, known symbol)
    (query : ∀ symbol ∈ queryString, known symbol) (bound : StrictBound R) (eta : Cost R) :
    Ensures (fun _ => ¬ bound.admits (sumInOrder (deletionCosts policy queryString)))
      (fun e => (e = .thresholdSubsequenceUnavailable ∧
          bound.admits (sumInOrder (deletionCosts policy queryString))) ∨
        (e = .positionOverflow ∧ 2 ^ 32 ≤ queryString.length))
      (engine.searchQueryString queryString bound eta none costs) := by
  unfold searchQueryString
  rw [anyRadiusCanSelect_ok answers query, bind_ok]
  by_cases admitted : bound.admits (sumInOrder (deletionCosts policy queryString))
  · simp [admitted]
  · simp only [admitted, decide_false, Bool.not_false, Bool.not_true, Bool.false_eq_true, if_false]
    refine Ensures.bind ((ensures_selectPositions wf answers alphabet query bound eta
      admitted).mono (fun _ h => h.1) (fun _ long => .inr long)) ?_
    rintro ⟨selected, adjusted⟩ sufficient
    obtain ⟨substrings, verified, _⟩ := verify_ok answers query
      (anchored_candidates wf valid inverts readable sufficient.selects) bound
    simp only [generateCandidates_ok wf.indexed, bind_ok, verified]
    exact not_false

variable [SharedNumber R] {sequences : List (List T)}

theorem ensures_search_refused (indexes : SearchEngineBuilder.Indexes engine sequences)
    (policy : Policy R T) (querySequence : List T) (threshold : Cost R) :
    Ensures (fun _ => Serves policy threshold sequences querySequence)
      (Refused policy threshold sequences querySequence)
      (engine.search policy querySequence ⟨threshold.get, none⟩) := by
  have wf := indexes.wellFormed
  unfold search searchWithMetrics
  simp only [Cost.new_eq_ok.mpr (rfl : threshold.get = threshold.get), bind_ok, bind_assoc]
  by_cases top : threshold.get = largest
  · rw [StrictBound.fromInclusive_of_top top]
    exact .threshold top
  obtain ⟨bound, strict⟩ := StrictBound.exists_fromInclusive top
  have next := (StrictBound.fromInclusive_eq_ok strict).2
  rw [strict, bind_ok]
  refine Ensures.bind ((EncodedQuery.ensures_new_numbers (R := R) querySequence
    engine.vocabulary).mono (fun _ numbers => numbers) ?_) ?_
  · rintro _ ⟨rfl, many⟩
    exact .symbols (indexes.length_tokens querySequence ▸ many)
  rintro query ⟨_, numbers⟩
  obtain ⟨eta, derived⟩ := exists_automaticEta threshold query.string.length
  rw [derived, bind_ok]
  have same := EncodedQuery.deletionCosts_eq policy numbers.string
  refine Ensures.bind ((ensures_searchQueryString_exact wf (wf.readable indexes.owned)
    indexes.inverts (wf.readable_known query) (EncodedQuery.costs_answers policy)
    (wf.known_alphabet query) (EncodedQuery.known_string numbers.string) bound eta).mono
      (fun _ h => h) ?_) ?_
  · rintro _ (⟨rfl, cheap⟩ | ⟨rfl, long⟩)
    · rw [same, StrictBound.admits, next] at cheap
      exact .deletions cheap
    · exact .positions (numbers.string.length_eq ▸ long)
  · intro answer refused
    rintro _ (⟨other⟩ | ⟨many⟩ | _ | ⟨cheap⟩)
    · exact absurd other top
    · have few := numbers.bound
      rw [List.length_append, numbers.length_eq] at few
      rw [← indexes.length_tokens] at many
      exact absurd few (not_lt.mpr many)
    · rfl
    · rw [same, StrictBound.admits, next] at refused
      exact absurd cheap refused

/-- A search over the sequences of an index answers, or it fails of a reason to refuse it. -/
theorem ensures_served (indexes : SearchEngineBuilder.Indexes engine sequences)
    (policy : Policy R T) (querySequence : List T) (threshold : Cost R) :
    Ensures (fun found => engine.Answered policy querySequence ⟨threshold.get, none⟩ found ∧
        Serves policy threshold sequences querySequence)
      (Refused policy threshold sequences querySequence)
      (engine.search policy querySequence ⟨threshold.get, none⟩) :=
  ((ensures_search indexes.wellFormed policy querySequence _).and
    (ensures_search_refused indexes policy querySequence threshold)).mono
      (fun _ h => h) (fun _ h => h.2)

end SearchEngine
end Search
end Yurine
