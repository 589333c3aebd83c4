import Yurine.Search.Construction
import Yurine.Search.Matches

/-! Completeness of the filter: the neighborhoods of the selected positions leave no way to
edit the query below the bound without pairing one of their candidates. -/
namespace Yurine.MinCandidateSelector
open Outcome EditScripts

section Candidates
variable {R : Type} [Number R] {policy : Policy R Symbol} {eta : Cost R} {queryString : List Symbol}
  {neighborhood : SubstitutionNeighborhood} {index : PostingsIndex} {corpus : CorpusStore}
  {selected : List SelectedPosition}

/-- Postings name distinct places, those of distinct symbols too, so no candidate of a
selection occurs twice. -/
theorem nodup_candidates (inverts : index.Inverts corpus)
    (selects : Selects neighborhood policy eta queryString selected) :
    (candidates selected index).Nodup := by
  have listed (symbol : Symbol) : (index.listed symbol).Nodup :=
    (inverts.ordered symbol).imp (fun less same => absurd (same ▸ less) (lt_irrefl _))
  have expand : candidates selected index = selected.flatMap fun chosen =>
      chosen.neighbors.flatMap fun neighbor => (index.listed neighbor).map fun posting =>
        (⟨posting.stringId, posting.position, chosen.position⟩ : Candidate) := by
    simp only [candidates, List.flatMap, List.flatten_flatten, List.map_map, Function.comp_def]
  have disjoint : selected.Pairwise (fun a b => a.position ≠ b.position) :=
    (List.pairwise_map.mp selects.distinct).imp
      (fun apart same => apart (congrArg Fin.val same))
  rw [expand, List.nodup_flatMap]
  constructor
  · intro chosen mem
    obtain ⟨symbol, _, same⟩ := selects.neighbors chosen mem
    rw [same, List.nodup_flatMap]
    constructor
    · intro neighbor _
      refine (listed neighbor).map (fun first second same => ?_)
      simp only [Candidate.mk.injEq, and_true] at same
      cases first
      cases second
      simp_all
    · refine SubstitutionNeighborhood.nodup_neighbors.imp (fun {a b} distinct => ?_)
      apply List.disjoint_left.mpr
      intro candidate first second
      obtain ⟨posting, inFirst, rfl⟩ := List.mem_map.mp first
      obtain ⟨other, inSecond, same⟩ := List.mem_map.mp second
      obtain ⟨sameId, samePosition, _⟩ := Candidate.mk.inj same
      have here := (inverts.exact a posting.place).mp (List.mem_map_of_mem inFirst)
      have there := (inverts.exact b other.place).mp (List.mem_map_of_mem inSecond)
      rw [Posting.place, sameId, samePosition] at there
      exact distinct (Option.some.inj (here.symm.trans there))
  · refine disjoint.imp (fun {a b} apart => ?_)
    apply List.disjoint_left.mpr
    intro candidate first second
    simp only [List.mem_flatMap, List.mem_map] at first second
    obtain ⟨_, _, _, _, rfl⟩ := first
    obtain ⟨_, _, _, _, same⟩ := second
    exact apart (Candidate.mk.inj same).2.2.symm

end Candidates

section Complete
variable {R : Type} [ExactNumber R]

/-- The filter is complete. Over the inverted index of a corpus, the positions of a selection
are distinct, their contributions reach the bound, their candidates are generated once each,
and every script from the query to a substring below the bound pairs one of them. -/
theorem select_complete {index : PostingsIndex} {corpus : CorpusStore}
    {neighborhood : SubstitutionNeighborhood} {known : Symbol → Prop} {costs : EditCosts R Symbol}
    (indexed : index.WellFormed) (capacity : index.postings.asSlice.length < usizeRange)
    (inverts : index.Inverts corpus)
    (listed : index.alphabet (R := R) = .ok neighborhood.alphabet)
    (policy : Policy R Symbol) (answers : costs.Answers policy known)
    (alphabet : ∀ symbol ∈ neighborhood.alphabet, known symbol)
    (queryString : List Symbol) (query : ∀ symbol ∈ queryString, known symbol)
    (bound : StrictBound R) (eta : Cost R) (selected : List SelectedPosition)
    (chosen : select queryString bound eta index costs neighborhood = .ok selected) :
    (positions selected).Nodup ∧
    (∀ symbol, IsLeast { cost | cost = policy.deletion symbol ∨
        ∃ candidate ∈ neighborhood.alphabet, eta < policy.substitution symbol candidate ∧
          cost = policy.substitution symbol candidate }
      (neighborhood.outsideCost policy eta symbol)) ∧
    bound.cost.get ≤
      (selectedContributions neighborhood policy eta queryString selected).sum ∧
    ∃ generated, generateCandidates (R := R) selected index = .ok generated ∧ generated.Nodup ∧
      ∀ id string start stop, corpus.strings[id]? = some string → start < stop →
        stop ≤ string.length → ∀ script : Script Symbol Symbol, source script = queryString →
        target script = segment string start stop → total policy.weights script < bound.cost.get →
        ∃ candidate ∈ generated, candidate.stringId.val = id ∧
          start ≤ candidate.stringPosition.val ∧
          Pairs script candidate.queryPosition.val (candidate.stringPosition.val - start) := by
  obtain ⟨alphabet', found, _, content⟩ := PostingsIndex.alphabet_ok (R := R) indexed
  obtain rfl : neighborhood.alphabet = alphabet' := Except.ok.inj (listed.symm.trans found)
  have ready : Ready index neighborhood := ⟨indexed, capacity, fun symbol mem => by
    obtain ⟨posting, occurs⟩ := List.exists_mem_of_ne_nil _ ((content symbol).mp mem)
    exact (PostingsIndex.mem_listed occurs).1⟩
  obtain ⟨selects, covers, _⟩ := (ensures_select ready answers alphabet query).of_ok chosen
  refine ⟨selects.distinct, neighborhood.outsideCost_isLeast policy eta, ?_, _,
    generateCandidates_ok indexed, nodup_candidates inverts selects, ?_⟩
  · rw [← sumInOrder_eq_sum]
    exact not_lt.mp covers
  · rintro id string start stop stored _ _ script rfl built cheap
    exact exists_paired_candidate inverts (fun symbol => (content symbol).mpr)
      ⟨selects, covers⟩ stored built cheap

theorem select_complete_banana : ∃ engine : SearchEngine Char,
    (SearchEngineBuilder.new.addSequences (R := Int)
      ["ban".toList, [], "ana".toList]).2.build (R := Int) = .ok engine ∧
    ∃ generated, generateCandidates (R := Int) [⟨1, [2]⟩] engine.index = .ok generated ∧
      generated.Nodup ∧
      ∀ id string start stop, engine.store.strings[id]? = some string → start < stop →
        stop ≤ string.length → ∀ script : Script Symbol Symbol, source script = [1, 2] →
        target script = segment string start stop →
        total (levenshteinCosts (R := Int) ⟨1, by decide, by decide⟩).weights script < 1 →
        ∃ candidate ∈ generated, candidate.stringId.val = id ∧
          start ≤ candidate.stringPosition.val ∧
          Pairs script candidate.queryPosition.val (candidate.stringPosition.val - start) := by
  obtain ⟨engine, built, ran⟩ := bind_eq_ok.mp (show ((SearchEngineBuilder.new.addSequences
      (R := Int) ["ban".toList, [], "ana".toList]).2.build (R := Int) >>= fun engine =>
        engine.index.alphabet >>= fun alphabet =>
          select [1, 2] ⟨⟨1, by decide, by decide⟩⟩ Cost.zero engine.index
            (levenshteinCosts (R := Int) ⟨1, by decide, by decide⟩).costs engine.neighborhood >>=
              fun selected => .ok (selected, decide (alphabet = engine.neighborhood.alphabet))) =
      .ok ([⟨1, [2]⟩], true) by decide +kernel)
  obtain ⟨alphabet, listed, ran⟩ := bind_eq_ok.mp ran
  obtain ⟨selected, chosen, ran⟩ := bind_eq_ok.mp ran
  obtain ⟨rfl, same⟩ := Prod.mk.inj (Except.ok.inj ran)
  obtain rfl := of_decide_eq_true same
  have indexes := (SearchEngineBuilder.indexes_of_built built).2
  have wf := indexes.wellFormed
  exact ⟨engine, built, (select_complete wf.indexed wf.capacity indexes.inverts listed _
    (Policy.costs_answers _ fun _ => True) (fun _ _ => trivial) _ (fun _ _ => trivial) _ _ _
    chosen).2.2.2⟩

end Complete
end Yurine.MinCandidateSelector
