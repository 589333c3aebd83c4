import Yurine.Search.Construction
import Yurine.Search.Tokens

/-! Exactness of range search over a built index: a search answers with the segments within
the threshold, each at its weighted edit distance. -/
namespace Yurine.SearchEngine
open Outcome EditScripts SearchEngineBuilder

variable {T R : Type} [DecidableEq T] [DiscreteNumber R] {engine : SearchEngine T}
  {sequences : List (List T)} {policy : Policy R T} {querySequence : List T}
  {params : RangeSearchParams R} {found : List (Match R)}

omit [DiscreteNumber R] in
/-- The stored string of a sequence is its encoding, and decodes back to it. -/
theorem stored_iff (indexes : Indexes engine sequences) {id : SequenceId} {string : List Symbol} :
    engine.store.string (R := R) id = .ok (some string) ↔
      ∃ sequence, sequences[id.val]? = some sequence ∧
        string = engine.vocabulary.encode sequence ∧
        string.mapM engine.vocabulary.token = some sequence := by
  have wf := indexes.wellFormed
  rw [wf.string_eq (wf.readable indexes.owned), indexes.strings, List.getElem?_map,
    Except.ok.injEq, Option.map_eq_some_iff]
  have decoded {sequence : List T} (here : sequences[id.val]? = some sequence) :
      (engine.vocabulary.encode sequence).mapM engine.vocabulary.token = some sequence :=
    mapM_token_encode engine.vocabulary fun token mem => (indexes.tokens token).mpr
      (List.mem_flatten.mpr ⟨sequence, List.mem_of_getElem? here, mem⟩)
  constructor
  · rintro ⟨sequence, here, rfl⟩
    exact ⟨sequence, here, rfl, decoded here⟩
  · rintro ⟨sequence, here, rfl, _⟩
    exact ⟨sequence, here, rfl⟩

/-- Over the inverted index of the sequences an answer lists the segments within the
threshold, at their distances. -/
theorem Answered.mem_iff (answered : engine.Answered policy querySequence params found)
    (indexes : Indexes engine sequences) (count : sequences.length ≤ 2 ^ 32) {m : Match R} :
    m ∈ found ↔ ∃ sequence, sequences[m.sequenceId]? = some sequence ∧
      m.tokenRange.1 < m.tokenRange.2 ∧ m.tokenRange.2 ≤ sequence.length ∧
      m.distance = distance policy.weights querySequence
        (segment sequence m.tokenRange.1 m.tokenRange.2) ∧ m.distance ≤ params.threshold := by
  obtain ⟨threshold, bound, query, radius, selected, substrings, valid, strict, named, sufficient,
    rfl, minimal⟩ := answered
  have wf := indexes.wellFormed
  have same {string : List Symbol} {sequence : List T}
      (decoded : string.mapM engine.vocabulary.token = some sequence) (start stop : Nat) :
      distance (query.policy engine.vocabulary policy).weights query.string
          (segment string start stop) =
        distance policy.weights querySequence (segment sequence start stop) :=
    EncodedQuery.distance_eq policy named
      (segment_forall₂ (EncodedQuery.names_of_mapM decoded) start stop)
  have lengths {string : List Symbol} {sequence : List T}
      (decoded : string.mapM engine.vocabulary.token = some sequence) :
      string.length = sequence.length :=
    (show List.Forall₂ (query.Names engine.vocabulary) string sequence from
      EncodedQuery.names_of_mapM decoded).length_eq
  -- a segment of a stored string below the bound is reached at its distance
  have reached {id : SequenceId} {string : List Symbol} {start stop : Nat}
      (read : engine.store.string (R := R) id = .ok (some string)) (ordered : start < stop)
      (inside : stop ≤ string.length) :=
    seen_of_admitted wf indexes.inverts sufficient read
      ((CorpusStore.ensures_string wf.stored id).of_ok read).1.symm ordered inside
  rw [mem_matches minimal]
  constructor
  · rintro ⟨id, identified, attained, least⟩
    obtain ⟨string, read, ordered, inside, near, admitted⟩ := Seen.sound attained
    obtain ⟨sequence, here, _, decoded⟩ := (stored_iff indexes).mp read
    have exact_ := le_antisymm (least (reached read ordered inside (near.trans_lt admitted))) near
    rw [StrictBound.admits_iff strict, valid] at admitted
    exact ⟨sequence, identified ▸ here, ordered, lengths decoded ▸ inside,
      exact_.trans (same decoded _ _), admitted⟩
  · rintro ⟨sequence, here, ordered, inside, exact_, near⟩
    have named_id : m.sequenceId < 2 ^ 32 := (List.getElem?_eq_some_iff.mp here).1.trans_le count
    have decoded := mapM_token_encode engine.vocabulary fun token mem =>
      (indexes.tokens token).mpr
        (List.mem_flatten.mpr ⟨sequence, List.mem_of_getElem? here, mem⟩)
    have read : engine.store.string (R := R) ⟨m.sequenceId, named_id⟩ =
        .ok (some (engine.vocabulary.encode sequence)) :=
      (stored_iff indexes).mpr ⟨sequence, here, rfl, decoded⟩
    rw [← valid, ← StrictBound.admits_iff strict] at near
    rw [← same decoded] at exact_
    refine ⟨⟨m.sequenceId, named_id⟩, rfl, ?_, fun x seen => ?_⟩
    · rw [exact_] at near ⊢
      exact reached read ordered (lengths decoded ▸ inside) near
    · obtain ⟨string, also, _, _, above, _⟩ := Seen.sound seen
      rw [read, Except.ok.injEq, Option.some.injEq] at also
      rw [exact_, also]
      exact above

/-- Range search is exact: a search over the sequences of any run of additions answers with
the triples within the threshold, in order, each once and at its weighted edit distance. -/
theorem search_exact (sequences : List (List T)) (engine : SearchEngine T)
    (built : (new.addSequences (R := R) sequences).2.build (R := R) = .ok engine)
    (policy : Policy R T) (querySequence : List T) (params : RangeSearchParams R)
    (found : List (Match R)) (answered : engine.search policy querySequence params = .ok found) :
    found.Pairwise (fun a b => a.key < b.key) ∧
    ∀ id start stop x, (⟨id, (start, stop), x⟩ : Match R) ∈ found ↔ ∃ sequence,
      (accepted sequences (new.addSequences (R := R) sequences).1)[id]? = some sequence ∧
      start < stop ∧ stop ≤ sequence.length ∧
      IsLeast (totals policy.weights querySequence (segment sequence start stop)) x ∧
      x ≤ params.threshold := by
  obtain ⟨count, indexes⟩ := indexes_of_built built
  have answer := (ensures_search indexes.wellFormed policy querySequence params).of_ok answered
  refine ⟨answer.pairwise, fun id start stop x => ?_⟩
  simp only [isLeast_totals_iff]
  exact answer.mem_iff indexes count

theorem search_exact_banana : ∃ engine : SearchEngine Char,
    (new.addSequences (R := Int) ["ban".toList, [], "ana".toList]).2.build (R := Int) =
      .ok engine ∧
    ∀ id start stop x,
      (⟨id, (start, stop), x⟩ : Match Int) ∈ [⟨0, (1, 3), 0⟩, ⟨2, (0, 2), 0⟩] ↔ ∃ sequence,
        (accepted ["ban".toList, [], "ana".toList] (new.addSequences (R := Int)
          ["ban".toList, [], "ana".toList]).1)[id]? = some sequence ∧
        start < stop ∧ stop ≤ sequence.length ∧
        IsLeast (totals (levenshteinCosts (R := Int) ⟨1, by decide, by decide⟩).weights
          "an".toList (segment sequence start stop)) x ∧ x ≤ 0 := by
  obtain ⟨engine, built, answered⟩ := bind_eq_ok.mp (show ((new.addSequences (R := Int)
      ["ban".toList, [], "ana".toList]).2.build (R := Int) >>= fun engine => engine.search
        (levenshteinCosts (R := Int) ⟨1, by decide, by decide⟩) "an".toList ⟨0, none⟩) =
      .ok [⟨0, (1, 3), 0⟩, ⟨2, (0, 2), 0⟩] by decide +kernel)
  exact ⟨engine, built, (search_exact _ engine built _ _ _ _ answered).2⟩

end Yurine.SearchEngine
