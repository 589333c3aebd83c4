import Yurine.Search.Exactness
import Yurine.Search.RoundedFilter

/-! Accuracy of range search in single precision. A search misses no segment that is below the
threshold by one factor for every symbol of the query and of the segment, reports nothing that is
farther above it, and every distance that it reports is as near to the exact one. -/
namespace Yurine
open Outcome EditScripts MinCandidateSelector RoundedNumber

variable {R : Type} [RoundedNumber R]

section Symbols
variable {policy : Policy R Symbol} {bound : StrictBound R} {queryString : List Symbol}

theorem Seen.accurate {corpus : CorpusStore} {candidates : List Candidate} {id : SequenceId}
    {start stop : Nat} {x : R}
    (seen : Seen policy bound queryString corpus candidates (substringKey id start stop) x) :
    ∃ string, corpus.string (R := R) id = .ok (some string) ∧ start < stop ∧
      stop ≤ string.length ∧ bound.admits x ∧
      distance policy.exact queryString (segment string start stop) ≤
        growth R ^ (queryString.length + (stop - start)) * value x := by
  obtain ⟨candidate, _, string, anchors, contributes⟩ := seen
  obtain ⟨a, b, start', stop', ha, hb, before, after, inside, same, admitted, near⟩ :=
    near_of_contributes contributes
  simp only [substringKey, toLex_inj, Prod.mk.injEq] at same
  obtain ⟨rfl, rfl, rfl⟩ := same
  refine ⟨string, anchors.read, by omega, inside, admitted, ?_⟩
  have finite := near.below (admitted.le.trans bound.cost.finite)
  exact (distance_le_exactAnchored ha hb before after).trans finite

/-- Both sides of a pair cost at least their exact distances. -/
theorem exactAnchored_le_total (policy : Policy R Symbol) {before after : Script Symbol Symbol}
    {a b : Symbol} {string : List Symbol} {start stop : Nat} (inside : stop ≤ string.length)
    (ordered : start ≤ stop)
    (built : target (before ++ .substitute a b :: after) = segment string start stop) :
    start + (target before).length < stop ∧
      string[start + (target before).length]? = some b ∧
      exactAnchored policy (source (before ++ .substitute a b :: after)) string
        (source before).length (start + (target before).length) a b start stop ≤
        total policy.exact (before ++ .substitute a b :: after) := by
  have sizes := congrArg List.length built
  rw [length_segment inside] at sizes
  simp only [target_append, target, List.length_append, List.length_cons] at sizes built
  have within : start + (target before).length < string.length := by omega
  have split := segment_append_cons (Nat.le_add_right start (target before).length)
    (show start + (target before).length < stop by omega) (List.getElem?_eq_getElem within)
  rw [← built] at split
  obtain ⟨left, rest⟩ := List.append_inj split (by
    rw [length_segment within.le]
    omega)
  obtain ⟨here, right⟩ := List.cons.inj rest
  refine ⟨by omega, by rw [here, List.getElem?_eq_getElem within], ?_⟩
  have taken : (source (before ++ .substitute a b :: after)).take (source before).length =
      source before := by rw [source_append, List.take_left]
  have dropped : (source (before ++ .substitute a b :: after)).drop ((source before).length + 1) =
      source after := by
    rw [source_append, source, ← List.singleton_append, ← List.append_assoc,
      List.drop_left' (by rw [List.length_append, List.length_singleton])]
  have weighed : total policy.exact (before ++ .substitute a b :: after) =
      value (policy.substitution a b).get + total policy.exact before +
        total policy.exact after := by
    rw [total_append, total_cons, Edit.weight, Policy.exact]
    ring
  rw [exactAnchored, taken, dropped, ← left, ← right, weighed]
  exact add_le_add (add_le_add le_rfl (distance_le before)) (distance_le after)

/-- Over exact postings a sufficient selection reaches every segment that stays below the bound
by one factor for every symbol of the query and of the segment. -/
theorem exists_seen {T : Type} [DecidableEq T] {engine : SearchEngine T} {radius : Cost R}
    {selected : List SelectedPosition} (wf : engine.WellFormed)
    (inverts : engine.index.Inverts engine.store)
    (sufficient : Suffices engine.neighborhood policy bound queryString radius selected)
    {id : SequenceId} {string : List Symbol} {start stop : Nat}
    (read : engine.store.string (R := R) id = .ok (some string))
    (stored : engine.store.strings[id.val]? = some string)
    (ordered : start < stop) (inside : stop ≤ string.length)
    (cheap : growth R ^ (queryString.length + (stop - start)) *
      distance policy.exact queryString (segment string start stop) < value bound.cost.get) :
    ∃ x, Seen policy bound queryString engine.store (candidates selected engine.index)
        (substringKey id start stop) x ∧
      value x ≤ growth R ^ (queryString.length + (stop - start)) *
        distance policy.exact queryString (segment string start stop) := by
  obtain ⟨script, rfl, built, cost⟩ := exists_script policy.exact queryString
    (segment string start stop)
  have power := pow_pos (growth_pos (R := R)) ((source script).length + (stop - start))
  have filtered : growth R ^ (source script).length * total policy.exact script <
      value bound.cost.get := by
    rw [← cost] at cheap
    exact (mul_le_mul_of_nonneg_right (growth_pow_le (Nat.le_add_right _ _))
      (policy.exact_nonneg.total script)).trans_lt cheap
  obtain ⟨candidate, mem, sameId, after_start, before, a, b, after, rfl, position, place⟩ :=
    exists_candidate_of_cheap inverts (fun symbol => (wf.alphabet symbol).mpr) sufficient stored
      built filtered
  obtain rfl : candidate.stringId = id := Fin.ext sameId
  obtain ⟨before_stop, here, least⟩ := exactAnchored_le_total policy inside ordered.le built
  have placed : start + (target before).length = candidate.stringPosition.val := by omega
  rw [placed] at before_stop here least
  rw [position, cost] at least
  have query : (source (before ++ .substitute a b :: after))[candidate.queryPosition.val]? =
      some a := by
    rw [← position, source_append, source, List.getElem?_append_right le_rfl, Nat.sub_self]
    rfl
  have scaled := mul_le_mul_of_nonneg_left least power.le
  obtain ⟨x, contributes, reached⟩ := exists_contributes query here after_start before_stop inside
    (scaled.trans_lt cheap)
  refine ⟨x, ⟨candidate, mem, string, ⟨read, (List.getElem?_eq_some_iff.mp here).1,
    (List.getElem?_eq_some_iff.mp query).1⟩, contributes⟩, reached.trans scaled⟩

end Symbols

section Tokens
variable {T : Type} [DecidableEq T] {engine : SearchEngine T} {sequences : List (List T)}
  {policy : Policy R T} {querySequence : List T} {params : RangeSearchParams R}
  {found : List (Match R)}

theorem EncodedQuery.exactDistance_eq {query : EncodedQuery T}
    {vocabulary : Vocabulary T} (policy : Policy R T) {a b : List Symbol} {s t : List T}
    (left : List.Forall₂ (query.Names vocabulary) a s)
    (right : List.Forall₂ (query.Names vocabulary) b t) :
    distance (query.policy vocabulary policy).exact a b = distance policy.exact s t := by
  apply distance_rel _ _ _ left right
  · intro symbol token symbol' token' named named'
    rw [Names] at named named'
    simp only [Policy.exact, EncodedQuery.policy, named, named']
  · intro symbol token named
    rw [Names] at named
    simp only [Policy.exact, EncodedQuery.policy, named]
  · intro symbol token named
    rw [Names] at named
    simp only [Policy.exact, EncodedQuery.policy, named]

/-- The two distances are apart by one factor for every symbol at most. -/
def Accurate (length : Nat) (d : ℚ) (x : R) : Prop :=
  d ≤ growth R ^ length * value x ∧ value x ≤ growth R ^ length * d

namespace SearchEngine
open SearchEngineBuilder

/-- Over the inverted index of the sequences an answer is accurate. -/
theorem Answered.accurate (answered : engine.Answered policy querySequence params found)
    (indexes : Indexes engine sequences) (count : sequences.length ≤ 2 ^ 32) :
    (∀ m ∈ found, ∃ sequence, sequences[m.sequenceId]? = some sequence ∧
      m.tokenRange.1 < m.tokenRange.2 ∧ m.tokenRange.2 ≤ sequence.length ∧
      m.distance ≤ params.threshold ∧
      Accurate (querySequence.length + (m.tokenRange.2 - m.tokenRange.1)) (distance policy.exact
        querySequence (segment sequence m.tokenRange.1 m.tokenRange.2)) m.distance) ∧
    ∀ (id start stop : Nat) (sequence : List T), sequences[id]? = some sequence → start < stop →
      stop ≤ sequence.length → growth R ^ (querySequence.length + (stop - start)) *
        distance policy.exact querySequence (segment sequence start stop) ≤
          value params.threshold →
      ∃ x, (⟨id, (start, stop), x⟩ : Match R) ∈ found := by
  obtain ⟨threshold, bound, query, radius, selected, substrings, valid, strict, named, sufficient,
    rfl, minimal⟩ := answered
  have wf := indexes.wellFormed
  have queryLength : query.string.length = querySequence.length := named.length_eq
  have same {string : List Symbol} {sequence : List T}
      (decoded : string.mapM engine.vocabulary.token = some sequence) (start stop : Nat) :
      distance (query.policy engine.vocabulary policy).exact query.string
          (segment string start stop) =
        distance policy.exact querySequence (segment sequence start stop) :=
    EncodedQuery.exactDistance_eq policy named
      (segment_forall₂ (EncodedQuery.names_of_mapM decoded) start stop)
  have lengths {string : List Symbol} {sequence : List T}
      (decoded : string.mapM engine.vocabulary.token = some sequence) :
      string.length = sequence.length :=
    (show List.Forall₂ (query.Names engine.vocabulary) string sequence from
      EncodedQuery.names_of_mapM decoded).length_eq
  have reached {id : SequenceId} {string : List Symbol} {start stop : Nat}
      (read : engine.store.string (R := R) id = .ok (some string)) (ordered : start < stop)
      (inside : stop ≤ string.length) :=
    exists_seen wf indexes.inverts sufficient read
      ((CorpusStore.ensures_string wf.stored id).of_ok read).1.symm ordered inside
  constructor
  · intro m mem
    obtain ⟨id, identified, attained, least⟩ := (mem_matches minimal).mp mem
    obtain ⟨string, read, ordered, inside, admitted, near⟩ := Seen.accurate attained
    obtain ⟨sequence, here, _, decoded⟩ := (stored_iff indexes).mp read
    refine ⟨sequence, identified ▸ here, ordered, lengths decoded ▸ inside, ?_, ?_, ?_⟩
    · rwa [StrictBound.admits_iff strict, valid] at admitted
    · rwa [← same decoded, ← queryLength]
    · rw [← same decoded, ← queryLength]
      -- the exact distance either reaches the bound or is found as well
      by_contra far
      rw [not_le] at far
      obtain ⟨x, seen, close⟩ := reached read ordered inside
        (far.trans (value_lt_iff.mpr admitted))
      exact absurd (value_le_iff.mpr (least seen)) (not_le.mpr (close.trans_lt far))
  · intro id start stop sequence here ordered inside cheap
    have namedId : id < 2 ^ 32 := (List.getElem?_eq_some_iff.mp here).1.trans_le count
    have decoded := mapM_token_encode engine.vocabulary fun token mem =>
      (indexes.tokens token).mpr
        (List.mem_flatten.mpr ⟨sequence, List.mem_of_getElem? here, mem⟩)
    have read : engine.store.string (R := R) ⟨id, namedId⟩ =
        .ok (some (engine.vocabulary.encode sequence)) :=
      (stored_iff indexes).mpr ⟨sequence, here, rfl, decoded⟩
    have below : value threshold.get < value bound.cost.get :=
      value_lt_iff.mpr ((StrictBound.admits_iff strict).mpr le_rfl)
    rw [← same decoded, ← queryLength, ← valid] at cheap
    obtain ⟨x, seen, _⟩ := reached read ordered (lengths decoded ▸ inside) (cheap.trans_lt below)
    obtain ⟨x, _, stored⟩ := minimal.least _ _ seen
    exact ⟨x, (mem_matches minimal).mpr
      ⟨⟨id, namedId⟩, rfl, minimal.getElem?_eq_some_iff.mp stored⟩⟩

/-- Range search in single precision is exact up to roundoff: a search over the sequences of any
run of additions answers with matches within the threshold, in order, and their distances and
the weighted edit distances are apart by at most one unit roundoff for every token of the query
and of the range; a range is missed only if it is within the threshold by less. -/
theorem search_accurate (sequences : List (List T)) (engine : SearchEngine T)
    (built : (new.addSequences (R := Single) sequences).2.build (R := Single) = .ok engine)
    (policy : Policy Single T) (querySequence : List T) (params : RangeSearchParams Single)
    (found : List (Match Single))
    (answered : engine.search policy querySequence params = .ok found) :
    found.Pairwise (fun a b => a.key < b.key) ∧
    (∀ id start stop x, (⟨id, (start, stop), x⟩ : Match Single) ∈ found → ∃ sequence d,
      (accepted sequences (new.addSequences (R := Single) sequences).1)[id]? = some sequence ∧
      start < stop ∧ stop ≤ sequence.length ∧ x ≤ params.threshold ∧
      IsLeast (totals policy.exact querySequence (segment sequence start stop)) d ∧
      d ≤ (1 + 1 / 2 ^ 24) ^ (querySequence.length + (stop - start)) * x.value ∧
      x.value ≤ (1 + 1 / 2 ^ 24) ^ (querySequence.length + (stop - start)) * d) ∧
    ∀ id start stop sequence d,
      (accepted sequences (new.addSequences (R := Single) sequences).1)[id]? = some sequence →
      start < stop → stop ≤ sequence.length →
      IsLeast (totals policy.exact querySequence (segment sequence start stop)) d →
      (1 + 1 / 2 ^ 24) ^ (querySequence.length + (stop - start)) * d ≤
        params.threshold.value →
      ∃ x, (⟨id, (start, stop), x⟩ : Match Single) ∈ found := by
  obtain ⟨count, indexes⟩ := indexes_of_built built
  have answer := (ensures_search indexes.wellFormed policy querySequence params).of_ok answered
  obtain ⟨sound, complete⟩ := answer.accurate indexes count
  refine ⟨answer.pairwise, fun id start stop x mem => ?_, ?_⟩
  · obtain ⟨sequence, here, ordered, inside, within, below, above⟩ := sound _ mem
    exact ⟨sequence, _, here, ordered, inside, within, isLeast_totals_iff.mpr rfl, below, above⟩
  · intro id start stop sequence d here ordered inside least cheap
    rw [isLeast_totals_iff.mp least] at cheap
    exact complete id start stop sequence here ordered inside cheap

theorem search_accurate_ban : ∃ (engine : SearchEngine Char) (tenth : Cost Single),
    (new.addSequences (R := Single) ["ban".toList, []]).2.build (R := Single) = .ok engine ∧
    ∀ id start stop sequence d,
      (accepted ["ban".toList, []] (new.addSequences (R := Single)
        ["ban".toList, []]).1)[id]? = some sequence →
      start < stop → stop ≤ sequence.length →
      IsLeast (totals (levenshteinCosts tenth).exact "an".toList (segment sequence start stop)) d →
      (1 + 1 / 2 ^ 24) ^ ("an".toList.length + (stop - start)) * d ≤ tenth.get.value →
      ∃ x, (⟨id, (start, stop), x⟩ : Match Single) ∈ [⟨0, (0, 3), tenth.get⟩,
        ⟨0, (1, 2), tenth.get⟩, ⟨0, (1, 3), 0⟩, ⟨0, (2, 3), tenth.get⟩] := by
  obtain ⟨engine, built, answered⟩ := bind_eq_ok.mp (show ((new.addSequences (R := Single)
      ["ban".toList, []]).2.build (R := Single) >>= fun engine => engine.search
        (levenshteinCosts (⟨⟨0x3dcccccd, by decide⟩, by decide, by decide⟩ : Cost Single))
        "an".toList ⟨⟨0x3dcccccd, by decide⟩, none⟩) =
      .ok [⟨0, (0, 3), ⟨0x3dcccccd, by decide⟩⟩, ⟨0, (1, 2), ⟨0x3dcccccd, by decide⟩⟩,
        ⟨0, (1, 3), 0⟩, ⟨0, (2, 3), ⟨0x3dcccccd, by decide⟩⟩] by decide +kernel)
  exact ⟨engine, ⟨⟨0x3dcccccd, by decide⟩, by decide, by decide⟩, built,
    (search_accurate _ engine built _ _ _ _ answered).2.2⟩

end SearchEngine
end Tokens
end Yurine
