import Yurine.Search.Anchors
import Yurine.Search.RangeSearchSpec

/-! What the matches of a search are. Soundness holds for any candidates: an anchored distance
is the cost of a script. Completeness is the argument of the filter: a script that pairs no
selected position with a neighbor costs at least the contributions of the selection. -/
namespace Yurine
open Outcome EditScripts MinCandidateSelector

/-- The order of matches: sequence identifier, range start, range end. -/
def Match.key (found : Match R) : Nat ×ₗ (Nat ×ₗ Nat) :=
  toLex (found.sequenceId, toLex found.tokenRange)

section Ordered
variable {R : Type}

theorem key_ofEntry_lt {first second : SubstringKey × R}
    (less : compare first.1 second.1 = .lt) :
    (Match.ofEntry first).key < (Match.ofEntry second).key := by
  obtain ⟨⟨stringId, start, stop⟩, x⟩ := first
  obtain ⟨⟨stringId', start', stop'⟩, x'⟩ := second
  rw [compare_lt_iff_lt, Prod.Lex.lt_iff] at less
  rw [Match.key, Match.key, Prod.Lex.toLex_lt_toLex]
  exact less.imp_right (fun h => ⟨congrArg Fin.val h.1, h.2⟩)

/-- Matches come in order, so each range occurs once. -/
theorem pairwise_matches (substrings : Substrings R) :
    (substrings.toList.map Match.ofEntry).Pairwise (fun a b => a.key < b.key) :=
  List.pairwise_map.mpr (Std.TreeMap.ordered_keys_toList.imp key_ofEntry_lt)

theorem mem_matches [Number R] {substrings : Substrings R} {seen : SubstringKey → R → Prop}
    (minimal : Minima.Minimal substrings seen) {found : Match R} :
    found ∈ substrings.toList.map Match.ofEntry ↔ ∃ id : SequenceId, id.val = found.sequenceId ∧
      IsLeast { x | seen (substringKey id found.tokenRange.1 found.tokenRange.2) x }
        found.distance := by
  rw [List.mem_map]
  constructor
  · rintro ⟨⟨key, x⟩, mem, rfl⟩
    rw [Std.TreeMap.mem_toList_iff_getElem?_eq_some, minimal.getElem?_eq_some_iff] at mem
    exact ⟨(ofLex key).1, rfl, mem⟩
  · rintro ⟨id, named, least⟩
    refine ⟨(substringKey id found.tokenRange.1 found.tokenRange.2, found.distance), ?_, ?_⟩
    · rw [Std.TreeMap.mem_toList_iff_getElem?_eq_some, minimal.getElem?_eq_some_iff]
      exact least
    · rw [Match.ofEntry, substringKey]
      simp [named]

end Ordered

section Exact
variable {R : Type} [ExactNumber R] {policy : Policy R Symbol} {bound : StrictBound R}
  {queryString : List Symbol} {corpus : CorpusStore} {candidates : List Candidate}

/-- Whatever the candidates, a recorded distance is at least that of the segment. -/
theorem Seen.sound {id : SequenceId} {start stop : Nat} {x : R}
    (seen : Seen policy bound queryString corpus candidates (substringKey id start stop) x) :
    ∃ string, corpus.string (R := R) id = .ok (some string) ∧ start < stop ∧
      stop ≤ string.length ∧
      distance policy.weights queryString (segment string start stop) ≤ x ∧ bound.admits x := by
  obtain ⟨candidate, _, string, anchors, contributes⟩ := seen
  obtain ⟨a, b, start', stop', ha, hb, before, after, inside, same, rfl, admitted⟩ :=
    contributes_iff.mp contributes
  simp only [substringKey, toLex_inj, Prod.mk.injEq] at same
  obtain ⟨rfl, rfl, rfl⟩ := same
  exact ⟨string, anchors.read, by omega, inside, distance_le_anchored ha hb before after,
    admitted⟩

/-- What the filter charges a query position with. -/
def charge (neighborhood : SubstitutionNeighborhood) (policy : Policy R Symbol) (radius : Cost R)
    (selected : List SelectedPosition) (entry : Symbol × Nat) : R :=
  if entry.2 ∈ positions selected then (neighborhood.outsideCost policy radius entry.1).get else 0

theorem sum_charges (neighborhood : SubstitutionNeighborhood) (policy : Policy R Symbol)
    (radius : Cost R) (queryString : List Symbol) (selected : List SelectedPosition) :
    sumInOrder (selectedContributions neighborhood policy radius queryString selected) =
      (queryString.zipIdx.map (charge neighborhood policy radius selected)).sum := by
  have nonneg (entry : Symbol × Nat) : 0 ≤ charge neighborhood policy radius selected entry := by
    unfold charge
    split
    · exact Cost.nonneg _
    · exact le_refl 0
  rw [← sumInOrder_eq_sum, ← sumInOrder_filter (p := fun entry => entry.2 ∈ positions selected)
    (fun entry _ => nonneg entry) (fun entry _ left => if_neg (by simpa using left))]
  unfold selectedContributions
  congr 1
  refine List.map_congr_left (fun entry mem => ?_)
  exact (if_pos (by simpa using (List.mem_filter.mp mem).2)).symm

/-- The script pairs a selected position with one of its neighbors. -/
def PairsNeighbor (neighborhood : SubstitutionNeighborhood) (policy : Policy R Symbol)
    (radius : Cost R) (selected : List SelectedPosition) (script : Script Symbol Symbol) : Prop :=
  ∃ before a b after, script = before ++ .substitute a b :: after ∧
    (source before).length ∈ positions selected ∧ b ∈ neighborhood.neighbors policy radius a

/-- A script over the alphabet without such a pair costs at least the contributions of the
selected positions. -/
theorem contributions_le_total {neighborhood : SubstitutionNeighborhood} {radius : Cost R}
    {selected : List SelectedPosition} {script : Script Symbol Symbol}
    (alphabet : ∀ symbol ∈ target script, symbol ∈ neighborhood.alphabet)
    (unpaired : ¬ PairsNeighbor neighborhood policy radius selected script) :
    sumInOrder (selectedContributions neighborhood policy radius (source script) selected) ≤
      total policy.weights script := by
  rw [sum_charges]
  refine charges_le_total policy.nonneg script (List.forall₂_iff_get.mpr ⟨?_, ?_⟩)
  · rw [List.length_map, List.length_zipIdx, length_consumers]
  · intro i h h'
    simp only [List.length_map, List.length_zipIdx] at h
    have consumed : (consumers script)[i]? = some ((consumers script).get ⟨i, h'⟩) :=
      List.getElem?_eq_getElem h'
    generalize (consumers script).get ⟨i, h'⟩ = edit at consumed ⊢
    simp only [List.get_eq_getElem, List.getElem_map, List.getElem_zipIdx, Nat.zero_add]
    unfold charge
    split
    · rename_i chosen
      have consuming : edit.consumes = true := (List.mem_filter.mp (List.mem_of_getElem? consumed)).2
      obtain ⟨before, after, rfl, rfl⟩ := consumer_at script consumed
      cases edit with
      | delete a =>
        have here : (source (before ++ .delete a :: after))[(source before).length] = a := by
          simp [source]
        rw [here]
        exact SubstitutionNeighborhood.outsideCost_le_deletion
      | substitute a b =>
        have here : (source (before ++ .substitute a b :: after))[(source before).length] = a := by
          simp [source]
        rw [here]
        refine SubstitutionNeighborhood.outsideCost_le_substitution
          (alphabet b (by simp [target])) (fun near => unpaired ?_)
        exact ⟨before, a, b, after, rfl, chosen, near⟩
      | insert b => cases consuming
    · exact policy.nonneg.weight edit

theorem anchored_le_total (policy : Policy R Symbol) {before after : Script Symbol Symbol} {a b : Symbol}
    {string : List Symbol} {start stop position : Nat} (inside : stop ≤ string.length)
    (ordered : start ≤ stop)
    (built : target (before ++ .substitute a b :: after) = segment string start stop)
    (placed : position = start + (target before).length) :
    start ≤ position ∧ position < stop ∧ string[position]? = some b ∧
      anchoredDistance policy (source (before ++ .substitute a b :: after)) string
        (source before).length position a b start stop ≤
        total policy.weights (before ++ .substitute a b :: after) := by
  have sizes := congrArg List.length built
  rw [length_segment inside] at sizes
  simp only [target_append, target, List.length_append, List.length_cons] at sizes built
  have after_start : start ≤ position := by omega
  have before_stop : position < stop := by omega
  have within : position < string.length := by omega
  have split := segment_append_cons after_start before_stop (List.getElem?_eq_getElem within)
  rw [← built] at split
  obtain ⟨left, rest⟩ := List.append_inj split (by
    rw [length_segment within.le]
    omega)
  obtain ⟨here, right⟩ := List.cons.inj rest
  refine ⟨after_start, before_stop, by rw [here, List.getElem?_eq_getElem within], ?_⟩
  have taken : (source (before ++ .substitute a b :: after)).take (source before).length =
      source before := by simp
  have dropped : (source (before ++ .substitute a b :: after)).drop ((source before).length + 1) =
      source after := by
    rw [source_append, source, List.drop_append, List.drop_of_length_le (by omega)]
    simp
  have weighed : total policy.weights (before ++ .substitute a b :: after) =
      (policy.substitution a b).get + total policy.weights before +
        total policy.weights after := by
    rw [total_append, total_cons, Edit.weight, Policy.weights]
    abel
  rw [anchoredDistance, taken, dropped, ← left, ← right, weighed]
  exact add_le_add (add_le_add_right (distance_le before) _) (distance_le after)

end Exact

section Complete
variable {R : Type} [ExactNumber R] {T : Type} [DecidableEq T] {engine : SearchEngine T}
  {policy : Policy R Symbol} {bound : StrictBound R} {queryString : List Symbol}
  {radius : Cost R} {selected : List SelectedPosition}

/-- Over exact postings every script below the bound pairs the positions of a candidate. -/
theorem exists_paired_candidate {index : PostingsIndex} {corpus : CorpusStore}
    {neighborhood : SubstitutionNeighborhood} (inverts : index.Inverts corpus)
    (alphabet : ∀ symbol, index.listed symbol ≠ [] → symbol ∈ neighborhood.alphabet)
    {script : Script Symbol Symbol}
    (sufficient : Suffices neighborhood policy bound (source script) radius selected)
    {id : Nat} {string : List Symbol} {start stop : Nat} (stored : corpus.strings[id]? = some string)
    (built : target script = segment string start stop)
    (cheap : bound.admits (total policy.weights script)) :
    ∃ candidate ∈ candidates selected index, candidate.stringId.val = id ∧
      start ≤ candidate.stringPosition.val ∧
      Pairs script candidate.queryPosition.val (candidate.stringPosition.val - start) := by
  have listed {position : Nat} {symbol : Symbol} (here : string[position]? = some symbol) :
      ∃ posting ∈ index.listed symbol, posting.place = (id, position) := by
    refine List.mem_map.mp ((inverts.exact symbol _).mpr ?_)
    rw [CorpusStore.symbolAt, stored]
    exact here
  have occurring : ∀ symbol ∈ target script, symbol ∈ neighborhood.alphabet := by
    intro symbol mem
    rw [built] at mem
    obtain ⟨position, here⟩ :=
      List.mem_iff_getElem?.mp (List.mem_of_mem_drop (List.mem_of_mem_take mem))
    obtain ⟨posting, mem, _⟩ := listed here
    exact alphabet symbol (List.ne_nil_of_mem mem)
  by_cases paired : PairsNeighbor neighborhood policy radius selected script
  · obtain ⟨before, a, b, after, rfl, chosen, near⟩ := paired
    obtain ⟨item, picked, position⟩ := List.mem_map.mp chosen
    have query : (source (before ++ .substitute a b :: after))[item.position.val]? = some a := by
      simp [position, source]
    have neighbor : b ∈ item.neighbors := by
      obtain ⟨symbol, found, same⟩ := sufficient.selects.neighbors item picked
      rw [query, Option.some.injEq] at found
      rwa [same, ← found]
    have here : (segment string start stop)[(target before).length]? = some b := by
      rw [← built]
      simp [target]
    have within := (List.getElem?_eq_some_iff.mp here).1
    rw [segment, List.length_take] at within
    rw [segment, List.getElem?_take_of_lt (by omega), List.getElem?_drop] at here
    obtain ⟨posting, mem, place⟩ := listed here
    obtain ⟨sameId, samePosition⟩ := Prod.mk.inj place
    refine ⟨_, mem_candidates.mpr ⟨item, picked, b, neighbor, posting, mem, rfl⟩, sameId, ?_, ?_⟩
    · exact samePosition ▸ Nat.le_add_right start _
    · exact ⟨before, a, b, after, rfl, position.symm, by simp [samePosition]⟩
  · exact absurd ((contributions_le_total occurring paired).trans_lt cheap) sufficient.covers

/-- Over exact postings the candidates of a sufficient selection reach every segment below
the bound, at its distance. -/
theorem seen_of_admitted (wf : engine.WellFormed) (inverts : engine.index.Inverts engine.store)
    (sufficient : Suffices engine.neighborhood policy bound queryString radius selected)
    {id : SequenceId} {string : List Symbol} {start stop : Nat}
    (read : engine.store.string (R := R) id = .ok (some string))
    (stored : engine.store.strings[id.val]? = some string)
    (ordered : start < stop) (inside : stop ≤ string.length)
    (admitted : bound.admits (distance policy.weights queryString (segment string start stop))) :
    Seen policy bound queryString engine.store (candidates selected engine.index)
      (substringKey id start stop)
      (distance policy.weights queryString (segment string start stop)) := by
  obtain ⟨script, rfl, built, cost⟩ := exists_script policy.weights queryString
    (segment string start stop)
  obtain ⟨candidate, mem, sameId, _, before, a, b, after, rfl, position, place⟩ :=
    exists_paired_candidate inverts (fun symbol => (wf.alphabet symbol).mpr) sufficient stored
      built (cost ▸ admitted)
  obtain rfl : candidate.stringId = id := Fin.ext sameId
  obtain ⟨after_start, before_stop, here, least⟩ :=
    anchored_le_total policy inside ordered.le built
      (show candidate.stringPosition.val = start + (target before).length by omega)
  have query : (source (before ++ .substitute a b :: after))[candidate.queryPosition.val]? =
      some a := by
    simp [← position, source]
  refine ⟨candidate, mem, string, ⟨read, (List.getElem?_eq_some_iff.mp here).1,
    (List.getElem?_eq_some_iff.mp query).1⟩, ?_⟩
  refine contributes_iff.mpr ⟨a, b, start, stop, query, here, after_start, before_stop, inside,
    rfl, ?_, admitted⟩
  refine le_antisymm (distance_le_anchored query here after_start before_stop) ?_
  rw [← position, ← cost]
  exact least

end Complete
end Yurine
