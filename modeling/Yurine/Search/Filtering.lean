import Yurine.Search.Selection

/-! Filtering around selection: the radii worth trying, and the candidates that the
neighborhoods of selected positions generate. -/
namespace Yurine
open Outcome Sorting

variable {R : Type}

/-- A pair of a query position and a string position. -/
structure Candidate where
  stringId : SequenceId
  stringPosition : Position
  queryPosition : Position
deriving DecidableEq, Repr

section Candidates

def expandNeighbor (index : PostingsIndex) (queryPosition : Position) (neighbor : Symbol) :
    Result R (List Candidate) := do
  let postings ← index.postingSlice neighbor
  return postings.map fun posting => ⟨posting.stringId, posting.position, queryPosition⟩

def generateCandidates (selected : List SelectedPosition) (index : PostingsIndex) :
    Result R (List Candidate) := do
  let lists ← selected.mapM fun chosen =>
    chosen.neighbors.mapM (expandNeighbor index chosen.position)
  return lists.flatten.flatten

/-- The number of candidates, saturating at `usize::MAX`. -/
def countCandidates (selected : List SelectedPosition) (index : PostingsIndex) : Result R Nat :=
  (selected.flatMap SelectedPosition.neighbors).foldlM (fun count neighbor => do
    return saturatingAdd count (← index.frequency neighbor)) 0

/-- The candidates of the selected positions, in position, neighborhood and postings order. -/
def candidates (selected : List SelectedPosition) (index : PostingsIndex) : List Candidate :=
  (selected.map fun chosen => chosen.neighbors.map fun neighbor =>
    (index.listed neighbor).map fun posting =>
      (⟨posting.stringId, posting.position, chosen.position⟩ : Candidate)).flatten.flatten

variable {index : PostingsIndex} {selected : List SelectedPosition}

theorem generateCandidates_ok (wf : index.WellFormed) :
    generateCandidates (R := R) selected index = .ok (candidates selected index) := by
  unfold generateCandidates
  rw [mapM_ok (g := fun chosen => chosen.neighbors.map fun neighbor =>
    (index.listed neighbor).map fun posting =>
      (⟨posting.stringId, posting.position, chosen.position⟩ : Candidate)) ?_, bind_ok]
  · rfl
  · intro chosen _
    refine mapM_ok (fun neighbor _ => ?_)
    rw [expandNeighbor, PostingsIndex.postingSlice_ok wf, bind_ok]
    rfl

/-- Every candidate is one posting of one neighbor of one selected position. -/
theorem mem_candidates {candidate : Candidate} :
    candidate ∈ candidates selected index ↔ ∃ chosen ∈ selected, ∃ neighbor ∈ chosen.neighbors,
      ∃ posting ∈ index.listed neighbor,
        candidate = ⟨posting.stringId, posting.position, chosen.position⟩ := by
  simp only [candidates, List.mem_flatten, List.mem_map]
  constructor
  · rintro ⟨_, ⟨_, ⟨chosen, hc, rfl⟩, expanded⟩, mem⟩
    obtain ⟨neighbor, hn, rfl⟩ := List.mem_map.mp expanded
    obtain ⟨posting, hp, rfl⟩ := List.mem_map.mp mem
    exact ⟨chosen, hc, neighbor, hn, posting, hp, rfl⟩
  · rintro ⟨chosen, hc, neighbor, hn, posting, hp, rfl⟩
    exact ⟨_, ⟨_, ⟨chosen, hc, rfl⟩, List.mem_map.mpr ⟨neighbor, hn, rfl⟩⟩,
      List.mem_map.mpr ⟨posting, hp, rfl⟩⟩

theorem length_candidates (selected : List SelectedPosition) (index : PostingsIndex) :
    (candidates selected index).length =
      ((selected.flatMap SelectedPosition.neighbors).map
        (fun neighbor => (index.listed neighbor).length)).sum := by
  induction selected with
  | nil => rfl
  | cons chosen selected ih =>
    unfold candidates at ih ⊢
    rw [List.map_cons, List.flatten_cons, List.flatten_append, List.length_append, ih,
      List.flatMap_cons, List.map_append, List.sum_append]
    simp [List.length_flatten, Function.comp_def]

/-- Counting agrees with generating up to the largest `usize`. -/
theorem countCandidates_ok (wf : index.WellFormed) :
    countCandidates (R := R) selected index =
      .ok (min (candidates selected index).length (usizeRange - 1)) := by
  rw [length_candidates]
  unfold countCandidates
  suffices h : ∀ (neighbors : List Symbol) (count : Nat), count ≤ usizeRange - 1 →
      neighbors.foldlM (fun count neighbor => do
        return saturatingAdd count (← index.frequency neighbor)) count =
      (.ok (min (count + (neighbors.map (fun neighbor => (index.listed neighbor).length)).sum)
        (usizeRange - 1)) : Result R Nat) by
    simpa using h (selected.flatMap SelectedPosition.neighbors) 0 (by simp)
  intro neighbors
  induction neighbors with
  | nil =>
    intro count small
    rw [List.map_nil, List.sum_nil, Nat.add_zero, Nat.min_eq_left small]
    rfl
  | cons neighbor neighbors ih =>
    intro count small
    rw [List.foldlM_cons, PostingsIndex.frequency_ok wf, bind_ok]
    change neighbors.foldlM _ (saturatingAdd count _) = _
    rw [saturatingAdd, ih _ (Nat.min_le_right _ _), List.map_cons, List.sum_cons]
    congr 1
    omega

end Candidates

section Radii
variable [Number R] {policy : Policy R Symbol} {costs : EditCosts R Symbol}
  {known : Symbol → Prop} {queryString : List Symbol}

def anyRadiusCanSelect (queryString : List Symbol) (bound : StrictBound R)
    (costs : EditCosts R Symbol) : Result R Bool := do
  let deletions ← queryString.mapM costs.deletion
  return !decide (bound.admits (sumInOrder (deletions.map Cost.get)))

/-- The substitution costs above `eta`, increasing and without repetition. -/
def widerRadii (queryString : List Symbol) (eta : Cost R) (costs : EditCosts R Symbol)
    (neighborhood : SubstitutionNeighborhood) : Result R (List (Cost R)) := do
  let radii ← queryString.mapM fun symbol =>
    neighborhood.alphabet.mapM fun candidate => costs.substitution symbol candidate
  return dedupAdjacent (sortByKey id (radii.flatten.filter (fun radius => eta < radius)))

/-- The deletion costs of the query string, added in order. -/
def deletionCosts (policy : Policy R Symbol) (queryString : List Symbol) : List R :=
  queryString.map (fun symbol => (policy.deletion symbol).get)

theorem anyRadiusCanSelect_ok (answers : costs.Answers policy known)
    (query : ∀ symbol ∈ queryString, known symbol) (bound : StrictBound R) :
    anyRadiusCanSelect queryString bound costs =
      .ok (!decide (bound.admits (sumInOrder (deletionCosts policy queryString)))) := by
  unfold anyRadiusCanSelect
  rw [mapM_ok (fun symbol mem => answers.deletion symbol (query symbol mem)), bind_ok,
    List.map_map]
  rfl

/-- The radii are exactly the substitution costs into the alphabet that exceed `eta`. -/
theorem widerRadii_ok (answers : costs.Answers policy known)
    {neighborhood : SubstitutionNeighborhood}
    (query : ∀ symbol ∈ queryString, known symbol)
    (alphabet : ∀ symbol ∈ neighborhood.alphabet, known symbol) (eta : Cost R) :
    ∃ radii, widerRadii queryString eta costs neighborhood = .ok radii ∧
      radii.Pairwise (· < ·) ∧ ∀ radius, radius ∈ radii ↔ eta < radius ∧
        ∃ symbol ∈ queryString, ∃ candidate ∈ neighborhood.alphabet,
          policy.substitution symbol candidate = radius := by
  unfold widerRadii
  rw [mapM_ok (g := fun symbol => neighborhood.alphabet.map (policy.substitution symbol))
    (fun symbol mem => mapM_ok (fun candidate hc =>
      answers.substitution symbol candidate (query symbol mem) (alphabet candidate hc))), bind_ok]
  refine ⟨_, rfl, dedupAdjacent_strict Function.injective_id (sortByKey_sorted id _), ?_⟩
  intro radius
  simp only [mem_dedupAdjacent, mem_sortByKey, List.mem_filter, List.mem_flatten, List.mem_map,
    decide_eq_true_eq]
  constructor
  · rintro ⟨⟨_, ⟨symbol, hs, rfl⟩, mem⟩, wide⟩
    obtain ⟨candidate, hc, same⟩ := List.mem_map.mp mem
    exact ⟨wide, symbol, hs, candidate, hc, same⟩
  · rintro ⟨wide, symbol, hs, candidate, hc, same⟩
    exact ⟨⟨_, ⟨symbol, hs, rfl⟩, List.mem_map.mpr ⟨candidate, hc, same⟩⟩, wide⟩

end Radii
end Yurine
