import Yurine.Search.Selection
import Mathlib.Algebra.Order.BigOperators.Group.List
import Mathlib.Algebra.Order.Group.Nat
import Mathlib.Data.List.Perm.Subperm

/-! What selection returns. The loop keeps the items in step with the query string; it fails
exactly when the bound admits the sum of all contributions added in query order. -/
namespace Yurine.MinCandidateSelector
open Outcome Offsets

/-- Each listed symbol is in range, so distinct symbols have disjoint shares of the postings. -/
theorem sum_frequencies_le {index : PostingsIndex} (wf : index.WellFormed) {symbols : List Symbol}
    (distinct : symbols.Nodup) (inside : ∀ symbol ∈ symbols, symbol.val < index.lists.length) :
    (symbols.map (fun symbol => (index.listed symbol).length)).sum ≤
      index.postings.asSlice.length := by
  have total : ((List.range index.lists.length).map
      (fun i => (index.lists[i]?.getD []).length)).sum = index.postings.asSlice.length := by
    conv_rhs => rw [← wf.offsets.flatten, ← PostingsIndex.lists]
    rw [List.length_flatten]
    congr 1
    refine List.ext_getElem (by simp) ?_
    intro i h _
    have : i < index.lists.length := by simpa using h
    simp [this]
  have share : (symbols.map Fin.val).Subperm (List.range index.lists.length) := by
    refine List.subperm_of_subset (distinct.map Fin.val_injective) ?_
    intro i mem
    obtain ⟨symbol, found, rfl⟩ := List.mem_map.mp mem
    exact List.mem_range.mpr (inside symbol found)
  obtain ⟨part, perm, sub⟩ := share
  rw [← total]
  calc (symbols.map (fun symbol => (index.listed symbol).length)).sum
      = ((symbols.map Fin.val).map (fun i => (index.lists[i]?.getD []).length)).sum := by
        rw [List.map_map]
        rfl
    _ = (part.map (fun i => (index.lists[i]?.getD []).length)).sum := (perm.map _).sum_eq.symm
    _ ≤ _ := (sub.map _).sum_le_sum (by simp)

theorem countNeighbors_ok {index : PostingsIndex} (wf : index.WellFormed)
    (capacity : index.postings.asSlice.length < usizeRange) {symbols : List Symbol}
    (distinct : symbols.Nodup) (inside : ∀ symbol ∈ symbols, symbol.val < index.lists.length) :
    countNeighbors (R := R) index symbols =
      .ok (symbols.map (fun symbol => (index.listed symbol).length)).sum := by
  have fits := (sum_frequencies_le wf distinct inside).trans_lt capacity
  unfold countNeighbors
  suffices h : ∀ (rest : List Symbol) (count : Nat),
      count + (rest.map (fun symbol => (index.listed symbol).length)).sum < usizeRange →
      rest.foldlM (fun count neighbor => do
        let frequency ← index.frequency neighbor
        okOr .thresholdSubsequenceUnavailable (checkedAdd count frequency)) count =
        (.ok (count + (rest.map (fun symbol => (index.listed symbol).length)).sum) :
          Result R Nat) by
    simpa using h symbols 0 (by simpa using fits)
  intro rest
  induction rest with
  | nil =>
    intro count _
    rfl
  | cons symbol rest ih =>
    intro count small
    rw [List.map_cons, List.sum_cons] at small ⊢
    rw [List.foldlM_cons, PostingsIndex.frequency_ok wf, bind_ok, checkedAdd,
      if_pos (by omega), okOr_some, bind_ok, ih _ (by omega), Nat.add_assoc]

section Scores
variable {R : Type} [Number R] {neighborhood : SubstitutionNeighborhood}
  {policy : Policy R Symbol} {eta : Cost R}

/-- What the items of the loop know of their symbols. -/
structure Tracks (neighborhood : SubstitutionNeighborhood) (policy : Policy R Symbol)
    (eta : Cost R) (symbol : Symbol) (chosen : Prop) (item : Item R) : Prop where
  contribution : item.contribution = (neighborhood.outsideCost policy eta symbol).get
  selected : item.selected = true ↔ chosen
  neighbors : item.selected = false → item.neighbors = neighborhood.neighbors policy eta symbol

def positions (selected : List SelectedPosition) : List Nat :=
  selected.map (fun selected => selected.position.val)

/-- The selected positions are distinct positions of the query, each with the neighborhood
of its symbol. -/
structure Selects (neighborhood : SubstitutionNeighborhood) (policy : Policy R Symbol)
    (eta : Cost R) (queryString : List Symbol) (selected : List SelectedPosition) : Prop where
  distinct : (positions selected).Nodup
  neighbors : ∀ chosen ∈ selected, ∃ symbol, queryString[chosen.position.val]? = some symbol ∧
    chosen.neighbors = neighborhood.neighbors policy eta symbol

def contributions (neighborhood : SubstitutionNeighborhood) (policy : Policy R Symbol)
    (eta : Cost R) (queryString : List Symbol) : List R :=
  queryString.map (fun symbol => (neighborhood.outsideCost policy eta symbol).get)

/-- The contributions of the selected positions alone, in query order. -/
def selectedContributions (neighborhood : SubstitutionNeighborhood) (policy : Policy R Symbol)
    (eta : Cost R) (queryString : List Symbol) (selected : List SelectedPosition) : List R :=
  (queryString.zipIdx.filter (fun entry => entry.2 ∈ positions selected)).map
    (fun entry => (neighborhood.outsideCost policy eta entry.1).get)

structure Invariant (neighborhood : SubstitutionNeighborhood) (policy : Policy R Symbol)
    (eta : Cost R) (queryString : List Symbol) (state : Selection R) : Prop where
  size : state.items.length = queryString.length
  items : ∀ i (h : i < state.items.length) (h' : i < queryString.length),
    Tracks neighborhood policy eta queryString[i] (i ∈ positions state.selected) state.items[i]
  selects : Selects neighborhood policy eta queryString state.selected
  contribution : state.contribution = selectedSum state.items

variable {queryString : List Symbol} {state : Selection R}

theorem Selects.length_le {selected : List SelectedPosition}
    (selects : Selects neighborhood policy eta queryString selected) :
    selected.length ≤ queryString.length := by
  have inside : positions selected ⊆ List.range queryString.length := by
    intro i mem
    obtain ⟨chosen, listed, rfl⟩ := List.mem_map.mp mem
    obtain ⟨_, found, _⟩ := selects.neighbors chosen listed
    exact List.mem_range.mpr (List.getElem?_eq_some_iff.mp found).1
  simpa [positions] using (List.subperm_of_subset selects.distinct inside).length_le

theorem Invariant.contributions_eq (inv : Invariant neighborhood policy eta queryString state) :
    contributions neighborhood policy eta queryString = state.items.map Item.contribution := by
  refine List.ext_getElem (by simp [contributions, inv.size]) ?_
  intro i h h'
  simp only [contributions, List.length_map] at h h'
  simp only [contributions, List.getElem_map]
  exact (inv.items i h' h).contribution.symm

theorem Invariant.selectedSum_eq (inv : Invariant neighborhood policy eta queryString state) :
    selectedSum state.items = sumInOrder
      (selectedContributions neighborhood policy eta queryString state.selected) := by
  unfold selectedSum selectedContributions
  congr 1
  have related : List.Forall₂ (fun item (entry : Symbol × Nat) =>
      Tracks neighborhood policy eta entry.1 (entry.2 ∈ positions state.selected) item)
      state.items queryString.zipIdx := by
    refine List.forall₂_iff_get.mpr ⟨by simp [inv.size], ?_⟩
    intro i h h'
    simpa using inv.items i h (by simpa using h')
  generalize queryString.zipIdx = entries at related
  generalize state.items = items at related
  induction related with
  | nil => rfl
  | @cons item entry _ _ head _ ih =>
    by_cases chosen : entry.2 ∈ positions state.selected
    · rw [List.filter_cons_of_pos (head.selected.mpr chosen),
        List.filter_cons_of_pos (by simpa using chosen), List.map_cons, List.map_cons, ih,
        head.contribution]
    · rw [List.filter_cons_of_neg (fun h => chosen (head.selected.mp h)),
        List.filter_cons_of_neg (by simpa using chosen), ih]

theorem Selects.concat {selected : List SelectedPosition}
    (selects : Selects neighborhood policy eta queryString selected) {position : Position}
    (free : position.val ∉ positions selected) {symbol : Symbol}
    (found : queryString[position.val]? = some symbol) :
    Selects neighborhood policy eta queryString
      (selected ++ [⟨position, neighborhood.neighbors policy eta symbol⟩]) := by
  constructor
  · rw [positions, List.map_append]
    exact List.nodup_append_comm.mp (List.nodup_cons.mpr ⟨free, selects.distinct⟩)
  · intro chosen mem
    rcases List.mem_append.mp mem with mem | mem
    · exact selects.neighbors chosen mem
    · obtain rfl := List.mem_singleton.mp mem
      exact ⟨symbol, found, rfl⟩

end Scores

section Rounds
variable {R : Type} [MonotoneNumber R] {neighborhood : SubstitutionNeighborhood}
  {policy : Policy R Symbol} {eta : Cost R} {queryString : List Symbol} {state : Selection R}
  {bound : StrictBound R}

theorem nonneg_contributions {x : R}
    (mem : x ∈ contributions neighborhood policy eta queryString) : 0 ≤ x := by
  obtain ⟨symbol, _, rfl⟩ := List.mem_map.mp mem
  exact Cost.nonneg _

/-- The contributions of the whole query are admitted, or a position has no 32-bit name. -/
def Declines (neighborhood : SubstitutionNeighborhood) (policy : Policy R Symbol) (eta : Cost R)
    (queryString : List Symbol) (bound : StrictBound R) (e : Error R) : Prop :=
  (e = .thresholdSubsequenceUnavailable ∧
    bound.admits (sumInOrder (contributions neighborhood policy eta queryString))) ∨
  (e = .positionOverflow ∧ 2 ^ 32 ≤ queryString.length)

/-- A round either selects one more position, or finds that the free positions add nothing
to a sum the bound still admits. -/
theorem ensures_selectStep (inv : Invariant neighborhood policy eta queryString state)
    (admitted : bound.admits state.contribution) :
    Ensures (fun next => Invariant neighborhood policy eta queryString next ∧
        next.selected.length = state.selected.length + 1)
      (Declines neighborhood policy eta queryString bound) (selectStep bound state) := by
  have positive : 0 < bound.residual state.contribution :=
    MonotoneNumber.sub_pos_lt _ _ admitted
  have nonneg : ∀ item ∈ state.items, 0 ≤ item.contribution := by
    intro item mem
    have listed := List.mem_map_of_mem (f := Item.contribution) mem
    rw [← inv.contributions_eq] at listed
    exact nonneg_contributions listed
  unfold selectStep
  dsimp only
  cases best : bestPosition (bound.residual state.contribution) state.items with
  | none =>
    refine .inl ⟨rfl, ?_⟩
    have same : selectedSum state.items =
        sumInOrder (contributions neighborhood policy eta queryString) := by
      rw [inv.contributions_eq]
      refine sumInOrder_filter nonneg (fun item mem free => ?_)
      have spent := (bestPosition_none best item mem).resolve_left (by simp [free])
      rw [min_le_iff] at spent
      exact le_antisymm (spent.resolve_right (not_le.mpr positive)) (nonneg item mem)
    rw [← same, ← inv.contribution]
    exact admitted
  | some choice =>
    obtain ⟨p, value⟩ := choice
    obtain ⟨⟨item, found, ⟨free, _⟩, _⟩, _⟩ := bestPosition_some best
    obtain ⟨inside, rfl⟩ := List.getElem?_eq_some_iff.mp found
    have inQuery : p < queryString.length := inv.size ▸ inside
    have tracks := inv.items p inside inQuery
    have new : p ∉ positions state.selected := fun mem => by
      simpa [free] using tracks.selected.mpr mem
    simp only [okOr_some, bind_ok]
    rw [index_ok (by simpa using inside), bind_ok]
    refine Ensures.bind ((Position.ensures_fromUsize p).mono (fun _ named => named)
      (fun _ large => .inr ⟨large.1, large.2.trans inQuery.le⟩)) ?_
    rintro position rfl
    rw [update_ok (by simpa using inside), bind_ok, ensures_pure]
    have selects := inv.selects.concat new (List.getElem?_eq_getElem inQuery)
    refine ⟨⟨by simp [inv.size], ?_, ?_, rfl⟩, by simp⟩
    · intro i h h'
      have old := inv.items i (by simpa using h) h'
      simp only [List.getElem_modify, List.getElem_map]
      by_cases here : position.val = i
      · subst here
        rw [if_pos rfl]
        refine ⟨by simpa using old.contribution, ?_, nofun⟩
        simp [positions]
      · rw [if_neg here]
        refine ⟨by simpa using old.contribution, ?_, by simpa using old.neighbors⟩
        simp only [pay_selected, old.selected, positions, List.map_append, List.mem_append,
          List.map_cons, List.map_nil, List.mem_singleton]
        exact ⟨Or.inl, fun h => h.resolve_right (Ne.symm here)⟩
    · simpa [tracks.neighbors free] using selects

theorem ensures_selectLoop (fuel : Nat)
    (inv : Invariant neighborhood policy eta queryString state)
    (enough : queryString.length < fuel + state.selected.length) :
    Ensures (fun selected => Selects neighborhood policy eta queryString selected ∧
        ¬ bound.admits (sumInOrder
          (selectedContributions neighborhood policy eta queryString selected)))
      (Declines neighborhood policy eta queryString bound) (selectLoop bound fuel state) := by
  induction fuel generalizing state with
  | zero =>
    have := inv.selects.length_le
    omega
  | succ fuel ih =>
    refine ensures_ite (fun admitted => ?_) (fun left => ?_)
    · refine Ensures.bind (ensures_selectStep inv admitted) (fun next h => ?_)
      exact ih h.1 (by omega)
    · rw [inv.contribution, inv.selectedSum_eq] at left
      exact ⟨inv.selects, left⟩

theorem selectedContributions_le (selected : List SelectedPosition) :
    sumInOrder (selectedContributions neighborhood policy eta queryString selected) ≤
      sumInOrder (contributions neighborhood policy eta queryString) := by
  refine sumInOrder_le_of_sublist ?_ (fun _ => nonneg_contributions)
  have whole : contributions neighborhood policy eta queryString = queryString.zipIdx.map
      (fun entry => (neighborhood.outsideCost policy eta entry.1).get) := by
    conv_lhs => rw [contributions, ← List.zipIdx_map_fst 0 queryString, List.map_map]
    rfl
  rw [whole]
  exact List.filter_sublist.map _

/-- The facts about an index and its neighborhood that selection relies on. -/
structure Ready (index : PostingsIndex) (neighborhood : SubstitutionNeighborhood) : Prop where
  wellFormed : index.WellFormed
  capacity : index.postings.asSlice.length < usizeRange
  alphabet : ∀ symbol ∈ neighborhood.alphabet, symbol.val < index.lists.length

variable {index : PostingsIndex} {costs : EditCosts R Symbol} {known : Symbol → Prop}

omit [MonotoneNumber R] in
theorem score_ok [Number R] (ready : Ready index neighborhood)
    {policy : Policy R Symbol} {costs : EditCosts R Symbol} {eta : Cost R}
    (answers : costs.Answers policy known)
    (alphabet : ∀ symbol ∈ neighborhood.alphabet, known symbol) {symbol : Symbol}
    (query : known symbol) :
    score eta index costs neighborhood symbol = .ok
      { neighbors := neighborhood.neighbors policy eta symbol
        contribution := (neighborhood.outsideCost policy eta symbol).get
        candidateCount := (((neighborhood.neighbors policy eta symbol).map
          (fun neighbor => (index.listed neighbor).length)).sum : Nat)
        paid := 0
        selected := false } := by
  unfold score
  rw [SubstitutionNeighborhood.scan_ok answers query alphabet, bind_ok]
  simp only
  rw [countNeighbors_ok ready.wellFormed ready.capacity SubstitutionNeighborhood.nodup_neighbors
    (fun neighbor mem => ready.alphabet neighbor (SubstitutionNeighborhood.mem_neighbors.mp mem).1),
    bind_ok]
  rfl

/-- Selection succeeds exactly when the bound does not admit the contributions of the whole
query added in order, and then selects enough of them. -/
theorem ensures_select (ready : Ready index neighborhood) (answers : costs.Answers policy known)
    (alphabet : ∀ symbol ∈ neighborhood.alphabet, known symbol)
    (query : ∀ symbol ∈ queryString, known symbol) :
    Ensures (fun selected => Selects neighborhood policy eta queryString selected ∧
        ¬ bound.admits (sumInOrder
          (selectedContributions neighborhood policy eta queryString selected)) ∧
        ¬ bound.admits (sumInOrder (contributions neighborhood policy eta queryString)))
      (Declines neighborhood policy eta queryString bound)
      (select queryString bound eta index costs neighborhood) := by
  unfold select
  rw [mapM_ok (fun symbol mem => score_ok ready answers alphabet (query symbol mem)), bind_ok]
  refine (ensures_selectLoop _ ⟨by simp, ?_, ⟨by simp [positions], by simp⟩, ?_⟩ (by simp)).post ?_
  · intro i h h'
    rw [List.getElem_map]
    exact ⟨rfl, by simp [positions], fun _ => rfl⟩
  · have none_selected : (queryString.map fun symbol => ({
        neighbors := neighborhood.neighbors policy eta symbol
        contribution := (neighborhood.outsideCost policy eta symbol).get
        candidateCount := (((neighborhood.neighbors policy eta symbol).map
          (fun neighbor => (index.listed neighbor).length)).sum : Nat)
        paid := 0
        selected := false } : Item R)).filter Item.selected = [] := by simp
    rw [selectedSum, none_selected]
    rfl
  · rintro selected ⟨selects, left⟩
    refine ⟨selects, left, fun admitted => left ?_⟩
    exact (selectedContributions_le selected).trans_lt admitted

end Rounds
end Yurine.MinCandidateSelector
