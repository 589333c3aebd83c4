import Yurine.Search.Bound
import Yurine.Search.Neighborhood
import Yurine.Postings

/-! MinCand selection of query positions. The greedy loop picks positions by value for money;
its outcome depends only on the sum of all contributions added in query order, whether or
not addition is associative. -/
namespace Yurine
open Outcome Offsets

variable {R : Type}

/-- A selected query position together with the neighborhood it was scored on. -/
structure SelectedPosition where
  position : Position
  neighbors : List Symbol
deriving DecidableEq, Repr

namespace MinCandidateSelector

structure Item (R : Type) where
  neighbors : List Symbol
  contribution : R
  candidateCount : R
  paid : R
  selected : Bool

/-- The variables of the greedy loop. -/
structure Selection (R : Type) where
  items : List (Item R)
  selected : List SelectedPosition
  contribution : R

def countNeighbors (index : PostingsIndex) (neighbors : List Symbol) : Result R Nat :=
  neighbors.foldlM (fun count neighbor => do
    let frequency ← index.frequency neighbor
    okOr .thresholdSubsequenceUnavailable (checkedAdd count frequency)) 0

variable [Number R]

def score (eta : Cost R) (index : PostingsIndex) (costs : EditCosts R Symbol)
    (neighborhood : SubstitutionNeighborhood) (symbol : Symbol) : Result R (Item R) := do
  let (neighbors, outsideCost) ← neighborhood.scan symbol eta costs
  let candidateCount ← countNeighbors index neighbors
  return { neighbors, contribution := outsideCost.get, candidateCount := (candidateCount : R),
           paid := 0, selected := false }

/-- One position weighed against the best so far; a strictly smaller value wins. -/
def consider (residual : R) (best : Option (Nat × R)) (entry : Item R × Nat) : Option (Nat × R) :=
  if entry.1.selected then best
  else
    let gain := min entry.1.contribution residual
    if gain ≤ 0 then best
    else
      let unpaid := max (entry.1.candidateCount - entry.1.paid) 0
      let value := unpaid / gain
      match best with
      | none => some (entry.2, value)
      | some (_, bestValue) => if value < bestValue then some (entry.2, value) else best

def bestPosition (residual : R) (items : List (Item R)) : Option (Nat × R) :=
  items.zipIdx.foldl (consider residual) none

def pay (residual bestValue : R) (item : Item R) : Item R :=
  if item.selected then item
  else
    let gain := min item.contribution residual
    if 0 < gain then { item with paid := item.paid + gain * bestValue } else item

def selectedSum (items : List (Item R)) : R :=
  sumInOrder ((items.filter Item.selected).map Item.contribution)

/-- One round: pick the best position, let the others pay, hand over its neighborhood. -/
def selectStep (bound : StrictBound R) (state : Selection R) : Result R (Selection R) := do
  let residual := bound.residual state.contribution
  let (bestPosition, bestValue) ←
    okOr .thresholdSubsequenceUnavailable (bestPosition residual state.items)
  let items := state.items.map (pay residual bestValue)
  let best ← index items bestPosition
  let position ← Position.fromUsize bestPosition
  let items ← update items bestPosition
    (fun item => { item with selected := true, neighbors := [] })
  return { items, selected := state.selected ++ [⟨position, best.neighbors⟩],
           contribution := selectedSum items }

/-- The loop selects a position in every round, so it ends within one round for each. -/
def selectLoop (bound : StrictBound R) : Nat → Selection R → Result R (List SelectedPosition)
  | 0, _ => panic
  | fuel + 1, state =>
    if bound.admits state.contribution then do
      selectLoop bound fuel (← selectStep bound state)
    else return state.selected

def select (queryString : List Symbol) (bound : StrictBound R) (eta : Cost R)
    (index : PostingsIndex) (costs : EditCosts R Symbol)
    (neighborhood : SubstitutionNeighborhood) : Result R (List SelectedPosition) := do
  let items ← queryString.mapM (score eta index costs neighborhood)
  selectLoop bound (items.length + 1) { items, selected := [], contribution := 0 }

section Best
variable {residual : R}

/-- An item that a round may select. -/
def Eligible (residual : R) (item : Item R) : Prop :=
  item.selected = false ∧ 0 < min item.contribution residual

/-- The rate at which an item would be paid in full. -/
def rate (residual : R) (item : Item R) : R :=
  max (item.candidateCount - item.paid) 0 / min item.contribution residual

private theorem consider_some {best : Option (Nat × R)} {entry : Item R × Nat} {p : Nat} {v : R}
    (h : consider residual best entry = some (p, v)) :
    best = some (p, v) ∨
      entry.2 = p ∧ Eligible residual entry.1 ∧ v = rate residual entry.1 := by
  unfold consider at h
  split at h
  · exact .inl h
  · rename_i free
    simp only at h
    split at h
    · exact .inl h
    · rename_i gain
      have new : Eligible residual entry.1 := ⟨by simpa using free, not_le.mp gain⟩
      split at h
      · obtain ⟨same, value⟩ := Prod.mk.inj (Option.some.inj h)
        exact .inr ⟨same, new, value.symm⟩
      · split at h
        · obtain ⟨same, value⟩ := Prod.mk.inj (Option.some.inj h)
          exact .inr ⟨same, new, value.symm⟩
        · exact .inl h

/-- Weighing a position never raises the best value, and covers its own rate. -/
private theorem consider_le (residual : R) (best : Option (Nat × R)) (entry : Item R × Nat) :
    (Eligible residual entry.1 →
      ∃ p v, consider residual best entry = some (p, v) ∧ v ≤ rate residual entry.1) ∧
    ∀ p v, best = some (p, v) → ∃ q w, consider residual best entry = some (q, w) ∧ w ≤ v := by
  unfold consider
  split
  · rename_i taken
    exact ⟨fun eligible => by simp [eligible.1] at taken, fun p v same => ⟨p, v, same, le_refl v⟩⟩
  · simp only
    split
    · rename_i gain
      exact ⟨fun eligible => absurd eligible.2 (not_lt.mpr gain),
        fun p v same => ⟨p, v, same, le_refl v⟩⟩
    · split
      · exact ⟨fun _ => ⟨_, _, rfl, le_refl _⟩, fun p v impossible => by cases impossible⟩
      · rename_i bestValue
        split
        · rename_i less
          refine ⟨fun _ => ⟨_, _, rfl, le_refl _⟩, fun p v same => ⟨_, _, rfl, ?_⟩⟩
          obtain ⟨_, rfl⟩ := Prod.mk.inj (Option.some.inj same)
          exact less.le
        · rename_i more
          exact ⟨fun _ => ⟨_, _, rfl, not_lt.mp more⟩, fun p v same => ⟨p, v, same, le_refl v⟩⟩

private theorem consider_none {best : Option (Nat × R)} {entry : Item R × Nat}
    (h : consider residual best entry = none) :
    best = none ∧ (entry.1.selected = true ∨ min entry.1.contribution residual ≤ 0) := by
  unfold consider at h
  split at h
  · exact ⟨h, .inl ‹_›⟩
  · simp only at h
    split at h
    · exact ⟨h, .inr ‹_›⟩
    · split at h
      · cases h
      · split at h <;> cases h

private theorem foldl_consider_some (entries : List (Item R × Nat)) (best : Option (Nat × R))
    {p : Nat} {v : R} (h : entries.foldl (consider residual) best = some (p, v)) :
    (best = some (p, v) ∨ ∃ item, (item, p) ∈ entries ∧ Eligible residual item ∧
      v = rate residual item) ∧
    (∀ entry ∈ entries, Eligible residual entry.1 → v ≤ rate residual entry.1) ∧
    ∀ q w, best = some (q, w) → v ≤ w := by
  induction entries generalizing best with
  | nil =>
    refine ⟨.inl h, by simp, fun q w same => ?_⟩
    have found : best = some (p, v) := h
    rw [found] at same
    exact (Prod.mk.inj (Option.some.inj same)).2.le
  | cons entry entries ih =>
    obtain ⟨chosen, least, below⟩ := ih _ h
    obtain ⟨own, kept⟩ := consider_le residual best entry
    refine ⟨?_, List.forall_mem_cons.mpr ⟨fun eligible => ?_, least⟩, fun q w same => ?_⟩
    · rcases chosen with kept | ⟨item, mem, new⟩
      · rcases consider_some kept with first | ⟨rfl, new⟩
        · exact .inl first
        · exact .inr ⟨entry.1, by simp, new⟩
      · exact .inr ⟨item, List.mem_cons_of_mem entry mem, new⟩
    · obtain ⟨q, w, same, small⟩ := own eligible
      exact (below q w same).trans small
    · obtain ⟨q', w', same', small⟩ := kept q w same
      exact (below q' w' same').trans small

private theorem foldl_consider_none (entries : List (Item R × Nat)) (best : Option (Nat × R))
    (h : entries.foldl (consider residual) best = none) :
    best = none ∧ ∀ entry ∈ entries,
      entry.1.selected = true ∨ min entry.1.contribution residual ≤ 0 := by
  induction entries generalizing best with
  | nil => exact ⟨h, by simp⟩
  | cons entry entries ih =>
    obtain ⟨first, rest⟩ := ih _ h
    obtain ⟨same, here⟩ := consider_none first
    exact ⟨same, List.forall_mem_cons.mpr ⟨here, rest⟩⟩

/-- The best position is a free one, paid in full at the least rate of all free ones. -/
theorem bestPosition_some {items : List (Item R)} {p : Nat} {v : R}
    (h : bestPosition residual items = some (p, v)) :
    (∃ item, items[p]? = some item ∧ Eligible residual item ∧ v = rate residual item) ∧
      ∀ item ∈ items, Eligible residual item → v ≤ rate residual item := by
  obtain ⟨chosen, least, _⟩ := foldl_consider_some _ _ h
  constructor
  · rcases chosen with impossible | ⟨item, mem, new⟩
    · cases impossible
    · exact ⟨item, List.mk_mem_zipIdx_iff_getElem?.mp mem, new⟩
  · intro item mem
    obtain ⟨i, inside, rfl⟩ := List.mem_iff_getElem.mp mem
    exact least (_, i) (List.mk_mem_zipIdx_iff_getElem?.mpr (List.getElem?_eq_getElem inside))

/-- There is no best position only when no free position contributes anything. -/
theorem bestPosition_none {items : List (Item R)} (h : bestPosition residual items = none)
    (item : Item R) (mem : item ∈ items) :
    item.selected = true ∨ min item.contribution residual ≤ 0 := by
  obtain ⟨p, inside, rfl⟩ := List.mem_iff_getElem.mp mem
  exact (foldl_consider_none _ _ h).2 (_, p)
    (List.mk_mem_zipIdx_iff_getElem?.mpr (List.getElem?_eq_getElem inside))

@[simp] theorem pay_selected (bestValue : R) (item : Item R) :
    (pay residual bestValue item).selected = item.selected := by
  unfold pay
  split
  · rfl
  · simp only
    split <;> rfl

@[simp] theorem pay_contribution (bestValue : R) (item : Item R) :
    (pay residual bestValue item).contribution = item.contribution := by
  unfold pay
  split
  · rfl
  · simp only
    split <;> rfl

@[simp] theorem pay_candidateCount (bestValue : R) (item : Item R) :
    (pay residual bestValue item).candidateCount = item.candidateCount := by
  unfold pay
  split
  · rfl
  · simp only
    split <;> rfl

@[simp] theorem pay_neighbors (bestValue : R) (item : Item R) :
    (pay residual bestValue item).neighbors = item.neighbors := by
  unfold pay
  split
  · rfl
  · simp only
    split <;> rfl

end Best
end MinCandidateSelector
end Yurine
