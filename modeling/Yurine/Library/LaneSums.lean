import Yurine.Library.Lanes
import Yurine.Library.BinarySums
import Mathlib.Algebra.Order.BigOperators.Group.Finset

/-! Rounded sums split over lanes. Every lane adds the terms of its own, the lanes are added up
from left to right, and so a term goes through fewer roundings than in one sum of all terms. -/
namespace Rounding
namespace Binary
open Lanes

variable {format : Format} {ι : Type} {n : Nat} {items : List ι}
  {term : ι → Fin n → Binary format} {value magnitude : ι → Fin n → ℚ}

/-- The lanes one after another. -/
def sumLanes (items : List ι) (term : ι → Fin n → Binary format) : Binary format :=
  (items.foldl (fun accumulators i => addLanes accumulators (term i))
    (Vector.replicate n 0)).toList.foldl (· + ·) 0

theorem sumLanes_nil (term : ι → Fin n → Binary format) : sumLanes [] term = 0 := by
  rw [sumLanes, List.foldl_nil, Vector.toList_replicate]
  clear term
  induction n with
  | zero => rfl
  | succ n ih => rw [List.replicate_succ, List.foldl_cons, zero_add_eq, ih]

/-- A term is rounded once for each chunk and once for each lane, at most. -/
theorem Accumulates.sumLanes
    (terms : ∀ i ∈ items, ∀ lane, Accumulates 1 (term i lane) (value i lane) (magnitude i lane))
    (small : (1 + format.roundoff) ^ (1 + items.length + n) *
      (items.map fun i => ∑ lane, magnitude i lane).sum ≤ format.limit) :
    Accumulates (items.length + n - 1) (sumLanes items term)
      (items.map fun i => ∑ lane, value i lane).sum
      (items.map fun i => ∑ lane, magnitude i lane).sum := by
  have nonneg (lane : Fin n) : 0 ≤ (items.map fun i => magnitude i lane).sum :=
    sum_nonneg fun i mem => terms i mem lane
  have one (m : Nat) : 0 ≤ (1 + format.roundoff) ^ m := zero_le_one.trans (one_le_growth format m)
  rw [← sum_comm_lanes] at small
  have lane (lane : Fin n) : Accumulates items.length
      (items.foldl (fun sum i => sum + term i lane) 0) (items.map fun i => value i lane).sum
      (items.map fun i => magnitude i lane).sum := by
    have total := Accumulates.sum (fun i mem => terms i mem lane) (by
      apply le_trans _ small
      apply mul_le_mul (growth_mono format (Nat.le_add_right _ _)) _ (nonneg lane) (one _)
      exact Finset.single_le_sum (fun other _ => nonneg other) (Finset.mem_univ lane))
    rwa [Nat.add_sub_cancel_left] at total
  have all := Accumulates.sum (fun i (_ : i ∈ List.finRange n) => lane i) (by
    rw [List.length_finRange, ← Fin.sum_univ_def]
    apply le_trans _ small
    exact mul_le_mul_of_nonneg_right (growth_mono format (by omega))
      (Finset.sum_nonneg fun other _ => nonneg other))
  rw [List.length_finRange, ← Fin.sum_univ_def, ← Fin.sum_univ_def, sum_comm_lanes,
    sum_comm_lanes] at all
  have listed : (items.foldl (fun accumulators i => addLanes accumulators (term i))
      (Vector.replicate n 0)).toList =
        (List.finRange n).map fun lane => items.foldl (fun sum i => sum + term i lane) 0 := by
    apply List.ext_getElem (by simp)
    intro i left right
    have inside : i < n := by simpa using left
    have here := getElem_foldl_addLanes items term (Vector.replicate n 0) ⟨i, inside⟩
    simpa using here
  rw [Binary.sumLanes, listed, List.foldl_map]
  exact all

end Binary
end Rounding
