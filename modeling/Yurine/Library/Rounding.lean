import Mathlib.Algebra.Order.Field.Basic
import Mathlib.Algebra.Order.Ring.Rat
import Mathlib.Algebra.Field.Rat
import Mathlib.Data.Rat.Floor
import Mathlib.Data.Int.Log
import Mathlib.Order.Monotone.Basic
import Mathlib.Tactic.Linarith
import Mathlib.Tactic.Positivity
import Mathlib.Tactic.Ring

/-! Rounding to the nearest of an increasing sequence of numbers. A tie goes to the number with
the even index. The numbers of a binary format without bounds are such a sequence: a fraction of
fixed length, scaled by a power of two that grows whenever the fraction overflows. -/
namespace Rounding

/-- Numbers from zero upward without end, and the index of the last one not above a number. -/
structure Grid where
  point : Nat → ℚ
  below : ℚ → Nat
  zero : point 0 = 0
  increasing : StrictMono point
  below_le : ∀ x, 0 ≤ x → point (below x) ≤ x
  lt_above : ∀ x, 0 ≤ x → x < point (below x + 1)

namespace Grid
variable {grid : Grid} {x y : ℚ} {i : Nat}

/-- The index of the nearest number. -/
def nearest (grid : Grid) (x : ℚ) : Nat :=
  let i := grid.below x
  let middle := (grid.point i + grid.point (i + 1)) / 2
  if x < middle then i else if middle < x then i + 1 else i + i % 2

/-- A number rounded to the grid. -/
def round (grid : Grid) (x : ℚ) : ℚ := grid.point (grid.nearest x)

theorem point_nonneg (i : Nat) : 0 ≤ grid.point i := by
  rw [← grid.zero]
  exact grid.increasing.monotone (Nat.zero_le i)

theorem below_eq (lower : grid.point i ≤ x) (upper : x < grid.point (i + 1)) :
    grid.below x = i := by
  have nonneg : 0 ≤ x := (point_nonneg i).trans lower
  have first := grid.increasing.lt_iff_lt.mp ((grid.below_le x nonneg).trans_lt upper)
  have second := grid.increasing.lt_iff_lt.mp (lower.trans_lt (grid.lt_above x nonneg))
  omega

theorem below_mono (nonneg : 0 ≤ x) (less : x ≤ y) : grid.below x ≤ grid.below y := by
  have above := grid.lt_above y (nonneg.trans less)
  have lower := grid.below_le x nonneg
  exact Nat.lt_succ_iff.mp (grid.increasing.lt_iff_lt.mp ((lower.trans less).trans_lt above))

theorem nearest_cases (grid : Grid) (x : ℚ) :
    grid.nearest x = grid.below x ∨ grid.nearest x = grid.below x + 1 := by
  unfold nearest
  dsimp only
  split_ifs
  · exact .inl rfl
  · exact .inr rfl
  · rcases Nat.mod_two_eq_zero_or_one (grid.below x) with even | odd
    · exact .inl (by rw [even, Nat.add_zero])
    · exact .inr (by rw [odd])

@[simp] theorem nearest_point (i : Nat) : grid.nearest (grid.point i) = i := by
  have gap := grid.increasing (Nat.lt_succ_self i)
  have here : grid.below (grid.point i) = i := below_eq le_rfl gap
  unfold nearest
  dsimp only
  rw [here, if_pos]
  linarith

@[simp] theorem round_point (i : Nat) : grid.round (grid.point i) = grid.point i := by
  rw [round, nearest_point]

@[simp] theorem nearest_zero : grid.nearest 0 = 0 := by
  rw [← grid.zero, nearest_point]

theorem nearest_mono (grid : Grid) (nonneg : 0 ≤ x) (less : x ≤ y) : grid.nearest x ≤ grid.nearest y := by
  have ordered : grid.below x ≤ grid.below y := below_mono nonneg less
  rcases ordered.lt_or_eq with lower | same
  · rcases nearest_cases grid x with first | first <;>
      rcases nearest_cases grid y with second | second <;> omega
  · unfold nearest
    dsimp only
    rw [same]
    have parity := Nat.mod_two_eq_zero_or_one (grid.below y)
    split_ifs <;> first | omega | (exfalso; linarith)

/-- The error is at most the distance to the numbers on either side. -/
theorem abs_round_sub_le (grid : Grid) (nonneg : 0 ≤ x) :
    |grid.round x - x| ≤ x - grid.point (grid.below x) ∧
      |grid.round x - x| ≤ grid.point (grid.below x + 1) - x := by
  have lower := grid.below_le x nonneg
  have upper := grid.lt_above x nonneg
  have down : grid.nearest x = grid.below x →
      x ≤ (grid.point (grid.below x) + grid.point (grid.below x + 1)) / 2 →
      |grid.round x - x| ≤ x - grid.point (grid.below x) ∧
        |grid.round x - x| ≤ grid.point (grid.below x + 1) - x := by
    intro same half
    rw [round, same, abs_of_nonpos (by linarith)]
    constructor <;> linarith
  have up : grid.nearest x = grid.below x + 1 →
      (grid.point (grid.below x) + grid.point (grid.below x + 1)) / 2 ≤ x →
      |grid.round x - x| ≤ x - grid.point (grid.below x) ∧
        |grid.round x - x| ≤ grid.point (grid.below x + 1) - x := by
    intro same half
    rw [round, same, abs_of_nonneg (by linarith)]
    constructor <;> linarith
  unfold nearest at down up
  dsimp only at down up
  split_ifs at down up with left right
  · exact down rfl left.le
  · exact up rfl right.le
  · rcases Nat.mod_two_eq_zero_or_one (grid.below x) with even | odd
    · exact down (by rw [even, Nat.add_zero]) (not_lt.mp right)
    · exact up (by rw [odd]) (not_lt.mp left)

/-- The error is at most half of the gap around the number. -/
theorem abs_round_sub_le_half (grid : Grid) (nonneg : 0 ≤ x) : |grid.round x - x| ≤
    (grid.point (grid.below x + 1) - grid.point (grid.below x)) / 2 := by
  obtain ⟨lower, upper⟩ := grid.abs_round_sub_le nonneg
  linarith

end Grid
end Rounding
