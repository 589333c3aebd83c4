import Yurine.Library.BinaryOperations
import Mathlib.Algebra.Order.BigOperators.Group.List

/-! Sums of rounded numbers in a fixed order. What a sum is off by is told from the number of
roundings that a term goes through at most, relative to the sum of the magnitudes; a sum that
starts from zero does not round when it meets its first term. -/
namespace Rounding

theorem abs_sum_sub_le {ι : Type} {items : List ι} {f g h : ι → ℚ}
    (near : ∀ i ∈ items, |f i - g i| ≤ h i) :
    |(items.map f).sum - (items.map g).sum| ≤ (items.map h).sum := by
  induction items with
  | nil => simp
  | cons i items ih =>
    have rest := ih fun j mem => near j (List.mem_cons_of_mem _ mem)
    have here := near i List.mem_cons_self
    simp only [List.map_cons, List.sum_cons]
    rw [add_sub_add_comm]
    exact (abs_add_le _ _).trans (add_le_add here rest)

theorem abs_sum_mul_le {α β : Type} {xs : List α} {ys : List β} (same : xs.length = ys.length)
    (f : α → ℚ) (g : β → ℚ) : |((xs.zip ys).map fun pair => f pair.1 * g pair.2).sum| ≤
      ((xs.map fun x => f x ^ 2).sum + (ys.map fun y => g y ^ 2).sum) / 2 := by
  induction xs generalizing ys with
  | nil =>
    cases ys with
    | nil => simp
    | cons y ys => cases same
  | cons x xs ih =>
    cases ys with
    | nil => cases same
    | cons y ys =>
      have rest := ih (Nat.succ.inj same)
      have parts := two_mul_le_add_sq |f x| |g y|
      rw [sq_abs, sq_abs, mul_assoc, ← abs_mul] at parts
      simp only [List.zip_cons_cons, List.map_cons, List.sum_cons]
      apply (abs_add_le _ _).trans
      linarith

namespace Binary

variable {format : Format} {a b : Binary format} {m n : Nat} {exact_ other size more : ℚ}

/-- The number comes from this one by so many roundings, relative to a magnitude. -/
structure Accumulates (n : Nat) (a : Binary format) (exact_ size : ℚ) : Prop where
  finite : a.isInfinite ≠ true
  bounded : |exact_| ≤ size
  error : |a.value - exact_| ≤ ((1 + format.roundoff) ^ n - 1) * size

theorem one_le_growth (format : Format) (n : Nat) : 1 ≤ (1 + format.roundoff) ^ n :=
  one_le_pow₀ (by linarith [format.roundoff_pos])

theorem growth_mono (format : Format) (less : m ≤ n) :
    (1 + format.roundoff) ^ m ≤ (1 + format.roundoff) ^ n :=
  pow_le_pow_right₀ (by linarith [format.roundoff_pos]) less

/-- Few roundings grow an error not much faster than in proportion to them. -/
theorem growth_le (format : Format) (few : n * format.roundoff ≤ 1 / 4) :
    (1 + format.roundoff) ^ n - 1 ≤ 4 / 3 * (n * format.roundoff) := by
  have roundoff := format.roundoff_pos
  -- the factor is at most the inverse of one minus the roundings
  have inverse : (1 + format.roundoff) ^ n * (1 - n * format.roundoff) ≤ 1 := by
    clear few
    induction n with
    | zero => simp
    | succ n ih =>
      apply le_trans _ ih
      rw [pow_succ, mul_assoc]
      apply mul_le_mul_of_nonneg_left _ (zero_le_one.trans (one_le_growth format n))
      push_cast
      nlinarith [mul_nonneg (Nat.cast_nonneg (α := ℚ) n) (sq_nonneg format.roundoff)]
  have nonneg : 0 ≤ n * format.roundoff := mul_nonneg (Nat.cast_nonneg n) roundoff.le
  generalize n * format.roundoff = part at *
  have grown := one_le_growth format n
  nlinarith

namespace Accumulates

theorem of_finite (finite : a.isInfinite ≠ true) : Accumulates 0 a a.value |a.value| := by
  constructor
  · exact finite
  · exact le_rfl
  · rw [sub_self, abs_zero, pow_zero, sub_self, zero_mul]

theorem zero : Accumulates 0 (0 : Binary format) 0 0 := by
  constructor
  · exact not_isInfinite_zero
  · rw [abs_zero]
  · simp

theorem nonneg (accumulates : Accumulates n a exact_ size) : 0 ≤ size :=
  (abs_nonneg _).trans accumulates.bounded

theorem mono (accumulates : Accumulates m a exact_ size) (less : m ≤ n) :
    Accumulates n a exact_ size := by
  refine ⟨accumulates.finite, accumulates.bounded, accumulates.error.trans ?_⟩
  apply mul_le_mul_of_nonneg_right _ accumulates.nonneg
  exact sub_le_sub_right (growth_mono format less) 1

theorem abs_value_le (accumulates : Accumulates n a exact_ size) :
    |a.value| ≤ (1 + format.roundoff) ^ n * size := by
  have error := accumulates.error
  have bound := accumulates.bounded
  have apart := abs_sub_abs_le_abs_sub a.value exact_
  linarith

/-- A sum takes one rounding more than its parts. -/
theorem add (first : Accumulates n a exact_ size) (second : Accumulates n b other more)
    (small : (1 + format.roundoff) ^ n * (size + more) ≤ format.limit) :
    Accumulates (n + 1) (a + b) (exact_ + other) (size + more) := by
  have left := first.abs_value_le
  have right := second.abs_value_le
  have total : |a.value + b.value| ≤ (1 + format.roundoff) ^ n * (size + more) := by
    have sum := abs_add_le a.value b.value
    linarith
  have inside := total.trans small
  obtain ⟨i, ha⟩ := exists_units a
  obtain ⟨j, hb⟩ := exists_units b
  have whole : a.value + b.value = (i + j : Int) * 2 ^ format.least := by
    rw [ha, hb, Int.cast_add, add_mul]
  have rounded := abs_value_round_sub_le_of_units inside whole
  rw [← add_of_finite first.finite second.finite] at rounded
  constructor
  · rw [add_of_finite first.finite second.finite]
    exact isInfinite_round inside
  · have sum := abs_add_le exact_ other
    linarith [first.bounded, second.bounded]
  · have split : (a + b).value - (exact_ + other) = ((a + b).value - (a.value + b.value)) +
        ((a.value - exact_) + (b.value - other)) := by ring
    have parts : |(a.value - exact_) + (b.value - other)| ≤
        ((1 + format.roundoff) ^ n - 1) * (size + more) := by
      have sum := abs_add_le (a.value - exact_) (b.value - other)
      linarith [first.error, second.error]
    have last : |(a + b).value - (a.value + b.value)| ≤
        format.roundoff * ((1 + format.roundoff) ^ n * (size + more)) :=
      rounded.trans (mul_le_mul_of_nonneg_left total format.roundoff_pos.le)
    rw [split]
    refine (abs_add_le _ _).trans ((add_le_add last parts).trans_eq ?_)
    rw [pow_succ]
    ring

theorem zero_add (accumulates : Accumulates n a exact_ size) :
    Accumulates n (0 + a) exact_ size := by
  rwa [zero_add_eq]

/-- The magnitude of a product has room for the error near zero. -/
theorem mul (first : a.isInfinite ≠ true) (second : b.isInfinite ≠ true)
    (inside : |a.value * b.value| ≤ format.limit) :
    Accumulates 1 (a * b) (a.value * b.value) (|a.value * b.value| + format.normal) := by
  have rounded := abs_value_round_sub_le inside
  rw [← mul_of_finite first second, ← format.roundoff_mul_normal, ← mul_add] at rounded
  constructor
  · rw [mul_of_finite first second]
    exact isInfinite_round inside
  · exact le_add_of_nonneg_right format.normal_pos.le
  · rwa [pow_one, add_sub_cancel_left]

section Lists
variable {ι : Type} {items : List ι} {term : ι → Binary format} {value magnitude : ι → ℚ}

theorem sum_nonneg (terms : ∀ i ∈ items, Accumulates n (term i) (value i) (magnitude i)) :
    0 ≤ (items.map magnitude).sum := by
  apply List.sum_nonneg
  intro x mem
  obtain ⟨i, listed, rfl⟩ := List.mem_map.mp mem
  exact (terms i listed).nonneg

/-- Terms are added to a number that is already there. -/
theorem foldl (start : Accumulates m a exact_ size) (less : n ≤ m)
    (terms : ∀ i ∈ items, Accumulates n (term i) (value i) (magnitude i))
    (small : (1 + format.roundoff) ^ (m + items.length) *
      (size + (items.map magnitude).sum) ≤ format.limit) :
    Accumulates (m + items.length) (items.foldl (fun sum i => sum + term i) a)
      (exact_ + (items.map value).sum) (size + (items.map magnitude).sum) := by
  induction items generalizing a m exact_ size with
  | nil => simpa using start
  | cons i items ih =>
    have here := terms i List.mem_cons_self
    have others (j : ι) (mem : j ∈ items) : Accumulates n (term j) (value j) (magnitude j) :=
      terms j (List.mem_cons_of_mem i mem)
    have shift : m + (items.length + 1) = m + 1 + items.length := by omega
    rw [List.map_cons, List.sum_cons, List.length_cons, shift, ← add_assoc] at small
    rw [List.map_cons, List.map_cons, List.sum_cons, List.sum_cons, List.length_cons, shift,
      ← add_assoc, ← add_assoc]
    apply ih _ (less.trans (Nat.le_succ m)) others small
    apply start.add (here.mono less)
    refine le_trans (mul_le_mul (growth_mono format (by omega)) ?_ ?_ ?_) small
    · exact le_add_of_nonneg_right (sum_nonneg others)
    · exact add_nonneg start.nonneg here.nonneg
    · exact zero_le_one.trans (one_le_growth format _)

/-- A sum from zero takes one rounding less than there are terms, besides those of a term. -/
theorem sum (terms : ∀ i ∈ items, Accumulates n (term i) (value i) (magnitude i))
    (small : (1 + format.roundoff) ^ (n + items.length) * (items.map magnitude).sum ≤
      format.limit) :
    Accumulates (n + items.length - 1) (items.foldl (fun sum i => sum + term i) 0)
      (items.map value).sum (items.map magnitude).sum := by
  cases items with
  | nil => exact zero.mono (Nat.zero_le _)
  | cons i items =>
    have here := terms i List.mem_cons_self
    have others (j : ι) (mem : j ∈ items) : Accumulates n (term j) (value j) (magnitude j) :=
      terms j (List.mem_cons_of_mem i mem)
    rw [List.map_cons, List.sum_cons, List.length_cons] at small
    rw [List.foldl_cons, List.map_cons, List.map_cons, List.sum_cons, List.sum_cons,
      List.length_cons, ← Nat.add_assoc, Nat.add_sub_cancel, zero_add_eq]
    apply here.foldl le_rfl others
    refine le_trans (mul_le_mul_of_nonneg_right (growth_mono format (by omega)) ?_) small
    exact add_nonneg here.nonneg (sum_nonneg others)

end Lists
end Accumulates
end Binary
end Rounding
