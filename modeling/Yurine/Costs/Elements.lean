import Yurine.Costs.EmbeddingRuns
import Yurine.Costs.Rounded
import Yurine.Library.BinarySums

/-! The elements of embeddings as numbers. The bits of an element that is finite are a number of
single precision, which is the same number in double precision, where its square is exact. -/
namespace Yurine
open Outcome Rounding Binary

/-- The numbers of `f64`. -/
abbrev Double : Type := Binary double

namespace Single

/-- The number with these bits. One that is not a number is zero here. -/
def ofBits (bits : U32) : Single :=
  if inside : bits.val % 2 ^ 31 ≤ single.top then
    if bits.val < 2 ^ 31 then ⟨(bits.val % 2 ^ 31 : Nat), inside⟩
    else ⟨-(bits.val % 2 ^ 31 : Nat), by rwa [Int.natAbs_neg, Int.natAbs_natCast]⟩
  else 0

/-- The bits of a number, where a zero takes this sign. -/
def toBits (negative : Bool) (a : Single) : U32 :=
  ⟨a.index.natAbs + if negative then 2 ^ 31 else 0, by
    have inside := a.inside
    have top : single.top = 0x7f800000 := rfl
    split <;> omega⟩

end Single

theorem single_limit : single.limit = (2 ^ 24 - 1) * 2 ^ 104 := by
  have top : single.top = 253 * 2 ^ single.fraction + 2 ^ (single.fraction + 1) := by decide
  rw [single.limit_eq top]
  norm_num [single]

theorem double_limit : double.limit = (2 ^ 53 - 1) * 2 ^ 971 := by
  have top : double.top = 2045 * 2 ^ double.fraction + 2 ^ (double.fraction + 1) := by decide
  have power : (2 : ℚ) ^ 2045 * 2 ^ double.least = 2 ^ 971 := by
    show (2 : ℚ) ^ 2045 * 2 ^ (-1074 : Int) = 2 ^ 971
    rw [← zpow_natCast, ← zpow_natCast, ← zpow_add₀ (by decide)]
    rfl
  rw [double.limit_eq top, mul_assoc, power]
  rfl

/-- Double precision has room for many squares of numbers of single precision. -/
theorem double_room : (2 : ℚ) ^ 256 * 2 ^ 128 ≤ double.limit := by
  have power : (2 : ℚ) ^ 256 * 2 ^ 128 ≤ 2 ^ 971 := by
    rw [← pow_add]
    exact pow_le_pow_right₀ (by norm_num) (by decide)
  rw [double_limit]
  apply power.trans
  apply le_mul_of_one_le_left (by positivity)
  norm_num

namespace Single

theorem abs_value_lt {a : Single} (finite : a.isInfinite ≠ true) : |a.value| < 2 ^ 128 := by
  apply (abs_value_le_limit finite).trans_lt
  rw [single_limit]
  norm_num

theorem value_convert {a : Single} (finite : a.isInfinite ≠ true) :
    (a.convert : Double).value = a.value ∧ (a.convert : Double).isInfinite ≠ true := by
  have inside : |a.value| ≤ double.limit := by
    apply (abs_value_lt finite).le.trans (le_trans _ double_room)
    rw [← pow_add]
    exact pow_le_pow_right₀ (by norm_num) (by decide)
  constructor
  · exact Binary.value_convert finite inside (by decide) (by decide)
  · rw [convert_of_finite finite]
    exact isInfinite_round inside

theorem index_ofBits {bits : U32} (inside : bits.val % 2 ^ 31 ≤ single.top) :
    (ofBits bits).index.natAbs = bits.val % 2 ^ 31 ∧
      if 2 ^ 31 ≤ bits.val then ofBits bits ≤ 0 else 0 ≤ ofBits bits := by
  rw [ofBits, dif_pos inside]
  rcases Nat.lt_or_ge bits.val (2 ^ 31) with positive | negative
  · rw [if_pos positive, if_neg (not_le.mpr positive), le_iff]
    exact ⟨rfl, Int.natCast_nonneg _⟩
  · rw [if_neg (not_lt.mpr negative), if_pos negative, le_iff]
    simp only [Int.natAbs_neg, Int.natAbs_natCast, index_zero]
    exact ⟨trivial, Int.neg_nonpos_of_nonneg (Int.natCast_nonneg _)⟩

theorem ofBits_of_finite {bits : U32} (finite : isFinite bits = true) :
    (ofBits bits).isInfinite ≠ true ∧ (ofBits bits).index.natAbs = bits.val % 2 ^ 31 ∧
      if 2 ^ 31 ≤ bits.val then ofBits bits ≤ 0 else 0 ≤ ofBits bits := by
  have exponent := of_decide_eq_true finite
  have small := bits.isLt
  have inside : bits.val % 2 ^ 31 < single.top := by
    show bits.val % 2 ^ 31 < 0x7f800000
    omega
  obtain ⟨index, sign⟩ := index_ofBits inside.le
  rw [ne_eq, isInfinite_iff, index]
  exact ⟨inside.ne, rfl, sign⟩

theorem value_eq_zero_iff {a : Single} : a.value = 0 ↔ a.index.natAbs = 0 := by
  rw [← (value_zero : (0 : Single).value = 0), value_strictMono.injective.eq_iff, ← index_injective.eq_iff,
    index_zero, Int.natAbs_eq_zero]

theorem ofBits_eq_zero_iff {bits : U32} (finite : isFinite bits = true) :
    (ofBits bits).value = 0 ↔ ¬ isNonzero bits = true := by
  have index := (ofBits_of_finite finite).2.1
  have nonzero : isNonzero bits = true ↔ bits.val % 2 ^ 31 ≠ 0 := decide_eq_true_iff
  rw [value_eq_zero_iff, index, nonzero]
  exact not_not.symm

theorem val_toBits (negative : Bool) (a : Single) : (toBits negative a).val % 2 ^ 31 = a.index.natAbs ∧
    ((toBits negative a).val < 2 ^ 31 ↔ negative = false) := by
  have inside : a.index.natAbs < 2 ^ 31 := a.inside.trans_lt (by decide)
  have bits : (toBits negative a).val = a.index.natAbs + if negative then 2 ^ 31 else 0 := rfl
  rw [bits]
  cases negative with
  | false => exact ⟨Nat.mod_eq_of_lt inside, iff_of_true inside rfl⟩
  | true =>
    rw [if_pos rfl]
    refine ⟨?_, iff_of_false (Nat.not_lt.mpr (Nat.le_add_left _ _)) (by decide)⟩
    rw [Nat.add_mod_right, Nat.mod_eq_of_lt inside]

theorem ofBits_toBits {negative : Bool} {a : Single}
    (sign : if negative = true then a ≤ 0 else 0 ≤ a) : ofBits (toBits negative a) = a := by
  obtain ⟨magnitude, small⟩ := val_toBits negative a
  obtain ⟨index, side⟩ := index_ofBits (magnitude.trans_le a.inside)
  rw [magnitude] at index
  apply index_injective
  cases negative with
  | false =>
    rw [if_neg (not_le.mpr (small.mpr rfl)), le_iff, index_zero] at side
    have nonneg : 0 ≤ a.index := sign
    omega
  | true =>
    rw [if_pos (not_lt.mp (fun less => nomatch small.mp less)), le_iff, index_zero] at side
    have nonpos : a.index ≤ 0 := sign
    omega

theorem isFinite_toBits {negative : Bool} {a : Single} (finite : a.isInfinite ≠ true) :
    isFinite (toBits negative a) = true := by
  have inside := a.inside
  have top : single.top = 0x7f800000 := rfl
  rw [ne_eq, isInfinite_iff] at finite
  rw [isFinite, toBits, decide_eq_true_eq]
  simp only
  split <;> omega

end Single

end Yurine
