import Yurine.Costs
import Yurine.Library.BinaryOperations
import Yurine.Library.EditScripts

/-! Costs that are rounded. The sum of two costs may be off by a small factor, and so may their
difference; what a policy charges is read exactly all the same, as rational numbers. -/
namespace Yurine
open Rounding

/-- Sums and differences of non-negative numbers are rounded with a small relative error, and
the next number above a threshold is the least one above it. -/
class RoundedNumber (R : Type) extends MonotoneNumber R, NextNumber R where
  value : R → ℚ
  roundoff : ℚ
  roundoff_nonneg : 0 ≤ roundoff
  value_zero : value 0 = 0
  value_strictMono : StrictMono value
  value_add_le : ∀ a b : R, 0 ≤ a → 0 ≤ b →
    value (a + b) ≤ (1 + roundoff) * (value a + value b)
  le_value_add : ∀ a b : R, 0 ≤ a → 0 ≤ b → a + b ≤ largest →
    value a + value b ≤ (1 + roundoff) * value (a + b)
  le_value_sub : ∀ a b : R, 0 ≤ b → b < a → a ≤ largest →
    value a - value b ≤ (1 + roundoff) * value (a - b)
  sub_le : ∀ a b : R, 0 ≤ b → b < a → a ≤ largest → a - b ≤ a

/-- The numbers of `f32`. -/
abbrev Single : Type := Binary single

namespace Single

instance : Number Single where
  largest := ⟨0x7f7fffff, by decide⟩
  infinity := ⟨0x7f800000, by decide⟩
  nextUp x := ⟨min (x.index + 1) 0x7f800000, by
    have inside := x.inside
    have top : single.top = 0x7f800000 := rfl
    omega⟩
  zero_le_largest := by decide
  largest_lt_infinity := by decide
  lt_nextUp x _ finite := by
    rw [Binary.lt_iff] at finite ⊢
    show x.index < min (x.index + 1) 0x7f800000
    simp only at finite
    omega
  nextUp_le x _ finite := by
    rw [Binary.lt_iff] at finite
    rw [Binary.le_iff]
    show min (x.index + 1) 0x7f800000 ≤ 0x7f7fffff
    simp only at finite
    omega

/-- `Cost::ONE`. -/
def one : Cost Single := ⟨⟨0x3f800000, by decide⟩, by decide, by decide⟩

theorem le_largest_iff {x : Single} : x ≤ largest ↔ x.index < single.top := by
  rw [Binary.le_iff]
  show x.index ≤ 0x7f7fffff ↔ x.index < 0x7f800000
  omega

instance : MonotoneNumber Single where
  zero_add_nonneg a _ := Binary.zero_add_eq a
  add_zero_nonneg a _ := Binary.add_zero_eq a
  add_le_add_nonneg _ _ _ _ := Binary.add_mono
  sub_pos_lt _ _ := Binary.sub_pos

instance : RoundedNumber Single where
  value := Binary.value
  roundoff := single.roundoff
  roundoff_nonneg := single.roundoff_pos.le
  value_zero := Binary.value_zero
  value_strictMono := Binary.value_strictMono
  value_add_le _ _ := Binary.value_add_le
  le_value_add _ _ ha hb finite := Binary.le_value_add ha hb (le_largest_iff.mp finite)
  le_value_sub _ _ hb less finite := Binary.le_value_sub hb less (le_largest_iff.mp finite)
  sub_le _ _ hb less finite := (Binary.sub_of_lt hb less (le_largest_iff.mp finite)).2
  lt_nextUp_iff x _ finite y := by
    rw [Binary.lt_iff] at finite ⊢
    rw [Binary.le_iff]
    show y.index < min (x.index + 1) 0x7f800000 ↔ y.index ≤ x.index
    have top : x.index < 0x7f7fffff := finite
    omega

theorem value_one : one.get.value = 1 := by decide +kernel

instance : SharedNumber Single where
  div_natCast a n nonneg finite nonzero := by
    have one_le : 1 ≤ ((n : Single) : Single).value := by
      rw [← value_one]
      apply Binary.value_strictMono.monotone
      calc one.get = Binary.round one.get.value := (Binary.round_value _).symm
        _ = Binary.round 1 := by rw [value_one]
        _ ≤ Binary.round n :=
          Binary.round_mono_nonneg zero_le_one (by exact_mod_cast Nat.one_le_iff_ne_zero.mpr nonzero)
    have bounded : a.isInfinite ≠ true := by
      rw [ne_eq, Binary.isInfinite_of_nonneg nonneg]
      exact (le_largest_iff.mp finite).ne
    obtain ⟨below, above⟩ := Binary.div_le_self_of_one_le nonneg bounded one_le
    exact ⟨below, above.trans finite⟩

end Single
end Yurine
