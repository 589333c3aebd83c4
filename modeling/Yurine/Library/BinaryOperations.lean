import Yurine.Library.BinaryArithmetic

/-! Rounded products, quotients and roots. The error of a number that is not too large is relative
to it, or half of the least number where it is near zero, and a number with few enough digits is
not rounded at all. -/
namespace Rounding

namespace Format
variable {format : Format} {x : ℚ}

/-- The largest finite number. -/
def limit (format : Format) : ℚ := format.grid.point (format.top - 1)

/-- The least number of which all digits are there. -/
def normal (format : Format) : ℚ := 2 ^ format.fraction * 2 ^ format.least

theorem least_pos (format : Format) : (0 : ℚ) < 2 ^ format.least := zpow_pos (by norm_num) _

theorem normal_pos (format : Format) : 0 < format.normal :=
  mul_pos (by positivity) format.least_pos

theorem limit_eq (format : Format) {doubled : Nat}
    (top : format.top = doubled * 2 ^ format.fraction + 2 ^ (format.fraction + 1)) :
    format.limit = (2 ^ (format.fraction + 1) - 1) * 2 ^ doubled * 2 ^ format.least := by
  have positive := Nat.two_pow_pos (format.fraction + 1)
  have last : format.top - 1 = doubled * 2 ^ format.fraction + (2 ^ (format.fraction + 1) - 1) := by
    omega
  have lower : 2 ^ format.fraction ≤ 2 ^ (format.fraction + 1) - 1 := by
    have half := Nat.two_pow_pos format.fraction
    rw [Nat.pow_succ]
    omega
  rw [limit, last, point_eq, (doublings_add (.inr lower) (Nat.sub_one_lt positive.ne')).2]
  push_cast [Nat.one_le_two_pow]
  rfl

theorem roundoff_mul_normal (format : Format) :
    format.roundoff * format.normal = 2 ^ format.least / 2 := by
  rw [roundoff, normal, pow_succ]
  field_simp

/-- A count of few digits is the units of some number. -/
theorem exists_units (fraction doubled : Nat) {significand : Nat}
    (few : significand < 2 ^ (fraction + 1)) :
    ∃ i, units fraction i = significand * 2 ^ doubled := by
  induction doubled generalizing significand with
  | zero => exact ⟨significand, by rw [units_of_le few.le, Nat.pow_zero, Nat.mul_one]⟩
  | succ doubled ih =>
    rcases Nat.lt_or_ge significand (2 ^ fraction) with short | full
    · have still : 2 * significand < 2 ^ (fraction + 1) := by
        rw [Nat.pow_succ]
        omega
      obtain ⟨i, same⟩ := ih still
      exact ⟨i, by rw [same, Nat.pow_succ]; ring⟩
    · exact ⟨_, (doublings_add (.inr full) few).2⟩

theorem round_digits (format : Format) (doubled : Nat) {significand : Nat}
    (few : significand < 2 ^ (format.fraction + 1))
    (same : x = (significand * 2 ^ doubled : Nat) * 2 ^ format.least) : format.grid.round x = x := by
  obtain ⟨i, here⟩ := exists_units format.fraction doubled few
  have point : format.grid.point i = x := by rw [point_eq, here, same]
  rw [← point, Grid.round_point]

end Format

namespace Binary
variable {format : Format} {a b : Binary format} {x : ℚ}

theorem nearest_le {i : Nat} (nonneg : 0 ≤ x) (less : x ≤ format.grid.point i) :
    format.grid.nearest x ≤ i := by
  have ordered := format.grid.nearest_mono nonneg less
  rwa [Grid.nearest_point] at ordered

theorem isInfinite_round (inside : |x| ≤ format.limit) :
    (round x : Binary format).isInfinite ≠ true := by
  have below := nearest_le (abs_nonneg x) inside
  have positive := format.positive
  rw [ne_eq, isInfinite_iff]
  rcases le_or_gt 0 x with nonneg | negative
  · rw [abs_of_nonneg nonneg] at below
    rw [round_index nonneg]
    omega
  · rw [abs_of_neg negative] at below
    rw [round_index_of_neg negative]
    omega

theorem abs_value_le_limit (finite : a.isInfinite ≠ true) : |a.value| ≤ format.limit := by
  rw [ne_eq, isInfinite_iff] at finite
  have inside := a.inside
  have sign : |(a.index.sign : ℚ)| ≤ 1 := by
    rcases lt_trichotomy a.index 0 with negative | zero | positive
    · rw [Int.sign_eq_neg_one_of_neg negative]
      norm_num
    · rw [zero]
      norm_num
    · rw [Int.sign_eq_one_of_pos positive]
      norm_num
  have point : format.grid.point a.index.natAbs ≤ format.limit :=
    format.grid.increasing.monotone (by omega)
  rw [value, abs_mul, abs_of_nonneg (Grid.point_nonneg _)]
  exact (mul_le_of_le_one_left (Grid.point_nonneg _) sign).trans point

/-- Rounding works on the magnitude. -/
theorem abs_value_round_sub (inside : |x| ≤ format.limit) :
    |(round x : Binary format).value - x| = |format.grid.round (abs x) - abs x| := by
  have natural {y : ℚ} (nonneg : 0 ≤ y) (below : y ≤ format.limit) :
      (round y : Binary format).value = format.grid.round y := by
    apply value_round nonneg
    have index := nearest_le nonneg below
    have positive := format.positive
    rw [round_index nonneg]
    omega
  rcases le_or_gt 0 x with nonneg | negative
  · rw [abs_of_nonneg nonneg] at inside ⊢
    rw [natural nonneg inside]
  · rw [abs_of_neg negative] at inside ⊢
    have flipped := natural (neg_nonneg.mpr negative.le) inside
    rw [round_neg, value_neg] at flipped
    rw [← flipped, ← abs_neg]
    congr 1
    ring

theorem abs_value_round_sub_le (inside : |x| ≤ format.limit) :
    |(round x : Binary format).value - x| ≤ format.roundoff * |x| + 2 ^ format.least / 2 := by
  rw [abs_value_round_sub inside]
  exact Format.abs_round_sub_le (abs_nonneg x)

theorem abs_value_round_sub_le_of_units (inside : |x| ≤ format.limit) {count : Int}
    (whole : x = count * 2 ^ format.least) :
    |(round x : Binary format).value - x| ≤ format.roundoff * |x| := by
  have magnitude : |x| = (count.natAbs : Nat) * 2 ^ format.least := by
    rw [whole, abs_mul, abs_of_pos format.least_pos, Nat.cast_natAbs, Int.cast_abs]
  rw [abs_value_round_sub inside]
  exact (format.abs_round_sub_le_of_units magnitude).1

theorem round_nonpos (nonpos : x ≤ 0) : (round x : Binary format) ≤ 0 := by
  have flipped : 0 ≤ (round (-x) : Binary format) := round_nonneg (neg_nonneg.mpr nonpos)
  rw [round_neg, le_iff, index_neg, index_zero] at flipped
  rw [le_iff, index_zero]
  omega

theorem value_round_digits (inside : |x| ≤ format.limit) (doubled significand : Nat)
    (few : significand < 2 ^ (format.fraction + 1))
    (same : |x| = (significand * 2 ^ doubled : Nat) * 2 ^ format.least) :
    (round x : Binary format).value = x := by
  have error := abs_value_round_sub inside
  rw [format.round_digits doubled few same, sub_self, abs_zero, abs_eq_zero, sub_eq_zero] at error
  exact error

theorem value_round_one {n : Nat} (least : format.least = -(n : Int))
    (room : 1 ≤ format.limit) : (round 1 : Binary format).value = 1 ∧
      (round 1 : Binary format).isInfinite ≠ true := by
  have inside : |(1 : ℚ)| ≤ format.limit := by rwa [abs_one]
  refine ⟨value_round_digits inside n 1 ?_ ?_, isInfinite_round inside⟩
  · exact Nat.one_lt_two_pow (Nat.succ_ne_zero _)
  · rw [least, Nat.one_mul, Nat.cast_pow, Nat.cast_ofNat, zpow_neg, zpow_natCast,
      mul_inv_cancel₀ (by positivity), abs_one]

theorem exists_digits (a : Binary format) : ∃ doubled significand,
    significand < 2 ^ (format.fraction + 1) ∧
      |a.value| = (significand * 2 ^ doubled : Nat) * 2 ^ format.least := by
  obtain ⟨doubled, significand, split, lower, upper⟩ :=
    exists_significand format.fraction a.index.natAbs
  have counted := (doublings_add lower upper).2
  rw [← split] at counted
  by_cases zero : a.index = 0
  · refine ⟨0, 0, Nat.two_pow_pos _, ?_⟩
    rw [value, zero]
    simp
  · refine ⟨doubled, significand, upper, ?_⟩
    have sign : |(a.index.sign : ℚ)| = 1 := by
      rw [← Int.cast_abs, Int.abs_sign_of_ne_zero zero, Int.cast_one]
    rw [value, abs_mul, sign, one_mul, abs_of_nonneg (Grid.point_nonneg _), Format.point_eq,
      counted]

theorem mul_of_finite (first : a.isInfinite ≠ true) (second : b.isInfinite ≠ true) :
    a * b = round (a.value * b.value) :=
  if_neg (not_or.mpr ⟨first, second⟩)

theorem mul_comm_eq (a b : Binary format) : a * b = b * a := by
  show ite _ _ _ = ite _ _ _
  rw [mul_comm a.index.sign, mul_comm a.value]
  exact if_congr or_comm rfl rfl

theorem sub_of_finite (first : a.isInfinite ≠ true) (second : b.isInfinite ≠ true) :
    a - b = round (a.value - b.value) := by
  have negated : (-b).isInfinite ≠ true := by
    rwa [ne_eq, isInfinite_iff, index_neg, Int.natAbs_neg, ← isInfinite_iff]
  show a + -b = _
  rw [add_of_finite first negated, value_neg, sub_eq_add_neg]

theorem div_of_finite (first : a.isInfinite ≠ true) (second : b.isInfinite ≠ true)
    (nonzero : b.index ≠ 0) : a / b = round (a.value / b.value) :=
  (if_neg second).trans ((if_neg nonzero).trans (if_neg first))

/-- A quotient by a number of at least one is no larger than the dividend. -/
theorem div_le_self_of_one_le (nonneg : 0 ≤ a) (finite : a.isInfinite ≠ true)
    (one_le : 1 ≤ b.value) : 0 ≤ a / b ∧ a / b ≤ a := by
  by_cases large : b.isInfinite = true
  · have zero : a / b = 0 := if_pos large
    rw [zero]
    exact ⟨le_rfl, nonneg⟩
  · have nonzero : b.index ≠ 0 := by
      intro zero
      rw [index_injective (zero.trans index_zero.symm), value_zero] at one_le
      exact absurd one_le (by norm_num)
    have quotient : 0 ≤ a.value / b.value :=
      div_nonneg (value_nonneg nonneg) (zero_le_one.trans one_le)
    rw [div_of_finite finite large nonzero]
    refine ⟨round_nonneg quotient, ?_⟩
    calc round (a.value / b.value) ≤ round a.value :=
          round_mono_nonneg quotient (div_le_self (value_nonneg nonneg) one_le)
      _ = a := round_value a

def magnitude (a : Binary format) : Binary format := if 0 ≤ a then a else -a

theorem value_magnitude (a : Binary format) : a.magnitude.value = |a.value| := by
  rw [magnitude]
  split
  case isTrue nonneg => rw [abs_of_nonneg (value_nonneg nonneg)]
  case isFalse negative =>
    have below := value_strictMono (not_le.mp negative)
    rw [value_zero] at below
    rw [abs_of_neg below, value_neg]

def convert {other : Format} (a : Binary format) : Binary other :=
  if a.isInfinite then signed a.index.sign else round a.value

theorem convert_of_finite {other : Format} (finite : a.isInfinite ≠ true) :
    (a.convert : Binary other) = round a.value := if_neg finite

theorem value_convert {other : Format} (finite : a.isInfinite ≠ true)
    (inside : |a.value| ≤ other.limit) (digits : format.fraction ≤ other.fraction)
    (units : other.least ≤ format.least) : (a.convert : Binary other).value = a.value := by
  obtain ⟨doubled, significand, few, same⟩ := a.exists_digits
  obtain ⟨shift, apart⟩ := Int.eq_ofNat_of_zero_le (sub_nonneg.mpr units)
  rw [convert_of_finite finite]
  apply value_round_digits inside (doubled + shift) significand
  · exact few.trans_le (Nat.pow_le_pow_right Nat.two_pos (Nat.succ_le_succ digits))
  · have power : (2 : ℚ) ^ format.least = 2 ^ shift * 2 ^ other.least := by
      rw [← zpow_natCast, ← zpow_add₀ (by norm_num)]
      congr 1
      omega
    rw [same, power]
    push_cast
    ring

end Binary

section Roots

/-- The greatest number that passes, of this many binary digits above the first. -/
def greatest (passes : Nat → Bool) : Nat → Nat → Nat
  | 0, i => i
  | digits + 1, i =>
    if passes (i + 2 ^ digits) then greatest passes digits (i + 2 ^ digits)
    else greatest passes digits i

theorem greatest_spec (passes : Nat → Bool) (digits i : Nat) (here : passes i = true)
    (beyond : passes (i + 2 ^ digits) = false) :
    passes (greatest passes digits i) = true ∧ passes (greatest passes digits i + 1) = false := by
  induction digits generalizing i with
  | zero => exact ⟨here, beyond⟩
  | succ digits ih =>
    rw [greatest]
    split
    case isTrue next =>
      apply ih _ next
      rwa [Nat.add_assoc, ← Nat.two_mul, ← Nat.pow_succ']
    case isFalse last =>
      apply ih _ here
      exact Bool.not_eq_true _ ▸ last

/-- The index of the last number of which the square is not above this one. -/
def Format.rootBelow (format : Format) (x : ℚ) : Nat :=
  greatest (fun i => format.grid.point i ^ 2 ≤ x) (Nat.log 2 format.top + 1) 0

/-- The nearest number to the square root. -/
def Format.nearestRoot (format : Format) (x : ℚ) : Nat :=
  let i := format.rootBelow x
  let middle := (format.grid.point i + format.grid.point (i + 1)) / 2
  if x < middle ^ 2 then i else if middle ^ 2 < x then i + 1 else i + i % 2

/-- The square root of a negative number, which is not a number, is zero here. -/
def Binary.sqrt {format : Format} (a : Binary format) : Binary format :=
  if a.index ≤ 0 then 0
  else if a.isInfinite then a
  else ⟨(min (format.nearestRoot a.value) format.top : Nat), by omega⟩

variable {format : Format} {x : ℚ}

theorem Format.rootBelow_spec (nonneg : 0 ≤ x) (inside : x ≤ format.limit)
    (large : 1 < format.limit) : format.grid.point (format.rootBelow x) ^ 2 ≤ x ∧
      x < format.grid.point (format.rootBelow x + 1) ^ 2 := by
  have positive := format.positive
  have beyond : x < format.grid.point (0 + 2 ^ (Nat.log 2 format.top + 1)) ^ 2 := by
    have top : format.top < 2 ^ (Nat.log 2 format.top + 1) :=
      Nat.lt_pow_succ_log_self Nat.one_lt_two _
    have above : format.limit < format.grid.point (0 + 2 ^ (Nat.log 2 format.top + 1)) :=
      format.grid.increasing (by omega)
    nlinarith
  have search := greatest_spec (fun i => format.grid.point i ^ 2 ≤ x) (Nat.log 2 format.top + 1) 0
    (by rw [decide_eq_true_eq, format.grid.zero]; simpa using nonneg)
    (decide_eq_false (not_le.mpr beyond))
  exact ⟨of_decide_eq_true search.1, not_le.mp (of_decide_eq_false search.2)⟩

theorem Format.point_normal (format : Format) :
    format.grid.point (2 ^ format.fraction) = format.normal := by
  rw [point_eq, units_of_le (Nat.pow_le_pow_right Nat.two_pos (Nat.le_succ _)), normal, Nat.cast_pow,
    Nat.cast_ofNat]

/-- The square of the rounded root is the number up to two roundoffs. -/
theorem Format.nearestRoot_spec (normal : format.normal ^ 2 ≤ x) (inside : x ≤ format.limit)
    (large : 1 < format.limit) : format.nearestRoot x < format.top ∧
      (1 - format.roundoff) ^ 2 * format.grid.point (format.nearestRoot x) ^ 2 ≤ x ∧
        x ≤ (1 + format.roundoff) ^ 2 * format.grid.point (format.nearestRoot x) ^ 2 := by
  have nonneg : 0 ≤ x := (sq_nonneg _).trans normal
  obtain ⟨lower, upper⟩ := rootBelow_spec nonneg inside large
  have positive := format.positive
  have few : format.rootBelow x + 1 < format.top := by
    have square : format.grid.point (format.rootBelow x) ^ 2 < format.limit ^ 2 := by nlinarith
    have less := lt_of_pow_lt_pow_left₀ 2 (zero_le_one.trans large.le) square
    have index := format.grid.increasing.lt_iff_lt.mp less
    omega
  have digits : format.normal ≤ format.grid.point (format.rootBelow x) := by
    have above := lt_of_pow_lt_pow_left₀ 2 (Grid.point_nonneg _) (normal.trans_lt upper)
    rw [← point_normal] at above ⊢
    have index := format.grid.increasing.lt_iff_lt.mp above
    exact format.grid.increasing.monotone (by omega)
  -- half of the gap is small against either end
  have half : (format.grid.point (format.rootBelow x + 1) -
      format.grid.point (format.rootBelow x)) / 2 ≤
        format.roundoff * format.grid.point (format.rootBelow x) := by
    rcases gap_le format (format.rootBelow x) with least | small
    · have scaled := mul_le_mul_of_nonneg_left digits format.roundoff_pos.le
      rw [roundoff_mul_normal] at scaled
      rwa [least]
    · exact small
  have first : 0 ≤ format.grid.point (format.rootBelow x) := Grid.point_nonneg _
  have order : format.grid.point (format.rootBelow x) ≤
      format.grid.point (format.rootBelow x + 1) := (format.grid.increasing (Nat.lt_succ_self _)).le
  have roundoff := format.roundoff_pos
  have small : format.roundoff ≤ 1 := by
    rw [Format.roundoff, div_le_one (by positivity)]
    exact one_le_pow₀ (by norm_num)
  have down (below : x ≤ ((format.grid.point (format.rootBelow x) +
      format.grid.point (format.rootBelow x + 1)) / 2) ^ 2) :
      (1 - format.roundoff) ^ 2 * format.grid.point (format.rootBelow x) ^ 2 ≤ x ∧
        x ≤ (1 + format.roundoff) ^ 2 * format.grid.point (format.rootBelow x) ^ 2 := by
    rw [← mul_pow, ← mul_pow]
    constructor
    · apply le_trans _ lower
      apply pow_le_pow_left₀ (mul_nonneg (by linarith) first)
      nlinarith
    · apply below.trans
      apply pow_le_pow_left₀ (by linarith)
      linarith
  have up (above : ((format.grid.point (format.rootBelow x) +
      format.grid.point (format.rootBelow x + 1)) / 2) ^ 2 ≤ x) :
      (1 - format.roundoff) ^ 2 * format.grid.point (format.rootBelow x + 1) ^ 2 ≤ x ∧
        x ≤ (1 + format.roundoff) ^ 2 * format.grid.point (format.rootBelow x + 1) ^ 2 := by
    rw [← mul_pow, ← mul_pow]
    constructor
    · apply le_trans _ above
      apply pow_le_pow_left₀ (mul_nonneg (by linarith) (first.trans order))
      nlinarith
    · apply upper.le.trans
      apply pow_le_pow_left₀ (first.trans order)
      nlinarith
  unfold nearestRoot
  dsimp only
  split_ifs with left right
  · exact ⟨by omega, down left.le⟩
  · exact ⟨few, up right.le⟩
  · rcases Nat.mod_two_eq_zero_or_one (format.rootBelow x) with even | odd
    · rw [even, Nat.add_zero]
      exact ⟨by omega, down (not_lt.mp right)⟩
    · rw [odd]
      exact ⟨few, up (not_lt.mp left)⟩

/-- The root of a number that is not too small is finite and positive. -/
theorem Binary.sqrt_spec {a : Binary format} (positive : 0 < a) (finite : a.isInfinite ≠ true)
    (normal : format.normal ^ 2 ≤ a.value) (large : 1 < format.limit) :
    0 < a.sqrt ∧ a.sqrt.isInfinite ≠ true ∧
      (1 - format.roundoff) ^ 2 * a.sqrt.value ^ 2 ≤ a.value ∧
        a.value ≤ (1 + format.roundoff) ^ 2 * a.sqrt.value ^ 2 := by
  have index : 0 < a.index := lt_iff.mp positive
  have inside := (le_abs_self _).trans (abs_value_le_limit finite)
  obtain ⟨few, lower, upper⟩ := Format.nearestRoot_spec normal inside large
  have root : a.sqrt = ⟨(min (format.nearestRoot a.value) format.top : Nat), by omega⟩ := by
    rw [sqrt, if_neg (not_le.mpr index), if_neg finite]
  have index_root : a.sqrt.index = format.nearestRoot a.value := by
    rw [root]
    simp only
    omega
  have value_root : a.sqrt.value = format.grid.point (format.nearestRoot a.value) := by
    rw [value_of_nonneg (by omega), index_root, Int.toNat_natCast]
  have apart : format.nearestRoot a.value ≠ 0 := by
    intro zero
    rw [zero, format.grid.zero] at upper
    have above := value_strictMono positive
    rw [value_zero] at above
    simp only [ne_eq, OfNat.ofNat_ne_zero, not_false_eq_true, zero_pow, mul_zero] at upper
    exact absurd above (not_lt.mpr upper)
  refine ⟨?_, ?_, ?_, ?_⟩
  · rw [lt_iff, index_root, index_zero]
    omega
  · rw [ne_eq, isInfinite_iff, index_root]
    omega
  · rwa [value_root]
  · rwa [value_root]

end Roots
end Rounding
