import Yurine.Library.Rounding
import Mathlib.Algebra.Order.Field.Power

/-! Binary floating point. The index of a number is its bit pattern without the sign: the
exponent above the fraction. Numbers are rounded as if exponents had no bound, and become
infinite where they have one; not-a-number is left out and the two zeros are one. -/
namespace Rounding

/-- The number of bits of a fraction, the exponent of the least number, and the pattern of
infinity. -/
structure Format where
  fraction : Nat
  least : Int
  top : Nat
  positive : 0 < top

/-- `f32`. -/
def single : Format := ⟨23, -149, 0x7f800000, by decide⟩

/-- `f64`. -/
def double : Format := ⟨52, -1074, 0x7ff0000000000000, by decide⟩

section Units
variable {fraction i : Nat}

/-- How often the unit in the last place has doubled. -/
def doublings (fraction i : Nat) : Nat := i / 2 ^ fraction - 1

/-- A number in units of the least one. -/
def units (fraction i : Nat) : Nat :=
  (i - doublings fraction i * 2 ^ fraction) * 2 ^ doublings fraction i

/-- The index of the last number of at most so many units. -/
def indexOf (fraction count : Nat) : Nat :=
  let doubled := Nat.log 2 count - fraction
  doubled * 2 ^ fraction + count / 2 ^ doubled

/-- Every index is an exponent above a significand, whose leading bit is set unless the
exponent is the least one. -/
theorem doublings_add {doubled significand : Nat}
    (lower : doubled = 0 ∨ 2 ^ fraction ≤ significand) (upper : significand < 2 ^ (fraction + 1)) :
    doublings fraction (doubled * 2 ^ fraction + significand) = doubled ∧
      units fraction (doubled * 2 ^ fraction + significand) = significand * 2 ^ doubled := by
  have positive : 0 < 2 ^ fraction := Nat.two_pow_pos fraction
  have same : doublings fraction (doubled * 2 ^ fraction + significand) = doubled := by
    rw [Nat.pow_succ'] at upper
    unfold doublings
    rcases lower with rfl | lower
    · have few : significand / 2 ^ fraction < 2 := (Nat.div_lt_iff_lt_mul positive).mpr upper
      rw [Nat.zero_mul, Nat.zero_add]
      omega
    · have one : significand / 2 ^ fraction = 1 :=
        Nat.div_eq_of_lt_le (by rwa [Nat.one_mul]) upper
      rw [Nat.mul_comm, Nat.mul_add_div positive, one, Nat.add_sub_cancel]
  refine ⟨same, ?_⟩
  rw [units, same, Nat.add_sub_cancel_left]

theorem exists_significand (fraction i : Nat) : ∃ doubled significand,
    i = doubled * 2 ^ fraction + significand ∧ (doubled = 0 ∨ 2 ^ fraction ≤ significand) ∧
      significand < 2 ^ (fraction + 1) := by
  have divided := Nat.div_add_mod i (2 ^ fraction)
  have rest := Nat.mod_lt i (Nat.two_pow_pos fraction)
  rw [Nat.pow_succ]
  cases whole : i / 2 ^ fraction with
  | zero =>
    rw [whole, Nat.mul_zero, Nat.zero_add] at divided
    exact ⟨0, i, by omega, .inl rfl, by omega⟩
  | succ doubled =>
    rw [whole, Nat.mul_succ, Nat.mul_comm] at divided
    exact ⟨doubled, 2 ^ fraction + i % 2 ^ fraction, by omega, .inr (by omega), by omega⟩

theorem units_succ (fraction i : Nat) :
    units fraction (i + 1) = units fraction i + 2 ^ doublings fraction i := by
  obtain ⟨doubled, significand, rfl, lower, upper⟩ := exists_significand fraction i
  obtain ⟨unit, here⟩ := doublings_add lower upper
  rw [unit, here]
  rcases (show significand + 1 ≤ 2 ^ (fraction + 1) from upper).lt_or_eq with inside | last
  · have next := (doublings_add (lower.imp_right Nat.le_succ_of_le) inside).2
    rw [Nat.add_assoc, next, Nat.succ_mul]
  · -- the significand overflows into the exponent
    have carried : doubled * 2 ^ fraction + significand + 1 =
        (doubled + 1) * 2 ^ fraction + 2 ^ fraction := by
      rw [Nat.add_assoc, last, Nat.pow_succ]
      ring
    rw [carried, (doublings_add (.inr le_rfl) (Nat.pow_lt_pow_succ Nat.one_lt_two)).2,
      ← Nat.succ_mul, Nat.succ_eq_add_one, last, Nat.pow_succ, Nat.pow_succ]
    ring

theorem units_strictMono (fraction : Nat) : StrictMono (units fraction) := by
  apply strictMono_nat_of_lt_succ
  intro i
  rw [units_succ]
  exact Nat.lt_add_of_pos_right (Nat.two_pow_pos _)

@[simp] theorem units_zero : units fraction 0 = 0 := by
  have zero : units fraction (0 * 2 ^ fraction + 0) = 0 * 2 ^ 0 :=
    (doublings_add (.inl rfl) (Nat.two_pow_pos _)).2
  rwa [Nat.zero_mul, Nat.zero_mul] at zero

theorem units_of_le {i : Nat} (small : i ≤ 2 ^ (fraction + 1)) : units fraction i = i := by
  rcases small.lt_or_eq with inside | last
  · have here : units fraction (0 * 2 ^ fraction + i) = i * 2 ^ 0 :=
      (doublings_add (.inl rfl) inside).2
    rwa [Nat.zero_mul, Nat.zero_add, Nat.pow_zero, Nat.mul_one] at here
  · have here : units fraction (1 * 2 ^ fraction + 2 ^ fraction) = 2 ^ fraction * 2 ^ 1 :=
      (doublings_add (.inr le_rfl) (Nat.pow_lt_pow_succ Nat.one_lt_two)).2
    rw [Nat.one_mul, ← Nat.two_mul, ← Nat.pow_succ', Nat.pow_one, ← Nat.pow_succ] at here
    rw [last, here]

/-- The unit in the last place is small against the number, unless it is the least one. -/
theorem two_pow_doublings_le (fraction i : Nat) :
    doublings fraction i = 0 ∨ 2 ^ fraction * 2 ^ doublings fraction i ≤ units fraction i := by
  obtain ⟨doubled, significand, rfl, lower, upper⟩ := exists_significand fraction i
  obtain ⟨unit, here⟩ := doublings_add lower upper
  rw [unit, here]
  exact lower.imp_right (Nat.mul_le_mul_right _)

theorem indexOf_spec (fraction count : Nat) :
    units fraction (indexOf fraction count) ≤ count ∧
      count < units fraction (indexOf fraction count + 1) := by
  have above : count < 2 ^ (Nat.log 2 count + 1) := Nat.lt_pow_succ_log_self Nat.one_lt_two count
  unfold indexOf
  dsimp only
  generalize split : Nat.log 2 count - fraction = doubled at *
  have positive : 0 < 2 ^ doubled := Nat.two_pow_pos doubled
  have lower : doubled = 0 ∨ 2 ^ fraction ≤ count / 2 ^ doubled := by
    rcases Nat.eq_zero_or_pos doubled with none | some
    · exact .inl none
    · right
      have nonzero : count ≠ 0 := by
        rintro rfl
        rw [Nat.log_zero_right] at split
        omega
      rw [Nat.le_div_iff_mul_le positive, ← Nat.pow_add]
      have log : fraction + doubled = Nat.log 2 count := by omega
      rw [log]
      exact Nat.pow_log_le_self 2 nonzero
  have upper : count / 2 ^ doubled < 2 ^ (fraction + 1) := by
    rw [Nat.div_lt_iff_lt_mul positive, ← Nat.pow_add]
    exact above.trans_le (Nat.pow_le_pow_right Nat.two_pos (by omega))
  obtain ⟨unit, here⟩ := doublings_add lower upper
  rw [units_succ, unit, here]
  constructor
  · exact Nat.div_mul_le_self count (2 ^ doubled)
  · have divided := Nat.div_add_mod count (2 ^ doubled)
    have rest := Nat.mod_lt count positive
    rw [Nat.mul_comm]
    omega

end Units

/-- The numbers of a format without an upper bound. -/
def Format.grid (format : Format) : Grid where
  point i := units format.fraction i * 2 ^ format.least
  below x := indexOf format.fraction ⌊x / 2 ^ format.least⌋₊
  zero := by rw [units_zero, Nat.cast_zero, zero_mul]
  increasing := by
    intro i j less
    have positive : (0 : ℚ) < 2 ^ format.least := zpow_pos (by norm_num) _
    exact mul_lt_mul_of_pos_right (Nat.cast_lt.mpr (units_strictMono _ less)) positive
  below_le := by
    intro x nonneg
    have positive : (0 : ℚ) < 2 ^ format.least := zpow_pos (by norm_num) _
    obtain ⟨lower, _⟩ := indexOf_spec format.fraction ⌊x / 2 ^ format.least⌋₊
    rw [← le_div_iff₀ positive]
    exact (Nat.cast_le.mpr lower).trans (Nat.floor_le (div_nonneg nonneg positive.le))
  lt_above := by
    intro x _
    have positive : (0 : ℚ) < 2 ^ format.least := zpow_pos (by norm_num) _
    obtain ⟨_, upper⟩ := indexOf_spec format.fraction ⌊x / 2 ^ format.least⌋₊
    rw [← div_lt_iff₀ positive]
    exact Nat.lt_of_floor_lt upper

theorem Format.point_eq (format : Format) (i : Nat) :
    format.grid.point i = units format.fraction i * 2 ^ format.least := rfl

/-- A number of a format by its index, which has the sign of the number. -/
structure Binary (format : Format) where
  index : Int
  inside : index.natAbs ≤ format.top
deriving DecidableEq

namespace Binary
variable {format : Format}

theorem index_injective : Function.Injective (Binary.index : Binary format → Int) := by
  rintro ⟨i, _⟩ ⟨j, _⟩ rfl
  rfl

instance : LinearOrder (Binary format) := LinearOrder.lift' Binary.index index_injective

instance : Zero (Binary format) := ⟨⟨0, Nat.zero_le _⟩⟩

/-- The value, where infinity has that of the first number out of range. -/
def value (a : Binary format) : ℚ := a.index.sign * format.grid.point a.index.natAbs

def isInfinite (a : Binary format) : Bool := a.index.natAbs = format.top

/-- The infinity of a sign. -/
def signed (sign : Int) : Binary format :=
  ⟨sign.sign * format.top, by
    rw [Int.natAbs_mul, Int.natAbs_natCast, Int.natAbs_sign]
    split <;> omega⟩

/-- The nearest number, or infinity beyond the last one. -/
def round (x : ℚ) : Binary format :=
  if 0 ≤ x then ⟨(min (format.grid.nearest x) format.top : Nat), by omega⟩
  else ⟨-(min (format.grid.nearest (-x)) format.top : Nat), by omega⟩

instance : Neg (Binary format) := ⟨fun a => ⟨-a.index, by rw [Int.natAbs_neg]; exact a.inside⟩⟩

/-- Two infinities of different signs, the sum of which is not a number, give the first one. -/
instance : Add (Binary format) := ⟨fun a b =>
  if a.isInfinite then a else if b.isInfinite then b else round (a.value + b.value)⟩

instance : Sub (Binary format) := ⟨fun a b => a + -b⟩

/-- Zero times infinity, which is not a number, gives zero. -/
instance : Mul (Binary format) := ⟨fun a b =>
  if a.isInfinite ∨ b.isInfinite then signed (a.index.sign * b.index.sign)
  else round (a.value * b.value)⟩

/-- Two zeros or two infinities, the quotient of which is not a number, give zero. -/
instance : Div (Binary format) := ⟨fun a b =>
  if b.isInfinite then 0
  else if b.index = 0 then signed a.index
  else if a.isInfinite then signed (a.index.sign * b.index.sign)
  else round (a.value / b.value)⟩

instance : NatCast (Binary format) := ⟨fun n => round n⟩

theorem le_iff {a b : Binary format} : a ≤ b ↔ a.index ≤ b.index := Iff.rfl

theorem lt_iff {a b : Binary format} : a < b ↔ a.index < b.index := Iff.rfl

@[simp] theorem index_zero : (0 : Binary format).index = 0 := rfl

@[simp] theorem index_neg (a : Binary format) : (-a).index = -a.index := rfl

theorem isInfinite_iff {a : Binary format} : a.isInfinite = true ↔ a.index.natAbs = format.top :=
  decide_eq_true_iff

theorem value_of_nonneg {a : Binary format} (nonneg : 0 ≤ a.index) :
    a.value = format.grid.point a.index.toNat := by
  obtain ⟨i, same⟩ := Int.eq_ofNat_of_zero_le nonneg
  unfold value
  rw [same, Int.natAbs_natCast, Int.toNat_natCast]
  cases i with
  | zero => rw [format.grid.zero, mul_zero]
  | succ i => rw [Int.sign_natCast_of_ne_zero (Nat.succ_ne_zero i), Int.cast_one, one_mul]

@[simp] theorem value_neg (a : Binary format) : (-a).value = -a.value := by
  rw [value, value, index_neg, Int.natAbs_neg, Int.sign_neg, Int.cast_neg, neg_mul]

@[simp] theorem value_zero : (0 : Binary format).value = 0 := by
  rw [value_of_nonneg le_rfl]
  exact format.grid.zero

theorem value_strictMono : StrictMono (value : Binary format → ℚ) := by
  have natural {a b : Binary format} (nonneg : 0 ≤ a.index) (less : a.index < b.index) :
      a.value < b.value := by
    rw [value_of_nonneg nonneg, value_of_nonneg (nonneg.trans less.le)]
    exact format.grid.increasing (by omega)
  intro a b less
  rw [lt_iff] at less
  rcases le_or_gt 0 a.index with nonneg | negative
  · exact natural nonneg less
  rcases le_or_gt b.index 0 with nonpos | positive
  · have flipped := natural (a := -b) (b := -a) (by simpa using nonpos) (by simpa using less)
    rw [value_neg, value_neg] at flipped
    exact neg_lt_neg_iff.mp flipped
  · have below := natural (a := 0) (b := -a) le_rfl (by simpa using negative)
    have above := natural (a := 0) (b := b) le_rfl positive
    rw [value_zero] at below above
    rw [value_neg] at below
    linarith

theorem value_nonneg {a : Binary format} (nonneg : 0 ≤ a) : 0 ≤ a.value := by
  have ordered : (0 : Binary format).value ≤ a.value := value_strictMono.monotone nonneg
  rwa [value_zero] at ordered

theorem round_index {x : ℚ} (nonneg : 0 ≤ x) :
    (round x : Binary format).index = (min (format.grid.nearest x) format.top : Nat) := by
  rw [round, if_pos nonneg]

theorem round_nonneg {x : ℚ} (nonneg : 0 ≤ x) : 0 ≤ (round x : Binary format) := by
  rw [le_iff, round_index nonneg]
  exact Int.natCast_nonneg _

theorem round_index_of_neg {x : ℚ} (negative : x < 0) :
    (round x : Binary format).index = -(min (format.grid.nearest (-x)) format.top : Nat) := by
  rw [round, if_neg (not_le.mpr negative)]

@[simp] theorem round_neg (x : ℚ) : (round (-x) : Binary format) = -round x := by
  apply index_injective
  rw [index_neg]
  rcases lt_trichotomy 0 x with positive | rfl | negative
  · rw [round_index_of_neg (neg_lt_zero.mpr positive), round_index positive.le, neg_neg]
  · rw [neg_zero, round_index le_rfl, Grid.nearest_zero, Nat.zero_min, Nat.cast_zero, neg_zero]
  · rw [round_index (neg_nonneg.mpr negative.le), round_index_of_neg negative, neg_neg]

/-- Rounding keeps the numbers of the format. -/
@[simp] theorem round_value (a : Binary format) : round a.value = a := by
  have natural {a : Binary format} (nonneg : 0 ≤ a.index) : round a.value = a := by
    apply index_injective
    rw [round_index (value_nonneg nonneg), value_of_nonneg nonneg, Grid.nearest_point]
    have inside := a.inside
    omega
  rcases le_total 0 a.index with nonneg | nonpos
  · exact natural nonneg
  · have flipped := natural (a := -a) (by simpa using nonpos)
    rw [value_neg, round_neg] at flipped
    apply index_injective
    have indices := congrArg Binary.index flipped
    rw [index_neg, index_neg] at indices
    omega

theorem round_mono_nonneg {x y : ℚ} (nonneg : 0 ≤ x) (less : x ≤ y) :
    (round x : Binary format) ≤ round y := by
  rw [le_iff, round_index nonneg, round_index (nonneg.trans less)]
  have ordered := format.grid.nearest_mono nonneg less
  omega

end Binary
end Rounding
