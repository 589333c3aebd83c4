import Yurine.Library.BinaryFormat

/-! Errors of binary arithmetic. All numbers are whole multiples of the least one, so a sum that
is not exact is far above it, and its error is small relative to the sum. -/
namespace Rounding

namespace Format
variable {format : Format} {x : ℚ}

/-- The relative error of rounding to nearest. -/
def roundoff (format : Format) : ℚ := 1 / 2 ^ (format.fraction + 1)

theorem roundoff_pos (format : Format) : 0 < format.roundoff := by
  unfold roundoff
  positivity

/-- The gap above a number is the least one, or small against the number. -/
theorem gap_le (format : Format) (i : Nat) :
    format.grid.point (i + 1) - format.grid.point i = 2 ^ format.least ∨
      (format.grid.point (i + 1) - format.grid.point i) / 2 ≤
        format.roundoff * format.grid.point i := by
  have positive : (0 : ℚ) < 2 ^ format.least := zpow_pos (by norm_num) _
  have gap : format.grid.point (i + 1) - format.grid.point i =
      2 ^ doublings format.fraction i * 2 ^ format.least := by
    rw [point_eq, point_eq, units_succ]
    push_cast
    ring
  rcases two_pow_doublings_le format.fraction i with none | small
  · rw [gap, none, pow_zero, one_mul]
    exact .inl rfl
  · right
    have cast : (2 : ℚ) ^ format.fraction * 2 ^ doublings format.fraction i ≤
        units format.fraction i := by exact_mod_cast small
    rw [gap, roundoff, div_le_iff₀ (by norm_num)]
    calc (2 : ℚ) ^ doublings format.fraction i * 2 ^ format.least
        = 1 / 2 ^ format.fraction * (2 ^ format.fraction * 2 ^ doublings format.fraction i *
            2 ^ format.least) := by field_simp
      _ ≤ 1 / 2 ^ format.fraction * (units format.fraction i * 2 ^ format.least) := by gcongr
      _ = 1 / 2 ^ (format.fraction + 1) * format.grid.point i * 2 := by
        rw [point_eq, pow_succ]
        field_simp

/-- The error of a whole number of units is relative to the smaller of it and its rounding. -/
theorem abs_round_sub_le_of_units (format : Format) {count : Nat} (whole : x = count * 2 ^ format.least) :
    |format.grid.round x - x| ≤ format.roundoff * x ∧
      |format.grid.round x - x| ≤ format.roundoff * format.grid.round x := by
  have positive : (0 : ℚ) < 2 ^ format.least := zpow_pos (by norm_num) _
  have nonneg : 0 ≤ x := by
    rw [whole]
    positivity
  have lower := format.grid.below_le x nonneg
  have half := format.grid.abs_round_sub_le_half nonneg
  rcases gap_le format (format.grid.below x) with least | small
  · -- the numbers on either side are neighbours among the multiples of the unit
    have exact_ : format.grid.point (format.grid.below x) = x := by
      have upper := format.grid.lt_above x nonneg
      rw [sub_eq_iff_eq_add'] at least
      rw [least] at upper
      rw [point_eq, whole] at lower upper ⊢
      have below := Nat.cast_le.mp (le_of_mul_le_mul_right lower positive)
      rw [← add_one_mul] at upper
      have above := lt_of_mul_lt_mul_right upper positive.le
      rw [← Nat.cast_succ, Nat.cast_lt] at above
      rw [Nat.le_antisymm below (Nat.lt_succ_iff.mp above)]
    have same : format.grid.round x = x := by rw [← exact_, Grid.round_point]
    rw [same, sub_self, abs_zero]
    have bound := mul_nonneg format.roundoff_pos.le nonneg
    exact ⟨bound, bound⟩
  · have rounded : format.grid.point (format.grid.below x) ≤ format.grid.round x := by
      apply format.grid.increasing.monotone
      rcases Grid.nearest_cases format.grid x with same | same <;> omega
    constructor
    · exact (half.trans small).trans (mul_le_mul_of_nonneg_left lower format.roundoff_pos.le)
    · exact (half.trans small).trans (mul_le_mul_of_nonneg_left rounded format.roundoff_pos.le)

/-- The error of any number is relative to it, or half of the least number. -/
theorem abs_round_sub_le (nonneg : 0 ≤ x) :
    |format.grid.round x - x| ≤ format.roundoff * x + 2 ^ format.least / 2 := by
  have positive : (0 : ℚ) < 2 ^ format.least := zpow_pos (by norm_num) _
  have lower := format.grid.below_le x nonneg
  have half := format.grid.abs_round_sub_le_half nonneg
  have relative := mul_nonneg format.roundoff_pos.le nonneg
  rcases gap_le format (format.grid.below x) with least | small
  · rw [least] at half
    linarith
  · have scaled := mul_le_mul_of_nonneg_left lower format.roundoff_pos.le
    linarith

end Format

namespace Binary
variable {format : Format} {a b : Binary format}

theorem exists_units (a : Binary format) : ∃ count : Int, a.value = count * 2 ^ format.least := by
  refine ⟨a.index.sign * units format.fraction a.index.natAbs, ?_⟩
  rw [value, Format.point_eq]
  push_cast
  ring

theorem exists_units_of_nonneg (nonneg : 0 ≤ a) :
    ∃ count : Nat, a.value = count * 2 ^ format.least :=
  ⟨_, value_of_nonneg nonneg⟩

theorem value_round_le {x : ℚ} (nonneg : 0 ≤ x) :
    (round x : Binary format).value ≤ format.grid.round x := by
  rw [value_of_nonneg (round_nonneg nonneg), round_index nonneg, Int.toNat_natCast]
  exact format.grid.increasing.monotone (Nat.min_le_left _ _)

theorem value_round {x : ℚ} (nonneg : 0 ≤ x)
    (finite : (round x : Binary format).index < format.top) :
    (round x : Binary format).value = format.grid.round x := by
  rw [round_index nonneg] at finite
  rw [value_of_nonneg (round_nonneg nonneg), round_index nonneg, Int.toNat_natCast, Grid.round]
  congr 1
  omega

theorem isInfinite_of_nonneg (nonneg : 0 ≤ a) : a.isInfinite = true ↔ a.index = format.top := by
  rw [isInfinite_iff]
  rw [le_iff, index_zero] at nonneg
  omega

theorem index_le_top (a : Binary format) : a.index ≤ format.top := by
  have inside := a.inside
  omega

theorem not_isInfinite_zero : (0 : Binary format).isInfinite ≠ true := by
  rw [ne_eq, isInfinite_of_nonneg le_rfl, index_zero]
  have positive := format.positive
  omega

theorem add_of_isInfinite_left (infinite : a.isInfinite = true) (b : Binary format) : a + b = a :=
  if_pos infinite

theorem add_of_isInfinite_right (finite : a.isInfinite ≠ true) (infinite : b.isInfinite = true) :
    a + b = b := (if_neg finite).trans (if_pos infinite)

theorem add_of_finite (first : a.isInfinite ≠ true) (second : b.isInfinite ≠ true) :
    a + b = round (a.value + b.value) := (if_neg first).trans (if_neg second)

theorem zero_add_eq (a : Binary format) : 0 + a = a := by
  by_cases infinite : a.isInfinite = true
  · exact add_of_isInfinite_right not_isInfinite_zero infinite
  · rw [add_of_finite not_isInfinite_zero infinite, value_zero, zero_add, round_value]

theorem add_zero_eq (a : Binary format) : a + 0 = a := by
  by_cases infinite : a.isInfinite = true
  · exact add_of_isInfinite_left infinite 0
  · rw [add_of_finite infinite not_isInfinite_zero, value_zero, add_zero, round_value]

theorem add_mono {c d : Binary format} (ha : 0 ≤ a) (hc : 0 ≤ c) (first : a ≤ b)
    (second : c ≤ d) : a + c ≤ b + d := by
  have top {e : Binary format} (nonneg : 0 ≤ e) (infinite : e.isInfinite = true)
      (x : Binary format) : x ≤ e := by
    rw [le_iff, (isInfinite_of_nonneg nonneg).mp infinite]
    exact index_le_top x
  by_cases left : b.isInfinite = true
  · rw [add_of_isInfinite_left left]
    exact top (ha.trans first) left _
  by_cases right : d.isInfinite = true
  · rw [add_of_isInfinite_right left right]
    exact top (hc.trans second) right _
  have finite {x y : Binary format} (nonneg : 0 ≤ x) (less : x ≤ y)
      (bounded : y.isInfinite ≠ true) : x.isInfinite ≠ true := by
    intro infinite
    exact bounded ((le_antisymm less (top nonneg infinite y)) ▸ infinite)
  rw [add_of_finite (finite ha first left) (finite hc second right), add_of_finite left right]
  apply round_mono_nonneg
  · exact add_nonneg (value_nonneg ha) (value_nonneg hc)
  · exact add_le_add (value_strictMono.monotone first) (value_strictMono.monotone second)

theorem sub_pos (less : a < b) : 0 < b - a := by
  have top := format.positive
  have between : a.index < b.index := lt_iff.mp less
  have upper := index_le_top b
  have lower := index_le_top (-a)
  rw [index_neg] at lower
  show 0 < b + -a
  rw [lt_iff, index_zero]
  by_cases left : b.isInfinite = true
  · rw [add_of_isInfinite_left left]
    rw [isInfinite_iff] at left
    omega
  by_cases right : (-a).isInfinite = true
  · rw [add_of_isInfinite_right left right]
    rw [isInfinite_iff, index_neg] at right
    rw [isInfinite_iff] at left
    rw [index_neg]
    omega
  have positive : (0 : ℚ) < 2 ^ format.least := zpow_pos (by norm_num) _
  obtain ⟨first, hb⟩ := exists_units b
  obtain ⟨second, ha⟩ := exists_units (-a)
  have order := value_strictMono less
  have apart : 0 < first + second := by
    have sum : 0 < b.value + (-a).value := by
      rw [value_neg]
      linarith
    rw [hb, ha, ← add_mul] at sum
    exact_mod_cast pos_of_mul_pos_left sum positive.le
  have unit : format.grid.point 1 ≤ b.value + (-a).value := by
    rw [hb, ha, ← add_mul]
    have one : units format.fraction 1 = 1 := units_of_le (Nat.one_le_two_pow)
    have least : format.grid.point 1 = 1 * 2 ^ format.least := by
      rw [Format.point_eq, one, Nat.cast_one]
    rw [least]
    have whole : (1 : ℚ) ≤ first + second := by exact_mod_cast apart
    exact mul_le_mul_of_nonneg_right whole positive.le
  have nearest := format.grid.nearest_mono (Grid.point_nonneg 1) unit
  rw [Grid.nearest_point] at nearest
  rw [add_of_finite left right, round_index ((Grid.point_nonneg 1).trans unit)]
  omega

section Errors

/-- A sum is at most a little above the exact one. -/
theorem value_add_le (ha : 0 ≤ a) (hb : 0 ≤ b) :
    (a + b).value ≤ (1 + format.roundoff) * (a.value + b.value) := by
  have first := value_nonneg ha
  have second := value_nonneg hb
  have unit := mul_nonneg format.roundoff_pos.le (add_nonneg first second)
  by_cases left : a.isInfinite = true
  · rw [add_of_isInfinite_left left]
    linarith
  by_cases right : b.isInfinite = true
  · rw [add_of_isInfinite_right left right]
    linarith
  obtain ⟨m, hm⟩ := exists_units_of_nonneg ha
  obtain ⟨n, hn⟩ := exists_units_of_nonneg hb
  have whole : a.value + b.value = (m + n : Nat) * 2 ^ format.least := by
    rw [hm, hn, Nat.cast_add, add_mul]
  have error := (format.abs_round_sub_le_of_units whole).1
  rw [add_of_finite left right]
  have rounded : (round (a.value + b.value) : Binary format).value ≤ _ :=
    value_round_le (add_nonneg first second)
  have above := (abs_le.mp error).2
  linarith

theorem le_value_add (ha : 0 ≤ a) (hb : 0 ≤ b) (finite : (a + b).index < format.top) :
    a.value + b.value ≤ (1 + format.roundoff) * (a + b).value := by
  have first := value_nonneg ha
  have second := value_nonneg hb
  have left : a.isInfinite ≠ true := by
    intro infinite
    rw [add_of_isInfinite_left infinite, (isInfinite_of_nonneg ha).mp infinite] at finite
    exact lt_irrefl _ finite
  have right : b.isInfinite ≠ true := by
    intro infinite
    rw [add_of_isInfinite_right left infinite, (isInfinite_of_nonneg hb).mp infinite] at finite
    exact lt_irrefl _ finite
  obtain ⟨m, hm⟩ := exists_units_of_nonneg ha
  obtain ⟨n, hn⟩ := exists_units_of_nonneg hb
  have whole : a.value + b.value = (m + n : Nat) * 2 ^ format.least := by
    rw [hm, hn, Nat.cast_add, add_mul]
  have error := (format.abs_round_sub_le_of_units whole).2
  rw [add_of_finite left right] at finite ⊢
  rw [value_round (add_nonneg first second) finite]
  have below := (abs_le.mp error).1
  linarith

/-- The difference of finite numbers is the rounded one, and not above the first. -/
theorem sub_of_lt (hb : 0 ≤ b) (less : b < a) (finite : a.index < format.top) :
    a - b = round (a.value - b.value) ∧ a - b ≤ a := by
  have order := value_strictMono less
  have nonneg := value_nonneg hb
  have between := lt_iff.mp less
  rw [le_iff, index_zero] at hb
  have left : a.isInfinite ≠ true := by
    rw [ne_eq, isInfinite_iff]
    omega
  have right : (-b).isInfinite ≠ true := by
    rw [ne_eq, isInfinite_iff, index_neg]
    omega
  have difference : a - b = round (a.value - b.value) := by
    show a + -b = _
    rw [add_of_finite left right, value_neg, sub_eq_add_neg]
  have small : (round (a.value - b.value) : Binary format) ≤ round a.value :=
    round_mono_nonneg (sub_nonneg.mpr order.le) (sub_le_self a.value nonneg)
  rw [round_value] at small
  exact ⟨difference, difference ▸ small⟩

theorem le_value_sub (hb : 0 ≤ b) (less : b < a) (finite : a.index < format.top) :
    a.value - b.value ≤ (1 + format.roundoff) * (a - b).value := by
  obtain ⟨difference, small⟩ := sub_of_lt hb less finite
  have order := value_strictMono less
  obtain ⟨m, hm⟩ := exists_units a
  obtain ⟨n, hn⟩ := exists_units b
  have unit : (0 : ℚ) < 2 ^ format.least := zpow_pos (by norm_num) _
  have apart : n ≤ m := by
    rw [hm, hn] at order
    exact_mod_cast (lt_of_mul_lt_mul_right order unit.le).le
  obtain ⟨count, same⟩ := Int.eq_ofNat_of_zero_le (sub_nonneg.mpr apart)
  have exact_ : a.value - b.value = count * 2 ^ format.least := by
    have cast : (m : ℚ) - n = count := by exact_mod_cast same
    rw [hm, hn, ← sub_mul, cast]
  have error := (format.abs_round_sub_le_of_units exact_).2
  rw [difference] at small ⊢
  rw [value_round (sub_nonneg.mpr order.le) ((le_iff.mp small).trans_lt finite)]
  have below := (abs_le.mp error).1
  linarith

end Errors
end Binary
end Rounding
