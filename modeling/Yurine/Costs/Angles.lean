import Yurine.Costs.Cosine
import Mathlib.Analysis.SpecialFunctions.Sqrt

/-! The angles between inserted vectors. A cost that is computed from stored rows is told against
the cosine of the vectors that were inserted, as real numbers: normalization and the dot product
together are off by little more than a unit in the last place for each element. -/
namespace Yurine
open Outcome Rounding Binary Lanes EmbeddingStoreBuilder

section Angles
variable {source target : List U32}

/-- The dot product of the portions of two vectors. -/
def portionsDot (source target : List U32) : ℚ :=
  ((source.zip target).map fun pair => portion source pair.1 * portion target pair.2).sum

theorem sum_zip_left {α β : Type} {xs : List α} {ys : List β} (same : xs.length = ys.length)
    (f : α → ℚ) : ((xs.zip ys).map fun pair => f pair.1).sum = (xs.map f).sum := by
  have plain : (xs.zip ys).map Prod.fst = xs := List.map_fst_zip same.le
  have firsts := congrArg (List.map f) plain
  rw [List.map_map] at firsts
  exact congrArg List.sum firsts

theorem sum_zip_right {α β : Type} {xs : List α} {ys : List β} (same : xs.length = ys.length)
    (f : β → ℚ) : ((xs.zip ys).map fun pair => f pair.2).sum = (ys.map f).sum := by
  have plain : (xs.zip ys).map Prod.snd = ys := List.map_snd_zip same.ge
  have seconds := congrArg (List.map f) plain
  rw [List.map_map] at seconds
  exact congrArg List.sum seconds

/-- Stored vectors have the dot product of their portions up to the errors of the elements. -/
theorem exactDot_normalize (first : Proper source) (second : Proper target)
    (same : source.length = target.length) :
    |exactDot (normalize scaleElement source) (normalize scaleElement target) -
      portionsDot source target| ≤ drift * (2 + drift) *
        (((source.map fun value => portion source value ^ 2).sum +
          (target.map fun value => portion target value ^ 2).sum) / 2) +
      source.length * (6 * 2 ^ single.least) := by
  have tiny : (2 : ℚ) ^ single.least ≤ 1 := zpow_le_one_of_nonpos₀ (by norm_num) (by decide)
  have unit := single.least_pos
  have near : ∀ pair ∈ source.zip target,
      |element (scaleElement source pair.1) * element (scaleElement target pair.2) -
        portion source pair.1 * portion target pair.2| ≤
      drift * (2 + drift) * ((portion source pair.1 ^ 2 + portion target pair.2 ^ 2) / 2) +
        6 * 2 ^ single.least := by
    intro pair mem
    obtain ⟨left, right⟩ := List.of_mem_zip mem
    have error := (element_scaleElement first left).2
    have other := (element_scaleElement second right).2
    have part := abs_portion_le first left
    have share := abs_portion_le second right
    generalize element (scaleElement source pair.1) = y at *
    generalize element (scaleElement target pair.2) = z at *
    generalize portion source pair.1 = t at *
    generalize portion target pair.2 = s at *
    have split : y * z - t * s = (y - t) * z + t * (z - s) := by ring
    have bound := abs_sub_abs_le_abs_sub z s
    have size : |z| ≤ (1 + drift) * |s| + 2 ^ single.least := by linarith
    rw [split]
    apply (abs_add_le _ _).trans
    rw [abs_mul, abs_mul]
    have one := mul_le_mul error size (abs_nonneg _) (by rw [drift]; positivity)
    have two := mul_le_mul_of_nonneg_left other (abs_nonneg t)
    have square := two_mul_le_add_sq |t| |s|
    rw [sq_abs, sq_abs] at square
    have ht := abs_nonneg t
    have hs := abs_nonneg s
    rw [drift] at *
    generalize (2 : ℚ) ^ single.least = η at *
    have mixed : η * |t| ≤ 2 * η := by nlinarith
    have other_mixed : η * |s| ≤ 2 * η := by nlinarith
    have tiny_square : η * η ≤ η := by nlinarith
    nlinarith
  have sums := abs_sum_sub_le near
  rw [List.sum_map_add, List.sum_map_mul_left, List.map_const', List.sum_replicate, nsmul_eq_mul,
    List.length_zip, ← same, Nat.min_self] at sums
  have halves : ((source.zip target).map fun pair =>
      (portion source pair.1 ^ 2 + portion target pair.2 ^ 2) / 2).sum =
        ((source.map fun value => portion source value ^ 2).sum +
          (target.map fun value => portion target value ^ 2).sum) / 2 := by
    simp only [div_eq_mul_inv]
    rw [List.sum_map_mul_right, List.sum_map_add, sum_zip_left same fun value => portion source value ^ 2,
      sum_zip_right same fun value => portion target value ^ 2]
  have stored : exactDot (normalize scaleElement source) (normalize scaleElement target) =
      ((source.zip target).map fun pair =>
        element (scaleElement source pair.1) * element (scaleElement target pair.2)).sum := by
    rw [exactDot, normalize, normalize, List.zip_map, List.map_map]
    rfl
  rw [stored, portionsDot, ← halves]
  exact sums

/-- The cosine of the angle between two vectors. -/
noncomputable def cosine (source target : List U32) : ℝ :=
  exactDot source target / (√(exactNorm source) * √(exactNorm target))

theorem root_portions (proper : Proper source) : 0 < (vectorNorm source).value ∧
    √(exactNorm source : ℝ) = (vectorNorm source).value *
      √((source.map fun value => portion source value ^ 2).sum : ℚ) := by
  obtain ⟨positive, _, _, _⟩ := norm_spec proper
  have root : 0 < (vectorNorm source).value := by
    have order := value_strictMono positive
    rwa [value_zero] at order
  refine ⟨root, ?_⟩
  have total : exactNorm source = (vectorNorm source).value ^ 2 *
      (source.map fun value => portion source value ^ 2).sum := by
    rw [← List.sum_map_mul_left, exactNorm]
    congr 1
    apply List.map_congr_left
    intro value _
    rw [portion, div_pow, mul_div_cancel₀ _ (pow_pos root 2).ne']
  rw [total, Rat.cast_mul, Real.sqrt_mul (by positivity), Rat.cast_pow, Real.sqrt_sq]
  exact_mod_cast root.le

theorem cosine_eq (first : Proper source) (second : Proper target) :
    cosine source target = portionsDot source target /
      (√((source.map fun value => portion source value ^ 2).sum : ℚ) *
        √((target.map fun value => portion target value ^ 2).sum : ℚ)) := by
  obtain ⟨left, root⟩ := root_portions first
  obtain ⟨right, other⟩ := root_portions second
  have dots : exactDot source target =
      (vectorNorm source).value * (vectorNorm target).value * portionsDot source target := by
    rw [portionsDot, ← List.sum_map_mul_left, exactDot]
    congr 1
    apply List.map_congr_left
    intro pair _
    rw [portion, portion]
    field_simp
  have hl : ((vectorNorm source).value : ℝ) ≠ 0 := by exact_mod_cast left.ne'
  have hr : ((vectorNorm target).value : ℝ) ≠ 0 := by exact_mod_cast right.ne'
  rw [cosine, root, other, dots]
  push_cast
  rw [mul_mul_mul_comm, mul_div_mul_left _ _ (mul_ne_zero hl hr)]

theorem root_near {t s δ : ℝ} (first : |t - 1| ≤ δ) (second : |s - 1| ≤ δ) (small : δ ≤ 1 / 2 ^ 10) :
    |√t * √s - 1| ≤ δ := by
  have left := abs_le.mp first
  have right := abs_le.mp second
  rw [← Real.sqrt_mul (by linarith), abs_le]
  constructor
  · rw [neg_le_sub_iff_le_add, ← sub_le_iff_le_add]
    apply Real.le_sqrt_of_sq_le
    nlinarith
  · rw [sub_le_iff_le_add']
    apply Real.sqrt_le_iff.mpr
    constructor <;> nlinarith

theorem ratio_near {p t s δ : ℝ} (bound : |p| ≤ (t + s) / 2) (first : |t - 1| ≤ δ)
    (second : |s - 1| ≤ δ) (small : δ ≤ 1 / 2 ^ 10) : |p - p / (√t * √s)| ≤ 2 * δ := by
  have root := root_near first second small
  have left := abs_le.mp first
  have right := abs_le.mp second
  have sides := abs_le.mp root
  generalize √t * √s = r at *
  have positive : 0 < r := by linarith
  have difference : p - p / r = p * (r - 1) / r := by
    field_simp
  rw [difference, abs_div, abs_mul, abs_of_pos positive, div_le_iff₀ positive]
  have size : |p| ≤ 1 + δ := by linarith
  have product := mul_le_mul size root (abs_nonneg _) (by linarith)
  nlinarith

/-- Stored vectors have the cosine of the vectors they come from. -/
theorem exactDot_near_cosine (first : Proper source) (second : Proper target)
    (same : source.length = target.length) :
    |(exactDot (normalize scaleElement source) (normalize scaleElement target) : ℝ) -
      cosine source target| ≤ source.length / 2 ^ 48 + 33 / 32 / 2 ^ 23 := by
  have dot := exactDot_normalize first second same
  have left := portions_near first
  have right := portions_near second
  have bound : |portionsDot source target| ≤ _ :=
    abs_sum_mul_le same (portion source) (portion target)
  have some : (1 : ℚ) ≤ source.length := by
    have nonempty : source ≠ [] := by
      rintro rfl
      cases first.nonzero
    exact_mod_cast List.length_pos_iff.mpr nonempty
  have unit := single.least_pos
  have tiny : (2 : ℚ) ^ single.least ≤ 1 / 2 ^ 100 := by
    rw [one_div, ← zpow_natCast, ← zpow_neg]
    exact zpow_le_zpow_right₀ (by norm_num) (by decide)
  have spread : 2 * normError source.length + 1 / 2 ^ 51 ≤ source.length / 2 ^ 50 := by
    have roundoff : double.roundoff = 1 / 2 ^ 53 := rfl
    rw [normError, roundoff]
    linarith
  have close : (source.length : ℚ) / 2 ^ 50 ≤ 1 / 2 ^ 18 := by
    have count : (source.length : ℚ) ≤ 2 ^ 32 := by exact_mod_cast first.few
    linarith
  rw [← same] at right
  rw [cosine_eq first second, ← Rat.cast_natCast]
  generalize (source.map fun value => portion source value ^ 2).sum = t at *
  generalize (target.map fun value => portion target value ^ 2).sum = s at *
  generalize portionsDot source target = p at *
  generalize exactDot (normalize scaleElement source) (normalize scaleElement target) = d at *
  generalize (2 : ℚ) ^ single.least = η at *
  have first_near := left.trans spread
  have second_near := right.trans spread
  generalize (source.length : ℚ) = n at *
  have rounded : |d - p| ≤ n / 2 ^ 90 + 33 / 32 / 2 ^ 23 := by
    apply dot.trans
    have one := abs_le.mp first_near
    have two := abs_le.mp second_near
    have half : (t + s) / 2 ≤ 1 + 1 / 2 ^ 18 := by linarith
    have product := mul_le_mul_of_nonneg_left half (show 0 ≤ drift * (2 + drift) by
      rw [drift]
      positivity)
    have rest := mul_le_mul_of_nonneg_left tiny (show (0 : ℚ) ≤ n * 6 by linarith)
    rw [drift] at product ⊢
    linarith
  have exact_ : |(p : ℝ) - p / (√(t : ℝ) * √(s : ℝ))| ≤ 2 * ((n / 2 ^ 50 : ℚ) : ℝ) := by
    apply ratio_near (by exact_mod_cast bound) (by exact_mod_cast first_near)
      (by exact_mod_cast second_near)
    have cast : ((n / 2 ^ 50 : ℚ) : ℝ) ≤ ((1 / 2 ^ 18 : ℚ) : ℝ) := Rat.cast_le.mpr close
    push_cast at cast ⊢
    linarith
  have cast : |(d : ℝ) - p| ≤ ((n / 2 ^ 90 + 33 / 32 / 2 ^ 23 : ℚ) : ℝ) := by
    exact_mod_cast rounded
  have parts := abs_sub_le (d : ℝ) p (p / (√(t : ℝ) * √(s : ℝ)))
  have whole : (1 : ℝ) ≤ n := by exact_mod_cast some
  push_cast at exact_ cast
  linarith

theorem cast_cut (x : ℚ) : ((cut x : ℚ) : ℝ) = cut (x : ℝ) := by
  rw [cut, cut, Rat.cast_max, Rat.cast_min, Rat.cast_zero, Rat.cast_one]

/-- The cost of two inserted vectors is the distance of their cosine from one, cut off at zero and
one, up to so many times the distance of one and the next number. -/
theorem cosineCost_normalize (first : Proper source) (second : Proper target)
    (same : source.length = target.length) (few : source.length ≤ 2 ^ 22) :
    |((cosineCost (normalize scaleElement source) (normalize scaleElement target)).get.value : ℝ) -
      cut (1 - cosine source target)| ≤ (source.length + 2) / 2 ^ 23 := by
  have lengths (row : List U32) : (normalize scaleElement row).length = row.length :=
    List.length_map _
  have cost := cosineCost_near (validateEmbedding_normalize first)
    (validateEmbedding_normalize second) (by rw [lengths, lengths, same]) (by rwa [lengths])
  have dot := exactDot_near_cosine first second same
  rw [lengths] at cost
  have some : (1 : ℝ) ≤ source.length := by
    have nonempty : source ≠ [] := by
      rintro rfl
      cases first.nonzero
    exact_mod_cast List.length_pos_iff.mpr nonempty
  generalize exactDot (normalize scaleElement source) (normalize scaleElement target) = d at *
  generalize (cosineCost _ _).get.value = c at *
  have cast : |(c : ℝ) - (cut (1 - d) : ℚ)| ≤
      ((source.length * (7 / 8 / 2 ^ 23) + 33 / 32 / 2 ^ 23 : ℚ) : ℝ) := by
    exact_mod_cast cost
  rw [cast_cut] at cast
  push_cast at cast
  have cuts := abs_cut_sub_le (1 - (d : ℝ)) (1 - cosine source target)
  rw [sub_sub_sub_cancel_left, abs_sub_comm (cosine source target)] at cuts
  have parts := abs_sub_le (c : ℝ) (cut (1 - (d : ℝ))) (cut (1 - cosine source target))
  linarith

end Angles

/-- Whatever is inserted, the cost of two different tokens is told from the vectors of their last
accepted calls, in either order: it is near the distance of their cosine from one, or it is the
cost for missing vectors. -/
theorem cosineCosts_near {T : Type} [DecidableEq T] (dimension : NonZero)
    (few : dimension.val ≤ 2 ^ 22) (calls : List (T × List U32))
    (deletion insertion missing : CostBits) :
    let run := (new dimension : EmbeddingStoreBuilder T).insertEach calls
    let vector := fun token => (acceptedVectors calls run.1 token).getLast?
    let policy := CosineEmbeddingCosts.policy ⟨run.2.build, deletion, insertion, missing⟩
    ∀ source target, policy.substitution source target = policy.substitution target source ∧
      policy.substitution source source = Cost.zero ∧
      (source ≠ target → vector source = none → policy.substitution source target = missing.cost) ∧
      ∀ x z, source ≠ target → vector source = some x → vector target = some z →
        |((policy.substitution source target).get.value : ℝ) - cut (1 - cosine x z)| ≤
          (dimension.val + 2) / 2 ^ 23 := by
  intro run vector policy source target
  have short : dimension.val < 2 ^ 32 := few.trans_lt (by decide)
  obtain ⟨_, gets⟩ := built_spec dimension short calls
  have charges (apart : source ≠ target) : policy.substitution source target =
      substitutionCost missing.cost ((vector source).map (normalize scaleElement))
        ((vector target).map (normalize scaleElement)) := by
    rw [← gets source, ← gets target]
    exact if_neg apart
  refine ⟨CosineEmbeddingCosts.substitution_comm _ source target, if_pos rfl, ?_, ?_⟩
  · intro apart none
    rw [charges apart, none]
    rfl
  · intro x z apart first second
    obtain ⟨length, proper⟩ := proper_accepted dimension short calls source x
      (List.mem_of_getLast? first)
    obtain ⟨size, other⟩ := proper_accepted dimension short calls target z
      (List.mem_of_getLast? second)
    rw [charges apart, first, second, ← length]
    exact cosineCost_normalize proper other (length.trans size.symm) (length.trans_le few)

/-- Two vectors of two elements. -/
theorem cosineCosts_near_pair : (2 : Nat) ≤ 2 ^ 22 ∧
    |((CosineEmbeddingCosts.policy ⟨((new ⟨2, by decide⟩ : EmbeddingStoreBuilder Nat).insertEach
      [(0, [0x40400000, 0x40800000]), (1, [0x3f800000, 0])]).2.build, .one, .one,
        .one⟩).substitution 0 1).get.value -
      cut (1 - cosine [0x40400000, 0x40800000] [0x3f800000, 0])| ≤ ((2 : Nat) + 2) / 2 ^ 23 :=
  ⟨by decide, (cosineCosts_near ⟨2, by decide⟩ (by decide)
    [(0, [0x40400000, 0x40800000]), (1, [0x3f800000, 0])] .one .one .one 0 1).2.2.2
      [0x40400000, 0x40800000] [0x3f800000, 0] (by decide) (by decide +kernel)
      (by decide +kernel)⟩

end Yurine
