import Yurine.Costs.DotProduct
import Yurine.Costs.Normalization
import Yurine.Library.LaneSums

/-! Cosine costs in floating point. The dot product of two stored vectors is accumulated in
single precision, lane by lane; the cost of a substitution is its distance from one. -/
namespace Yurine
open Outcome Rounding Binary Lanes

/-- `dot_product` with its roundings. -/
def Single.dotProduct (source target : List Single) : Single :=
  let accumulators := ((chunks lanes source).zip (chunks lanes target)).foldl
    (fun accumulators pair =>
      addLanes accumulators fun lane => pair.1.get lane * pair.2.get lane)
    (Vector.replicate lanes 0)
  let product := sumInOrder accumulators.toList
  ((remainder lanes source).zip (remainder lanes target)).foldl
    (fun product pair => product + pair.1 * pair.2) product

/-- The product of two elements without rounding. -/
def exactProduct (a b : Single) : ℚ := Binary.value a * Binary.value b

/-- The magnitude of a product, with room for the error near zero. -/
def productSize (a b : Single) : ℚ := |exactProduct a b| + single.normal

/-- Neither order of two vectors is rounded differently. -/
theorem dotProduct_comm (source target : List Single) :
    Single.dotProduct source target = Single.dotProduct target source := by
  have chunk (accumulators : Vector Single lanes) (pair : Vector Single lanes × Vector Single lanes) :
      addLanes accumulators (fun lane => pair.2.get lane * pair.1.get lane) =
        addLanes accumulators fun lane => pair.1.get lane * pair.2.get lane := by
    congr 1
    funext lane
    exact mul_comm_eq _ _
  have element (product : Single) (pair : Single × Single) :
      product + pair.2 * pair.1 = product + pair.1 * pair.2 :=
    congrArg (product + ·) (mul_comm_eq _ _)
  unfold Single.dotProduct
  rw [← List.zip_swap (chunks lanes target), ← List.zip_swap (remainder lanes target),
    List.foldl_map, List.foldl_map]
  simp only [Prod.fst_swap, Prod.snd_swap, chunk, element]

section Product
variable {source target : List Single}

/-- A product of elements goes through no more roundings than there are elements. -/
theorem accumulates_dotProduct (same : source.length = target.length)
    (first : ∀ a ∈ source, a.isInfinite ≠ true ∧ |Binary.value a| ≤ 2)
    (second : ∀ b ∈ target, b.isInfinite ≠ true ∧ |Binary.value b| ≤ 2)
    (small : (1 + single.roundoff) ^ (source.length + 2) *
      (List.zipWith productSize source target).sum ≤ single.limit) :
    Accumulates source.length (Single.dotProduct source target)
      (List.zipWith exactProduct source target).sum
      (List.zipWith productSize source target).sum := by
  have each (a b : Single) (left : a ∈ source) (right : b ∈ target) :
      Accumulates 1 (a * b) (exactProduct a b) (productSize a b) := by
    apply Accumulates.mul (first a left).1 (second b right).1
    rw [abs_mul, single_limit]
    have less := mul_le_mul (first a left).2 (second b right).2 (abs_nonneg _) (by norm_num)
    exact less.trans (by norm_num)
  have chunked : ∀ pair ∈ (chunks lanes source).zip (chunks lanes target), ∀ lane : Fin lanes,
      Accumulates 1 (pair.1[lane] * pair.2[lane]) (exactProduct pair.1[lane] pair.2[lane])
        (productSize pair.1[lane] pair.2[lane]) := by
    intro pair mem lane
    obtain ⟨left, right⟩ := List.of_mem_zip mem
    exact each _ _ (mem_of_mem_chunks left lane) (mem_of_mem_chunks right lane)
  have others : ∀ pair ∈ (remainder lanes source).zip (remainder lanes target),
      Accumulates 1 (pair.1 * pair.2) (exactProduct pair.1 pair.2)
        (productSize pair.1 pair.2) := by
    intro pair mem
    obtain ⟨left, right⟩ := List.of_mem_zip mem
    exact each _ _ (List.mem_of_mem_drop left) (List.mem_of_mem_drop right)
  have split (g : Single → Single → ℚ) : (((chunks lanes source).zip (chunks lanes target)).map
      fun pair => ∑ lane : Fin lanes, g pair.1[lane] pair.2[lane]).sum +
        (((remainder lanes source).zip (remainder lanes target)).map
          fun pair => g pair.1 pair.2).sum = (List.zipWith g source target).sum := by
    have paired : ((remainder lanes source).zip (remainder lanes target)).map
        (fun pair => g pair.1 pair.2) =
          List.zipWith g (remainder lanes source) (remainder lanes target) :=
      List.map_zip_eq_zipWith
    rw [← sum_chunks_remainder lanes g source target same, paired]
  have sizes := split productSize
  have rest := Accumulates.sum_nonneg others
  have length : ((chunks lanes source).zip (chunks lanes target)).length = source.length / 16 := by
    rw [List.length_zip, length_chunks, length_chunks, ← same, Nat.min_self]
    rfl
  have left_over : ((remainder lanes source).zip (remainder lanes target)).length =
      source.length - source.length / 16 * 16 := by
    rw [List.length_zip, remainder, remainder, List.length_drop, List.length_drop, ← same,
      Nat.min_self]
    rfl
  have whole := Nat.div_mul_le_self source.length 16
  have product : Single.dotProduct source target =
      ((remainder lanes source).zip (remainder lanes target)).foldl
        (fun product pair => product + pair.1 * pair.2)
        (sumLanes ((chunks lanes source).zip (chunks lanes target))
          fun pair lane => pair.1[lane] * pair.2[lane]) := rfl
  have positive (m : Nat) : 0 ≤ (1 + single.roundoff) ^ m :=
    zero_le_one.trans (one_le_growth single m)
  rw [← split exactProduct, ← sizes, product]
  rw [← sizes] at small
  generalize (chunks lanes source).zip (chunks lanes target) = pairs at *
  generalize (remainder lanes source).zip (remainder lanes target) = last at *
  cases pairs with
  | nil =>
    -- there are the elements of the remainder only
    rw [List.length_nil] at length
    rw [List.map_nil, List.sum_nil, zero_add] at small ⊢
    rw [List.map_nil, List.sum_nil, zero_add, sumLanes_nil]
    have total := Accumulates.sum others (by
      apply le_trans _ small
      exact mul_le_mul_of_nonneg_right (growth_mono single (by omega)) rest)
    exact total.mono (by omega)
  | cons pair pairs =>
    rw [List.length_cons] at length
    have chunk_sizes : 0 ≤ ((pair :: pairs).map fun pair =>
        ∑ lane : Fin lanes, productSize pair.1[lane] pair.2[lane]).sum := by
      apply List.sum_nonneg
      intro x mem
      obtain ⟨listed, there, rfl⟩ := List.mem_map.mp mem
      exact Finset.sum_nonneg fun lane _ => (chunked listed there lane).nonneg
    have accumulated := Accumulates.sumLanes chunked (by
      apply le_trans _ small
      rw [List.length_cons]
      have fewer : 1 + (pairs.length + 1) + lanes ≤ source.length + 2 := by
        show 1 + (pairs.length + 1) + 16 ≤ source.length + 2
        omega
      exact mul_le_mul (growth_mono single fewer) (le_add_of_nonneg_right rest) chunk_sizes
        (positive _))
    have more : (pair :: pairs).length + lanes - 1 + last.length ≤ source.length := by
      show pairs.length + 1 + 16 - 1 + last.length ≤ source.length
      omega
    have total := accumulated.foldl (by show 1 ≤ pairs.length + 1 + 16 - 1; omega) others (by
      apply le_trans _ small
      exact mul_le_mul_of_nonneg_right (growth_mono single (by omega))
        (add_nonneg chunk_sizes rest))
    exact total.mono more

end Product

def elements (row : List U32) : List Single := row.map Single.ofBits

/-- The dot product of two rows without rounding. -/
def exactDot (source target : List U32) : ℚ :=
  ((source.zip target).map fun pair => element pair.1 * element pair.2).sum

theorem exactDot_eq (source target : List U32) : exactDot source target =
    (List.zipWith exactProduct (elements source) (elements target)).sum := by
  rw [exactDot, elements, elements, List.zipWith_map, List.map_zip_eq_zipWith]
  rfl

section Rows
variable {source target : List U32}

theorem element_le_two {row : List U32} (valid : validateEmbedding row = .ok ⟨⟩)
    (few : row.length ≤ 2 ^ 32) :
    ∀ a ∈ elements row, a.isInfinite ≠ true ∧ |Binary.value a| ≤ 2 := by
  obtain ⟨finite, one⟩ := exactNorm_of_valid valid few
  intro a mem
  obtain ⟨value, listed, rfl⟩ := List.mem_map.mp mem
  refine ⟨(Single.ofBits_of_finite (finite value listed)).1, ?_⟩
  have part := sq_le_exactNorm listed
  have sides := abs_le.mp one
  apply abs_le_of_sq_le_sq _ (by norm_num)
  rw [element] at part
  linarith

theorem productSize_nonneg (a b : Single) : 0 ≤ productSize a b :=
  add_nonneg (abs_nonneg _) single.normal_pos.le

theorem productSize_le (value other : U32) :
    productSize (Single.ofBits value) (Single.ofBits other) ≤
      (element value ^ 2 + element other ^ 2) / 2 + single.normal := by
  have parts := two_mul_le_add_sq |element value| |element other|
  rw [sq_abs, sq_abs] at parts
  rw [productSize, exactProduct, abs_mul]
  simp only [element] at parts ⊢
  linarith

theorem sum_productSize_le (same : source.length = target.length) :
    0 ≤ (List.zipWith productSize (elements source) (elements target)).sum ∧
    (List.zipWith productSize (elements source) (elements target)).sum ≤
      (exactNorm source + exactNorm target) / 2 + source.length * single.normal := by
  induction source generalizing target with
  | nil =>
    cases target with
    | nil => exact ⟨le_rfl, by simp [exactNorm, elements]⟩
    | cons other target => cases same
  | cons value source ih =>
    cases target with
    | nil => cases same
    | cons other target =>
      obtain ⟨nonneg, rest⟩ := ih (Nat.succ.inj same)
      have here := productSize_nonneg (Single.ofBits value) (Single.ofBits other)
      have size := productSize_le value other
      have norms (row : List U32) (value : U32) :
          exactNorm (value :: row) = element value ^ 2 + exactNorm row := List.sum_cons
      have sums : (List.zipWith productSize (elements (value :: source))
          (elements (other :: target))).sum = productSize (Single.ofBits value) (Single.ofBits other) +
            (List.zipWith productSize (elements source) (elements target)).sum := List.sum_cons
      rw [norms, norms, sums, List.length_cons, Nat.cast_succ]
      generalize single.normal = room at *
      constructor
      · exact add_nonneg here nonneg
      · linarith

/-- The error of a dot product of stored rows, in units of the distance of one and the next
number. -/
theorem dotProduct_near (first : validateEmbedding source = .ok ⟨⟩)
    (second : validateEmbedding target = .ok ⟨⟩) (same : source.length = target.length)
    (few : source.length ≤ 2 ^ 22) :
    (Single.dotProduct (elements source) (elements target)).isInfinite ≠ true ∧
    |(Single.dotProduct (elements source) (elements target)).value - exactDot source target| ≤
      source.length * (3 / 4 / 2 ^ 23) := by
  have short : source.length ≤ 2 ^ 32 := few.trans (by decide)
  have lengths : (elements source).length = source.length := List.length_map _
  obtain ⟨_, left⟩ := exactNorm_of_valid first short
  obtain ⟨_, right⟩ := exactNorm_of_valid second (same ▸ short)
  obtain ⟨nonneg, size⟩ := sum_productSize_le same
  have count : (source.length : ℚ) ≤ 2 ^ 22 := by exact_mod_cast few
  have normal : single.normal ≤ 1 / 2 ^ 100 := by
    have places : single.normal = 2 ^ (-126 : Int) := by
      show (2 : ℚ) ^ 23 * 2 ^ (-149 : Int) = _
      rw [← zpow_natCast, ← zpow_add₀ (by decide)]
      rfl
    rw [places, one_div, ← zpow_natCast, ← zpow_neg]
    exact zpow_le_zpow_right₀ (by norm_num) (by decide)
  have total : (List.zipWith productSize (elements source) (elements target)).sum ≤
      1 + 1 / 2 ^ 15 := by
    have sides := abs_le.mp left
    have others := abs_le.mp right
    have room : source.length * single.normal ≤ 2 ^ 22 * (1 / 2 ^ 100) :=
      mul_le_mul count normal single.normal_pos.le (by positivity)
    linarith
  have roundoff : single.roundoff = 1 / 2 ^ 24 := rfl
  have grown := growth_le (n := source.length) single (by
    rw [roundoff]
    linarith)
  have small : (1 + single.roundoff) ^ ((elements source).length + 2) *
      (List.zipWith productSize (elements source) (elements target)).sum ≤ single.limit := by
    have power : (1 + single.roundoff) ^ ((elements source).length + 2) ≤ 2 := by
      rw [lengths, pow_add]
      rw [roundoff] at grown ⊢
      have growth : (1 + 1 / 2 ^ 24 : ℚ) ^ source.length ≤ 4 / 3 := by linarith
      calc (1 + 1 / 2 ^ 24 : ℚ) ^ source.length * (1 + 1 / 2 ^ 24) ^ 2
          ≤ 4 / 3 * (1 + 1 / 2 ^ 24) ^ 2 := mul_le_mul_of_nonneg_right growth (by positivity)
        _ ≤ 2 := by norm_num
    rw [single_limit]
    exact (mul_le_mul power total nonneg (by norm_num)).trans (by norm_num)
  have accumulates := accumulates_dotProduct (by rw [lengths, same, elements, List.length_map])
    (element_le_two first short) (element_le_two second (same ▸ short)) small
  rw [exactDot_eq]
  refine ⟨accumulates.finite, accumulates.error.trans ?_⟩
  rw [lengths]
  rw [roundoff] at grown ⊢
  have growth : (1 + 1 / 2 ^ 24 : ℚ) ^ source.length - 1 ≤ 2 / 3 * (source.length / 2 ^ 23) := by
    linarith
  have part : (0 : ℚ) ≤ source.length / 2 ^ 23 := by positivity
  apply (mul_le_mul growth total nonneg (by positivity)).trans
  linarith

/-- Equal or not, two vectors that passed the check have their dot product up to a unit in the last
place for each element, whichever of them comes first. -/
theorem dotProduct_accurate (first : validateEmbedding source = .ok ⟨⟩)
    (second : validateEmbedding target = .ok ⟨⟩) (same : source.length = target.length)
    (few : source.length ≤ 2 ^ 22) :
    |(Single.dotProduct (elements source) (elements target)).value - exactDot source target| ≤
      source.length / 2 ^ 23 ∧
    Single.dotProduct (elements target) (elements source) =
      Single.dotProduct (elements source) (elements target) := by
  refine ⟨?_, dotProduct_comm _ _⟩
  have near := (dotProduct_near first second same few).2
  have nonneg : (0 : ℚ) ≤ source.length := Nat.cast_nonneg _
  linarith

/-- The vectors of a stored pair. -/
theorem dotProduct_accurate_pair :
    validateEmbedding [0x3f19999a, 0x3f4ccccd] = .ok ⟨⟩ ∧
    validateEmbedding [0x3f800000, 0] = .ok ⟨⟩ ∧
    |(Single.dotProduct (elements [0x3f19999a, 0x3f4ccccd]) (elements [0x3f800000, 0])).value -
      exactDot [0x3f19999a, 0x3f4ccccd] [0x3f800000, 0]| ≤ (2 : Nat) / 2 ^ 23 :=
  have first : validateEmbedding [0x3f19999a, 0x3f4ccccd] = .ok ⟨⟩ := by decide +kernel
  have second : validateEmbedding [0x3f800000, 0] = .ok ⟨⟩ := by decide +kernel
  ⟨first, second, (dotProduct_accurate first second rfl (by decide)).1⟩

end Rows

theorem single_one : (Binary.round 1 : Single).value = 1 ∧
    (Binary.round 1 : Single).isInfinite ≠ true :=
  value_round_one (n := 149) rfl (by rw [single_limit]; norm_num)

theorem single_one_le : (Binary.round 1 : Single) ≤ largest := by
  rw [Single.le_largest_iff]
  have finite := single_one.2
  have inside := (Binary.round 1 : Single).inside
  rw [ne_eq, isInfinite_iff] at finite
  omega

theorem single_one_nonneg : 0 ≤ (Binary.round 1 : Single) := round_nonneg zero_le_one

/-- `clamp(0.0, 1.0)`, and the cost that it is. -/
def clampUnit (x : Single) : Cost Single :=
  if negative : x < 0 then Cost.zero
  else if above : Binary.round 1 < x then ⟨Binary.round 1, single_one_nonneg, single_one_le⟩
  else ⟨x, not_lt.mp negative, (not_lt.mp above).trans single_one_le⟩

/-- The cost of two different tokens that have vectors. -/
def cosineCost (source target : List U32) : Cost Single :=
  clampUnit (Binary.round 1 - Single.dotProduct (elements source) (elements target))

/-- The cost of two different tokens with these vectors, if they have any. -/
def substitutionCost (missing : Cost Single) : Option (List U32) → Option (List U32) → Cost Single
  | some source, some target => cosineCost source target
  | _, _ => missing

/-- `EditCosts` for `CosineEmbeddingCosts`. -/
def CosineEmbeddingCosts.policy {T : Type} [DecidableEq T] (costs : CosineEmbeddingCosts T) :
    Policy Single T where
  substitution source target :=
    if source = target then Cost.zero
    else substitutionCost costs.missingSubstitution.cost
      (costs.embeddings.get validateEmbedding source)
      (costs.embeddings.get validateEmbedding target)
  deletion _ := costs.deletion.cost
  insertion _ := costs.insertion.cost

theorem substitutionCost_comm (missing : Cost Single) (source target : Option (List U32)) :
    substitutionCost missing source target = substitutionCost missing target source := by
  cases source with
  | none => cases target <;> rfl
  | some source =>
    cases target with
    | none => rfl
    | some target => rw [substitutionCost, substitutionCost, cosineCost, cosineCost, dotProduct_comm]

theorem CosineEmbeddingCosts.substitution_comm {T : Type} [DecidableEq T]
    (costs : CosineEmbeddingCosts T) (source target : T) :
    costs.policy.substitution source target = costs.policy.substitution target source := by
  show ite _ _ _ = ite _ _ _
  rw [substitutionCost_comm]
  exact if_congr eq_comm rfl rfl

/-- A number cut off at zero and one. -/
def cut {R : Type} [LinearOrder R] [Zero R] [One R] (x : R) : R := max 0 (min x 1)

theorem abs_cut_sub_le {R : Type} [Field R] [LinearOrder R] [IsStrictOrderedRing R] (x y : R) :
    |cut x - cut y| ≤ |x - y| := by
  rw [cut, cut]
  have first := abs_sup_sub_sup_le_abs (min x 1) (min y 1) 0
  have second := abs_inf_sub_inf_le_abs x y 1
  rw [max_comm 0, max_comm 0]
  exact first.trans second

theorem value_clampUnit (x : Single) : (clampUnit x).get.value = cut x.value := by
  rw [clampUnit]
  split
  case isTrue negative =>
    have below := value_strictMono negative
    rw [value_zero] at below
    rw [Cost.get_zero, value_zero, cut, min_eq_left (below.le.trans zero_le_one), max_eq_left below.le]
  case isFalse nonneg =>
    have above := value_strictMono.monotone (not_lt.mp nonneg)
    rw [value_zero] at above
    split
    case isTrue large =>
      have order := value_strictMono large
      rw [single_one.1] at order
      show (Binary.round 1 : Single).value = _
      rw [single_one.1, cut, min_eq_right order.le, max_eq_right zero_le_one]
    case isFalse small =>
      have order := value_strictMono.monotone (not_lt.mp small)
      rw [single_one.1] at order
      rw [cut, min_eq_left order, max_eq_right above]

theorem abs_exactDot_le {source target : List U32} (same : source.length = target.length) :
    |exactDot source target| ≤ (exactNorm source + exactNorm target) / 2 :=
  abs_sum_mul_le same element element

/-- The error of a cost, in units of the distance of one and the next number. -/
theorem cosineCost_near {source target : List U32} (first : validateEmbedding source = .ok ⟨⟩)
    (second : validateEmbedding target = .ok ⟨⟩) (same : source.length = target.length)
    (few : source.length ≤ 2 ^ 22) :
    |(cosineCost source target).get.value - cut (1 - exactDot source target)| ≤
      source.length * (7 / 8 / 2 ^ 23) + 33 / 32 / 2 ^ 23 := by
  obtain ⟨finite, near⟩ := dotProduct_near first second same few
  have short : source.length ≤ 2 ^ 32 := few.trans (by decide)
  have left := abs_le.mp (exactNorm_of_valid first short).2
  have right := abs_le.mp (exactNorm_of_valid second (same ▸ short)).2
  have dot := abs_le.mp (abs_exactDot_le same)
  have count : (source.length : ℚ) ≤ 2 ^ 22 := by exact_mod_cast few
  have nonneg : (0 : ℚ) ≤ source.length := Nat.cast_nonneg _
  rw [cosineCost, value_clampUnit]
  apply (abs_cut_sub_le _ _).trans
  obtain ⟨one, bounded⟩ := single_one
  rw [sub_of_finite bounded finite, one]
  generalize Single.dotProduct (elements source) (elements target) = product at *
  obtain ⟨i, units⟩ := product.exists_units
  obtain ⟨j, unit⟩ := (Binary.round 1 : Single).exists_units
  rw [one] at unit
  have whole : 1 - Binary.value product = (j - i : Int) * 2 ^ single.least := by
    rw [units, unit, Int.cast_sub, sub_mul]
  have sides := abs_le.mp near
  have size : |1 - Binary.value product| ≤ 2 + 1 / 2 ^ 16 + source.length * (3 / 4 / 2 ^ 23) := by
    rw [abs_le]
    constructor <;> linarith
  have inside : |1 - Binary.value product| ≤ single.limit := by
    rw [single_limit]
    linarith
  have rounded := abs_value_round_sub_le_of_units inside whole
  have roundoff : single.roundoff = 1 / 2 ^ 24 := rfl
  rw [roundoff] at rounded
  have parts := abs_sub_le (Binary.round (1 - Binary.value product) : Single).value
    (1 - Binary.value product) (1 - exactDot source target)
  have flipped : |1 - Binary.value product - (1 - exactDot source target)| =
      |Binary.value product - exactDot source target| := by
    rw [abs_sub_comm, sub_sub_sub_cancel_left]
  linarith
end Yurine
