import Yurine.Costs.Elements
import Mathlib.Algebra.BigOperators.Ring.List

/-! Normalization in floating point. The squared norm of a vector is summed in double precision,
each element is divided by its root, and the quotient is stored in single precision. What the
builder stores passes the check that a store makes of its rows. -/
namespace Yurine
open Outcome Rounding Binary

/-- `f64::from(*value).powi(2)`. -/
def square (value : U32) : Double :=
  let wide : Double := (Single.ofBits value).convert
  wide * wide

def squaredNorm (embedding : List U32) : Double :=
  embedding.foldl (fun sum value => sum + square value) 0

def checkFinite (embedding : List U32) : Result U32 PUnit :=
  embedding.zipIdx.forM fun entry =>
    if ¬ isFinite entry.1 then fail (.invalidEmbeddingValue entry.2 entry.1) else .ok ⟨⟩

def checkInserted : RowCheck := fun embedding => do
  checkFinite embedding
  if squaredNorm embedding = 0 then fail .zeroNormEmbedding

def vectorNorm (embedding : List U32) : Double := (squaredNorm embedding).sqrt

/-- What `insert` stores for an element. The norm is positive, so the sign stays. -/
def scaleElement (embedding : List U32) (value : U32) : U32 :=
  let wide : Double := (Single.ofBits value).convert
  Single.toBits (2 ^ 31 ≤ value.val) (wide / vectorNorm embedding).convert

def tolerance : Double := Binary.round (1 / 100000)

def validateEmbedding : RowCheck := fun embedding => do
  checkFinite embedding
  let squaredNorm := squaredNorm embedding
  if squaredNorm = 0 then fail .zeroNormEmbedding
  if tolerance < (squaredNorm - Binary.round 1).magnitude then
    fail (.invalidFile "embedding is not L2-normalized")

def normError (dimension : Nat) : ℚ := 4 / 3 * (dimension * double.roundoff)

theorem square_exact {value : U32} (finite : isFinite value = true) :
    (square value).isInfinite ≠ true ∧ (square value).value = (Single.ofBits value).value ^ 2 := by
  have number := (Single.ofBits_of_finite finite).1
  obtain ⟨same, wide⟩ := Single.value_convert number
  have below := Single.abs_value_lt number
  obtain ⟨doubled, significand, few, digits⟩ := (Single.ofBits value).exists_digits
  have inside : |(Single.ofBits value).value ^ 2| ≤ double.limit := by
    apply le_trans _ double_room
    rw [abs_pow]
    have squared := pow_le_pow_left₀ (abs_nonneg _) below.le 2
    rw [← pow_mul] at squared
    apply squared.trans (le_mul_of_one_le_right (by positivity) (by norm_num))
  have rounded : square value = Binary.round ((Single.ofBits value).value ^ 2) := by
    rw [square, mul_of_finite wide wide, same, sq]
  rw [rounded]
  refine ⟨isInfinite_round inside, ?_⟩
  -- twice as many digits, and twice as many places below the point
  obtain ⟨places, apart⟩ : ∃ places : Nat, ((2 : ℚ) ^ single.least) ^ 2 =
      2 ^ places * 2 ^ double.least := by
    refine ⟨776, ?_⟩
    rw [← zpow_natCast, ← zpow_natCast, ← zpow_mul, ← zpow_add₀ (by decide)]
    rfl
  apply value_round_digits inside (2 * doubled + places) (significand ^ 2)
  · apply (Nat.pow_lt_pow_left few (by decide)).trans_le
    rw [← Nat.pow_mul]
    exact Nat.pow_le_pow_right Nat.two_pos (by decide)
  · rw [abs_pow, digits, mul_pow, apart]
    push_cast
    ring

def AllFinite (embedding : List U32) : Prop := ∀ value ∈ embedding, isFinite value = true

def element (value : U32) : ℚ := (Single.ofBits value).value

/-- The squared norm without rounding. -/
def exactNorm (embedding : List U32) : ℚ := (embedding.map fun value => element value ^ 2).sum

/-- The vectors that the builder normalizes, up to a length for which the norm is precise. -/
structure Proper (embedding : List U32) : Prop where
  finite : AllFinite embedding
  few : embedding.length ≤ 2 ^ 32
  nonzero : embedding.any isNonzero = true

section Norm
variable {embedding : List U32}

theorem square_nonneg (value : U32) (finite : isFinite value = true) : 0 ≤ square value := by
  rw [← value_strictMono.le_iff_le, value_zero, (square_exact finite).2]
  exact sq_nonneg _

/-- The norm is zero when all elements are: no square is rounded to zero. -/
theorem squaredNorm_eq_zero_iff (finite : AllFinite embedding) :
    squaredNorm embedding = 0 ↔ ¬ embedding.any isNonzero = true := by
  -- a sum of squares is at least what it starts from
  suffices general : ∀ start : Double, 0 ≤ start →
      start ≤ embedding.foldl (fun sum value => sum + square value) start ∧
        (embedding.foldl (fun sum value => sum + square value) start = 0 ↔
          start = 0 ∧ ¬ embedding.any isNonzero = true) by
    rw [squaredNorm, (general 0 le_rfl).2]
    exact and_iff_right rfl
  induction embedding with
  | nil => exact fun start _ => ⟨le_rfl, by simp⟩
  | cons value embedding ih =>
    intro start nonneg
    have here := finite value List.mem_cons_self
    have term := square_nonneg value here
    have above : start ≤ start + square value := by
      have less := add_mono nonneg le_rfl le_rfl term
      rwa [add_zero_eq] at less
    have term_above : square value ≤ start + square value := by
      have less := add_mono le_rfl term nonneg le_rfl
      rwa [zero_add_eq] at less
    obtain ⟨order, zero⟩ := ih (fun other mem => finite other (List.mem_cons_of_mem _ mem))
      (start + square value) (nonneg.trans above)
    have sum_zero : start + square value = 0 ↔ start = 0 ∧ square value = 0 := by
      constructor
      · intro same
        rw [same] at above term_above
        exact ⟨le_antisymm above nonneg, le_antisymm term_above term⟩
      · rintro ⟨rfl, same⟩
        rw [same, zero_add_eq]
    have square_zero : square value = 0 ↔ ¬ isNonzero value = true := by
      rw [← Single.ofBits_eq_zero_iff here, ← pow_eq_zero_iff two_ne_zero, ← (square_exact here).2,
        ← (value_zero : (0 : Double).value = 0), value_strictMono.injective.eq_iff]
    refine ⟨above.trans order, ?_⟩
    rw [List.foldl_cons, zero, sum_zero, square_zero, List.any_cons, Bool.or_eq_true, not_or,
      and_assoc]

theorem exactNorm_nonneg (embedding : List U32) : 0 ≤ exactNorm embedding := by
  apply List.sum_nonneg
  intro x mem
  obtain ⟨value, _, rfl⟩ := List.mem_map.mp mem
  exact sq_nonneg _

theorem exactNorm_le (finite : AllFinite embedding) : exactNorm embedding ≤ embedding.length * 2 ^ 256 := by
  rw [exactNorm, ← nsmul_eq_mul, ← List.length_map (fun value => element value ^ 2)]
  apply List.sum_le_card_nsmul
  intro x mem
  obtain ⟨value, listed, rfl⟩ := List.mem_map.mp mem
  have below := Single.abs_value_lt (Single.ofBits_of_finite (finite value listed)).1
  have squared := pow_le_pow_left₀ (abs_nonneg _) below.le 2
  rwa [← pow_mul, sq_abs] at squared

theorem accumulates_squaredNorm (finite : AllFinite embedding) (few : embedding.length ≤ 2 ^ 32) :
    Accumulates (embedding.length - 1) (squaredNorm embedding) (exactNorm embedding)
      (exactNorm embedding) := by
  have terms : ∀ value ∈ embedding, Accumulates 0 (square value) (element value ^ 2)
      (element value ^ 2) := by
    intro value listed
    obtain ⟨number, same⟩ := square_exact (finite value listed)
    have term := Accumulates.of_finite number
    rwa [same, abs_of_nonneg (sq_nonneg _)] at term
  have length : (embedding.length : ℚ) ≤ 2 ^ 32 := by exact_mod_cast few
  have roundoff : double.roundoff = 1 / 2 ^ 53 := rfl
  have growth : (1 + double.roundoff) ^ embedding.length ≤ 2 := by
    have grown := growth_le (n := embedding.length) double (by
      rw [roundoff]
      linarith)
    rw [roundoff] at grown ⊢
    linarith
  have total := Accumulates.sum terms (by
    rw [Nat.zero_add]
    apply le_trans _ double_room
    calc _ ≤ 2 * (embedding.length * 2 ^ 256 : ℚ) :=
          mul_le_mul growth (exactNorm_le finite) (exactNorm_nonneg _) (by norm_num)
      _ ≤ 2 ^ 256 * 2 ^ 128 := by nlinarith)
  rwa [Nat.zero_add] at total

theorem normError_le {dimension : Nat} (few : dimension ≤ 2 ^ 32) : normError dimension ≤ 1 / 2 ^ 20 := by
  have length : (dimension : ℚ) ≤ 2 ^ 32 := by exact_mod_cast few
  have roundoff : double.roundoff = 1 / 2 ^ 53 := rfl
  rw [normError, roundoff]
  linarith

theorem squaredNorm_near (finite : AllFinite embedding) (few : embedding.length ≤ 2 ^ 32) :
    |(squaredNorm embedding).value - exactNorm embedding| ≤
      normError embedding.length * exactNorm embedding := by
  have length : (embedding.length : ℚ) ≤ 2 ^ 32 := by exact_mod_cast few
  have roundoff : double.roundoff = 1 / 2 ^ 53 := rfl
  have grown := growth_le (n := embedding.length) double (by
    rw [roundoff]
    linarith)
  apply ((accumulates_squaredNorm finite few).mono (Nat.sub_le _ 1)).error.trans
  exact mul_le_mul_of_nonneg_right grown (exactNorm_nonneg embedding)

theorem sq_le_exactNorm {value : U32} (mem : value ∈ embedding) :
    element value ^ 2 ≤ exactNorm embedding := by
  apply List.single_le_sum _ _ (List.mem_map_of_mem mem)
  intro x listed
  obtain ⟨value, _, rfl⟩ := List.mem_map.mp listed
  exact sq_nonneg _

theorem least_le_exactNorm (finite : AllFinite embedding) (nonzero : embedding.any isNonzero = true) :
    ((2 : ℚ) ^ single.least) ^ 2 ≤ exactNorm embedding := by
  obtain ⟨value, mem, some⟩ := List.any_eq_true.mp nonzero
  apply le_trans _ (sq_le_exactNorm mem)
  obtain ⟨count, whole⟩ := (Single.ofBits value).exists_units
  have apart : count ≠ 0 := by
    rintro rfl
    rw [Int.cast_zero, zero_mul, Single.ofBits_eq_zero_iff (finite value mem)] at whole
    exact whole some
  have one : (1 : ℚ) ≤ count ^ 2 := by
    have positive : 0 < count ^ 2 := by positivity
    exact_mod_cast positive
  rw [element, whole, mul_pow]
  exact le_mul_of_one_le_left (sq_nonneg _) one

theorem norm_spec (proper : Proper embedding) : 0 < vectorNorm embedding ∧
      (vectorNorm embedding).isInfinite ≠ true ∧
      (1 - double.roundoff) ^ 2 * (vectorNorm embedding).value ^ 2 ≤
        (1 + normError embedding.length) * exactNorm embedding ∧
      (1 - normError embedding.length) * exactNorm embedding ≤
        (1 + double.roundoff) ^ 2 * (vectorNorm embedding).value ^ 2 := by
  have ⟨finite, few, nonzero⟩ := proper
  have near := abs_le.mp (squaredNorm_near finite few)
  have small := normError_le few
  have least := least_le_exactNorm finite nonzero
  have unit : (0 : ℚ) < 2 ^ single.least := single.least_pos
  have positive : 0 < exactNorm embedding := (pow_pos unit 2).trans_le least
  have above : exactNorm embedding / 2 ≤ (squaredNorm embedding).value := by nlinarith
  have normal : double.normal ^ 2 ≤ (squaredNorm embedding).value := by
    apply le_trans _ above
    have tiny : double.normal ^ 2 ≤ ((2 : ℚ) ^ single.least) ^ 2 / 2 := by
      have places : double.normal = 2 ^ (-1022 : Int) := by
        show (2 : ℚ) ^ 52 * 2 ^ (-1074 : Int) = _
        rw [← zpow_natCast, ← zpow_add₀ (by decide)]
        rfl
      have half : ((2 : ℚ) ^ single.least) ^ 2 / 2 = 2 ^ (-299 : Int) := by
        show ((2 : ℚ) ^ (-149 : Int)) ^ 2 / 2 = _
        rw [← zpow_natCast, ← zpow_mul, div_eq_mul_inv, ← zpow_neg_one, ← zpow_add₀ (by decide)]
        rfl
      rw [places, half, ← zpow_natCast, ← zpow_mul]
      exact zpow_le_zpow_right₀ (by norm_num) (by decide)
    linarith
  have order : 0 < squaredNorm embedding := by
    rw [← value_strictMono.lt_iff_lt, value_zero]
    linarith
  have large : 1 < double.limit := by
    apply lt_of_lt_of_le _ double_room
    exact one_lt_mul (one_le_pow₀ (by norm_num)) (one_lt_pow₀ (by norm_num) (by decide))
  obtain ⟨some, bounded, lower, upper⟩ :=
    sqrt_spec order (accumulates_squaredNorm finite few).finite normal large
  refine ⟨some, bounded, ?_, ?_⟩
  · exact lower.trans (by linarith)
  · exact le_trans (by linarith) upper

def portion (embedding : List U32) (value : U32) : ℚ := element value / (vectorNorm embedding).value

def drift : ℚ := 1 / 2 ^ 24 + 1 / 2 ^ 52

theorem abs_portion_le (proper : Proper embedding) {value : U32} (mem : value ∈ embedding) :
    |portion embedding value| ≤ 2 := by
  have ⟨finite, few, nonzero⟩ := proper
  obtain ⟨positive, _, _, upper⟩ := norm_spec proper
  have small := normError_le few
  have root : 0 < (vectorNorm embedding).value := by
    have order := value_strictMono positive
    rwa [value_zero] at order
  have part := sq_le_exactNorm mem
  have roundoff : double.roundoff = 1 / 2 ^ 53 := rfl
  rw [roundoff] at upper
  apply abs_le_of_sq_le_sq _ (by norm_num)
  rw [portion, div_pow, div_le_iff₀ (pow_pos root 2)]
  nlinarith [sq_nonneg (vectorNorm embedding).value]

/-- A stored element is the portion of its element up to a small relative error, or the least
number. -/
theorem element_scaleElement (proper : Proper embedding) {value : U32} (mem : value ∈ embedding) :
    isFinite (scaleElement embedding value) = true ∧
      |element (scaleElement embedding value) - portion embedding value| ≤
        drift * |portion embedding value| + 2 ^ single.least := by
  have ⟨finite, few, nonzero⟩ := proper
  obtain ⟨positive, bounded, _, _⟩ := norm_spec proper
  have part := abs_portion_le proper mem
  obtain ⟨number, _, sign⟩ := Single.ofBits_of_finite (finite value mem)
  obtain ⟨same, wide⟩ := Single.value_convert number
  have root : 0 < (vectorNorm embedding).value := by
    have order := value_strictMono positive
    rwa [value_zero] at order
  have quotient : (Single.ofBits value).convert / vectorNorm embedding =
      Binary.round (portion embedding value) := by
    rw [div_of_finite wide bounded (lt_iff.mp positive).ne', same]
    rfl
  have stored : scaleElement embedding value = Single.toBits (2 ^ 31 ≤ value.val)
      (Binary.round (portion embedding value) : Double).convert := by
    rw [← quotient]
    rfl
  have room : |portion embedding value| ≤ double.limit :=
    part.trans (le_trans (by norm_num) double_room)
  have first := abs_value_round_sub_le room
  have whole : (Binary.round (portion embedding value) : Double).isInfinite ≠ true :=
    isInfinite_round room
  have signed : if 2 ^ 31 ≤ value.val then (Binary.round (portion embedding value) : Double).value ≤ 0
      else 0 ≤ (Binary.round (portion embedding value) : Double).value := by
    rcases Nat.lt_or_ge value.val (2 ^ 31) with plus | minus
    · rw [if_neg (not_le.mpr plus)] at sign ⊢
      exact value_nonneg (round_nonneg (div_nonneg (value_nonneg sign) root.le))
    · rw [if_pos minus] at sign ⊢
      have below := value_strictMono.monotone sign
      rw [value_zero] at below
      have down : (Binary.round (portion embedding value) : Double) ≤ 0 :=
        round_nonpos (div_nonpos_of_nonpos_of_nonneg below root.le)
      have order := value_strictMono.monotone down
      rwa [value_zero] at order
  have least : (2 : ℚ) ^ double.least ≤ 2 ^ single.least / 4 := by
    have quarter : (2 : ℚ) ^ single.least / 4 = 2 ^ (-151 : Int) := by
      show (2 : ℚ) ^ (-149 : Int) / 4 = _
      have four : (4 : ℚ) = 2 ^ (2 : Int) := by norm_num
      rw [four, ← zpow_sub₀ (by decide)]
      rfl
    rw [quarter]
    exact zpow_le_zpow_right₀ (by norm_num) (by decide)
  have tiny : (2 : ℚ) ^ single.least ≤ 1 := zpow_le_one_of_nonpos₀ (by norm_num) (by decide)
  have unit := single.least_pos
  have roundoff : double.roundoff = 1 / 2 ^ 53 := rfl
  have coarse : single.roundoff = 1 / 2 ^ 24 := rfl
  rw [roundoff] at first
  generalize (Binary.round (portion embedding value) : Double) = exact_ at *
  have apart := abs_sub_abs_le_abs_sub exact_.value (portion embedding value)
  have inside : |exact_.value| ≤ single.limit := by
    rw [single_limit]
    linarith
  have second := abs_value_round_sub_le inside
  have final : (Single.ofBits (scaleElement embedding value)) = Binary.round exact_.value := by
    rw [stored, convert_of_finite whole, Single.ofBits_toBits]
    rcases Nat.lt_or_ge value.val (2 ^ 31) with plus | minus
    · rw [if_neg (not_le.mpr plus)] at signed
      rw [decide_eq_false (not_le.mpr plus), if_neg Bool.false_ne_true]
      exact round_nonneg signed
    · rw [if_pos minus] at signed
      rw [decide_eq_true minus, if_pos rfl]
      exact round_nonpos signed
  constructor
  · rw [stored, convert_of_finite whole]
    exact Single.isFinite_toBits (isInfinite_round inside)
  · have parts := abs_sub_le (Single.ofBits (scaleElement embedding value)).value exact_.value
      (portion embedding value)
    rw [final] at parts
    rw [element, final, drift]
    rw [coarse] at second
    have magnitude := abs_nonneg (portion embedding value)
    linarith

theorem portions_near (proper : Proper embedding) :
    |(embedding.map fun value => portion embedding value ^ 2).sum - 1| ≤
      2 * normError embedding.length + 1 / 2 ^ 51 := by
  have ⟨finite, few, nonzero⟩ := proper
  obtain ⟨positive, _, lower, upper⟩ := norm_spec proper
  have small := normError_le few
  have nonneg : 0 ≤ normError embedding.length :=
    mul_nonneg (by norm_num) (mul_nonneg (Nat.cast_nonneg _) double.roundoff_pos.le)
  have root : 0 < (vectorNorm embedding).value := by
    have order := value_strictMono positive
    rwa [value_zero] at order
  have square_root := pow_pos root 2
  have total : (embedding.map fun value => portion embedding value ^ 2).sum =
      exactNorm embedding / (vectorNorm embedding).value ^ 2 := by
    simp only [portion, div_eq_mul_inv, mul_pow, inv_pow]
    exact embedding.sum_map_mul_right _ _
  have roundoff : double.roundoff = 1 / 2 ^ 53 := rfl
  rw [total, abs_le]
  rw [roundoff] at lower upper
  generalize normError embedding.length = g at *
  generalize (vectorNorm embedding).value ^ 2 = r at *
  constructor
  · rw [neg_le_sub_iff_le_add, ← sub_le_iff_le_add, le_div_iff₀ square_root]
    nlinarith
  · rw [sub_le_iff_le_add', div_le_iff₀ square_root]
    nlinarith

theorem exactNorm_normalize (proper : Proper embedding) :
    |exactNorm (normalize scaleElement embedding) - 1| ≤ 1 / 2 ^ 18 := by
  have ⟨finite, few, nonzero⟩ := proper
  have portions := abs_le.mp (portions_near proper)
  have small := normError_le few
  have unit := single.least_pos
  have tiny : (2 : ℚ) ^ single.least ≤ 1 / 2 ^ 100 := by
    rw [one_div, ← zpow_natCast, ← zpow_neg]
    exact zpow_le_zpow_right₀ (by norm_num) (by decide)
  have near : ∀ value ∈ embedding,
      |element (scaleElement embedding value) ^ 2 - portion embedding value ^ 2| ≤
        drift * (2 + drift) * portion embedding value ^ 2 + 5 * 2 ^ single.least := by
    intro value mem
    have error := (element_scaleElement proper mem).2
    have part := abs_portion_le proper mem
    have sum : |element (scaleElement embedding value) + portion embedding value| ≤
        (2 + drift) * |portion embedding value| + 2 ^ single.least := by
      have parts := abs_add_le (element (scaleElement embedding value) - portion embedding value)
        (2 * portion embedding value)
      rw [abs_mul, abs_two] at parts
      have same : element (scaleElement embedding value) - portion embedding value +
          2 * portion embedding value =
            element (scaleElement embedding value) + portion embedding value := by ring
      rw [same] at parts
      linarith
    rw [sq_sub_sq, abs_mul, mul_comm, ← sq_abs (portion embedding value)]
    have magnitude := abs_nonneg (portion embedding value)
    apply (mul_le_mul error sum (abs_nonneg _) (by rw [drift]; positivity)).trans
    rw [drift]
    nlinarith
  have sums := abs_le.mp (abs_sum_sub_le near)
  rw [List.sum_map_add, List.sum_map_mul_left, List.map_const', List.sum_replicate, nsmul_eq_mul] at sums
  have same : exactNorm (normalize scaleElement embedding) =
      (embedding.map fun value => element (scaleElement embedding value) ^ 2).sum := by
    rw [exactNorm, normalize, List.map_map]
    rfl
  have length : (embedding.length : ℚ) ≤ 2 ^ 32 := by exact_mod_cast few
  rw [same, abs_le]
  rw [drift] at sums
  constructor <;> nlinarith

theorem double_least_le : (2 : ℚ) ^ double.least ≤ 1 / 10 ^ 18 := by
  have power : (2 : ℚ) ^ double.least ≤ 1 / 2 ^ 60 := by
    rw [one_div, ← zpow_natCast, ← zpow_neg]
    exact zpow_le_zpow_right₀ (by norm_num) (by decide)
  linarith

theorem tolerance_near : |tolerance.value - 1 / 100000| ≤ 1 / 10 ^ 18 := by
  have error : |tolerance.value - 1 / 100000| ≤ _ :=
    abs_value_round_sub_le (le_trans (by norm_num) double_room)
  have roundoff : double.roundoff = 1 / 2 ^ 53 := rfl
  have least := double_least_le
  rw [abs_of_pos (by norm_num : (0 : ℚ) < 1 / 100000), roundoff] at error
  linarith

theorem checkFinite_eq_ok {embedding : List U32} :
    checkFinite embedding = .ok ⟨⟩ ↔ AllFinite embedding := by
  rw [checkFinite, forM_eq_ok]
  constructor
  · intro all value mem
    obtain ⟨i, inside, rfl⟩ := List.getElem_of_mem mem
    by_contra infinite
    have checked := all (embedding[i], i)
      (List.mem_zipIdx_iff_getElem?.mpr (List.getElem?_eq_getElem inside))
    rw [if_pos infinite] at checked
    cases checked
  · intro all entry mem
    exact if_neg (not_not.mpr (all _ (List.fst_mem_of_mem_zipIdx mem)))

/-- What the check accepts: finite elements and a squared norm near one. -/
theorem validateEmbedding_eq_ok : validateEmbedding embedding = .ok ⟨⟩ ↔ AllFinite embedding ∧
    squaredNorm embedding ≠ 0 ∧
      |(squaredNorm embedding - Binary.round 1).value| ≤ tolerance.value := by
  rw [← value_magnitude, value_strictMono.le_iff_le, ← checkFinite_eq_ok,
    validateEmbedding]
  cases checkFinite embedding with
  | error failure => exact iff_of_false nofun (fun all => nomatch all.1)
  | ok _ =>
    rw [bind_ok]
    by_cases zero : squaredNorm embedding = 0
    · rw [if_pos zero]
      exact iff_of_false nofun (fun all => all.2.1 zero)
    · rw [if_neg zero]
      by_cases far : tolerance < (squaredNorm embedding - Binary.round 1).magnitude
      · rw [if_pos far]
        exact iff_of_false nofun (fun all => absurd far (not_lt.mpr all.2.2))
      · rw [if_neg far]
        exact iff_of_true rfl ⟨rfl, zero, not_lt.mp far⟩

theorem difference_near (finite : AllFinite embedding) (few : embedding.length ≤ 2 ^ 32) :
    |(squaredNorm embedding - Binary.round 1).value - ((squaredNorm embedding).value - 1)| ≤
      1 / 2 ^ 53 * |(squaredNorm embedding).value - 1| + 1 / 10 ^ 18 := by
  have near := abs_le.mp (squaredNorm_near finite few)
  have small := normError_le few
  have below := exactNorm_le finite
  have nonneg := exactNorm_nonneg embedding
  have length : (embedding.length : ℚ) ≤ 2 ^ 32 := by exact_mod_cast few
  have inside : |(squaredNorm embedding).value - 1| ≤ double.limit := by
    apply le_trans _ double_room
    have bounded : exactNorm embedding ≤ 2 ^ 32 * 2 ^ 256 :=
      below.trans (mul_le_mul_of_nonneg_right length (by positivity))
    rw [abs_le]
    constructor <;> nlinarith
  have one : (Binary.round 1 : Double).value = 1 ∧ (Binary.round 1 : Double).isInfinite ≠ true :=
    value_round_one (n := 1074) rfl (le_trans (by norm_num) double_room)
  have error := abs_value_round_sub_le inside
  have roundoff : double.roundoff = 1 / 2 ^ 53 := rfl
  have least := double_least_le
  rw [sub_of_finite (accumulates_squaredNorm finite few).finite one.2, one.1]
  rw [roundoff] at error
  linarith

/-- What is stored for a vector passes the check. -/
theorem validateEmbedding_normalize (proper : Proper embedding) :
    validateEmbedding (normalize scaleElement embedding) = .ok ⟨⟩ := by
  have ⟨finite, few, nonzero⟩ := proper
  have stored : AllFinite (normalize scaleElement embedding) := by
    intro value mem
    obtain ⟨source, listed, rfl⟩ := List.mem_map.mp mem
    exact (element_scaleElement proper listed).1
  have same : (normalize scaleElement embedding).length ≤ 2 ^ 32 := by rwa [normalize, List.length_map]
  have one := abs_le.mp (exactNorm_normalize proper)
  have near := abs_le.mp (squaredNorm_near stored same)
  have small := normError_le same
  have difference := abs_le.mp (difference_near stored same)
  have bound := abs_le.mp tolerance_near
  have apart : |(squaredNorm (normalize scaleElement embedding)).value - 1| ≤ 1 / 2 ^ 17 := by
    rw [abs_le]
    constructor <;> nlinarith
  refine validateEmbedding_eq_ok.mpr ⟨stored, ?_, ?_⟩
  · intro zero
    rw [zero, value_zero] at apart
    norm_num at apart
  · have sides := abs_le.mp apart
    rw [abs_le]
    constructor <;> linarith

theorem exactNorm_of_valid (valid : validateEmbedding embedding = .ok ⟨⟩)
    (few : embedding.length ≤ 2 ^ 32) :
    AllFinite embedding ∧ |exactNorm embedding - 1| ≤ 1 / 2 ^ 16 := by
  obtain ⟨finite, _, close⟩ := validateEmbedding_eq_ok.mp valid
  have near := abs_le.mp (squaredNorm_near finite few)
  have small := normError_le few
  have difference := abs_le.mp (difference_near finite few)
  have bound := abs_le.mp tolerance_near
  have sides := abs_le.mp close
  refine ⟨finite, ?_⟩
  have apart : |(squaredNorm embedding).value - 1| ≤ 11 / 10 ^ 6 := by
    rcases abs_cases ((squaredNorm embedding).value - 1) with ⟨same, _⟩ | ⟨same, _⟩ <;>
      rw [same] at difference ⊢ <;> linarith
  have ends := abs_le.mp apart
  have part := mul_le_mul_of_nonneg_right small (exactNorm_nonneg embedding)
  rw [abs_le]
  constructor <;> linarith

end Norm

theorem checkInserted_eq : checkInserted = checkEmbedding := by
  funext embedding
  show (checkFinite embedding >>= fun _ => _) = (checkFinite embedding >>= fun _ => _)
  cases checked : checkFinite embedding with
  | error failure => rfl
  | ok _ =>
    rw [bind_ok, bind_ok]
    have zero := squaredNorm_eq_zero_iff (checkFinite_eq_ok.mp checked)
    by_cases nonzero : embedding.any isNonzero = true
    · rw [if_neg (not_not.mpr nonzero), if_neg (fun same => zero.mp same nonzero)]
    · rw [if_pos nonzero, if_pos (zero.mpr nonzero)]

def normalization : Normalization := ⟨checkInserted, scaleElement⟩

namespace EmbeddingStoreBuilder
variable {T : Type} [DecidableEq T]

def insertEach (builder : EmbeddingStoreBuilder T) :
    List (T × List U32) → List (Result U32 (Option (List U32))) × EmbeddingStoreBuilder T
  | [] => ([], builder)
  | entry :: rest =>
    let inserted := builder.settle (builder.insert normalization entry.1 entry.2)
    let others := insertEach inserted.2 rest
    (inserted.1 :: others.1, others.2)

theorem insertEach_eq (builder : EmbeddingStoreBuilder T) (calls : List (T × List U32)) :
    builder.insertEach calls = builder.insertAll scaleElement calls := by
  induction calls generalizing builder with
  | nil => rfl
  | cons entry rest ih =>
    obtain ⟨token, embedding⟩ := entry
    rw [insertEach, insertAll, call_eq, ← checkInserted_eq]
    simp only [ih]
    rfl

def acceptedVectors (calls : List (T × List U32))
    (outcomes : List (Result U32 (Option (List U32)))) (token : T) : List (List U32) :=
  (calls.zip outcomes).filterMap fun made =>
    match made.2 with
    | .ok _ => if made.1.1 = token then some made.1.2 else none
    | .error _ => none

theorem inserted_eq_map (scale : List U32 → U32 → U32) (calls : List (T × List U32))
    (outcomes : List (Result U32 (Option (List U32)))) (token : T) :
    inserted scale calls outcomes token =
      (acceptedVectors calls outcomes token).map (normalize scale) := by
  rw [inserted, acceptedVectors, List.map_filterMap]
  congr 1
  funext made
  cases made.2 with
  | ok previous => by_cases same : made.1.1 = token <;> simp [same]
  | error failure => rfl

theorem mem_acceptedVectors {calls : List (T × List U32)}
    {outcomes : List (Result U32 (Option (List U32)))} {token : T} {embedding : List U32}
    (mem : embedding ∈ acceptedVectors calls outcomes token) :
    ∃ previous, ((token, embedding), .ok previous) ∈ calls.zip outcomes := by
  obtain ⟨⟨⟨other, vector⟩, outcome⟩, listed, same⟩ := List.mem_filterMap.mp mem
  cases outcome with
  | error failure => cases same
  | ok previous =>
    by_cases here : other = token
    · rw [if_pos here, Option.some.injEq] at same
      cases here
      cases same
      exact ⟨previous, listed⟩
    · rw [if_neg here] at same
      cases same

theorem Rowed.accepts_insertAll {scale : List U32 → U32 → U32}
    {builder : EmbeddingStoreBuilder T} (rowed : builder.Rowed) (calls : List (T × List U32))
    {token : T} {embedding : List U32} {previous : Option (List U32)}
    (made : ((token, embedding), .ok previous) ∈ calls.zip (builder.insertAll scale calls).1) :
    embedding.length = builder.dimension.val ∧ AllFinite embedding ∧
      embedding.any isNonzero = true := by
  induction calls generalizing builder with
  | nil => cases made
  | cons entry rest ih =>
    obtain ⟨other, vector⟩ := entry
    rcases rowed.call_cases scale other vector with
      ⟨next, called, accepts, writes⟩ | ⟨reason, called, _⟩
    · rw [insertAll, called, List.zip_cons_cons, List.mem_cons] at made
      rcases made with same | later
      · cases same
        exact ⟨accepts.length, accepts.finite, List.any_eq_true.mpr accepts.nonzero⟩
      · exact writes.dimension ▸ ih writes.rowed later
    · rw [insertAll, called, List.zip_cons_cons, List.mem_cons] at made
      rcases made with same | later
      · cases same
      · exact ih rowed later

theorem Rowed.rowsValid {builder : EmbeddingStoreBuilder T} (rowed : builder.Rowed)
    {validate : RowCheck} (rows : ∀ token row, builder.row token = some row → validate row = .ok ⟨⟩) :
    builder.build.RowsValid validate := by
  intro row mem
  obtain ⟨i, below, rfl⟩ := mem_chunksExact.mp mem
  have positive := Nat.pos_of_ne_zero builder.dimension.property
  have count : builder.embeddings.length / builder.dimension.val = builder.len := by
    rw [rowed.matrix, Nat.mul_div_cancel _ positive]
  obtain ⟨token, index, found, rfl⟩ := rowed.numbered.onto (count ▸ below)
  apply rows token
  rw [EmbeddingStoreBuilder.row, found]
  rfl

end EmbeddingStoreBuilder

open EmbeddingStoreBuilder

section Runs
variable {T : Type} [DecidableEq T]

theorem proper_accepted (dimension : NonZero) (few : dimension.val < 2 ^ 32)
    (calls : List (T × List U32)) (token : T) (embedding : List U32)
    (accepted : embedding ∈ acceptedVectors calls
      ((new dimension : EmbeddingStoreBuilder T).insertEach calls).1 token) :
    embedding.length = dimension.val ∧ Proper embedding := by
  rw [insertEach_eq] at accepted
  obtain ⟨previous, made⟩ := mem_acceptedVectors accepted
  obtain ⟨length, finite, nonzero⟩ := (Rowed.new dimension).accepts_insertAll calls made
  exact ⟨length, finite, length.trans_le few.le, nonzero⟩

/-- A store that has been built passes its own check, and its vectors are what was stored last. -/
theorem built_spec (dimension : NonZero) (few : dimension.val < 2 ^ 32)
    (calls : List (T × List U32)) :
    let run := (new dimension : EmbeddingStoreBuilder T).insertEach calls
    run.2.build.verify validateEmbedding = .ok ⟨⟩ ∧ ∀ token,
      run.2.build.get validateEmbedding token =
        (acceptedVectors calls run.1 token).getLast?.map (normalize scaleElement) := by
  intro run
  have ran : run = _ := insertEach_eq (new dimension) calls
  obtain ⟨rowed, kept, last⟩ := insertAll_spec scaleElement dimension calls
  rw [← ran] at rowed kept last
  have rows (token : T) : run.2.row token =
      (acceptedVectors calls run.1 token).getLast?.map (normalize scaleElement) := by
    rw [last, inserted_eq_map, List.getLast?_map]
  have valid : run.2.build.RowsValid validateEmbedding := by
    apply rowed.rowsValid
    intro token row there
    rw [rows, Option.map_eq_some_iff] at there
    obtain ⟨embedding, last, rfl⟩ := there
    exact validateEmbedding_normalize
      (proper_accepted dimension few calls token embedding (List.mem_of_getLast? last)).2
  have wf : run.2.build.WellFormed := ⟨rowed.numbered, rowed.matrix, by
    show run.2.dimension.val < usizeRange
    rw [kept]
    exact few.trans (by decide), nofun⟩
  have size : run.2.len * run.2.dimension.val < usizeRange := by
    rw [kept]
    have rows := rowed.numbered.few
    calc run.2.len * dimension.val ≤ 2 ^ 32 * dimension.val := Nat.mul_le_mul_right _ rows
      _ < 2 ^ 32 * 2 ^ 32 := Nat.mul_lt_mul_of_pos_left few (by decide)
      _ = usizeRange := by decide
  have small : run.2.build.embeddings.asSlice.length < usizeRange := by
    rw [wf.matrix]
    exact size
  refine ⟨?_, fun token => (wf.get_eq_row valid small token).trans (rows token)⟩
  rw [wf.verify_eq valid]
  exact if_pos size

end Runs

/-- Whatever is inserted, the store passes its own check, and a token has the normalized vector
of its last accepted call, the squared norm of which is about one. -/
theorem build_verifies {T : Type} [DecidableEq T] (dimension : NonZero)
    (few : dimension.val < 2 ^ 32) (calls : List (T × List U32)) :
    let run := (new dimension : EmbeddingStoreBuilder T).insertEach calls
    run.2.build.verify validateEmbedding = .ok ⟨⟩ ∧ ∀ token,
      run.2.build.get validateEmbedding token =
        (acceptedVectors calls run.1 token).getLast?.map (normalize scaleElement) ∧
      ∀ row, run.2.build.get validateEmbedding token = some row →
        row.length = dimension.val ∧ |exactNorm row - 1| ≤ 1 / 2 ^ 18 := by
  intro run
  obtain ⟨verified, gets⟩ := built_spec dimension few calls
  refine ⟨verified, fun token => ⟨gets token, fun row there => ?_⟩⟩
  rw [gets token, Option.map_eq_some_iff] at there
  obtain ⟨embedding, last, rfl⟩ := there
  obtain ⟨length, proper⟩ := proper_accepted dimension few calls token embedding
    (List.mem_of_getLast? last)
  rw [normalize, List.length_map]
  exact ⟨length, exactNorm_normalize proper⟩

/-- The vector of three and four has the norm five. -/
theorem build_verifies_pair : (2 : Nat) < 2 ^ 32 ∧
    ((new ⟨2, by decide⟩ : EmbeddingStoreBuilder Nat).insertEach
      [(0, [0x40400000, 0x40800000])]).2.build.verify validateEmbedding = .ok ⟨⟩ :=
  ⟨by decide, (build_verifies ⟨2, by decide⟩ (by decide) [(0, [0x40400000, 0x40800000])]).1⟩

example : normalize scaleElement [0x40400000, 0x40800000] = [0x3f19999a, 0x3f4ccccd] := by
  decide +kernel

end Yurine
