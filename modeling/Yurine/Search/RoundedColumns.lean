import Yurine.Costs.Rounded
import Yurine.Search.Approximation
import Yurine.Search.CacheRuns

/-! Columns with rounded sums. A cell is the distance up to one factor for every edit on the way to
it, as long as the distance is finite; a bound that is apart from the distance by these factors
is compared with the cell as it is with the distance. -/
namespace Yurine
open Outcome EditScripts RoundedNumber

/-- What one addition changes at most. -/
def growth (R : Type) [RoundedNumber R] : ℚ := 1 + roundoff (R := R)

/-- What the operations of a policy cost exactly. -/
def Policy.exact [RoundedNumber R] (policy : Policy R T) : Weights T T ℚ where
  substitute a b := value (policy.substitution a b).get
  delete a := value (policy.deletion a).get
  insert b := value (policy.insertion b).get

variable {R : Type} [RoundedNumber R]

section Values

theorem value_nonneg {x : R} (nonneg : 0 ≤ x) : 0 ≤ value x := by
  have ordered := (value_strictMono (R := R)).monotone nonneg
  rwa [RoundedNumber.value_zero] at ordered

theorem value_lt_iff {x y : R} : value x < value y ↔ x < y := value_strictMono.lt_iff_lt

theorem value_le_iff {x y : R} : value x ≤ value y ↔ x ≤ y := value_strictMono.le_iff_le

theorem Cost.value_nonneg (cost : Cost R) : 0 ≤ value cost.get := Yurine.value_nonneg cost.nonneg

theorem Policy.exact_nonneg (policy : Policy R T) : policy.exact.Nonneg :=
  ⟨fun _ _ => Cost.value_nonneg _, fun _ => Cost.value_nonneg _, fun _ => Cost.value_nonneg _⟩

theorem one_le_growth : 1 ≤ growth R := by
  have nonneg := roundoff_nonneg (R := R)
  unfold growth
  linarith

theorem growth_pos : 0 < growth R := zero_lt_one.trans_le one_le_growth

theorem growth_pow_le {m n : Nat} (less : m ≤ n) : growth R ^ m ≤ growth R ^ n :=
  pow_le_pow_right₀ one_le_growth less

theorem le_growth_pow_mul {n : Nat} {x : ℚ} (nonneg : 0 ≤ x) : x ≤ growth R ^ n * x :=
  le_mul_of_one_le_left nonneg (one_le_pow₀ one_le_growth)

end Values

/-- A number that has come from a distance by so many additions. -/
structure Near (n : Nat) (d : ℚ) (x : R) : Prop where
  nonneg : 0 ≤ x
  exact_nonneg : 0 ≤ d
  below : x ≤ largest → d ≤ growth R ^ n * value x
  above : growth R ^ n * d < value (largest : R) → value x ≤ growth R ^ n * d

namespace Near
variable {m n : Nat} {d e : ℚ} {x y : R}

theorem zero : Near 0 0 (0 : R) := by
  have same := RoundedNumber.value_zero (R := R)
  refine ⟨le_rfl, le_rfl, ?_, ?_⟩ <;> intro <;> rw [same, mul_zero]

theorem cost (cost : Cost R) : Near 0 (value cost.get) cost.get := by
  refine ⟨cost.nonneg, cost.value_nonneg, ?_, ?_⟩ <;> intro <;> rw [pow_zero, one_mul]

theorem mono (near : Near m d x) (less : m ≤ n) : Near n d x := by
  have grown := growth_pow_le (R := R) less
  have scaled : growth R ^ m * d ≤ growth R ^ n * d :=
    mul_le_mul_of_nonneg_right grown near.exact_nonneg
  constructor
  · exact near.nonneg
  · exact near.exact_nonneg
  · intro finite
    exact (near.below finite).trans (mul_le_mul_of_nonneg_right grown (value_nonneg near.nonneg))
  · intro small
    exact (near.above (scaled.trans_lt small)).trans scaled

theorem min (first : Near n d x) (second : Near n e y) : Near n (min d e) (min x y) := by
  constructor
  · exact le_min first.nonneg second.nonneg
  · exact le_min first.exact_nonneg second.exact_nonneg
  · intro finite
    rcases min_choice x y with same | same <;> rw [same] at finite ⊢
    · exact (min_le_left d e).trans (first.below finite)
    · exact (min_le_right d e).trans (second.below finite)
  · intro small
    rcases min_choice d e with same | same <;> rw [same] at small ⊢
    · exact (value_le_iff.mpr (min_le_left x y)).trans (first.above small)
    · exact (value_le_iff.mpr (min_le_right x y)).trans (second.above small)

/-- One more addition, where a sum that is not finite, or may have lost its excess over the
largest number, becomes infinity. -/
theorem add (first : Near n d x) (second : Near n e y) :
    Near (n + 1) (d + e) (addDistance x y) := by
  have hx := value_nonneg first.nonneg
  have hy := value_nonneg second.nonneg
  have power : 0 ≤ growth R ^ n := (pow_pos growth_pos n).le
  have less : x ≤ x + y ∧ y ≤ x + y := by
    have left := MonotoneNumber.add_le_add_nonneg x x 0 y first.nonneg le_rfl le_rfl second.nonneg
    have right := MonotoneNumber.add_le_add_nonneg 0 x y y le_rfl second.nonneg first.nonneg le_rfl
    rw [MonotoneNumber.add_zero_nonneg x first.nonneg] at left
    rw [MonotoneNumber.zero_add_nonneg y second.nonneg] at right
    exact ⟨left, right⟩
  have whole (finite : x + y ≤ largest) : d + e ≤ growth R ^ (n + 1) * value (x + y) := by
    have both := add_le_add (first.below (less.1.trans finite)) (second.below (less.2.trans finite))
    have sum := RoundedNumber.le_value_add x y first.nonneg second.nonneg finite
    calc d + e ≤ growth R ^ n * (value x + value y) := by rw [mul_add]; exact both
      _ ≤ growth R ^ n * (growth R * value (x + y)) := mul_le_mul_of_nonneg_left sum power
      _ = growth R ^ (n + 1) * value (x + y) := by rw [pow_succ, mul_assoc]
  constructor
  · exact addDistance_nonneg first.nonneg second.nonneg
  · exact add_nonneg first.exact_nonneg second.exact_nonneg
  · have infinite : ¬ (infinity : R) ≤ largest := not_le.mpr Number.largest_lt_infinity
    intro finite
    unfold addDistance at finite ⊢
    dsimp only at finite ⊢
    by_cases overflow : x + y ≤ largest
    · rw [if_neg (not_not.mpr overflow)] at finite ⊢
      split_ifs at finite ⊢
      · exact whole overflow
      · exact absurd finite infinite
      · exact whole overflow
    · rw [if_pos overflow] at finite
      exact absurd finite infinite
  · intro small
    have grown : growth R ^ n * (d + e) ≤ growth R ^ (n + 1) * (d + e) :=
      mul_le_mul_of_nonneg_right (growth_pow_le n.le_succ)
        (add_nonneg first.exact_nonneg second.exact_nonneg)
    have part {f : ℚ} (within : f ≤ d + e) : growth R ^ n * f < value (largest : R) :=
      ((mul_le_mul_of_nonneg_left within power).trans grown).trans_lt small
    have left := first.above (part (le_add_of_nonneg_right second.exact_nonneg))
    have right := second.above (part (le_add_of_nonneg_left first.exact_nonneg))
    have sum : value (x + y) ≤ growth R ^ (n + 1) * (d + e) := by
      calc value (x + y) ≤ growth R * (value x + value y) :=
            RoundedNumber.value_add_le x y first.nonneg second.nonneg
        _ ≤ growth R * (growth R ^ n * d + growth R ^ n * e) :=
            mul_le_mul_of_nonneg_left (add_le_add left right) growth_pos.le
        _ = growth R ^ (n + 1) * (d + e) := by ring
    have finite : x + y < largest := value_lt_iff.mp (sum.trans_lt small)
    unfold addDistance
    dsimp only
    rwa [if_neg (not_not.mpr finite.le), if_pos finite.ne]

end Near

section Columns
variable {policy : Policy R Symbol} {queryString : List Symbol}

/-- The cell of a prefix of the query string, in the column of a data string. -/
def NearColumn (policy : Policy R Symbol) (queryString string : List Symbol) (column : List R) :
    Prop :=
  column.length = queryString.length + 1 ∧ ∀ r ≤ queryString.length,
    Near (r + string.length) (distance policy.exact (queryString.take r) string) (column.getD r 0)

theorem nearColumn_concat {string : List Symbol} {column : List R} {symbol : Symbol} {x : R}
    (near : NearColumn policy queryString string column)
    (last : Near (queryString.length + 1 + string.length)
      (distance policy.exact (queryString ++ [symbol]) string) x) :
    NearColumn policy (queryString ++ [symbol]) string (column ++ [x]) := by
  obtain ⟨size, cells⟩ := near
  refine ⟨by simp [size], ?_⟩
  intro r inside
  rw [List.length_append, List.length_singleton] at inside
  rw [List.getD_eq_getElem?_getD]
  rcases Nat.lt_or_ge r (queryString.length + 1) with before | here
  · rw [List.take_append_of_le_length (by omega), List.getElem?_append_left (by omega),
      ← List.getD_eq_getElem?_getD]
    exact cells r (by omega)
  · obtain rfl : r = queryString.length + 1 := by omega
    rw [List.take_of_length_le (by simp), List.getElem?_append_right (by omega), size,
      Nat.sub_self]
    exact last

theorem nearColumn_root (queryString : List Symbol) :
    NearColumn policy queryString [] (rootColumnOf policy queryString) := by
  induction queryString using List.reverseRecOn with
  | nil =>
    refine ⟨rfl, ?_⟩
    intro r inside
    obtain rfl : r = 0 := Nat.le_zero.mp inside
    exact Near.zero
  | append_singleton queryString symbol ih =>
    have last := ih.2 queryString.length le_rfl
    have size : (rootColumnOf policy queryString).length - 1 = queryString.length := by
      rw [ih.1, Nat.add_sub_cancel]
    rw [List.take_length, List.length_nil, Nat.add_zero] at last
    have cost := (Near.cost (policy.deletion symbol)).mono (Nat.zero_le queryString.length)
    have sum := last.add cost
    rw [← size, List.getD_eq_getElem?_getD, ← List.getLast?_eq_getElem?, size] at sum
    rw [rootColumnOf, List.foldl_append, List.foldl_cons, List.foldl_nil]
    apply nearColumn_concat ih
    rw [distance_concat_nil]
    exact sum

theorem nearColumn_step {string : List Symbol} {previous : List R}
    (near : NearColumn policy queryString string previous) (symbol : Symbol) :
    NearColumn policy queryString (string ++ [symbol])
      (stepColumn policy queryString previous symbol) := by
  obtain ⟨size, cells⟩ := near
  have added {r : Nat} {d : ℚ} {x : R} (cell : Near (r + string.length) d x) (cost : Cost R) :
      Near (r + (string ++ [symbol]).length) (d + value cost.get) (addDistance x cost.get) := by
    have sum := cell.add ((Near.cost cost).mono (Nat.zero_le _))
    rwa [List.length_append, List.length_singleton]
  suffices h : ∀ k ≤ queryString.length,
      NearColumn policy (queryString.take k) (string ++ [symbol])
        ((queryString.zipIdx.take k).foldl (stepCell policy symbol previous)
          [addDistance (previous.getD 0 0) (policy.insertion symbol).get]) by
    have whole := h queryString.length le_rfl
    rwa [List.take_length, List.take_of_length_le (by simp)] at whole
  intro k
  induction k with
  | zero =>
    intro _
    refine ⟨rfl, ?_⟩
    intro r inside
    obtain rfl : r = 0 := by simpa using inside
    have first := added (cells 0 (Nat.zero_le _)) (policy.insertion symbol)
    rw [List.take_zero, distance_nil] at first
    rw [List.take_zero, List.take_zero, distance_nil, List.map_append, List.sum_append,
      List.map_singleton, List.sum_singleton]
    exact first
  | succ k ih =>
    intro bound
    have inside : k < queryString.length := bound
    have current := ih inside.le
    have taken : queryString.take (k + 1) = queryString.take k ++ [queryString[k]] := by
      rw [List.take_add_one, List.getElem?_eq_getElem inside, Option.toList_some]
    have length : (queryString.take k).length = k := by
      rw [List.length_take]
      omega
    rw [List.take_add_one (l := queryString.zipIdx), List.foldl_append, List.getElem?_zipIdx,
      List.getElem?_eq_getElem inside]
    simp only [Option.map_some, Nat.zero_add, Option.toList_some, List.foldl_cons, List.foldl_nil]
    generalize (queryString.zipIdx.take k).foldl (stepCell policy symbol previous)
      [addDistance (previous.getD 0 0) (policy.insertion symbol).get] = column at current ⊢
    have left := current.2 k length.ge
    rw [List.take_take, Nat.min_self] at left
    have deleted : Near (k + 1 + (string ++ [symbol]).length)
        (distance policy.exact (queryString.take k) (string ++ [symbol]) +
          value (policy.deletion queryString[k]).get)
        (addDistance (column.getD k 0) (policy.deletion queryString[k]).get) := by
      rw [Nat.add_right_comm]
      exact left.add ((Near.cost _).mono (Nat.zero_le _))
    have substituted := (added (cells k inside.le)
      (policy.substitution queryString[k] symbol)).mono
        (show k + _ ≤ k + 1 + (string ++ [symbol]).length by omega)
    have inserted := added (cells (k + 1) inside) (policy.insertion symbol)
    rw [taken] at inserted ⊢
    rw [stepCell]
    apply nearColumn_concat current
    rw [distance_concat_concat, length, min_comm (_ + policy.exact.delete _), ← min_assoc]
    exact (substituted.min inserted).min deleted

theorem nearColumn_columnOf (policy : Policy R Symbol) (queryString string : List Symbol) :
    NearColumn policy queryString string (columnOf policy queryString string) := by
  induction string using List.reverseRecOn with
  | nil => exact nearColumn_root queryString
  | append_singleton string symbol ih =>
    rw [columnOf_concat]
    exact nearColumn_step ih symbol

/-- What a scan lists has come from the distances to the prefixes. -/
theorem near_of_scanned {budget : R} {symbols : List Symbol} {k : Nat} {x : R}
    (listed : (prefixDistances policy queryString budget symbols)[k]? = some x) :
    Near (queryString.length + k) (distance policy.exact queryString (symbols.take k)) x := by
  have last (string : List Symbol) := (nearColumn_columnOf policy queryString string).2
    queryString.length le_rfl
  simp only [List.take_length] at last
  rw [prefixDistances] at listed
  cases k with
  | zero =>
    rw [List.getElem?_cons_zero, Option.some.injEq] at listed
    rw [← listed]
    exact last []
  | succ k =>
    rw [List.getElem?_cons_succ] at listed
    have inside := (List.getElem?_eq_some_iff.mp listed).1
    have short := length_distancesPast policy queryString budget [] symbols
    have cell := ((distancesPast_cut policy queryString budget [] symbols).1 k inside).1
    rw [listed, List.nil_append] at cell
    have here := last (symbols.take (k + 1))
    rw [List.getD_eq_getElem?_getD, ← cell, List.length_take, Nat.min_eq_left (by omega)] at here
    exact here

/-- A scan lists every prefix that is below its budget by all that rounding may add. -/
theorem exists_scanned {budget : R} {symbols : List Symbol} {k : Nat} (small : budget ≤ largest)
    (inside : k ≤ symbols.length)
    (cheap : growth R ^ (queryString.length + k) *
      distance policy.exact queryString (symbols.take k) < value budget) :
    ∃ x, (prefixDistances policy queryString budget symbols)[k]? = some x := by
  by_contra missing
  have cut : (distancesPast policy queryString budget [] symbols).length < k := by
    by_contra reached
    apply missing
    refine ⟨_, List.getElem?_eq_getElem (i := k) ?_⟩
    rw [prefixDistances, List.length_cons]
    omega
  have stopped := (distancesPast_cut policy queryString budget [] symbols).2 (cut.trans_le inside)
  rw [List.nil_append] at stopped
  generalize (distancesPast policy queryString budget [] symbols).length = length at cut stopped
  -- some prefix of the query string is as near to the column that stopped the scan
  have split : symbols.take (length + 1) ++ (symbols.take k).drop (length + 1) =
      symbols.take k := by
    have whole := List.take_append_drop (length + 1) (symbols.take k)
    rwa [List.take_take, Nat.min_eq_left (Nat.succ_le_of_lt cut)] at whole
  obtain ⟨n, within, less⟩ := exists_prefix_le policy.exact_nonneg queryString
    (symbols.take (length + 1)) ((symbols.take k).drop (length + 1))
  rw [split] at less
  obtain ⟨size, cells⟩ := nearColumn_columnOf policy queryString (symbols.take (length + 1))
  have near := cells n within
  have steps : n + (symbols.take (length + 1)).length ≤ queryString.length + k := by
    rw [List.length_take]
    omega
  have bounded : growth R ^ (n + (symbols.take (length + 1)).length) *
      distance policy.exact (queryString.take n) (symbols.take (length + 1)) < value budget :=
    (mul_le_mul (growth_pow_le steps) less near.exact_nonneg (pow_pos growth_pos _).le).trans_lt
      cheap
  have cell := near.above (bounded.trans_le (value_le_iff.mpr small))
  have least := stopped.trans (columnMin_le_getD (i := n) (by omega))
  exact absurd (value_le_iff.mpr least) (not_le.mpr (cell.trans_lt bounded))

end Columns
end Yurine
