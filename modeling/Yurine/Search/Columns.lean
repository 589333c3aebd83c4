import Yurine.Costs
import Yurine.Types
import Yurine.Library.EditScripts
import Mathlib.Data.List.Induction

/-! Columns of the weighted edit distance. A column is computed symbol by symbol and
describes the data string read so far; with exact sums its cells are distances, where
everything above the largest number has become infinity. -/
namespace Yurine
open Outcome EditScripts

section Definitions
variable {R : Type} [Number R]

/-- A sum whose exact value exceeds the largest number becomes infinity. -/
def addDistance (left right : R) : R :=
  let sum := left + right
  if ¬ sum ≤ largest then infinity
  else if sum ≠ largest then sum
  else
    -- the part of `right` that rounding lost
    let rightRounded := sum - left
    let residual := (left - (sum - rightRounded)) + (right - rightRounded)
    if 0 < residual then infinity else sum

/-- The column of the empty data string: every query prefix is deleted. -/
def rootColumn (queryString : List Symbol) (costs : EditCosts R Symbol) : Result R (List R) :=
  queryString.foldlM (fun column querySymbol => do
    let deletion ← costs.deletion querySymbol
    return column ++ [addDistance (column.getLast?.getD 0) deletion.get]) [0]

/-- One cell of the next column, from the three cells before it. -/
def pushCell (stringSymbol : Symbol) (previous : List R) (costs : EditCosts R Symbol)
    (current : List R) (entry : Symbol × Nat) : Result R (List R) := do
  let both ← index previous entry.2
  let substitution ← costs.substitution entry.1 stringSymbol
  let string ← index previous (entry.2 + 1)
  let insertion ← costs.insertion stringSymbol
  let query ← index current entry.2
  let deletion ← costs.deletion entry.1
  return current ++ [min (min (addDistance both substitution.get)
    (addDistance string insertion.get)) (addDistance query deletion.get)]

def stepDp (queryString : List Symbol) (stringSymbol : Symbol) (previous : List R)
    (costs : EditCosts R Symbol) : Result R (List R) := do
  let first ← index previous 0
  let insertion ← costs.insertion stringSymbol
  queryString.zipIdx.foldlM (pushCell stringSymbol previous costs)
    [addDistance first insertion.get]

def rootColumnOf (policy : Policy R Symbol) (queryString : List Symbol) : List R :=
  queryString.foldl (fun column querySymbol =>
    column ++ [addDistance (column.getLast?.getD 0) (policy.deletion querySymbol).get]) [0]

def stepCell (policy : Policy R Symbol) (stringSymbol : Symbol) (previous current : List R)
    (entry : Symbol × Nat) : List R :=
  current ++ [min (min
    (addDistance (previous.getD entry.2 0) (policy.substitution entry.1 stringSymbol).get)
    (addDistance (previous.getD (entry.2 + 1) 0) (policy.insertion stringSymbol).get))
    (addDistance (current.getD entry.2 0) (policy.deletion entry.1).get)]

def stepColumn (policy : Policy R Symbol) (queryString : List Symbol) (previous : List R)
    (stringSymbol : Symbol) : List R :=
  queryString.zipIdx.foldl (stepCell policy stringSymbol previous)
    [addDistance (previous.getD 0 0) (policy.insertion stringSymbol).get]

/-- The column after a data string. -/
def columnOf (policy : Policy R Symbol) (queryString string : List Symbol) : List R :=
  string.foldl (stepColumn policy queryString) (rootColumnOf policy queryString)

end Definitions

section Runs
variable {R : Type} [Number R] {policy : Policy R Symbol} {costs : EditCosts R Symbol}
  {known : Symbol → Prop} {queryString : List Symbol}

theorem length_rootColumnOf (policy : Policy R Symbol) (queryString : List Symbol) :
    (rootColumnOf policy queryString).length = queryString.length + 1 := by
  unfold rootColumnOf
  suffices h : ∀ (rest : List Symbol) (column : List R), (rest.foldl (fun column querySymbol =>
      column ++ [addDistance (column.getLast?.getD 0) (policy.deletion querySymbol).get])
        column).length = column.length + rest.length by
    rw [h, List.length_singleton, Nat.add_comm]
  intro rest
  induction rest with
  | nil => simp
  | cons symbol rest ih =>
    intro column
    rw [List.foldl_cons, ih]
    simp
    omega

theorem length_foldl_stepCell (stringSymbol : Symbol) (previous current : List R)
    (entries : List (Symbol × Nat)) :
    (entries.foldl (stepCell policy stringSymbol previous) current).length =
      current.length + entries.length := by
  induction entries generalizing current with
  | nil => simp
  | cons entry entries ih =>
    rw [List.foldl_cons, ih]
    simp [stepCell]
    omega

theorem length_stepColumn (previous : List R) (stringSymbol : Symbol) :
    (stepColumn policy queryString previous stringSymbol).length = queryString.length + 1 := by
  rw [stepColumn, length_foldl_stepCell]
  simp
  omega

theorem columnOf_concat (string : List Symbol) (symbol : Symbol) :
    columnOf policy queryString (string ++ [symbol]) =
      stepColumn policy queryString (columnOf policy queryString string) symbol := by
  simp [columnOf]

theorem length_columnOf (string : List Symbol) :
    (columnOf policy queryString string).length = queryString.length + 1 := by
  rcases List.eq_nil_or_concat' string with rfl | ⟨string, symbol, rfl⟩
  · exact length_rootColumnOf policy queryString
  · rw [columnOf_concat, length_stepColumn]

theorem rootColumn_ok (answers : costs.Answers policy known)
    (query : ∀ symbol ∈ queryString, known symbol) :
    rootColumn queryString costs = .ok (rootColumnOf policy queryString) := by
  unfold rootColumn rootColumnOf
  generalize [(0 : R)] = column
  induction queryString generalizing column with
  | nil => rfl
  | cons symbol rest ih =>
    rw [List.foldlM_cons, answers.deletion symbol (query symbol (by simp)), bind_ok]
    exact ih (fun s h => query s (List.mem_cons_of_mem symbol h)) _

theorem foldlM_cells {cell : List R → Symbol × Nat → Result R (List R)} {stringSymbol : Symbol}
    {previous : List R} (first : R)
    (each : ∀ i (inside : i < queryString.length) (current : List R), current.length = i + 1 →
      cell current (queryString[i], i) =
        .ok (stepCell policy stringSymbol previous current (queryString[i], i))) :
    queryString.zipIdx.foldlM cell [first] =
      .ok (queryString.zipIdx.foldl (stepCell policy stringSymbol previous) [first]) := by
  have loop := Ensures.foldlM_zipIdx (ε := Error R) (E := fun _ => False) (l := queryString)
    (f := cell) (s := [first])
    (motive := fun k current => current = (queryString.zipIdx.take k).foldl
      (stepCell policy stringSymbol previous) [first]) rfl ?_
  · rwa [ensures_eq, List.take_of_length_le (by simp)] at loop
  · rintro i inside current rfl
    rw [each i inside _ (by rw [length_foldl_stepCell]; simp; omega), ensures_ok, List.take_add_one,
      List.foldl_append]
    simp [inside]

theorem index_getD {cells : List R} {i : Nat} (inside : i < cells.length) :
    index (ε := Error R) cells i = .ok (cells.getD i 0) := by
  rw [index_ok inside, List.getD_eq_getElem?_getD, List.getElem?_eq_getElem inside]
  rfl

theorem stepDp_ok (answers : costs.Answers policy known)
    (query : ∀ symbol ∈ queryString, known symbol) {stringSymbol : Symbol}
    (string : known stringSymbol) {previous : List R}
    (size : previous.length = queryString.length + 1) :
    stepDp queryString stringSymbol previous costs =
      .ok (stepColumn policy queryString previous stringSymbol) := by
  unfold stepDp stepColumn
  rw [index_getD (by omega), bind_ok, answers.insertion _ string, bind_ok]
  refine foldlM_cells _ (fun i inside current length => ?_)
  have here := query _ (List.getElem_mem inside)
  unfold pushCell
  simp only [index_getD (show i < previous.length by omega),
    index_getD (show i + 1 < previous.length by omega),
    index_getD (show i < current.length by omega), answers.substitution _ _ here string,
    answers.insertion _ string, answers.deletion _ here, bind_ok]
  rfl

end Runs

section Nonneg
variable {R : Type} [MonotoneNumber R]

theorem addDistance_nonneg {x y : R} (hx : 0 ≤ x) (hy : 0 ≤ y) : 0 ≤ addDistance x y := by
  have top : (0 : R) ≤ infinity := Number.zero_le_largest.trans Number.largest_lt_infinity.le
  have sum := add_nonneg_of hx hy
  unfold addDistance
  dsimp only
  split_ifs <;> assumption

theorem getD_nonneg {cells : List R} (nonneg : ∀ cell ∈ cells, 0 ≤ cell) (i : Nat) :
    0 ≤ cells.getD i 0 := by
  rw [List.getD_eq_getElem?_getD]
  cases found : cells[i]? with
  | none => exact le_refl 0
  | some cell => exact nonneg cell (List.mem_of_getElem? found)

private theorem concat_nonneg {cells : List R} (nonneg : ∀ cell ∈ cells, 0 ≤ cell) {x : R}
    (hx : 0 ≤ x) : ∀ cell ∈ cells ++ [x], 0 ≤ cell := by
  intro cell mem
  rcases List.mem_append.mp mem with old | new
  · exact nonneg cell old
  · exact List.mem_singleton.mp new ▸ hx

theorem columnOf_nonneg (policy : Policy R Symbol) (queryString string : List Symbol) :
    ∀ cell ∈ columnOf policy queryString string, 0 ≤ cell := by
  refine List.foldlRecOn string (motive := fun column : List R => ∀ cell ∈ column, 0 ≤ cell)
    (stepColumn policy queryString) ?root ?step
  case root =>
    refine List.foldlRecOn queryString (motive := fun column : List R => ∀ cell ∈ column, 0 ≤ cell)
      _ (by simp) (fun column nonneg symbol _ => concat_nonneg nonneg ?_)
    rw [List.getLast?_eq_getElem?, ← List.getD_eq_getElem?_getD]
    exact addDistance_nonneg (getD_nonneg nonneg _) (Cost.nonneg _)
  case step =>
    intro previous nonneg symbol _
    refine List.foldlRecOn queryString.zipIdx
      (motive := fun column : List R => ∀ cell ∈ column, 0 ≤ cell) _ ?_ ?_
    · intro cell mem
      rw [List.mem_singleton.mp mem]
      exact addDistance_nonneg (getD_nonneg nonneg _) (Cost.nonneg _)
    · intro column earlier entry _
      refine concat_nonneg earlier (le_min (le_min ?_ ?_) ?_)
      · exact addDistance_nonneg (getD_nonneg nonneg _) (Cost.nonneg _)
      · exact addDistance_nonneg (getD_nonneg nonneg _) (Cost.nonneg _)
      · exact addDistance_nonneg (getD_nonneg earlier _) (Cost.nonneg _)

end Nonneg

def Policy.weights [Number R] (policy : Policy R T) : Weights T T R where
  substitute a b := (policy.substitution a b).get
  delete a := (policy.deletion a).get
  insert b := (policy.insertion b).get

/-- What a distance becomes in a cell. -/
def capped [Number R] (x : R) : R := if x ≤ largest then x else infinity

section Exact
variable {R : Type} [ExactNumber R] {policy : Policy R Symbol} {queryString : List Symbol}

theorem Policy.nonneg {T : Type} (policy : Policy R T) : policy.weights.Nonneg :=
  ⟨fun _ _ => Cost.nonneg _, fun _ => Cost.nonneg _, fun _ => Cost.nonneg _⟩

theorem capped_of_le {x : R} (small : x ≤ largest) : capped x = x := if_pos small

theorem capped_of_lt {x : R} (large : largest < x) : capped x = infinity := if_neg (not_le.mpr large)

@[simp] theorem capped_cost (cost : Cost R) : capped cost.get = cost.get := capped_of_le cost.finite

theorem capped_lt_iff {x y : R} (small : y ≤ largest) : capped x < y ↔ x < y := by
  unfold capped
  split
  · rfl
  · rename_i large
    have above := small.trans (not_le.mp large).le
    exact ⟨fun h => absurd (h.trans_le (small.trans Number.largest_lt_infinity.le)) (lt_irrefl _),
      fun h => absurd (h.trans_le above) (lt_irrefl _)⟩

theorem capped_mono {x y : R} (less : x ≤ y) : capped x ≤ capped y := by
  unfold capped
  split
  · split
    · exact less
    · exact ‹x ≤ largest›.trans Number.largest_lt_infinity.le
  · rename_i large
    rw [if_neg (fun small => large (less.trans small))]

theorem capped_min (x y : R) : capped (min x y) = min (capped x) (capped y) :=
  Monotone.map_min (fun _ _ => capped_mono)

/-- Adding cells adds the distances they stand for. -/
theorem addDistance_capped {x y : R} (hx : 0 ≤ x) (hy : 0 ≤ y) :
    addDistance (capped x) (capped y) = capped (x + y) := by
  have far {a b : R} (ha : 0 ≤ a) (h : largest < b) : largest < a + b :=
    h.trans_le (le_add_of_nonneg_left ha)
  have far' {a b : R} (hb : 0 ≤ b) (h : largest < a) : largest < a + b :=
    h.trans_le (le_add_of_nonneg_right hb)
  have overflow {a b : R} (h : largest < a + b) : addDistance a b = infinity := by
    unfold addDistance
    rw [if_pos (not_le.mpr h)]
  have nonneg {a : R} (ha : 0 ≤ a) : 0 ≤ capped a := by
    have := capped_mono ha
    rwa [capped_of_le (Number.zero_le_largest (R := R))] at this
  rcases le_or_gt x largest with smallx | largex
  · rcases le_or_gt y largest with smally | largey
    · rw [capped_of_le smallx, capped_of_le smally]
      rcases le_or_gt (x + y) largest with small | large
      · rw [capped_of_le small]
        have residual : x - (x + y - (x + y - x)) + (y - (x + y - x)) = 0 := by abel
        unfold addDistance
        simp only [not_true_eq_false, if_false, small, residual, lt_irrefl, ite_self]
      · rw [capped_of_lt large, overflow large]
    · rw [capped_of_lt largey, capped_of_lt (far hx largey)]
      exact overflow (far (nonneg hx) Number.largest_lt_infinity)
  · rw [capped_of_lt largex, capped_of_lt (far' hy largex)]
    exact overflow (far' (nonneg hy) Number.largest_lt_infinity)

theorem addDistance_cost {x : R} (hx : 0 ≤ x) (cost : Cost R) :
    addDistance (capped x) cost.get = capped (x + cost.get) := by
  rw [← addDistance_capped hx cost.nonneg, capped_cost]

/-- The distances from the prefixes of the query string to a data string. -/
def prefixColumn (policy : Policy R Symbol) (queryString string : List Symbol) : List R :=
  (List.range (queryString.length + 1)).map
    (fun r => capped (distance policy.weights (queryString.take r) string))

theorem getD_prefixColumn {string : List Symbol} {r : Nat} (inside : r ≤ queryString.length) :
    (prefixColumn policy queryString string).getD r 0 =
      capped (distance policy.weights (queryString.take r) string) := by
  have : r < queryString.length + 1 := by omega
  simp [prefixColumn, List.getD_eq_getElem?_getD, this]

theorem prefixColumn_concat (string : List Symbol) (symbol : Symbol) :
    prefixColumn policy (queryString ++ [symbol]) string =
      prefixColumn policy queryString string ++
        [capped (distance policy.weights (queryString ++ [symbol]) string)] := by
  unfold prefixColumn
  rw [List.length_append, List.length_singleton, List.range_succ, List.map_append]
  congr 1
  · refine List.map_congr_left (fun r mem => ?_)
    rw [List.take_append_of_le_length (by have := List.mem_range.mp mem; omega)]
  · rw [List.map_singleton, List.take_of_length_le (by simp)]

theorem rootColumnOf_eq (queryString : List Symbol) :
    rootColumnOf policy queryString = prefixColumn policy queryString [] := by
  induction queryString using List.reverseRecOn with
  | nil => simp [rootColumnOf, prefixColumn, capped_of_le Number.zero_le_largest]
  | append_singleton queryString symbol ih =>
    have deleted : policy.weights.delete symbol = (policy.deletion symbol).get := rfl
    rw [prefixColumn_concat, ← ih, distance_concat_nil, deleted,
      ← addDistance_cost (policy.nonneg.distance _ _)]
    have last : (rootColumnOf policy queryString).getLast?.getD 0 =
        capped (distance policy.weights queryString []) := by
      rw [ih, List.getLast?_eq_getElem?, ← List.getD_eq_getElem?_getD]
      have size : (prefixColumn policy queryString []).length - 1 = queryString.length := by
        simp [prefixColumn]
      rw [size, getD_prefixColumn (le_refl _), List.take_length]
    rw [← last]
    simp [rootColumnOf]

theorem stepColumn_eq (string : List Symbol) (symbol : Symbol) :
    stepColumn policy queryString (prefixColumn policy queryString string) symbol =
      prefixColumn policy queryString (string ++ [symbol]) := by
  have nonneg (q d : List Symbol) : 0 ≤ distance policy.weights q d := policy.nonneg.distance q d
  suffices h : ∀ k ≤ queryString.length, (queryString.zipIdx.take k).foldl
      (stepCell policy symbol (prefixColumn policy queryString string))
      [addDistance ((prefixColumn policy queryString string).getD 0 0)
        (policy.insertion symbol).get] =
      prefixColumn policy (queryString.take k) (string ++ [symbol]) by
    have whole := h queryString.length (le_refl _)
    rwa [List.take_length, List.take_of_length_le (by simp)] at whole
  intro k
  induction k with
  | zero =>
    intro _
    rw [getD_prefixColumn (Nat.zero_le _), addDistance_cost (nonneg _ _)]
    simp [prefixColumn, Policy.weights]
  | succ k ih =>
    intro bound
    have inside : k < queryString.length := by omega
    have taken : queryString.take (k + 1) = queryString.take k ++ [queryString[k]] := by
      rw [List.take_add_one, List.getElem?_eq_getElem inside, Option.toList_some]
    have left : (prefixColumn policy (queryString.take k) (string ++ [symbol])).getD k 0 =
        capped (distance policy.weights (queryString.take k) (string ++ [symbol])) := by
      rw [getD_prefixColumn (by simp; omega), List.take_take, Nat.min_self]
    rw [List.take_add_one, List.foldl_append, ih (by omega), List.getElem?_zipIdx,
      List.getElem?_eq_getElem inside]
    simp only [Option.map_some, Nat.zero_add, Option.toList_some, List.foldl_cons, List.foldl_nil,
      stepCell]
    rw [getD_prefixColumn (by omega), getD_prefixColumn (by omega), left,
      addDistance_cost (nonneg _ _), addDistance_cost (nonneg _ _), addDistance_cost (nonneg _ _),
      ← capped_min, ← capped_min, taken, prefixColumn_concat, distance_concat_concat]
    rw [min_assoc, min_comm (distance policy.weights _ string + (policy.insertion symbol).get)]
    rfl

/-- Columns are distances. -/
theorem columnOf_eq (string : List Symbol) :
    columnOf policy queryString string = prefixColumn policy queryString string := by
  induction string using List.reverseRecOn with
  | nil => exact rootColumnOf_eq queryString
  | append_singleton string symbol ih => rw [columnOf_concat, ih, stepColumn_eq]

end Exact
end Yurine
