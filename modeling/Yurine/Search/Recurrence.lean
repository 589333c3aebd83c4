import Yurine.Search.Columns

/-! The recurrence of the columns. Folding it over a data string gives the least totals of edit
scripts, those that no number represents as infinity, and the least cell of a column bounds the
cells of every later one: that needs no exact sums. -/
namespace Yurine
open Outcome EditScripts

section Fold
variable {R : Type} [Number R] {policy : Policy R Symbol} {costs : EditCosts R Symbol}
  {known : Symbol → Prop} {queryString : List Symbol}

/-- The fold of `step_dp` over a data string, from the column of the empty one. -/
def dpColumn (queryString string : List Symbol) (costs : EditCosts R Symbol) :
    Result R (List R) := do
  string.foldlM (fun column symbol => stepDp queryString symbol column costs)
    (← rootColumn queryString costs)

/-- `column.iter().copied().fold(f32::INFINITY, f32::min)`. -/
def columnMin (column : List R) : R := column.foldl min infinity

theorem dpColumn_ok (policy : Policy R Symbol) (queryString string : List Symbol) :
    dpColumn queryString string policy.costs = .ok (columnOf policy queryString string) := by
  have answers := policy.costs_answers fun _ => True
  induction string using List.reverseRecOn with
  | nil =>
    apply bind_eq_ok.mpr ⟨_, rootColumn_ok answers fun _ _ => trivial, rfl⟩
  | append_singleton string symbol ih =>
    obtain ⟨root, started, folded⟩ := bind_eq_ok.mp ih
    apply bind_eq_ok.mpr ⟨root, started, _⟩
    rw [List.foldlM_append, folded, bind_ok, columnOf_concat, List.foldlM_cons,
      stepDp_ok answers (fun _ _ => trivial) trivial (length_columnOf string), bind_ok]
    rfl

theorem le_columnMin_iff {column : List R} {x : R} :
    x ≤ columnMin column ↔ x ≤ infinity ∧ ∀ cell ∈ column, x ≤ cell := by
  unfold columnMin
  generalize (infinity : R) = least
  induction column generalizing least with
  | nil => simp
  | cons cell column ih => rw [List.foldl_cons, ih, le_min_iff, List.forall_mem_cons, and_assoc]

theorem columnMin_le_getD {column : List R} {i : Nat} (inside : i < column.length) :
    columnMin column ≤ column.getD i 0 := by
  rw [List.getD_eq_getElem?_getD, List.getElem?_eq_getElem inside]
  exact (le_columnMin_iff.mp le_rfl).2 _ (List.getElem_mem inside)

end Fold

section Monotone
variable {R : Type} [MonotoneNumber R] {policy : Policy R Symbol} {queryString : List Symbol}

theorem le_addDistance {least x y : R} (top : least ≤ infinity) (less : least ≤ x) (hx : 0 ≤ x)
    (hy : 0 ≤ y) : least ≤ addDistance x y := by
  have sum : x ≤ x + y := by
    calc x = x + 0 := (MonotoneNumber.add_zero_nonneg x hx).symm
      _ ≤ x + y := MonotoneNumber.add_le_add_nonneg x x 0 y hx le_rfl le_rfl hy
  have above := less.trans sum
  unfold addDistance
  dsimp only
  split_ifs <;> assumption

/-- No cell of the next column is below the least cell of this one. -/
theorem columnMin_le_stepColumn {previous : List R}
    (size : previous.length = queryString.length + 1) (nonneg : ∀ cell ∈ previous, 0 ≤ cell)
    (symbol : Symbol) :
    columnMin previous ≤ columnMin (stepColumn policy queryString previous symbol) := by
  obtain ⟨top, _⟩ := le_columnMin_iff.mp (le_refl (columnMin previous))
  have positive : 0 ≤ columnMin previous := le_columnMin_iff.mpr
    ⟨Number.zero_le_largest.trans Number.largest_lt_infinity.le, nonneg⟩
  have above {i : Nat} (inside : i < previous.length) (cost : Cost R) :
      columnMin previous ≤ addDistance (previous.getD i 0) cost.get :=
    le_addDistance top (columnMin_le_getD inside) (getD_nonneg nonneg i) cost.nonneg
  apply le_columnMin_iff.mpr ⟨top, _⟩
  -- cell by cell: the third way into a cell goes through the one above it
  suffices h : ∀ k ≤ queryString.length, ∀ cell ∈ (queryString.zipIdx.take k).foldl
      (stepCell policy symbol previous) [addDistance (previous.getD 0 0)
        (policy.insertion symbol).get], columnMin previous ≤ cell by
    have whole := h queryString.length le_rfl
    rwa [List.take_of_length_le (by simp)] at whole
  intro k
  induction k with
  | zero =>
    intro _ cell mem
    rw [List.mem_singleton.mp mem]
    exact above (by omega) _
  | succ k ih =>
    intro bound
    have inside : k < queryString.length := bound
    have earlier := ih inside.le
    rw [List.take_add_one, List.foldl_append, List.getElem?_zipIdx,
      List.getElem?_eq_getElem inside]
    generalize current : (queryString.zipIdx.take k).foldl (stepCell policy symbol previous)
      [addDistance (previous.getD 0 0) (policy.insertion symbol).get] = cells at earlier ⊢
    have length : cells.length = k + 1 := by
      rw [← current, length_foldl_stepCell]
      simp
      omega
    have here : cells.getD k 0 ∈ cells := by
      rw [List.getD_eq_getElem?_getD, List.getElem?_eq_getElem (by omega)]
      exact List.getElem_mem _
    intro cell mem
    rcases List.mem_append.mp mem with old | new
    · exact earlier cell old
    · rw [List.mem_singleton.mp new]
      refine le_min (le_min (above (by simp; omega) _) (above (by simp; omega) _)) ?_
      simp only [Nat.zero_add]
      exact le_addDistance top (earlier _ here) (positive.trans (earlier _ here)) (Cost.nonneg _)

/-- The least cell never decreases. -/
theorem columnMin_mono (policy : Policy R Symbol) (queryString string rest : List Symbol) :
    columnMin (columnOf policy queryString string) ≤
      columnMin (columnOf policy queryString (string ++ rest)) := by
  induction rest using List.reverseRecOn with
  | nil => rw [List.append_nil]
  | append_singleton rest symbol ih =>
    rw [← List.append_assoc, columnOf_concat]
    exact ih.trans (columnMin_le_stepColumn (length_columnOf _)
      (columnOf_nonneg policy queryString _) symbol)

end Monotone

/-- The columns of a data string are the least totals of the edit scripts to it. -/
theorem dpColumn_exact {R : Type} [ExactNumber R] (policy : Policy R Symbol)
    (queryString string : List Symbol) :
    ∃ column, dpColumn queryString string policy.costs = .ok column ∧
      column.length = queryString.length + 1 ∧
      (∀ r ≤ queryString.length, ∃ least,
        IsLeast (totals policy.weights (queryString.take r) string) least ∧
        column[r]? = some (if least ≤ largest then least else infinity)) ∧
      (∀ symbol, ∃ next, stepDp queryString symbol column policy.costs = .ok next ∧
        columnMin column ≤ columnMin next) ∧
      ∃ backward, dpColumn queryString.reverse string.reverse policy.costs = .ok backward ∧
        backward[queryString.length]? = column[queryString.length]? := by
  refine ⟨_, dpColumn_ok policy queryString string, length_columnOf string, ?_, ?_, ?_⟩
  · intro r inside
    have row : r < queryString.length + 1 := by omega
    refine ⟨_, distance_isLeast policy.weights (queryString.take r) string, ?_⟩
    rw [columnOf_eq, prefixColumn, List.getElem?_map, List.getElem?_range row]
    rfl
  · intro symbol
    refine ⟨_, stepDp_ok (policy.costs_answers fun _ => True) (fun _ _ => trivial) trivial
      (length_columnOf string), ?_⟩
    exact columnMin_le_stepColumn (length_columnOf string) (columnOf_nonneg policy queryString _)
      symbol
  · have last (queryString string : List Symbol) :
        (columnOf policy queryString string)[queryString.length]? =
          some (capped (distance policy.weights queryString string)) := by
      rw [columnOf_eq, prefixColumn, List.getElem?_map, List.getElem?_range (Nat.lt_succ_self _),
        Option.map_some, List.take_length]
    refine ⟨_, dpColumn_ok policy queryString.reverse string.reverse, ?_⟩
    rw [last, ← List.length_reverse, last, distance_reverse]

end Yurine
