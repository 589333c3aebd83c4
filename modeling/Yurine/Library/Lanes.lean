import Mathlib.Algebra.BigOperators.Fin
import Mathlib.Data.List.FinRange

/-! Sums split over lanes. A list is cut into chunks of one length and a rest. Lane by lane the
chunks add to accumulators of their own, and the sum of the accumulators and of the rest counts
every element of the list once. -/
namespace Lanes

variable {α β R : Type} {n : Nat}

/-- The whole chunks of a list. -/
def chunks (n : Nat) (values : List α) : List (Vector α n) :=
  List.ofFn fun chunk : Fin (values.length / n) => Vector.ofFn fun lane : Fin n =>
    values.get ⟨chunk.val * n + lane.val, by
      have whole := Nat.div_mul_le_self values.length n
      have inside := Nat.mul_le_mul_right n (Nat.succ_le_of_lt chunk.isLt)
      rw [Nat.succ_mul] at inside
      omega⟩

def remainder (n : Nat) (values : List α) : List α :=
  values.drop (values.length / n * n)

/-- Every lane adds its own term. -/
def addLanes [Add R] (accumulators : Vector R n) (term : Fin n → R) : Vector R n :=
  (List.finRange n).foldl (fun (accumulators : Vector R n) (lane : Fin n) =>
    accumulators.set lane.val (accumulators[lane] + term lane)) accumulators

@[simp] theorem length_chunks (n : Nat) (values : List α) :
    (chunks n values).length = values.length / n := List.length_ofFn

theorem mem_of_mem_chunks {values : List α} {chunk : Vector α n} (mem : chunk ∈ chunks n values)
    (lane : Fin n) : chunk[lane] ∈ values := by
  rw [chunks, List.mem_ofFn] at mem
  obtain ⟨i, rfl⟩ := mem
  simp

theorem flatten_chunks (n : Nat) (values : List α) :
    ((chunks n values).map Vector.toList).flatten = values.take (values.length / n * n) := by
  have whole := Nat.div_mul_le_self values.length n
  have flat := List.ofFn_mul fun i : Fin (values.length / n * n) =>
    values.get ⟨i.val, Nat.lt_of_lt_of_le i.isLt whole⟩
  have taken : List.ofFn (fun i : Fin (values.length / n * n) =>
      values.get ⟨i.val, Nat.lt_of_lt_of_le i.isLt whole⟩) =
        values.take (values.length / n * n) := by
    apply List.ext_getElem <;> simp [whole]
  rw [← taken, flat]
  congr 1
  apply List.ext_getElem (by simp)
  intro chunk left right
  apply List.ext_getElem <;> simp [chunks]

theorem chunks_append_remainder (n : Nat) (values : List α) :
    ((chunks n values).map Vector.toList).flatten ++ remainder n values = values := by
  rw [flatten_chunks, remainder, List.take_append_drop]

theorem getElem_addLanes [Add R] (accumulators : Vector R n) (term : Fin n → R)
    (lane : Fin n) : (addLanes accumulators term)[lane] = accumulators[lane] + term lane := by
  -- a lane that is visited is changed once, the others are not changed
  suffices h : ∀ (visited : List (Fin n)) (start : Vector R n), visited.Nodup →
      (visited.foldl (fun (accumulators : Vector R n) (lane : Fin n) =>
        accumulators.set lane.val (accumulators[lane] + term lane)) start)[lane] =
          if lane ∈ visited then start[lane] + term lane else start[lane] by
    rw [addLanes, h _ _ (List.nodup_finRange n), if_pos (List.mem_finRange lane)]
  intro visited
  induction visited with
  | nil => simp
  | cons first rest ih =>
    intro start distinct
    obtain ⟨new, distinct⟩ := List.nodup_cons.mp distinct
    rw [List.foldl_cons, ih _ distinct]
    by_cases same : lane = first
    · subst same
      simp [new]
    · have apart : first.val ≠ lane.val := fun h => same (Fin.ext h.symm)
      simp [same, Vector.getElem_set_ne, apart]

theorem getElem_foldl_addLanes [Add R] {ι : Type} (items : List ι) (term : ι → Fin n → R)
    (accumulators : Vector R n) (lane : Fin n) :
    (items.foldl (fun accumulators i => addLanes accumulators (term i)) accumulators)[lane] =
      items.foldl (fun sum i => sum + term i lane) accumulators[lane] := by
  induction items generalizing accumulators with
  | nil => rfl
  | cons i items ih => rw [List.foldl_cons, List.foldl_cons, ih, getElem_addLanes]

theorem flatten_zipWith (g : α → β → R) (left : List (Vector α n)) (right : List (Vector β n))
    (same : left.length = right.length) :
    List.zipWith g (left.map Vector.toList).flatten (right.map Vector.toList).flatten =
      ((left.zip right).map fun pair => List.zipWith g pair.1.toList pair.2.toList).flatten := by
  induction left generalizing right with
  | nil => simp
  | cons first left ih =>
    cases right with
    | nil => simp at same
    | cons second right =>
      have rest := ih right (Nat.succ.inj same)
      simp [List.zipWith_append, rest]

section Sums
variable [AddCommMonoid R]

theorem sum_foldl_addLanes (terms : List (Fin n → R)) (accumulators : Vector R n) :
    ∑ lane : Fin n, (terms.foldl addLanes accumulators)[lane] =
      ∑ lane : Fin n, accumulators[lane] + (terms.map fun term => ∑ lane, term lane).sum := by
  induction terms generalizing accumulators with
  | nil => simp
  | cons term terms ih =>
    rw [List.foldl_cons, ih, List.map_cons, List.sum_cons, ← add_assoc, ← Finset.sum_add_distrib]
    simp only [getElem_addLanes]

theorem sum_toList (values : Vector R n) : values.toList.sum = ∑ lane : Fin n, values[lane] := by
  rw [← List.sum_ofFn]
  congr 1
  apply List.ext_getElem <;> simp

theorem sum_comm_lanes {ι : Type} (items : List ι) (term : ι → Fin n → R) :
    ∑ lane : Fin n, (items.map fun i => term i lane).sum =
      (items.map fun i => ∑ lane, term i lane).sum := by
  induction items with
  | nil => simp
  | cons i items ih => simp only [List.map_cons, List.sum_cons, Finset.sum_add_distrib, ih]

/-- Accumulating from zero and adding up the accumulators gives the sum of all terms. -/
theorem sum_lanes (terms : List (Fin n → R)) :
    (terms.foldl addLanes (Vector.replicate n 0)).toList.sum =
      (terms.map fun term => ∑ lane, term lane).sum := by
  rw [sum_toList, sum_foldl_addLanes]
  simp

/-- Lane by lane and then over the rest, every pair of elements at one index is counted once. -/
theorem sum_chunks_remainder (n : Nat) (g : α → β → R) (xs : List α) (ys : List β)
    (same : xs.length = ys.length) :
    (((chunks n xs).zip (chunks n ys)).map fun pair =>
        ∑ lane : Fin n, g pair.1[lane] pair.2[lane]).sum +
      (List.zipWith g (remainder n xs) (remainder n ys)).sum = (List.zipWith g xs ys).sum := by
  have lanes (pair : Vector α n × Vector β n) :
      ∑ lane : Fin n, g pair.1[lane] pair.2[lane] =
        (List.zipWith g pair.1.toList pair.2.toList).sum := by
    rw [← List.sum_ofFn]
    congr 1
    apply List.ext_getElem <;> simp
  have whole : (chunks n xs).length = (chunks n ys).length := by simp [same]
  have flat : ((chunks n xs).map Vector.toList).flatten.length =
      ((chunks n ys).map Vector.toList).flatten.length := by
    simp [flatten_chunks, same]
  calc _ = (List.zipWith g ((chunks n xs).map Vector.toList).flatten
          ((chunks n ys).map Vector.toList).flatten).sum +
        (List.zipWith g (remainder n xs) (remainder n ys)).sum := by
        rw [flatten_zipWith g _ _ whole, List.sum_flatten, List.map_map]
        simp only [lanes, Function.comp_def]
    _ = _ := by
        rw [← List.sum_append, ← List.zipWith_append flat, chunks_append_remainder,
          chunks_append_remainder]

end Sums
end Lanes
