import Yurine.Library.Lanes
import Mathlib.Algebra.Ring.Defs

/-! The similarity of two embeddings, read over any ring: the elements of the vectors are not the
bit patterns of the stored rows but numbers that add and multiply exactly. -/
namespace Yurine
open Lanes

variable {R : Type}

def lanes : Nat := 16

def dotProduct [Zero R] [Add R] [Mul R] (source target : List R) : R :=
  let accumulators := ((chunks lanes source).zip (chunks lanes target)).foldl
    (fun accumulators pair => addLanes accumulators fun lane => pair.1[lane] * pair.2[lane])
    (Vector.replicate lanes 0)
  let product := accumulators.toList.sum
  ((remainder lanes source).zip (remainder lanes target)).foldl
    (fun product pair => product + pair.1 * pair.2) product

/-- The loop over the elements outside the whole chunks adds their products. -/
theorem foldl_remainder [AddMonoid R] [Mul R] (start : R) (source target : List R) :
    (source.zip target).foldl (fun product pair => product + pair.1 * pair.2) start =
      start + (List.zipWith (· * ·) source target).sum := by
  induction source generalizing start target with
  | nil => simp
  | cons a source ih =>
    cases target with
    | nil => simp
    | cons b target => simp [ih, add_assoc]

/-- Split over lanes, the dot product still counts every index once. -/
theorem dotProduct_eq_sum [NonUnitalNonAssocSemiring R] {n : Nat} (source target : Vector R n) :
    dotProduct source.toList target.toList = ∑ i : Fin n, source.get i * target.get i := by
  have length : source.toList.length = target.toList.length := by simp
  have split := sum_chunks_remainder lanes (· * ·) source.toList target.toList length
  have accumulated := sum_lanes (((chunks lanes source.toList).zip (chunks lanes target.toList)).map
    fun pair lane => pair.1[lane] * pair.2[lane])
  rw [List.foldl_map, List.map_map] at accumulated
  calc dotProduct source.toList target.toList
      = _ + (List.zipWith (· * ·) (remainder lanes source.toList)
          (remainder lanes target.toList)).sum := foldl_remainder _ _ _
    _ = (List.zipWith (· * ·) source.toList target.toList).sum := by
        rw [accumulated, ← split]
        rfl
    _ = ∑ i : Fin n, source.get i * target.get i := by
        rw [← List.sum_ofFn]
        congr 1
        apply List.ext_getElem (by simp)
        intro i left right
        simp [Vector.get]

/-- Seventeen elements fill one chunk and leave one. -/
example : dotProduct (List.replicate 17 (2 : Int)) (List.replicate 17 3) = 102 := by decide

end Yurine
