import Yurine.Errors
import Mathlib.Algebra.Order.Group.Defs
import Mathlib.Algebra.Order.Group.Int

/-! Edit costs and the numbers they are made of. `Number` lists the single-precision
operations of the search, without an algebraic law for any of them. `MonotoneNumber` adds
what holds of rounding addition too, `ExactNumber` reads sums as exact, and in `DiscreteNumber`
the strict bound is the least number above the threshold besides. -/
namespace Yurine
open Outcome

class Number (R : Type) extends LinearOrder R, Zero R, Add R, Sub R, Mul R, Div R, NatCast R where
  /-- `f32::MAX`. -/
  largest : R
  /-- `f32::INFINITY`. -/
  infinity : R
  /-- `f32::next_up`. -/
  nextUp : R → R
  zero_le_largest : 0 ≤ largest
  largest_lt_infinity : largest < infinity
  lt_nextUp : ∀ x, 0 ≤ x → x < largest → x < nextUp x
  nextUp_le : ∀ x, 0 ≤ x → x < largest → nextUp x ≤ largest

export Number (largest infinity)

/-- Addition of non-negative numbers is monotone with zero neutral; it need not be
associative, as rounding addition is not. -/
class MonotoneNumber (R : Type) extends Number R where
  zero_add_nonneg : ∀ a : R, 0 ≤ a → 0 + a = a
  add_zero_nonneg : ∀ a : R, 0 ≤ a → a + 0 = a
  add_le_add_nonneg : ∀ a b c d : R, 0 ≤ a → 0 ≤ c → a ≤ b → c ≤ d → a + c ≤ b + d
  sub_pos_lt : ∀ a b : R, a < b → 0 < b - a

/-- The next number above a threshold is the least one above it. -/
class NextNumber (R : Type) extends Number R where
  lt_nextUp_iff : ∀ x : R, 0 ≤ x → x < largest → ∀ y : R, y < nextUp x ↔ y ≤ x

/-- Sums are exact. -/
class ExactNumber (R : Type) extends Number R, AddCommGroup R, IsOrderedAddMonoid R

class DiscreteNumber (R : Type) extends ExactNumber R, NextNumber R

instance [ExactNumber R] : MonotoneNumber R where
  zero_add_nonneg a _ := zero_add a
  add_zero_nonneg a _ := add_zero a
  add_le_add_nonneg _ _ _ _ _ _ := add_le_add
  sub_pos_lt _ _ := sub_pos_of_lt

/-- A share of a cost is a cost. -/
class SharedNumber (R : Type) [Number R] : Prop where
  div_natCast : ∀ (a : R) (n : Nat), 0 ≤ a → a ≤ largest → n ≠ 0 → 0 ≤ a / n ∧ a / n ≤ largest

/-- Whole-numbered costs up to the largest single-precision number. -/
instance : DiscreteNumber Int where
  largest := 2 ^ 128 - 2 ^ 104
  infinity := 2 ^ 128
  nextUp x := x + 1
  zero_le_largest := by decide
  largest_lt_infinity := by decide
  lt_nextUp x _ _ := by omega
  nextUp_le x _ h := by omega
  lt_nextUp_iff x _ _ y := by omega
  add_le_add_left _ _ h c := by omega

instance : SharedNumber Int where
  div_natCast _ n nonneg finite _ :=
    ⟨Int.ediv_nonneg nonneg (Int.natCast_nonneg n), (Int.ediv_le_self _ nonneg).trans finite⟩

/-- A finite non-negative number. -/
structure Cost (R : Type) [Number R] where
  get : R
  nonneg : 0 ≤ get
  finite : get ≤ largest

variable {R : Type} [Number R]

namespace Cost

theorem get_injective : Function.Injective (Cost.get (R := R)) := by
  rintro ⟨a, _, _⟩ ⟨b, _, _⟩ rfl
  rfl

instance : LinearOrder (Cost R) := LinearOrder.lift' Cost.get get_injective

def new (value : R) : Result R (Cost R) :=
  if valid : 0 ≤ value ∧ value ≤ largest then .ok ⟨value, valid.1, valid.2⟩
  else fail (.invalidCost value)

def zero : Cost R := ⟨0, le_refl 0, Number.zero_le_largest⟩

def nextUp (cost : Cost R) : Option (Cost R) :=
  if top : cost.get = largest then none
  else
    have below : cost.get < largest := lt_of_le_of_ne cost.finite top
    some ⟨Number.nextUp cost.get,
      cost.nonneg.trans (Number.lt_nextUp _ cost.nonneg below).le,
      Number.nextUp_le _ cost.nonneg below⟩

@[simp] theorem get_zero : (zero : Cost R).get = 0 := rfl

theorem new_eq_ok {value : R} {cost : Cost R} : new value = .ok cost ↔ cost.get = value := by
  unfold new
  split
  · rw [Except.ok.injEq, ← get_injective.eq_iff, eq_comm]
  · rename_i invalid
    constructor
    · intro impossible
      cases impossible
    · rintro rfl
      exact absurd ⟨cost.nonneg, cost.finite⟩ invalid

end Cost

/-- `iter().sum()`. -/
def sumInOrder (terms : List R) : R := terms.foldl (· + ·) 0

section Sums
variable {R : Type} [MonotoneNumber R]

theorem add_nonneg_of {a b : R} (ha : 0 ≤ a) (hb : 0 ≤ b) : 0 ≤ a + b := by
  have h := MonotoneNumber.add_le_add_nonneg 0 a 0 b (le_refl 0) (le_refl 0) ha hb
  rwa [MonotoneNumber.zero_add_nonneg 0 (le_refl 0)] at h

private theorem foldl_add_mono {xs ys : List R} (sub : ys.Sublist xs) (nonneg : ∀ x ∈ xs, 0 ≤ x)
    {a b : R} (ha : 0 ≤ a) (less : a ≤ b) : ys.foldl (· + ·) a ≤ xs.foldl (· + ·) b := by
  induction sub generalizing a b with
  | slnil => exact less
  | cons x sub ih =>
    refine ih (fun y hy => nonneg y (List.mem_cons_of_mem x hy)) ha ?_
    calc a = a + 0 := (MonotoneNumber.add_zero_nonneg a ha).symm
      _ ≤ b + x := MonotoneNumber.add_le_add_nonneg a b 0 x ha (le_refl 0) less (nonneg x (by simp))
  | cons_cons x sub ih =>
    have hx := nonneg x (by simp)
    exact ih (fun y hy => nonneg y (List.mem_cons_of_mem x hy)) (add_nonneg_of ha hx)
      (MonotoneNumber.add_le_add_nonneg a b x x ha hx less (le_refl x))

/-- Leaving terms out never raises the sum. -/
theorem sumInOrder_le_of_sublist {xs ys : List R} (sub : ys.Sublist xs)
    (nonneg : ∀ x ∈ xs, 0 ≤ x) : sumInOrder ys ≤ sumInOrder xs :=
  foldl_add_mono sub nonneg (le_refl 0) (le_refl 0)

/-- Raising terms never lowers the sum. -/
theorem sumInOrder_mono {xs ys : List R} (less : List.Forall₂ (· ≤ ·) xs ys)
    (nonneg : ∀ x ∈ xs, 0 ≤ x) : sumInOrder xs ≤ sumInOrder ys := by
  unfold sumInOrder
  suffices h : ∀ a b : R, 0 ≤ a → a ≤ b → xs.foldl (· + ·) a ≤ ys.foldl (· + ·) b from
    h 0 0 (le_refl 0) (le_refl 0)
  induction less with
  | nil => exact fun _ _ _ below => below
  | @cons x y xs ys head _ ih =>
    intro a b ha below
    have hx := nonneg x (by simp)
    exact ih (fun z hz => nonneg z (List.mem_cons_of_mem x hz)) _ _ (add_nonneg_of ha hx)
      (MonotoneNumber.add_le_add_nonneg a b x y ha hx below head)

theorem sumInOrder_filter {α : Type} {xs : List α} {f : α → R} {p : α → Bool}
    (nonneg : ∀ x ∈ xs, 0 ≤ f x) (zero : ∀ x ∈ xs, p x = false → f x = 0) :
    sumInOrder ((xs.filter p).map f) = sumInOrder (xs.map f) := by
  unfold sumInOrder
  suffices h : ∀ a : R, 0 ≤ a →
      ((xs.filter p).map f).foldl (· + ·) a = (xs.map f).foldl (· + ·) a from h 0 (le_refl 0)
  induction xs with
  | nil => exact fun _ _ => rfl
  | cons x xs ih =>
    intro a ha
    have rest := ih (fun y hy => nonneg y (List.mem_cons_of_mem x hy))
      (fun y hy => zero y (List.mem_cons_of_mem x hy))
    cases kept : p x with
    | true =>
      rw [List.filter_cons_of_pos kept, List.map_cons, List.map_cons, List.foldl_cons,
        List.foldl_cons]
      exact rest _ (add_nonneg_of ha (nonneg x (by simp)))
    | false =>
      rw [List.filter_cons_of_neg (by simp [kept]), List.map_cons, List.foldl_cons,
        zero x (by simp) kept, MonotoneNumber.add_zero_nonneg a ha]
      exact rest a ha

end Sums

/-- With exact sums the order of addition is immaterial. -/
theorem sumInOrder_eq_sum {R : Type} [ExactNumber R] (terms : List R) :
    sumInOrder terms = terms.sum := by
  rw [List.sum_eq_foldl]
  rfl

/-- `EditCosts<T>` as its callers see it: a call returns a cost or panics. -/
structure EditCosts (R T : Type) [Number R] where
  substitution : T → T → Result R (Cost R)
  deletion : T → Result R (Cost R)
  insertion : T → Result R (Cost R)

/-- An edit-cost policy: the costs a caller of the library supplies. No relation between
the three operations is assumed, not even a zero cost for equal tokens. -/
structure Policy (R T : Type) [Number R] where
  substitution : T → T → Cost R
  deletion : T → Cost R
  insertion : T → Cost R

def Policy.costs (policy : Policy R T) : EditCosts R T where
  substitution a b := .ok (policy.substitution a b)
  deletion a := .ok (policy.deletion a)
  insertion b := .ok (policy.insertion b)

/-- `LevenshteinCosts`, where `one` is `Cost::ONE`. -/
def levenshteinCosts [DecidableEq T] (one : Cost R) : Policy R T where
  substitution a b := if a = b then Cost.zero else one
  deletion _ := one
  insertion _ := one

/-- On the tokens of `known` the calls return the costs of `policy`. -/
structure EditCosts.Answers (costs : EditCosts R T) (policy : Policy R T) (known : T → Prop) :
    Prop where
  substitution : ∀ a b, known a → known b →
    costs.substitution a b = .ok (policy.substitution a b)
  deletion : ∀ a, known a → costs.deletion a = .ok (policy.deletion a)
  insertion : ∀ b, known b → costs.insertion b = .ok (policy.insertion b)

theorem Policy.costs_answers (policy : Policy R T) (known : T → Prop) :
    policy.costs.Answers policy known :=
  ⟨fun _ _ _ _ => rfl, fun _ _ => rfl, fun _ _ => rfl⟩

end Yurine
