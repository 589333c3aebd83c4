import Mathlib.Algebra.BigOperators.Group.Finset.Basic
import Mathlib.Algebra.BigOperators.Ring.Finset
import Mathlib.Algebra.Order.BigOperators.Group.Finset
import Mathlib.Algebra.Order.Field.Basic
import Mathlib.Tactic.Linarith
import Mathlib.Tactic.Ring

/-! Covering a demand by items at least cost, by a primal-dual greedy. In a round every free
item pays at one rate for its gain, which is truncated to the residual demand, until some item
is paid in full and gets selected. The payments stay below the cost of every cover and at
least half the cost of the selected items. -/
namespace KnapsackCover

variable {ι K : Type} [Field K] [LinearOrder K]

def residual (demand : K) (share : ι → K) (chosen : Finset ι) : K :=
  demand - ∑ i ∈ chosen, share i

def gain (demand : K) (share : ι → K) (chosen : Finset ι) (i : ι) : K :=
  min (share i) (residual demand share chosen)

theorem gain_nonneg {demand : K} {share : ι → K} {chosen : Finset ι} (nonneg : ∀ i, 0 ≤ share i)
    (left : 0 < residual demand share chosen) (i : ι) : 0 ≤ gain demand share chosen i :=
  le_min (nonneg i) left.le

variable [DecidableEq ι]

/-- The payments after a round at the given rate. -/
def pay (demand : K) (share : ι → K) (chosen : Finset ι) (rate : K) (paid : ι → K) (i : ι) : K :=
  if i ∈ chosen then paid i else paid i + gain demand share chosen i * rate

/-- What the greedy maintains: no item is overpaid, the value of the rounds is covered by what
the items of any cover have paid, and the items of any extension that falls short of the demand
without one new item have paid at most twice the value. -/
structure Payments (demand : K) (share cost : ι → K) (chosen : Finset ι) (paid : ι → K)
    (value : K) : Prop where
  affordable : ∀ i, paid i ≤ cost i
  settled : ∀ i ∈ chosen, paid i = cost i
  covers : ∀ cover : Finset ι, demand ≤ ∑ i ∈ cover, share i → value ≤ ∑ i ∈ cover, paid i
  extensions : ∀ items : Finset ι, chosen ⊆ items → ∀ last ∈ items, last ∉ chosen →
    ∑ i ∈ items.erase last, share i < demand → ∑ i ∈ items, paid i ≤ 2 * value
  spent : ∑ i ∈ chosen, paid i ≤ 2 * value

variable {demand rate value : K} {share cost paid : ι → K} {chosen : Finset ι}

theorem payments_start (nonneg : ∀ i, 0 ≤ cost i) :
    Payments demand share cost ∅ (fun _ => 0) 0 := by
  constructor
  · exact nonneg
  · simp
  · simp
  · simp
  · simp

theorem sum_pay (items : Finset ι) :
    ∑ i ∈ items, pay demand share chosen rate paid i =
      ∑ i ∈ items, paid i + (∑ i ∈ items \ chosen, gain demand share chosen i) * rate := by
  have split : ∀ i ∈ items, pay demand share chosen rate paid i =
      paid i + if i ∉ chosen then gain demand share chosen i * rate else 0 := by
    intro i _
    unfold pay
    split <;> simp_all
  rw [Finset.sum_congr rfl split, Finset.sum_add_distrib, ← Finset.sum_filter, Finset.sum_mul,
    Finset.sdiff_eq_filter]

variable [IsStrictOrderedRing K]

theorem residual_le_gains (share_nonneg : ∀ i, 0 ≤ share i)
    (left : 0 < residual demand share chosen) {cover : Finset ι}
    (covered : demand ≤ ∑ i ∈ cover, share i) :
    residual demand share chosen ≤ ∑ i ∈ cover \ chosen, gain demand share chosen i := by
  have nonneg := gain_nonneg share_nonneg left
  by_cases full : ∃ i ∈ cover \ chosen, residual demand share chosen ≤ share i
  · obtain ⟨i, mem, large⟩ := full
    calc residual demand share chosen = gain demand share chosen i := (min_eq_right large).symm
      _ ≤ _ := Finset.single_le_sum (fun j _ => nonneg j) mem
  · have truncated : ∀ i ∈ cover \ chosen, gain demand share chosen i = share i := by
      intro i mem
      exact min_eq_left (le_of_not_ge fun large => full ⟨i, mem, large⟩)
    have inside : ∑ i ∈ cover ∩ chosen, share i ≤ ∑ i ∈ chosen, share i :=
      Finset.sum_le_sum_of_subset_of_nonneg Finset.inter_subset_right
        (fun i _ _ => share_nonneg i)
    rw [Finset.sum_congr rfl truncated, residual]
    have split := Finset.sum_inter_add_sum_sdiff cover chosen share
    linarith

/-- The new items of an extension that needs its last item gain at most twice the residual. -/
theorem gains_le_residual {items : Finset ι} (extends_chosen : chosen ⊆ items) {last : ι}
    (mem : last ∈ items) (new : last ∉ chosen)
    (short : ∑ i ∈ items.erase last, share i < demand) :
    ∑ i ∈ items \ chosen, gain demand share chosen i ≤ 2 * residual demand share chosen := by
  have member : last ∈ items \ chosen := Finset.mem_sdiff.mpr ⟨mem, new⟩
  have others : ∑ i ∈ (items \ chosen).erase last, gain demand share chosen i ≤
      ∑ i ∈ (items \ chosen).erase last, share i :=
    Finset.sum_le_sum fun i _ => min_le_left _ _
  have rest : ∑ i ∈ (items \ chosen).erase last, share i + ∑ i ∈ chosen, share i =
      ∑ i ∈ items.erase last, share i := by
    rw [← Finset.sum_sdiff (Finset.subset_erase.mpr ⟨extends_chosen, new⟩),
      Finset.erase_sdiff_comm]
  have truncated : gain demand share chosen last ≤ residual demand share chosen := min_le_right _ _
  rw [← Finset.add_sum_erase _ _ member]
  have left : residual demand share chosen = demand - ∑ i ∈ chosen, share i := rfl
  linarith

theorem Payments.select (payments : Payments demand share cost chosen paid value)
    (share_nonneg : ∀ i, 0 ≤ share i) (left : 0 < residual demand share chosen)
    (rate_nonneg : 0 ≤ rate) {next : ι} (new : next ∉ chosen)
    (affordable : ∀ i, pay demand share chosen rate paid i ≤ cost i)
    (full : pay demand share chosen rate paid next = cost next) :
    Payments demand share cost (insert next chosen) (pay demand share chosen rate paid)
      (value + residual demand share chosen * rate) := by
  have extended (items : Finset ι) (extends_chosen : chosen ⊆ items) (last : ι) (mem : last ∈ items)
      (fresh : last ∉ chosen) (short : ∑ i ∈ items.erase last, share i < demand) :
      ∑ i ∈ items, pay demand share chosen rate paid i ≤
        2 * (value + residual demand share chosen * rate) := by
    have before := payments.extensions items extends_chosen last mem fresh short
    have gains := mul_le_mul_of_nonneg_right
      (gains_le_residual extends_chosen mem fresh short) rate_nonneg
    rw [sum_pay]
    linarith
  constructor
  · exact affordable
  · intro i mem
    rcases Finset.mem_insert.mp mem with rfl | old
    · exact full
    · rw [pay, if_pos old]
      exact payments.settled i old
  · intro cover covered
    have before := payments.covers cover covered
    have gains := mul_le_mul_of_nonneg_right
      (residual_le_gains share_nonneg left covered) rate_nonneg
    rw [sum_pay]
    linarith
  · intro items extends_chosen last mem fresh short
    exact extended items ((Finset.subset_insert next chosen).trans extends_chosen) last mem
      (fun old => fresh (Finset.mem_insert_of_mem old)) short
  · refine extended _ (Finset.subset_insert next chosen) next (Finset.mem_insert_self _ _) new ?_
    rw [Finset.erase_insert new]
    exact sub_pos.mp left

/-- The selected items cost at most twice as much as any cover. -/
theorem Payments.cost_le (payments : Payments demand share cost chosen paid value)
    {cover : Finset ι} (covered : demand ≤ ∑ i ∈ cover, share i) :
    ∑ i ∈ chosen, cost i ≤ 2 * ∑ i ∈ cover, cost i :=
  calc ∑ i ∈ chosen, cost i = ∑ i ∈ chosen, paid i :=
        Finset.sum_congr rfl fun i mem => (payments.settled i mem).symm
    _ ≤ 2 * value := payments.spent
    _ ≤ 2 * ∑ i ∈ cover, paid i := by
        have bounded := payments.covers cover covered
        linarith
    _ ≤ 2 * ∑ i ∈ cover, cost i := by
        have paid_le : ∑ i ∈ cover, paid i ≤ ∑ i ∈ cover, cost i :=
          Finset.sum_le_sum fun i _ => payments.affordable i
        linarith

end KnapsackCover
