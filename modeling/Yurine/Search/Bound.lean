import Yurine.Costs

/-! The strict bound of a search: a distance qualifies when it is less than the bound. -/
namespace Yurine
open Outcome

structure StrictBound (R : Type) [Number R] where
  cost : Cost R

namespace StrictBound
variable {R : Type} [Number R]

/-- The bound admitting exactly the distances up to the threshold. -/
def fromInclusive (threshold : Cost R) : Result R (StrictBound R) :=
  okOr (.invalidThreshold threshold.get) (threshold.nextUp.map StrictBound.mk)

def admits (bound : StrictBound R) (distance : R) : Prop := distance < bound.cost.get

instance (bound : StrictBound R) (distance : R) : Decidable (bound.admits distance) :=
  inferInstanceAs (Decidable (_ < _))

def residual (bound : StrictBound R) (paid : R) : R := bound.cost.get - paid

theorem fromInclusive_eq_ok {threshold : Cost R} {bound : StrictBound R}
    (h : fromInclusive threshold = .ok bound) :
    threshold.get < largest ∧ bound.cost.get = Number.nextUp threshold.get := by
  rw [fromInclusive, okOr_eq_ok, Option.map_eq_some_iff] at h
  obtain ⟨next, found, rfl⟩ := h
  unfold Cost.nextUp at found
  split at found
  · cases found
  · rename_i top
    obtain rfl := Option.some.inj found
    exact ⟨lt_of_le_of_ne threshold.finite top, rfl⟩

theorem fromInclusive_of_top {threshold : Cost R} (top : threshold.get = largest) :
    fromInclusive threshold = fail (.invalidThreshold threshold.get) := by
  unfold fromInclusive Cost.nextUp
  rw [dif_pos top]
  rfl

theorem exists_fromInclusive {threshold : Cost R} (below : threshold.get ≠ largest) :
    ∃ bound, fromInclusive threshold = .ok bound := by
  unfold fromInclusive Cost.nextUp
  rw [dif_neg below]
  exact ⟨_, rfl⟩

/-- The strict bound and the inclusive threshold admit the same distances. -/
theorem admits_iff {R : Type} [NextNumber R] {threshold : Cost R} {bound : StrictBound R}
    (h : fromInclusive threshold = .ok bound) {distance : R} :
    bound.admits distance ↔ distance ≤ threshold.get := by
  obtain ⟨below, same⟩ := fromInclusive_eq_ok h
  rw [admits, same, NextNumber.lt_nextUp_iff _ threshold.nonneg below]

end StrictBound
end Yurine
