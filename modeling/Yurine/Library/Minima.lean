import Std.Data.TreeMap.Lemmas
import Mathlib.Order.Bounds.Basic
import Mathlib.Order.MinMax

/-! A map that keeps the least value seen for each key, whatever the order of arrival. -/
namespace Minima

variable {κ R : Type} {cmp : κ → κ → Ordering} [LinearOrder R]

/-- `entry(key)` lowered to `value`, or inserted with it. -/
def relax (minima : Std.TreeMap κ R cmp) (key : κ) (value : R) : Std.TreeMap κ R cmp :=
  minima.alter key fun
    | none => some value
    | some stored => some (min stored value)

/-- The map holds the least of the values seen for each key. -/
structure Minimal (minima : Std.TreeMap κ R cmp) (seen : κ → R → Prop) : Prop where
  attained : ∀ key value, minima[key]? = some value → seen key value
  least : ∀ key value, seen key value → ∃ stored ≤ value, minima[key]? = some stored

theorem minimal_empty [Std.TransCmp cmp] : Minimal (∅ : Std.TreeMap κ R cmp) (fun _ _ => False) :=
  ⟨fun key value found => by simp at found, fun _ _ impossible => impossible.elim⟩

theorem Minimal.congr {minima : Std.TreeMap κ R cmp} {seen seen' : κ → R → Prop}
    (minimal : Minimal minima seen) (same : ∀ key value, seen key value ↔ seen' key value) :
    Minimal minima seen' :=
  ⟨fun key value found => (same key value).mp (minimal.attained key value found),
    fun key value h => minimal.least key value ((same key value).mpr h)⟩

variable [Std.TransCmp cmp] [Std.LawfulEqCmp cmp]

theorem getElem?_relax_self (minima : Std.TreeMap κ R cmp) (key : κ) (value : R) :
    (relax minima key value)[key]? = some (match minima[key]? with
      | none => value
      | some stored => min stored value) := by
  rw [relax, Std.TreeMap.getElem?_alter, if_pos (Std.LawfulEqCmp.compare_eq_iff_eq.mpr rfl)]
  cases minima[key]? <;> rfl

theorem getElem?_relax_ne (minima : Std.TreeMap κ R cmp) {key other : κ} (value : R)
    (distinct : key ≠ other) : (relax minima key value)[other]? = minima[other]? := by
  rw [relax, Std.TreeMap.getElem?_alter,
    if_neg (fun same => distinct (Std.LawfulEqCmp.compare_eq_iff_eq.mp same))]

theorem Minimal.relax {minima : Std.TreeMap κ R cmp} {seen : κ → R → Prop}
    (minimal : Minimal minima seen) (key : κ) (value : R) :
    Minimal (Minima.relax minima key value)
      (fun k v => seen k v ∨ (k = key ∧ v = value)) := by
  constructor
  · intro k v found
    by_cases same : key = k
    · subst same
      rw [getElem?_relax_self, Option.some.injEq] at found
      cases stored : minima[key]? with
      | none =>
        rw [stored] at found
        exact .inr ⟨rfl, found.symm⟩
      | some old =>
        have found : min old value = v := by rwa [stored] at found
        rcases min_choice old value with h | h
        · obtain rfl : old = v := h.symm.trans found
          exact .inl (minimal.attained key old stored)
        · exact .inr ⟨rfl, found.symm.trans h⟩
    · rw [getElem?_relax_ne minima value same] at found
      exact .inl (minimal.attained k v found)
  · intro k v h
    by_cases same : key = k
    · subst same
      refine ⟨_, ?_, getElem?_relax_self minima key value⟩
      rcases h with seen | ⟨_, rfl⟩
      · obtain ⟨old, less, stored⟩ := minimal.least key v seen
        rw [stored]
        exact (min_le_left _ _).trans less
      · split
        · exact le_refl _
        · exact min_le_right _ _
    · rw [getElem?_relax_ne minima value same]
      rcases h with seen | ⟨rfl, _⟩
      · exact minimal.least k v seen
      · exact absurd rfl same

omit [Std.TransCmp cmp] [Std.LawfulEqCmp cmp] in
/-- The entries are the minima of the values seen. -/
theorem Minimal.getElem?_eq_some_iff {minima : Std.TreeMap κ R cmp} {seen : κ → R → Prop}
    (minimal : Minimal minima seen) {key : κ} {value : R} :
    minima[key]? = some value ↔ IsLeast { v | seen key v } value := by
  constructor
  · intro found
    refine ⟨minimal.attained key value found, fun v h => ?_⟩
    obtain ⟨stored, less, same⟩ := minimal.least key v h
    rw [found] at same
    exact Option.some.inj same ▸ less
  · rintro ⟨here, least⟩
    obtain ⟨stored, less, found⟩ := minimal.least key value here
    rw [found, le_antisymm less (least (minimal.attained key stored found))]

end Minima
