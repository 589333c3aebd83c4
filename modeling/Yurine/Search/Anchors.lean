import Yurine.Search.VerificationSpec

/-! Anchored distances. With exact sums the two scans around an anchor add up to the least
cost of the edit scripts that pair the anchored positions, for every segment around the
anchor whose cost is below the bound. -/
namespace Yurine
open Outcome EditScripts

/-- The positions `start..stop` of a sequence. -/
def segment (sequence : List α) (start stop : Nat) : List α :=
  (sequence.drop start).take (stop - start)

theorem segment_append_cons {sequence : List α} {start position stop : Nat} {a : α}
    (before : start ≤ position) (after : position < stop)
    (here : sequence[position]? = some a) :
    segment sequence start stop =
      segment sequence start position ++ a :: segment sequence (position + 1) stop := by
  obtain ⟨inside, rfl⟩ := List.getElem?_eq_some_iff.mp here
  have split : sequence.drop start =
      segment sequence start position ++ sequence.drop position := by
    rw [segment, ← Nat.add_sub_cancel' before, ← List.drop_drop,
      Nat.add_sub_cancel_left, List.take_append_drop]
  have length : (segment sequence start position).length = position - start := by
    rw [segment, List.length_take, List.length_drop]
    omega
  conv_lhs => rw [segment, split, List.take_append, length, List.drop_eq_getElem_cons inside]
  rw [List.take_of_length_le (by omega), show stop - start - (position - start) =
    stop - (position + 1) + 1 by omega, List.take_succ_cons]
  rfl

theorem length_segment {sequence : List α} {start stop : Nat} (inside : stop ≤ sequence.length) :
    (segment sequence start stop).length = stop - start := by
  rw [segment, List.length_take, List.length_drop]
  omega

theorem take_reverse_take {sequence : List α} {position k : Nat}
    (inside : position ≤ sequence.length) :
    (sequence.take position).reverse.take k = (segment sequence (position - k) position).reverse := by
  rw [List.take_reverse, List.length_take, Nat.min_eq_left inside, List.drop_take, segment]

section Exact
variable {R : Type} [ExactNumber R] {policy : Policy R Symbol} {bound : StrictBound R}
  {queryString string : List Symbol}

/-- The least cost of pairing two positions and editing both sides independently. -/
def anchoredDistance (policy : Policy R Symbol) (queryString string : List Symbol)
    (queryPosition stringPosition : Nat) (a b : Symbol) (start stop : Nat) : R :=
  (policy.substitution a b).get +
    distance policy.weights (queryString.take queryPosition)
      (segment string start stringPosition) +
    distance policy.weights (queryString.drop (queryPosition + 1))
      (segment string (stringPosition + 1) stop)

theorem distance_le_anchored {queryPosition stringPosition start stop : Nat} {a b : Symbol}
    (ha : queryString[queryPosition]? = some a) (hb : string[stringPosition]? = some b)
    (before : start ≤ stringPosition) (after : stringPosition < stop) :
    distance policy.weights queryString (segment string start stop) ≤
      anchoredDistance policy queryString string queryPosition stringPosition a b start stop := by
  obtain ⟨inside, rfl⟩ := List.getElem?_eq_some_iff.mp ha
  have paired := distance_le_paired (w := policy.weights) (queryString.take queryPosition)
    (queryString.drop (queryPosition + 1)) queryString[queryPosition]
    (segment string start stringPosition) (segment string (stringPosition + 1) stop) b
  rw [← segment_append_cons before after hb, ← List.drop_eq_getElem_cons inside,
    List.take_append_drop] at paired
  exact paired

private theorem residual_le (bound : StrictBound R) (cost : Cost R) :
    bound.residual cost.get ≤ largest :=
  (sub_le_self _ cost.nonneg).trans bound.cost.finite

private theorem addDistance_twice {x y z : R} (hx : 0 ≤ x) (hy : 0 ≤ y) (hz : 0 ≤ z)
    (small : x ≤ largest) :
    addDistance (addDistance x (capped y)) (capped z) = capped (x + y + z) := by
  conv_lhs => rw [← capped_of_le small]
  rw [addDistance_capped hx hy, addDistance_capped (add_nonneg hx hy) hz]

theorem eq_of_capped {x : R} (admitted : bound.admits (capped x)) :
    capped x = x ∧ bound.admits x := by
  have below : x < bound.cost.get := (capped_lt_iff bound.cost.finite).mp admitted
  exact ⟨capped_of_le (below.le.trans bound.cost.finite), below⟩

section Scans
variable (bound) {position : Nat} (cost : Cost R) (query : List Symbol)

/-- The backward scan of an anchor reaches the segments that end there, and those below the
residual of the bound. -/
theorem backward_scan (inside : position ≤ string.length) :
    (∀ k x, (prefixDistances policy query.reverse (bound.residual cost.get)
        (string.take position).reverse)[k]? = some x →
      ∃ start ≤ position, k = position - start ∧
        x = capped (distance policy.weights query (segment string start position))) ∧
    ∀ start ≤ position,
      distance policy.weights query (segment string start position) < bound.residual cost.get →
      (prefixDistances policy query.reverse (bound.residual cost.get)
        (string.take position).reverse)[position - start]? =
          some (capped (distance policy.weights query (segment string start position))) := by
  have size : (string.take position).reverse.length = position := by
    rw [List.length_reverse, List.length_take, Nat.min_eq_left inside]
  have scanned (start : Nat) := prefixDistances_spec policy query.reverse
    (residual_le bound cost) (string.take position).reverse (k := position - start) (by omega)
  simp only [take_reverse_take inside, distance_reverse] at scanned
  constructor
  · intro k x found
    have length := length_prefixDistances policy query.reverse (bound.residual cost.get)
      (string.take position).reverse
    have within := (List.getElem?_eq_some_iff.mp found).1
    obtain ⟨start, ordered, rfl⟩ : ∃ start ≤ position, k = position - start :=
      ⟨position - k, by omega, by omega⟩
    have reached := (scanned start).1 x found
    rw [Nat.sub_sub_self ordered] at reached
    exact ⟨start, ordered, rfl, reached⟩
  · intro start ordered short
    have spec := scanned start
    rw [Nat.sub_sub_self ordered] at spec
    obtain ⟨x, found⟩ := Option.ne_none_iff_exists'.mp fun missing =>
      short.not_ge (spec.2 missing)
    rw [found, spec.1 x found]

/-- The forward scan of an anchor reaches the segments after it. -/
theorem forward_scan (inside : position < string.length) :
    (∀ k x, (prefixDistances policy query (bound.residual cost.get)
        (string.drop (position + 1)))[k]? = some x →
      ∃ stop, position < stop ∧ stop ≤ string.length ∧ k = stop - (position + 1) ∧
        x = capped (distance policy.weights query (segment string (position + 1) stop))) ∧
    ∀ stop, position < stop → stop ≤ string.length →
      distance policy.weights query (segment string (position + 1) stop) <
        bound.residual cost.get →
      (prefixDistances policy query (bound.residual cost.get)
        (string.drop (position + 1)))[stop - (position + 1)]? =
          some (capped (distance policy.weights query (segment string (position + 1) stop))) := by
  have size : (string.drop (position + 1)).length = string.length - (position + 1) :=
    List.length_drop
  have scanned (stop : Nat) (reachable : stop ≤ string.length) :=
    prefixDistances_spec policy query (residual_le bound cost) (string.drop (position + 1))
      (k := stop - (position + 1)) (by omega)
  constructor
  · intro k x found
    have length := length_prefixDistances policy query (bound.residual cost.get)
      (string.drop (position + 1))
    have within := (List.getElem?_eq_some_iff.mp found).1
    obtain ⟨stop, after, reachable, rfl⟩ : ∃ stop, position < stop ∧ stop ≤ string.length ∧
        k = stop - (position + 1) := ⟨k + (position + 1), by omega, by omega, by omega⟩
    exact ⟨stop, after, reachable, rfl, (scanned stop reachable).1 x found⟩
  · intro stop after reachable short
    obtain ⟨x, found⟩ := Option.ne_none_iff_exists'.mp fun missing =>
      short.not_ge ((scanned stop reachable).2 missing)
    rw [found, (scanned stop reachable).1 x found]
    rfl

end Scans

/-- A candidate contributes the anchored distances below the bound, and no others. -/
theorem contributes_iff {candidate : Candidate} {key : SubstringKey} {x : R} :
    Contributes policy bound queryString candidate string key x ↔ ∃ a b start stop,
      queryString[candidate.queryPosition.val]? = some a ∧
      string[candidate.stringPosition.val]? = some b ∧
      start ≤ candidate.stringPosition.val ∧ candidate.stringPosition.val < stop ∧
      stop ≤ string.length ∧ key = substringKey candidate.stringId start stop ∧
      x = anchoredDistance policy queryString string candidate.queryPosition.val
        candidate.stringPosition.val a b start stop ∧ bound.admits x := by
  have nonneg (q d : List Symbol) : 0 ≤ distance policy.weights q d := policy.nonneg.distance q d
  constructor
  · rintro ⟨a, b, ha, hb, _, k, l, before, after, _, hk, hl, rfl, rfl, admitted⟩
    have within := (List.getElem?_eq_some_iff.mp hb).1
    obtain ⟨start, ordered, rfl, rfl⟩ := (backward_scan bound _ _ within.le).1 k before hk
    obtain ⟨stop, later, inside, rfl, rfl⟩ := (forward_scan bound _ _ within).1 l after hl
    rw [addDistance_twice (policy.substitution a b).nonneg (nonneg _ _) (nonneg _ _)
      (policy.substitution a b).finite] at admitted ⊢
    obtain ⟨same, below⟩ := eq_of_capped admitted
    rw [same]
    refine ⟨a, b, start, stop, ha, hb, ordered, later, inside, ?_, rfl, below⟩
    congr 1 <;> omega
  · rintro ⟨a, b, start, stop, ha, hb, ordered, later, inside, rfl, rfl, admitted⟩
    have within := (List.getElem?_eq_some_iff.mp hb).1
    -- neither side alone reaches the residual of the bound, so both scans get there
    have total := admitted
    rw [StrictBound.admits, anchoredDistance] at total
    have left := nonneg (queryString.take candidate.queryPosition.val)
      (segment string start candidate.stringPosition.val)
    have right := nonneg (queryString.drop (candidate.queryPosition.val + 1))
      (segment string (candidate.stringPosition.val + 1) stop)
    have anchor : (policy.substitution a b).get < bound.cost.get :=
      ((le_add_of_nonneg_right left).trans (le_add_of_nonneg_right right)).trans_lt total
    have hk := (backward_scan bound (policy.substitution a b) _ within.le).2 start ordered
      (lt_sub_iff_add_lt'.mpr ((le_add_of_nonneg_right right).trans_lt total))
    have hl := (forward_scan bound (policy.substitution a b) _ within).2 stop later inside
      (lt_sub_iff_add_lt'.mpr
        ((add_le_add_left (le_add_of_nonneg_right left) _).trans_lt total))
    refine ⟨a, b, ha, hb, anchor, _, _, _, _, trivial, hk, hl, ?_, ?_, admitted⟩
    · congr 1 <;> omega
    · rw [addDistance_twice (policy.substitution a b).nonneg left right
        (policy.substitution a b).finite]
      exact (capped_of_le (admitted.le.trans bound.cost.finite)).symm

end Exact
end Yurine
