import Yurine.Search.Matches
import Yurine.Search.RoundedColumns

/-! Anchored verification with rounded sums. What a candidate contributes has come from the exact
distance around its anchor by one addition for every symbol of the query and of the segment, and
a candidate contributes every segment that these additions leave below the bound. -/
namespace Yurine
open Outcome EditScripts RoundedNumber

variable {R : Type} [RoundedNumber R] {policy : Policy R Symbol} {bound : StrictBound R}
  {queryString string : List Symbol}

/-- The exact cost of pairing two positions and editing both sides independently. -/
def exactAnchored (policy : Policy R Symbol) (queryString string : List Symbol)
    (queryPosition stringPosition : Nat) (a b : Symbol) (start stop : Nat) : ℚ :=
  value (policy.substitution a b).get +
    distance policy.exact (queryString.take queryPosition)
      (segment string start stringPosition) +
    distance policy.exact (queryString.drop (queryPosition + 1))
      (segment string (stringPosition + 1) stop)

theorem distance_le_exactAnchored {queryPosition stringPosition start stop : Nat} {a b : Symbol}
    (ha : queryString[queryPosition]? = some a) (hb : string[stringPosition]? = some b)
    (before : start ≤ stringPosition) (after : stringPosition < stop) :
    distance policy.exact queryString (segment string start stop) ≤
      exactAnchored policy queryString string queryPosition stringPosition a b start stop := by
  obtain ⟨inside, rfl⟩ := List.getElem?_eq_some_iff.mp ha
  have paired := distance_le_paired (w := policy.exact) (queryString.take queryPosition)
    (queryString.drop (queryPosition + 1)) queryString[queryPosition]
    (segment string start stringPosition) (segment string (stringPosition + 1) stop) b
  rw [← segment_append_cons before after hb, ← List.drop_eq_getElem_cons inside,
    List.take_append_drop] at paired
  exact paired

section Scans
variable {budget : R} {query : List Symbol} {position start stop : Nat} {x : R}

theorem near_of_backward (inside : position ≤ string.length) {k : Nat}
    (listed : (prefixDistances policy query.reverse budget (string.take position).reverse)[k]? =
      some x) : k ≤ position ∧
    Near (query.length + k) (distance policy.exact query (segment string (position - k) position))
      x := by
  have length := length_prefixDistances policy query.reverse budget (string.take position).reverse
  have within := (List.getElem?_eq_some_iff.mp listed).1
  rw [List.length_reverse, List.length_take, Nat.min_eq_left inside] at length
  have near := near_of_scanned listed
  rw [List.length_reverse, take_reverse_take inside, distance_reverse] at near
  exact ⟨by omega, near⟩

theorem exists_backward (small : budget ≤ largest) (inside : position ≤ string.length)
    (before : start ≤ position)
    (cheap : growth R ^ (query.length + (position - start)) *
      distance policy.exact query (segment string start position) < value budget) :
    ∃ x, (prefixDistances policy query.reverse budget
      (string.take position).reverse)[position - start]? = some x := by
  apply exists_scanned small
  · rw [List.length_reverse, List.length_take]
    omega
  · rwa [List.length_reverse, take_reverse_take inside, distance_reverse,
      Nat.sub_sub_self before]

theorem near_of_forward (inside : position < string.length) {k : Nat}
    (listed : (prefixDistances policy query budget (string.drop (position + 1)))[k]? = some x) :
    position + 1 + k ≤ string.length ∧
    Near (query.length + k)
      (distance policy.exact query (segment string (position + 1) (position + 1 + k))) x := by
  have length := length_prefixDistances policy query budget (string.drop (position + 1))
  have within := (List.getElem?_eq_some_iff.mp listed).1
  rw [List.length_drop] at length
  have near := near_of_scanned listed
  rw [segment, Nat.add_sub_cancel_left]
  exact ⟨by omega, near⟩

theorem exists_forward (small : budget ≤ largest) (after : position < stop)
    (inside : stop ≤ string.length)
    (cheap : growth R ^ (query.length + (stop - (position + 1))) *
      distance policy.exact query (segment string (position + 1) stop) < value budget) :
    ∃ x, (prefixDistances policy query budget
      (string.drop (position + 1)))[stop - (position + 1)]? = some x := by
  apply exists_scanned small
  · rw [List.length_drop]
    omega
  · exact cheap

end Scans

/-- The two scans of an anchor meet in a sum that has come from the anchored distance. -/
theorem near_anchored {a b : Symbol} {queryPosition stringPosition k l : Nat} {budget p f : R}
    (ha : queryString[queryPosition]? = some a) (hb : string[stringPosition]? = some b)
    (hp : (prefixDistances policy (queryString.take queryPosition).reverse budget
      (string.take stringPosition).reverse)[k]? = some p)
    (hf : (prefixDistances policy (queryString.drop (queryPosition + 1)) budget
      (string.drop (stringPosition + 1)))[l]? = some f) :
    k ≤ stringPosition ∧ stringPosition + 1 + l ≤ string.length ∧
      Near (queryString.length + (stringPosition + 1 + l - (stringPosition - k)))
        (exactAnchored policy queryString string queryPosition stringPosition a b
          (stringPosition - k) (stringPosition + 1 + l))
        (addDistance (addDistance (policy.substitution a b).get p) f) := by
  have within := (List.getElem?_eq_some_iff.mp hb).1
  have inside := (List.getElem?_eq_some_iff.mp ha).1
  obtain ⟨first, left⟩ := near_of_backward within.le hp
  obtain ⟨last, right⟩ := near_of_forward within hf
  refine ⟨first, last, ?_⟩
  rw [List.length_take] at left
  rw [List.length_drop] at right
  have anchored := ((Near.cost (policy.substitution a b)).mono (Nat.zero_le _)).add left
  exact ((anchored.mono (n := queryString.length + l + k) (by omega)).add
    (right.mono (by omega))).mono (by omega)

/-- What a candidate contributes has come from an anchored distance. -/
theorem near_of_contributes {candidate : Candidate} {key : SubstringKey} {x : R}
    (contributes : Contributes policy bound queryString candidate string key x) :
    ∃ a b start stop, queryString[candidate.queryPosition.val]? = some a ∧
      string[candidate.stringPosition.val]? = some b ∧
      start ≤ candidate.stringPosition.val ∧ candidate.stringPosition.val < stop ∧
      stop ≤ string.length ∧ key = substringKey candidate.stringId start stop ∧
      bound.admits x ∧
      Near (queryString.length + (stop - start)) (exactAnchored policy queryString string
        candidate.queryPosition.val candidate.stringPosition.val a b start stop) x := by
  obtain ⟨a, b, ha, hb, _, k, l, before, after, _, hk, hl, rfl, rfl, admitted⟩ := contributes
  obtain ⟨first, last, near⟩ := near_anchored ha hb hk hl
  refine ⟨a, b, candidate.stringPosition.val - k, candidate.stringPosition.val + 1 + l, ha, hb,
    by omega, by omega, last, ?_, admitted, near⟩
  rw [Nat.add_right_comm]

/-- The residual of a bound leaves room for what is not paid for the anchor. -/
theorem lt_value_residual {paid : Cost R} {d : ℚ} {n : Nat} (nonneg : 0 ≤ d)
    (cheap : growth R ^ (n + 1) * (value paid.get + d) < value bound.cost.get) :
    growth R ^ n * d < value (bound.residual paid.get) := by
  have charged := paid.value_nonneg
  have power := one_le_pow₀ (n := n + 1) (one_le_growth (R := R))
  have anchor : value paid.get < value bound.cost.get :=
    (le_growth_pow_mul charged).trans_lt ((mul_le_mul_of_nonneg_left
      (le_add_of_nonneg_right nonneg) (zero_le_one.trans power)).trans_lt cheap)
  have difference := RoundedNumber.le_value_sub bound.cost.get paid.get paid.nonneg
    (value_lt_iff.mp anchor) bound.cost.finite
  have scaled : growth R * (growth R ^ n * d) < growth R * value (bound.residual paid.get) := by
    calc growth R * (growth R ^ n * d) = growth R ^ (n + 1) * d := by ring
      _ < value bound.cost.get - value paid.get := by
        have part : value paid.get ≤ growth R ^ (n + 1) * value paid.get :=
          le_growth_pow_mul charged
        rw [mul_add] at cheap
        linarith
      _ ≤ growth R * value (bound.residual paid.get) := difference
  exact lt_of_mul_lt_mul_left scaled growth_pos.le

theorem residual_le_largest (bound : StrictBound R) {paid : Cost R}
    (admitted : bound.admits paid.get) : bound.residual paid.get ≤ largest :=
  (RoundedNumber.sub_le bound.cost.get paid.get paid.nonneg admitted bound.cost.finite).trans
    bound.cost.finite

/-- A candidate contributes every segment that its anchored distance leaves below the bound. -/
theorem exists_contributes {candidate : Candidate} {a b : Symbol} {start stop : Nat}
    (ha : queryString[candidate.queryPosition.val]? = some a)
    (hb : string[candidate.stringPosition.val]? = some b)
    (before : start ≤ candidate.stringPosition.val) (after : candidate.stringPosition.val < stop)
    (reachable : stop ≤ string.length)
    (cheap : growth R ^ (queryString.length + (stop - start)) * exactAnchored policy queryString
      string candidate.queryPosition.val candidate.stringPosition.val a b start stop <
        value bound.cost.get) :
    ∃ x, Contributes policy bound queryString candidate string
        (substringKey candidate.stringId start stop) x ∧
      value x ≤ growth R ^ (queryString.length + (stop - start)) * exactAnchored policy queryString
        string candidate.queryPosition.val candidate.stringPosition.val a b start stop := by
  have within := (List.getElem?_eq_some_iff.mp hb).1
  have inside := (List.getElem?_eq_some_iff.mp ha).1
  have left := policy.exact_nonneg.distance (queryString.take candidate.queryPosition.val)
    (segment string start candidate.stringPosition.val)
  have right := policy.exact_nonneg.distance (queryString.drop (candidate.queryPosition.val + 1))
    (segment string (candidate.stringPosition.val + 1) stop)
  have paid := (policy.substitution a b).value_nonneg
  -- each part alone is below the bound by as many factors
  have part {d : ℚ} {n : Nat} (less : d ≤ exactAnchored policy queryString string
      candidate.queryPosition.val candidate.stringPosition.val a b start stop) (nonneg : 0 ≤ d)
      (few : n ≤ queryString.length + (stop - start)) :
      growth R ^ n * d < value bound.cost.get :=
    (mul_le_mul (growth_pow_le few) less nonneg (pow_pos growth_pos _).le).trans_lt cheap
  have admitted : bound.admits (policy.substitution a b).get := by
    have alone := part (n := 0) (d := value (policy.substitution a b).get)
      (by rw [exactAnchored]; linarith) paid (Nat.zero_le _)
    rw [pow_zero, one_mul] at alone
    exact value_lt_iff.mp alone
  have small := residual_le_largest bound admitted
  obtain ⟨p, hp⟩ : ∃ p, (prefixDistances policy (queryString.take candidate.queryPosition.val).reverse
      (bound.residual (policy.substitution a b).get)
      (string.take candidate.stringPosition.val).reverse)[candidate.stringPosition.val - start]? =
        some p :=
    exists_backward small within.le before (lt_value_residual left (part
      (by rw [exactAnchored]; linarith) (add_nonneg paid left) (by rw [List.length_take]; omega)))
  obtain ⟨f, hf⟩ : ∃ f, (prefixDistances policy (queryString.drop (candidate.queryPosition.val + 1))
      (bound.residual (policy.substitution a b).get)
      (string.drop (candidate.stringPosition.val + 1)))[stop - (candidate.stringPosition.val + 1)]? =
        some f :=
    exists_forward small after reachable (lt_value_residual right (part
      (by rw [exactAnchored]; linarith) (add_nonneg paid right) (by rw [List.length_drop]; omega)))
  obtain ⟨_, _, near⟩ := near_anchored ha hb hp hf
  rw [Nat.sub_sub_self before, Nat.add_sub_cancel' (Nat.succ_le_of_lt after)] at near
  have reached := near.above (cheap.trans_le (value_le_iff.mpr bound.cost.finite))
  refine ⟨_, ⟨a, b, ha, hb, admitted, _, _, _, _, trivial, hp, hf, ?_, rfl, ?_⟩, reached⟩
  · congr 1 <;> omega
  · exact value_lt_iff.mp (reached.trans_lt cheap)

end Yurine
