import Yurine.Library.KnapsackCover
import Yurine.Search.Construction
import Yurine.Search.SelectionSpec
import Mathlib.Algebra.BigOperators.Fin
import Mathlib.Algebra.Order.Ring.Rat
import Mathlib.Algebra.Field.Rat

/-! The greedy selection as a knapsack cover: the positions of the query are the items, their
contributions cover the bound and their posting counts are the cost. With exact arithmetic the
selected neighborhoods hold at most twice the postings of any sufficient set of positions. -/
namespace Yurine

/-- Sums, products and quotients are exact. -/
class FieldNumber (R : Type) extends Number R, Field R, IsStrictOrderedRing R

instance [FieldNumber R] : ExactNumber R where
  add_le_add_left _ _ less c := add_le_add_left less c

instance : FieldNumber ℚ where
  __ := (inferInstance : Field ℚ)
  __ := (inferInstance : IsStrictOrderedRing ℚ)
  largest := 2 ^ 128 - 2 ^ 104
  infinity := 2 ^ 128
  nextUp x := (x + (2 ^ 128 - 2 ^ 104)) / 2
  zero_le_largest := by norm_num
  largest_lt_infinity := by norm_num
  lt_nextUp x _ h := by linarith
  nextUp_le x _ h := by linarith

namespace MinCandidateSelector
open Outcome

def postingCount (index : PostingsIndex) (neighbors : List Symbol) : Nat :=
  (neighbors.map fun neighbor => (index.listed neighbor).length).sum

section Scores
variable {R : Type} [Number R] {index : PostingsIndex} {policy : Policy R Symbol}
  {costs : EditCosts R Symbol} {known : Symbol → Prop} {neighborhood : SubstitutionNeighborhood}
  {eta : Cost R}

omit [Number R] in
theorem countNeighbors_eq_ok (wf : index.WellFormed) {neighbors : List Symbol} {count : Nat}
    (counted : countNeighbors (R := R) index neighbors = .ok count) :
    count = postingCount index neighbors := by
  unfold countNeighbors at counted
  suffices h : ∀ start, neighbors.foldlM (fun count neighbor => do
      let frequency ← index.frequency neighbor
      okOr .thresholdSubsequenceUnavailable (checkedAdd count frequency)) start =
        (.ok count : Result R Nat) → count = start + postingCount index neighbors by
    simpa using h 0 counted
  clear counted
  induction neighbors with
  | nil =>
    intro start same
    cases same
    rfl
  | cons neighbor neighbors ih =>
    intro start ran
    rw [List.foldlM_cons, PostingsIndex.frequency_ok wf, bind_ok] at ran
    obtain ⟨next, added, rest⟩ := bind_eq_ok.mp ran
    rw [okOr_eq_ok, checkedAdd] at added
    split at added
    · obtain rfl := Option.some.inj added
      rw [ih _ rest, postingCount, postingCount, List.map_cons, List.sum_cons, Nat.add_assoc]
    · cases added

theorem score_eq_ok (wf : index.WellFormed) (answers : costs.Answers policy known)
    (alphabet : ∀ symbol ∈ neighborhood.alphabet, known symbol) {symbol : Symbol}
    (query : known symbol) {item : Item R}
    (scored : score eta index costs neighborhood symbol = .ok item) :
    item.candidateCount = (postingCount index (neighborhood.neighbors policy eta symbol) : R) ∧
      item.contribution = (neighborhood.outsideCost policy eta symbol).get ∧
      item.neighbors = neighborhood.neighbors policy eta symbol ∧ item.paid = 0 ∧
      item.selected = false := by
  unfold score at scored
  rw [SubstitutionNeighborhood.scan_ok answers query alphabet, bind_ok] at scored
  obtain ⟨count, counted, same⟩ := bind_eq_ok.mp scored
  cases same
  exact ⟨congrArg _ (countNeighbors_eq_ok wf counted), rfl, rfl, rfl, rfl⟩

end Scores

section Rounds
variable {R : Type} [Number R] {bound : StrictBound R} {state next : Selection R}

theorem selectStep_eq_ok (ran : selectStep bound state = .ok next) :
    ∃ (position : Position) (item : Item R) (value : R),
      bestPosition (bound.residual state.contribution) state.items = some (position.val, value) ∧
      state.items[position.val]? = some item ∧
      next.items = (state.items.map (pay (bound.residual state.contribution) value)).modify
        position.val (fun item => { item with selected := true, neighbors := [] }) ∧
      next.selected = state.selected ++ [⟨position, item.neighbors⟩] := by
  unfold selectStep at ran
  dsimp only at ran
  obtain ⟨⟨p, value⟩, best, ran⟩ := bind_eq_ok.mp ran
  rw [okOr_eq_ok] at best
  obtain ⟨paid, found, ran⟩ := bind_eq_ok.mp ran
  obtain ⟨position, named, ran⟩ := bind_eq_ok.mp ran
  obtain rfl := (Position.ensures_fromUsize p).of_ok named
  obtain ⟨items, updated, same⟩ := bind_eq_ok.mp ran
  cases same
  rw [index_eq_ok, List.getElem?_map, Option.map_eq_some_iff] at found
  obtain ⟨item, found, rfl⟩ := found
  refine ⟨position, item, value, best, found, ?_, by rw [pay_neighbors]⟩
  unfold update at updated
  split at updated
  · exact (Except.ok.inj updated).symm
  · cases updated

end Rounds
section Covering
variable {R : Type} [FieldNumber R] {index : PostingsIndex} {policy : Policy R Symbol}
  {neighborhood : SubstitutionNeighborhood} {eta : Cost R} {queryString : List Symbol}
  {bound : StrictBound R} {state next : Selection R}

def share (neighborhood : SubstitutionNeighborhood) (policy : Policy R Symbol) (eta : Cost R)
    (queryString : List Symbol) (i : Fin queryString.length) : R :=
  (neighborhood.outsideCost policy eta queryString[i]).get

def load (index : PostingsIndex) (neighborhood : SubstitutionNeighborhood)
    (policy : Policy R Symbol) (eta : Cost R) (queryString : List Symbol)
    (i : Fin queryString.length) : Nat :=
  postingCount index (neighborhood.neighbors policy eta queryString[i])

def chosenSet (queryString : List Symbol) (selected : List SelectedPosition) :
    Finset (Fin queryString.length) :=
  Finset.univ.filter fun i => i.val ∈ positions selected

def paidAt (state : Selection R) (i : Fin queryString.length) : R :=
  (state.items[i.val]?.map Item.paid).getD 0

/-- Adding up over the selected positions in query order is adding up over their set. -/
theorem sum_filter_zipIdx (selected : List SelectedPosition) (f : Symbol → R) :
    ((queryString.zipIdx.filter fun entry => entry.2 ∈ positions selected).map
      fun entry => f entry.1).sum = ∑ i ∈ chosenSet queryString selected, f queryString[i] := by
  have entries : queryString.zipIdx =
      (List.finRange queryString.length).map fun i => (queryString[i], i.val) := by
    refine List.ext_getElem (by simp) ?_
    intro i h h'
    simp
  rw [entries, List.filter_map, List.map_map, ← List.sum_toFinset]
  · refine Finset.sum_congr ?_ (fun _ _ => rfl)
    ext i
    simp [chosenSet]
  · exact (List.nodup_finRange _).filter _

theorem selectedContributions_eq (selected : List SelectedPosition) :
    sumInOrder (selectedContributions neighborhood policy eta queryString selected) =
      ∑ i ∈ chosenSet queryString selected, share neighborhood policy eta queryString i := by
  have plain : sumInOrder (selectedContributions neighborhood policy eta queryString selected) =
      (selectedContributions neighborhood policy eta queryString selected).sum := by
    rw [List.sum_eq_foldl]
    rfl
  rw [plain, selectedContributions]
  exact sum_filter_zipIdx selected fun symbol => (neighborhood.outsideCost policy eta symbol).get

/-- The loop state as a state of the knapsack cover. -/
structure Covering (index : PostingsIndex) (neighborhood : SubstitutionNeighborhood)
    (policy : Policy R Symbol) (eta : Cost R) (queryString : List Symbol) (bound : StrictBound R)
    (state : Selection R) : Prop where
  invariant : Invariant neighborhood policy eta queryString state
  counts : ∀ i item, state.items[i.val]? = some item →
    item.candidateCount = (load index neighborhood policy eta queryString i : R)
  payments : ∃ value, KnapsackCover.Payments bound.cost.get
    (share neighborhood policy eta queryString)
    (fun i => (load index neighborhood policy eta queryString i : R))
    (chosenSet queryString state.selected) (paidAt state) value

theorem Covering.residual_eq
    (covering : Covering index neighborhood policy eta queryString bound state) :
    bound.residual state.contribution = KnapsackCover.residual bound.cost.get
      (share neighborhood policy eta queryString) (chosenSet queryString state.selected) := by
  rw [StrictBound.residual, covering.invariant.contribution, covering.invariant.selectedSum_eq,
    selectedContributions_eq, KnapsackCover.residual]

theorem chosenSet_concat (selected : List SelectedPosition) (position : Position)
    (neighbors : List Symbol) (inside : position.val < queryString.length) :
    chosenSet queryString (selected ++ [⟨position, neighbors⟩]) =
      insert ⟨position.val, inside⟩ (chosenSet queryString selected) := by
  ext i
  simp [chosenSet, positions, Fin.ext_iff, or_comm]

theorem Covering.item
    (covering : Covering index neighborhood policy eta queryString bound state)
    (i : Fin queryString.length) : ∃ item, state.items[i.val]? = some item ∧
      item.contribution = share neighborhood policy eta queryString i ∧
      (item.selected = true ↔ i ∈ chosenSet queryString state.selected) ∧
      item.candidateCount = (load index neighborhood policy eta queryString i : R) ∧
      paidAt state i = item.paid := by
  have inside : i.val < state.items.length := by
    rw [covering.invariant.size]
    exact i.isLt
  have found := List.getElem?_eq_getElem inside
  have tracks := covering.invariant.items i.val inside i.isLt
  refine ⟨_, found, tracks.contribution, ?_, covering.counts i _ found, ?_⟩
  · rw [tracks.selected, chosenSet, Finset.mem_filter, and_iff_right (Finset.mem_univ i)]
  · rw [paidAt, found]
    rfl

omit [FieldNumber R] in
theorem round_item [Number R] {items : List (Item R)} {item : Item R} {i : Nat}
    (found : items[i]? = some item) (residual value : R) (p : Nat) :
    ∃ after, ((items.map (pay residual value)).modify p
        fun item => { item with selected := true, neighbors := [] })[i]? = some after ∧
      after.candidateCount = item.candidateCount ∧
      after.paid = (pay residual value item).paid := by
  rw [List.getElem?_modify, List.getElem?_map, found]
  by_cases here : p = i
  · refine ⟨{ pay residual value item with selected := true, neighbors := [] }, ?_, ?_, rfl⟩
    · simp [here]
    · exact pay_candidateCount value item
  · exact ⟨pay residual value item, by simp [here], pay_candidateCount value item, rfl⟩

/-- A free item pays at the rate for its gain. -/
theorem paid_pay {residual rate : R} {item : Item R} (gains : 0 ≤ min item.contribution residual) :
    (pay residual rate item).paid = if item.selected = true then item.paid
      else item.paid + min item.contribution residual * rate := by
  unfold pay
  dsimp only
  split
  · rfl
  · split
    · rfl
    · rename_i zero
      rw [le_antisymm (not_lt.mp zero) gains, zero_mul, add_zero]

/-- A rate above that of no free item overpays none. -/
theorem paid_pay_le {residual value : R} {item : Item R}
    (gains : 0 ≤ min item.contribution residual) (before : item.paid ≤ item.candidateCount)
    (least : Eligible residual item → value ≤ rate residual item) :
    (pay residual value item).paid ≤ item.candidateCount := by
  rw [paid_pay gains]
  split
  · exact before
  · rename_i free
    rcases gains.eq_or_lt with zero | positive
    · rwa [← zero, zero_mul, add_zero]
    · have bounded := least ⟨by simpa using free, positive⟩
      rw [rate, le_div_iff₀ positive, max_eq_left (sub_nonneg.mpr before)] at bounded
      linarith

theorem paid_pay_rate {residual : R} {item : Item R} (eligible : Eligible residual item)
    (before : item.paid ≤ item.candidateCount) :
    (pay residual (rate residual item) item).paid = item.candidateCount := by
  rw [paid_pay eligible.2.le, if_neg (by simp [eligible.1]), rate,
    max_eq_left (sub_nonneg.mpr before), mul_div_cancel₀ _ eligible.2.ne']
  ring

/-- A round of the loop is a round of the knapsack cover. -/
theorem Covering.step
    (covering : Covering index neighborhood policy eta queryString bound state)
    (admitted : bound.admits state.contribution) (ran : selectStep bound state = .ok next) :
    Covering index neighborhood policy eta queryString bound next := by
  obtain ⟨value, payments⟩ := covering.payments
  have left : 0 < bound.residual state.contribution := sub_pos.mpr admitted
  obtain ⟨position, best, rate, chosen, found, items, selected⟩ := selectStep_eq_ok ran
  obtain ⟨⟨item, here, eligible, same⟩, least⟩ := bestPosition_some chosen
  obtain rfl := Option.some.inj (here.symm.trans found)
  have inside : position.val < queryString.length := by
    rw [← covering.invariant.size]
    exact (List.getElem?_eq_some_iff.mp here).1
  rw [covering.residual_eq] at left chosen items eligible same least
  have share_nonneg (i : Fin queryString.length) :
      0 ≤ share neighborhood policy eta queryString i := Cost.nonneg _
  have gain_nonneg := KnapsackCover.gain_nonneg share_nonneg left
  have rate_nonneg : 0 ≤ rate := by
    rw [same]
    exact div_nonneg (le_max_right _ _) eligible.2.le
  have paid_next (i : Fin queryString.length) {item : Item R}
      (found : state.items[i.val]? = some item) : paidAt next i = (pay (KnapsackCover.residual
        bound.cost.get (share neighborhood policy eta queryString)
        (chosenSet queryString state.selected)) rate item).paid := by
    obtain ⟨after, moved, _, paid_after⟩ := round_item found _ rate position.val
    rw [paidAt, items, moved, Option.map_some, Option.getD_some, paid_after]
  have round : paidAt next = KnapsackCover.pay bound.cost.get
      (share neighborhood policy eta queryString) (chosenSet queryString state.selected) rate
      (paidAt state) := by
    funext i
    obtain ⟨item, found, contribution, taken, _, paid⟩ := covering.item i
    have gains := gain_nonneg i
    rw [KnapsackCover.gain, ← contribution] at gains
    rw [paid_next i found, paid_pay gains, KnapsackCover.pay, KnapsackCover.gain, paid,
      ← contribution]
    simp only [taken]
  have affordable (i : Fin queryString.length) :
      paidAt next i ≤ (load index neighborhood policy eta queryString i : R) := by
    obtain ⟨item, found, contribution, _, count, paid⟩ := covering.item i
    have gains := gain_nonneg i
    have before := payments.affordable i
    rw [KnapsackCover.gain, ← contribution] at gains
    rw [paid, ← count] at before
    rw [paid_next i found, ← count]
    exact paid_pay_le gains before (least item (List.mem_of_getElem? found))
  have full : paidAt next ⟨position.val, inside⟩ =
      (load index neighborhood policy eta queryString ⟨position.val, inside⟩ : R) := by
    obtain ⟨other, found, _, _, count, paid⟩ := covering.item ⟨position.val, inside⟩
    obtain rfl := Option.some.inj (here.symm.trans found)
    have before := payments.affordable ⟨position.val, inside⟩
    rw [paid, ← count] at before
    rw [paid_next _ here, same, paid_pay_rate eligible before, count]
  refine ⟨((ensures_selectStep covering.invariant admitted).of_ok ran).1, ?_, ?_⟩
  · intro i item found
    obtain ⟨old, before, _, _, count, _⟩ := covering.item i
    obtain ⟨after, moved, kept, _⟩ := round_item before _ rate position.val
    rw [items, moved] at found
    rw [← Option.some.inj found, kept, count]
  · have new : (⟨position.val, inside⟩ : Fin queryString.length) ∉
        chosenSet queryString state.selected := by
      obtain ⟨other, found, _, taken, _⟩ := covering.item ⟨position.val, inside⟩
      obtain rfl := Option.some.inj (here.symm.trans found)
      rw [← taken]
      simp [eligible.1]
    rw [selected, chosenSet_concat _ _ _ inside, round]
    exact ⟨_, payments.select share_nonneg left rate_nonneg new (fun i => round ▸ affordable i)
      (round ▸ full)⟩

theorem selectLoop_covering {fuel : Nat} {selected : List SelectedPosition}
    (covering : Covering index neighborhood policy eta queryString bound state)
    (ran : selectLoop bound fuel state = .ok selected) :
    ∃ final : Selection R, final.selected = selected ∧
      Covering index neighborhood policy eta queryString bound final ∧
      ¬ bound.admits final.contribution := by
  induction fuel generalizing state with
  | zero => cases ran
  | succ fuel ih =>
    unfold selectLoop at ran
    split at ran
    · rename_i admitted
      obtain ⟨next, stepped, rest⟩ := bind_eq_ok.mp ran
      exact ih (covering.step admitted stepped) rest
    · rename_i refused
      cases ran
      exact ⟨state, rfl, covering, refused⟩

theorem covering_start (wf : index.WellFormed) {costs : EditCosts R Symbol}
    {known : Symbol → Prop} (answers : costs.Answers policy known)
    (alphabet : ∀ symbol ∈ neighborhood.alphabet, known symbol)
    (query : ∀ symbol ∈ queryString, known symbol) {items : List (Item R)}
    (scored : queryString.mapM (score eta index costs neighborhood) = .ok items) :
    Covering index neighborhood policy eta queryString bound ⟨items, [], 0⟩ := by
  rw [mapM_eq_ok, List.forall₂_iff_get] at scored
  obtain ⟨size, scored⟩ := scored
  simp only [List.get_eq_getElem] at scored
  have item (i : Nat) (h : i < queryString.length) (h' : i < items.length) :=
    score_eq_ok wf answers alphabet (query _ (List.getElem_mem h)) (scored i h h')
  have free : items.filter Item.selected = [] := by
    refine List.filter_eq_nil_iff.mpr (fun item mem => ?_)
    obtain ⟨i, h, rfl⟩ := List.mem_iff_getElem.mp mem
    simp [(item i (size ▸ h) h).2.2.2.2]
  have unpaid : (paidAt ⟨items, [], 0⟩ : Fin queryString.length → R) = fun _ => 0 := by
    funext i
    have inside : i.val < items.length := size ▸ i.isLt
    rw [paidAt, List.getElem?_eq_getElem inside]
    exact (item i.val i.isLt inside).2.2.2.1
  refine ⟨⟨size.symm, fun i h h' => ?_, ⟨List.nodup_nil, by simp⟩, ?_⟩, fun i found here => ?_, 0, ?_⟩
  · obtain ⟨_, contribution, neighbors, _, selected⟩ := item i h' h
    exact ⟨contribution, by simp [selected, positions], fun _ => neighbors⟩
  · rw [selectedSum, free]
    rfl
  · obtain ⟨inside, rfl⟩ := List.getElem?_eq_some_iff.mp here
    exact (item i.val i.isLt inside).1
  · rw [unpaid, show chosenSet queryString [] = ∅ by simp [chosenSet, positions]]
    exact KnapsackCover.payments_start fun i => Nat.cast_nonneg _

/-- The postings of the selected neighborhoods, as a sum over positions. -/
theorem sum_postingCount {selected : List SelectedPosition} (distinct : (positions selected).Nodup)
    (neighbors : ∀ chosen ∈ selected, ∃ symbol, queryString[chosen.position.val]? = some symbol ∧
      chosen.neighbors = neighborhood.neighbors policy eta symbol) :
    (selected.map fun chosen => postingCount index chosen.neighbors).sum =
      ∑ i ∈ chosenSet queryString selected, load index neighborhood policy eta queryString i := by
  induction selected using List.reverseRecOn with
  | nil => simp [chosenSet, positions]
  | append_singleton selected chosen ih =>
    rw [positions, List.map_append, List.nodup_append] at distinct
    obtain ⟨symbol, found, same⟩ := neighbors chosen (by simp)
    obtain ⟨inside, rfl⟩ := List.getElem?_eq_some_iff.mp found
    have new : (⟨chosen.position.val, inside⟩ : Fin queryString.length) ∉
        chosenSet queryString selected := by
      rw [chosenSet, Finset.mem_filter, not_and]
      exact fun _ mem => distinct.2.2 _ mem _ (by simp) rfl
    rw [List.map_append, List.sum_append, ih distinct.1 fun c mem => neighbors c (by simp [mem]),
      show selected ++ [chosen] = selected ++ [⟨chosen.position, chosen.neighbors⟩] from rfl,
      chosenSet_concat _ _ _ inside, Finset.sum_insert new, Nat.add_comm]
    simp [load, same]

/-- Selection is a two-approximation: the selected positions are distinct and contribute the
bound, and with exact arithmetic their neighborhoods hold at most twice the postings of those of
any positions that do. -/
theorem select_twoApproximation (wf : index.WellFormed) {costs : EditCosts R Symbol}
    {known : Symbol → Prop} (policy : Policy R Symbol) (answers : costs.Answers policy known)
    (neighborhood : SubstitutionNeighborhood)
    (alphabet : ∀ symbol ∈ neighborhood.alphabet, known symbol)
    (queryString : List Symbol) (query : ∀ symbol ∈ queryString, known symbol)
    (bound : StrictBound R) (eta : Cost R) (selected : List SelectedPosition)
    (chosen : select queryString bound eta index costs neighborhood = .ok selected) :
    (positions selected).Nodup ∧
    bound.cost.get ≤
      sumInOrder (selectedContributions neighborhood policy eta queryString selected) ∧
    ∀ cover : Finset (Fin queryString.length),
      bound.cost.get ≤ ∑ i ∈ cover, (neighborhood.outsideCost policy eta queryString[i]).get →
      (selected.map fun chosen => postingCount index chosen.neighbors).sum ≤
        2 * ∑ i ∈ cover, postingCount index (neighborhood.neighbors policy eta queryString[i]) := by
  obtain ⟨items, scored, ran⟩ := bind_eq_ok.mp chosen
  obtain ⟨final, rfl, covering, refused⟩ :=
    selectLoop_covering (covering_start wf answers alphabet query scored) ran
  obtain ⟨value, payments⟩ := covering.payments
  have selects := covering.invariant.selects
  rw [covering.invariant.contribution, covering.invariant.selectedSum_eq] at refused
  refine ⟨selects.distinct, not_lt.mp refused, fun cover covered => ?_⟩
  rw [sum_postingCount selects.distinct selects.neighbors]
  have bounded := payments.cost_le covered
  exact_mod_cast bounded

end Covering

theorem select_twoApproximation_banana : ∃ engine : SearchEngine Char,
    (SearchEngineBuilder.new.addSequences (R := ℚ)
      ["ban".toList, [], "ana".toList]).2.build (R := ℚ) = .ok engine ∧
    ∀ cover : Finset (Fin [(0 : Symbol), 1].length),
      1 ≤ ∑ i ∈ cover, (engine.neighborhood.outsideCost (levenshteinCosts (R := ℚ)
        ⟨1, by decide +kernel, by decide +kernel⟩) Cost.zero [(0 : Symbol), 1][i]).get →
      2 ≤ 2 * ∑ i ∈ cover, postingCount engine.index (engine.neighborhood.neighbors
        (levenshteinCosts (R := ℚ) ⟨1, by decide +kernel, by decide +kernel⟩) Cost.zero
        [(0 : Symbol), 1][i]) := by
  obtain ⟨engine, built, ran⟩ := bind_eq_ok.mp (show ((SearchEngineBuilder.new.addSequences
      (R := ℚ) ["ban".toList, [], "ana".toList]).2.build (R := ℚ) >>= fun engine =>
        select [0, 1] ⟨⟨1, by decide +kernel, by decide +kernel⟩⟩ Cost.zero engine.index
          (levenshteinCosts (R := ℚ) ⟨1, by decide +kernel, by decide +kernel⟩).costs
          engine.neighborhood >>= fun selected => .ok (selected,
            (selected.map fun chosen => postingCount engine.index chosen.neighbors).sum)) =
      .ok ([⟨1, [1]⟩], 2) by decide +kernel)
  obtain ⟨selected, chosen, same⟩ := bind_eq_ok.mp ran
  obtain ⟨rfl, count⟩ := Prod.mk.inj (Except.ok.inj same)
  have indexes := (SearchEngineBuilder.indexes_of_built built).2
  have bounded := select_twoApproximation indexes.wellFormed.indexed _
    (Policy.costs_answers _ fun _ => True) engine.neighborhood (fun _ _ => trivial) [0, 1]
    (fun _ _ => trivial) _ _ _ chosen
  rw [count] at bounded
  exact ⟨engine, built, bounded.2.2⟩

end MinCandidateSelector
end Yurine
