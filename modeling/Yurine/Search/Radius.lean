import Yurine.Search.Declining

/-! The widened radius is the least that selects. Widening a radius never lowers a contribution,
and changes none unless it passes a substitution cost, so the binary search over those costs
ends at the least radius of all. -/
namespace Yurine
open Outcome MinCandidateSelector

section Searching
variable {R : Type} [Number R] {radii : List (Cost R)} {search : RadiusSearch R}
  {selectAt : Cost R → Result R (List SelectedPosition)}

/-- The radii below `low` have been declined at their last, the one at `high` has selected. -/
structure RadiusSearch.Narrowing (selectAt : Cost R → Result R (List SelectedPosition))
    (radii : List (Cost R)) (search : RadiusSearch R) : Prop where
  ordered : search.low ≤ search.high
  inside : search.high ≤ radii.length
  below : ∀ i, i + 1 = search.low → ∃ radius, radii[i]? = some radius ∧
    selectAt radius = fail .thresholdSubsequenceUnavailable
  above : ∀ selected adjusted, search.narrowest = some (selected, adjusted) →
    ∃ radius, adjusted = some radius ∧ radii[search.high]? = some radius ∧
      selectAt radius = .ok selected

theorem RadiusSearch.Narrowing.step {next : RadiusSearch R}
    (narrowing : search.Narrowing selectAt radii) (more : search.low < search.high)
    (ran : radiusStep selectAt radii search = .ok next) : next.Narrowing selectAt radii := by
  obtain ⟨ordered, inside, below, above⟩ := narrowing
  unfold radiusStep at ran
  obtain ⟨radius, found, ran⟩ := bind_eq_ok.mp ran
  rw [index_eq_ok] at found
  split at ran
  · rename_i selected chosen
    cases ran
    refine ⟨by simp only; omega, by simp only; omega, below, fun other adjusted same => ?_⟩
    cases same
    exact ⟨radius, rfl, found, chosen⟩
  · rename_i declined
    cases ran
    refine ⟨by simp only; omega, inside, fun i last => ?_, above⟩
    obtain rfl : i = search.low + (search.high - search.low) / 2 := Nat.succ.inj last
    exact ⟨radius, found, declined⟩
  · cases ran

/-- The binary search ends where the declined radii meet the selecting ones. -/
theorem RadiusSearch.Narrowing.loop {fuel : Nat} {final : RadiusSearch R}
    (narrowing : search.Narrowing selectAt radii)
    (ran : radiusLoop selectAt radii fuel search = .ok final) :
    final.Narrowing selectAt radii ∧ final.low = final.high := by
  induction fuel generalizing search with
  | zero => cases ran
  | succ fuel ih =>
    unfold radiusLoop at ran
    split at ran
    · rename_i more
      obtain ⟨next, stepped, rest⟩ := bind_eq_ok.mp ran
      exact ih (narrowing.step more stepped) rest
    · rename_i done
      cases ran
      exact ⟨narrowing, le_antisymm narrowing.ordered (not_lt.mp done)⟩

/-- The last declined radius is not below any listed cost short of the one that selects. -/
theorem RadiusSearch.Narrowing.exists_declined {eta radius : Cost R}
    (narrowing : search.Narrowing selectAt radii) (meet : search.low = search.high)
    (increasing : radii.Pairwise (· < ·)) (wider : ∀ radius ∈ radii, eta < radius)
    (declined : selectAt eta = fail .thresholdSubsequenceUnavailable)
    (here : radii[search.high]? = some radius) :
    ∃ last, selectAt last = fail .thresholdSubsequenceUnavailable ∧
      ∀ cost, cost < radius → (eta < cost → cost ∈ radii) → cost ≤ last := by
  obtain ⟨within, last⟩ := List.getElem?_eq_some_iff.mp here
  rw [List.pairwise_iff_getElem] at increasing
  have position {cost : Cost R} (mem : cost ∈ radii) (below : cost < radius) :
      ∃ j, ∃ inside : j < radii.length, j < search.high ∧ radii[j] = cost := by
    obtain ⟨j, inside, rfl⟩ := List.mem_iff_getElem.mp mem
    refine ⟨j, inside, ?_, rfl⟩
    by_contra beyond
    rw [← last] at below
    rcases (not_lt.mp beyond).eq_or_lt with same | later
    · simp [same] at below
    · exact absurd below (increasing _ _ within inside later).asymm
  cases high : search.high with
  | zero =>
    refine ⟨eta, declined, fun cost below listed => ?_⟩
    by_contra far
    obtain ⟨j, _, small, _⟩ := position (listed (not_le.mp far)) below
    omega
  | succ i =>
    obtain ⟨last, found, refused⟩ := narrowing.below i (by omega)
    obtain ⟨inside, rfl⟩ := List.getElem?_eq_some_iff.mp found
    refine ⟨_, refused, fun cost below listed => ?_⟩
    rcases le_or_gt cost eta with near | far
    · exact near.trans (wider _ (List.getElem_mem inside)).le
    · obtain ⟨j, inside', small, rfl⟩ := position (listed far) below
      rcases (show j ≤ i by omega).eq_or_lt with rfl | earlier
      · exact le_refl _
      · exact (increasing _ _ inside' inside earlier).le

end Searching

section Monotone
variable {R : Type} [MonotoneNumber R] {neighborhood : SubstitutionNeighborhood}
  {policy : Policy R Symbol} {queryString : List Symbol} {narrow wide : Cost R}

/-- A radius that covers no more substitutions leaves no more to contribute. -/
theorem contributions_mono (covers : ∀ symbol ∈ queryString, ∀ candidate ∈ neighborhood.alphabet,
      policy.substitution symbol candidate ≤ narrow → policy.substitution symbol candidate ≤ wide) :
    sumInOrder (contributions neighborhood policy narrow queryString) ≤
      sumInOrder (contributions neighborhood policy wide queryString) := by
  refine sumInOrder_mono ?_ (fun _ => nonneg_contributions)
  rw [contributions, contributions, List.forall₂_map_left_iff, List.forall₂_map_right_iff,
    List.forall₂_same]
  intro symbol mem
  obtain ⟨_, least⟩ := neighborhood.outsideCost_isLeast policy narrow symbol
  refine least ?_
  rcases (neighborhood.outsideCost_isLeast policy wide symbol).1 with
    deleted | ⟨candidate, hc, far, same⟩
  · exact .inl deleted
  · exact .inr ⟨candidate, hc, not_le.mp fun near =>
      absurd far (not_lt.mpr (covers symbol mem candidate hc near)), same⟩

end Monotone

namespace SearchEngine
variable {T R : Type} [DecidableEq T] [MonotoneNumber R] {engine : SearchEngine T}

/-- A selection at the derived radius, or at the least wider one that selects. -/
structure Widened (engine : SearchEngine T) (policy : Policy R Symbol)
    (queryString : List Symbol) (bound : StrictBound R) (eta : Cost R)
    (costs : EditCosts R Symbol) (selected : List SelectedPosition) (adjusted : Option (Cost R)) :
    Prop where
  reported : adjusted = none ↔ ∃ chosen, engine.selectAt queryString bound eta costs = .ok chosen
  first : adjusted = none → engine.selectAt queryString bound eta costs = .ok selected
  least : ∀ radius, adjusted = some radius →
    IsLeast { wider | eta < wider ∧
      ∃ chosen, engine.selectAt queryString bound wider costs = .ok chosen } radius ∧
    (∃ symbol ∈ queryString, ∃ candidate ∈ engine.neighborhood.alphabet,
      policy.substitution symbol candidate = radius) ∧
    engine.selectAt queryString bound radius costs = .ok selected

variable {costs : EditCosts R Symbol} {known : Symbol → Prop} {policy : Policy R Symbol}
  {queryString : List Symbol}

theorem widened_of_found (wf : engine.WellFormed) (answers : costs.Answers policy known)
    (alphabet : ∀ symbol ∈ engine.neighborhood.alphabet, known symbol)
    (query : ∀ symbol ∈ queryString, known symbol) {bound : StrictBound R} {eta : Cost R}
    {selected : List SelectedPosition} {adjusted : Option (Cost R)}
    (found : engine.selectPositions queryString bound eta costs = .ok (selected, adjusted)) :
    engine.Widened policy queryString bound eta costs selected adjusted := by
  have outcome := ensures_selectAt wf answers alphabet query bound
  unfold selectPositions at found
  split at found
  · rename_i chosen here
    cases found
    exact ⟨⟨fun _ => ⟨_, here⟩, fun _ => rfl⟩, fun _ => here, nofun⟩
  · rename_i declined
    obtain ⟨radii, collected, increasing, content⟩ := widerRadii_ok answers query alphabet eta
    rw [collected, bind_ok] at found
    obtain ⟨final, looped, named⟩ := bind_eq_ok.mp found
    rw [okOr_eq_ok] at named
    have start : RadiusSearch.Narrowing (fun radius => engine.selectAt queryString bound radius costs)
        radii ⟨0, radii.length, none⟩ :=
      ⟨Nat.zero_le _, le_refl _, nofun, nofun⟩
    obtain ⟨narrowing, meet⟩ := start.loop looped
    obtain ⟨radius, rfl, here, chosen⟩ := narrowing.above _ _ named
    obtain ⟨wider, listed⟩ := (content radius).mp (List.mem_of_getElem? here)
    obtain ⟨last, refused, covers⟩ := narrowing.exists_declined meet increasing
      (fun other mem => ((content other).mp mem).1) declined here
    refine ⟨⟨nofun, fun ⟨_, selects⟩ => by simp [declined] at selects⟩, nofun, ?_⟩
    rintro _ ⟨⟩
    refine ⟨⟨⟨wider, _, chosen⟩, ?_⟩, listed, chosen⟩
    rintro other ⟨_, others, selects⟩
    by_contra smaller
    have admitted := (((outcome last).of_fail refused).resolve_right nofun).2
    refine ((outcome other).of_ok selects).2 ((contributions_mono ?_).trans_lt admitted)
    exact fun symbol hs candidate hc near => covers _ (near.trans_lt (not_le.mp smaller))
      fun far => (content _).mpr ⟨far, symbol, hs, candidate, hc, rfl⟩
  · cases found

/-- Where some radius selects, the deletions of the query do not fit below the bound. -/
theorem selectable_of_selects (wf : engine.WellFormed) (answers : costs.Answers policy known)
    (alphabet : ∀ symbol ∈ engine.neighborhood.alphabet, known symbol)
    (query : ∀ symbol ∈ queryString, known symbol) {bound : StrictBound R} {wider : Cost R}
    {chosen : List SelectedPosition}
    (selects : engine.selectAt queryString bound wider costs = .ok chosen) :
    ¬ bound.admits (sumInOrder (deletionCosts policy queryString)) := by
  have refused := ((ensures_selectAt wf answers alphabet query bound wider).of_ok selects).2
  refine fun admitted => refused (lt_of_le_of_lt ?_ admitted)
  refine sumInOrder_mono ?_ (fun _ => nonneg_contributions)
  rw [contributions, deletionCosts, List.forall₂_map_left_iff, List.forall₂_map_right_iff,
    List.forall₂_same]
  exact fun symbol _ => (engine.neighborhood.outsideCost_isLeast policy wider symbol).2 (.inl rfl)

/-- The widened radius is the least that works. Selection reports no radius exactly when it
succeeds at the derived one; otherwise the radius reported is the least wider one at which
selection succeeds, it is a substitution cost from the query to the alphabet, and the positions
are those that selection produces there. If some wider radius selects, one is reported. -/
theorem selectPositions_least (constructed : engine.Constructed R) {costs : EditCosts R Symbol}
    {known : Symbol → Prop} (policy : Policy R Symbol) (answers : costs.Answers policy known)
    (alphabet : ∀ symbol ∈ engine.neighborhood.alphabet, known symbol)
    (queryString : List Symbol) (query : ∀ symbol ∈ queryString, known symbol)
    (bound : StrictBound R) (eta : Cost R) :
    (∀ selected adjusted,
      engine.selectPositions queryString bound eta costs = .ok (selected, adjusted) →
      engine.Widened policy queryString bound eta costs selected adjusted) ∧
    (queryString.length < 2 ^ 32 →
      (¬ ∃ chosen, engine.selectAt queryString bound eta costs = .ok chosen) →
      (∃ wider chosen, engine.selectAt queryString bound wider costs = .ok chosen) →
      ∃ selected radius,
        engine.selectPositions queryString bound eta costs = .ok (selected, some radius)) := by
  have wf := constructed.wellFormed
  refine ⟨fun _ _ found => widened_of_found wf answers alphabet query found, ?_⟩
  rintro short declined ⟨wider, chosen, selects⟩
  have outcome := ensures_selectPositions wf answers alphabet query bound eta
    (selectable_of_selects wf answers alphabet query selects)
  obtain ⟨⟨selected, adjusted⟩, found, _⟩ := (outcome.mono (F := fun _ => False) (fun _ h => h)
    (fun _ large => absurd short (not_lt.mpr large.2))).returns
  cases adjusted with
  | none =>
    exact absurd ((widened_of_found wf answers alphabet query found).reported.mp rfl) declined
  | some radius => exact ⟨selected, radius, found⟩

theorem selectPositions_least_widened : ∃ engine : SearchEngine Char,
    (SearchEngineBuilder.new.addSequences (R := Int)
      ["ban".toList, [], "ana".toList]).2.build (R := Int) = .ok engine ∧
    IsLeast { wider : Cost Int | Cost.zero < wider ∧ ∃ chosen,
      engine.selectAt [0, 1] ⟨⟨4, by decide, by decide⟩⟩ wider (Policy.costs
        ⟨fun a b => if a = b then Cost.zero else ⟨1, by decide, by decide⟩,
          fun _ => ⟨3, by decide, by decide⟩, fun _ => ⟨3, by decide, by decide⟩⟩) = .ok chosen }
      ⟨1, by decide, by decide⟩ := by
  obtain ⟨engine, built, ran⟩ := bind_eq_ok.mp (show ((SearchEngineBuilder.new.addSequences
      (R := Int) ["ban".toList, [], "ana".toList]).2.build (R := Int) >>= fun engine =>
        engine.selectPositions [0, 1] ⟨⟨4, by decide, by decide⟩⟩ Cost.zero (Policy.costs
          ⟨fun a b => if a = b then Cost.zero else ⟨1, by decide, by decide⟩,
            fun _ => ⟨3, by decide, by decide⟩, fun _ => ⟨3, by decide, by decide⟩⟩) >>=
          fun found => .ok (found.2.map Cost.get)) = .ok (some 1) by decide +kernel)
  obtain ⟨⟨selected, adjusted⟩, found, same⟩ := bind_eq_ok.mp ran
  obtain ⟨radius, rfl, value⟩ := Option.map_eq_some_iff.mp (Except.ok.inj same)
  obtain rfl : radius = ⟨1, by decide, by decide⟩ := Cost.get_injective value
  have widened := (selectPositions_least (.built _ built) _ (Policy.costs_answers _ fun _ => True)
    (fun _ _ => trivial) [0, 1] (fun _ _ => trivial) _ _).1 _ _ found
  exact ⟨engine, built, (widened.least _ rfl).1⟩

end SearchEngine
end Yurine
