import Yurine.Search.RangeSearch
import Yurine.Search.SelectionSpec
import Yurine.Search.VerificationSpec

/-! When a range search is declined. The widest radius reduces every contribution to a
deletion cost, so a radius that selects exists unless the deletions of the whole query fit
below the bound; the binary search over the radii cannot miss all of them. -/
namespace Yurine
open Outcome MinCandidateSelector

section Radii
variable {R : Type} [Number R] {radii : List (Cost R)} {search : RadiusSearch R}
  {chosen : Cost R → List SelectedPosition → Prop}
  {selectAt : Cost R → Result R (List SelectedPosition)} {E : Error R → Prop}

/-- Either nothing has been selected and the widest radius is still ahead, or the narrowest
radius that selected is at hand. -/
structure RadiusSearch.Invariant (chosen : Cost R → List SelectedPosition → Prop)
    (radii : List (Cost R)) (search : RadiusSearch R) : Prop where
  ordered : search.low ≤ search.high
  inside : search.high ≤ radii.length
  narrowest : (search.narrowest = none ∧ search.low < radii.length ∧
      search.high = radii.length) ∨
    ∃ selected radius, search.narrowest = some (selected, some radius) ∧ chosen radius selected

theorem ensures_radiusStep
    (selects : ∀ radius ∈ radii, Ensures (chosen radius)
      (fun e => e = .thresholdSubsequenceUnavailable ∨ E e) (selectAt radius))
    (widest : ∀ radius, radii.getLast? = some radius →
      selectAt radius ≠ fail .thresholdSubsequenceUnavailable)
    (inv : search.Invariant chosen radii) (open_range : search.low < search.high) :
    Ensures (fun next => next.Invariant chosen radii ∧
        next.high - next.low < search.high - search.low)
      E (radiusStep selectAt radii search) := by
  obtain ⟨ordered, inside, narrowest⟩ := inv
  have middle_inside : search.low + (search.high - search.low) / 2 < radii.length := by omega
  unfold radiusStep
  simp only [index_ok middle_inside, bind_ok]
  have outcome := selects _ (List.getElem_mem middle_inside)
  split
  · rename_i selected found
    rw [found] at outcome
    exact ⟨⟨by simp only; omega, by simp only; omega, .inr ⟨selected, _, rfl, outcome⟩⟩,
      by simp only; omega⟩
  · rename_i failed
    refine ⟨⟨by simp only; omega, inside, narrowest.imp_left ?_⟩, by simp only; omega⟩
    rintro ⟨nothing, _, last⟩
    refine ⟨nothing, ?_, last⟩
    by_contra beyond
    have position : search.low + (search.high - search.low) / 2 = radii.length - 1 := by
      simp only at beyond
      omega
    refine widest _ ?_ failed
    rw [List.getLast?_eq_getElem?, ← position, List.getElem?_eq_getElem middle_inside]
  · rename_i failure other failed
    rw [failed] at outcome
    cases failure with
    | error e => exact outcome.resolve_left (fun same => other (same ▸ rfl))
    | panic => exact outcome

/-- The binary search ends by itself with a radius that selects. -/
theorem ensures_radiusLoop
    (selects : ∀ radius ∈ radii, Ensures (chosen radius)
      (fun e => e = .thresholdSubsequenceUnavailable ∨ E e) (selectAt radius))
    (widest : ∀ radius, radii.getLast? = some radius →
      selectAt radius ≠ fail .thresholdSubsequenceUnavailable)
    (inv : search.Invariant chosen radii) {fuel : Nat} (enough : search.high - search.low < fuel) :
    Ensures (fun found => ∃ selected radius, found.narrowest = some (selected, some radius) ∧
        chosen radius selected)
      E (radiusLoop selectAt radii fuel search) := by
  induction fuel generalizing search with
  | zero => omega
  | succ fuel ih =>
    refine ensures_ite (fun more => ?_) (fun done => ?_)
    · refine Ensures.bind (ensures_radiusStep selects widest inv more) (fun next h => ?_)
      exact ih h.1 (by omega)
    · rcases inv.narrowest with ⟨_, before, last⟩ | found
      · omega
      · exact found

end Radii

section Selecting
variable {R : Type} [MonotoneNumber R] {T : Type} [DecidableEq T] {engine : SearchEngine T}
  {policy : Policy R Symbol} {costs : EditCosts R Symbol} {known : Symbol → Prop}
  {queryString : List Symbol} {bound : StrictBound R} {eta : Cost R}

theorem SearchEngine.WellFormed.ready (wf : engine.WellFormed) :
    Ready engine.index engine.neighborhood :=
  ⟨wf.indexed, wf.capacity, fun _ mem => wf.lists.symm ▸ wf.alphabet_lt mem⟩

omit [MonotoneNumber R] in
theorem contributions_eq_deletionCosts [Number R] {neighborhood : SubstitutionNeighborhood}
    {policy : Policy R Symbol} {eta : Cost R}
    (wide : ∀ symbol ∈ queryString, ∀ candidate ∈ neighborhood.alphabet,
      policy.substitution symbol candidate ≤ eta) :
    contributions neighborhood policy eta queryString = deletionCosts policy queryString :=
  List.map_congr_left fun symbol mem =>
    congrArg Cost.get (SubstitutionNeighborhood.outsideCost_eq_deletion (wide symbol mem))

omit [MonotoneNumber R] in
/-- A selection is that of the first attempt, or that of one of the wider radii if the first
attempt is declined. -/
structure SearchEngine.Attempts [Number R] (engine : SearchEngine T) (queryString : List Symbol)
    (bound : StrictBound R) (eta : Cost R) (costs : EditCosts R Symbol)
    (found : List SelectedPosition × Option (Cost R)) : Prop where
  selected : engine.selectAt queryString bound (found.2.getD eta) costs = .ok found.1
  widened : ∀ radius, found.2 = some radius →
    engine.selectAt queryString bound eta costs = fail .thresholdSubsequenceUnavailable ∧
      ∃ radii, widerRadii queryString eta costs engine.neighborhood = .ok radii ∧ radius ∈ radii

/-- The selected positions of a radius contribute at least the bound. -/
structure Suffices (neighborhood : SubstitutionNeighborhood) (policy : Policy R Symbol)
    (bound : StrictBound R) (queryString : List Symbol) (radius : Cost R)
    (selected : List SelectedPosition) : Prop where
  selects : Selects neighborhood policy radius queryString selected
  covers : ¬ bound.admits (sumInOrder
    (selectedContributions neighborhood policy radius queryString selected))

variable (wf : engine.WellFormed) (answers : costs.Answers policy known)
  (alphabet : ∀ symbol ∈ engine.neighborhood.alphabet, known symbol)
  (query : ∀ symbol ∈ queryString, known symbol)
include wf answers alphabet query

theorem ensures_selectAt (bound : StrictBound R) (eta : Cost R) :
    Ensures (fun selected => Suffices engine.neighborhood policy bound queryString eta selected ∧
        ¬ bound.admits (sumInOrder (contributions engine.neighborhood policy eta queryString)))
      (Declines engine.neighborhood policy eta queryString bound)
      (engine.selectAt queryString bound eta costs) :=
  (ensures_select wf.ready answers alphabet query).post
    fun _ h => ⟨⟨h.1, h.2.1⟩, h.2.2⟩

/-- Selection succeeds at a radius exactly when the contributions at that radius, added in
query order, are not admitted. -/
theorem selectAt_ok_iff (short : queryString.length < 2 ^ 32) (bound : StrictBound R)
    (eta : Cost R) :
    (∃ selected, engine.selectAt queryString bound eta costs = .ok selected) ↔
      ¬ bound.admits (sumInOrder
        (contributions engine.neighborhood policy eta queryString)) := by
  have outcome := ensures_selectAt wf answers alphabet query bound eta
  constructor
  · rintro ⟨selected, found⟩
    exact (outcome.of_ok found).2
  · intro refused
    have succeeds := outcome.mono (F := fun _ => False) (fun _ h => h) (fun e declined =>
      declined.elim (fun below => refused below.2) (fun long => absurd short (not_lt.mpr long.2)))
    obtain ⟨selected, found, _⟩ := succeeds.returns
    exact ⟨selected, found⟩

/-- Once some radius can select, the search for one succeeds: with the selection of the first
attempt, or with that of one of the wider radii if the attempt is declined. -/
theorem ensures_selectPositions (bound : StrictBound R) (eta : Cost R)
    (selectable : ¬ bound.admits (sumInOrder (deletionCosts policy queryString))) :
    Ensures (fun found => Suffices engine.neighborhood policy bound queryString
        (found.2.getD eta) found.1 ∧ engine.Attempts queryString bound eta costs found)
      (fun e => e = .positionOverflow ∧ 2 ^ 32 ≤ queryString.length)
      (engine.selectPositions queryString bound eta costs) := by
  have outcome := ensures_selectAt wf answers alphabet query bound
  have blocked {radius : Cost R}
      (failed : engine.selectAt queryString bound radius costs =
        fail .thresholdSubsequenceUnavailable) :
      ¬ ∀ symbol ∈ queryString, ∀ candidate ∈ engine.neighborhood.alphabet,
        policy.substitution symbol candidate ≤ radius := by
    intro wide
    obtain ⟨_, admitted⟩ := ((outcome radius).of_fail failed).resolve_right nofun
    rw [contributions_eq_deletionCosts wide] at admitted
    exact selectable admitted
  unfold SearchEngine.selectPositions
  split
  · rename_i selected found
    exact ⟨((outcome eta).of_ok found).1, found, nofun⟩
  · rename_i failed
    obtain ⟨radii, collected, increasing, content⟩ := widerRadii_ok answers query alphabet eta
    have covers {radius : Cost R} (above : eta < radius) (widest : ∀ other ∈ radii, other ≤ radius) :
        ∀ symbol ∈ queryString, ∀ candidate ∈ engine.neighborhood.alphabet,
          policy.substitution symbol candidate ≤ radius := by
      intro symbol hs candidate hc
      rcases le_or_gt (policy.substitution symbol candidate) eta with near | far
      · exact near.trans above.le
      · exact widest _ ((content _).mpr ⟨far, symbol, hs, candidate, hc, rfl⟩)
    have nonempty : radii ≠ [] := by
      rintro rfl
      refine blocked failed (fun symbol hs candidate hc => ?_)
      by_contra far
      exact absurd ((content _).mpr ⟨not_le.mp far, symbol, hs, candidate, hc, rfl⟩) (by simp)
    rw [collected, bind_ok]
    have selects (radius : Cost R) (listed : radius ∈ radii) : Ensures
        (fun selected => Suffices engine.neighborhood policy bound queryString radius selected ∧
          engine.selectAt queryString bound radius costs = .ok selected ∧ radius ∈ radii)
        (fun e => e = .thresholdSubsequenceUnavailable ∨
          (e = .positionOverflow ∧ 2 ^ 32 ≤ queryString.length))
        (engine.selectAt queryString bound radius costs) :=
      (outcome radius).returned.mono (fun _ h => ⟨h.2.1, h.1, listed⟩)
        (fun _ h => h.imp_left And.left)
    refine Ensures.bind (ensures_radiusLoop selects ?_
      ⟨Nat.zero_le _, le_refl _, .inl ⟨rfl, List.length_pos_of_ne_nil nonempty, rfl⟩⟩
      (by simp)) ?_
    · intro radius last refused
      have mem := List.mem_of_getLast? last
      refine blocked refused (covers ((content radius).mp mem).1 (fun other listed => ?_))
      obtain ⟨front, rfl⟩ := List.getLast?_eq_some_iff.mp last
      rcases List.mem_append.mp listed with before | here
      · exact ((List.pairwise_append.mp increasing).2.2 other before radius (by simp)).le
      · exact (List.mem_singleton.mp here).le
    · rintro search ⟨selected, radius, found, sufficient, chosen, listed⟩
      rw [found, okOr_some]
      refine ⟨sufficient, chosen, ?_⟩
      rintro _ ⟨⟩
      exact ⟨failed, radii, collected, listed⟩
  · rename_i failure other failed
    have impossible := outcome eta
    rw [failed] at impossible
    cases failure with
    | error e => exact impossible.resolve_left (fun below => other (below.1 ▸ rfl))
    | panic => exact impossible

/-- A search ends without panicking. It is declined exactly when the deletions of the query
are admitted, and otherwise answers with the distances of the candidates of a selection. -/
theorem ensures_searchQueryString (readable : Readable R known engine.store)
    (bound : StrictBound R) (eta : Cost R) (maxCandidates : Option Nat) :
    Ensures (fun found => ¬ bound.admits (sumInOrder (deletionCosts policy queryString)) ∧
        ∃ radius selected, Suffices engine.neighborhood policy bound queryString radius selected ∧
          ∃ substrings : Substrings R, found.1 = substrings.toList.map Match.ofEntry ∧
            Minima.Minimal substrings (Seen policy bound queryString engine.store
              (candidates selected engine.index)))
      (fun e => e = .thresholdSubsequenceUnavailable ↔
        bound.admits (sumInOrder (deletionCosts policy queryString)))
      (engine.searchQueryString queryString bound eta maxCandidates costs) := by
  unfold SearchEngine.searchQueryString
  rw [anyRadiusCanSelect_ok answers query, bind_ok]
  by_cases admitted : bound.admits (sumInOrder (deletionCosts policy queryString))
  · simp [admitted]
  · refine Ensures.mono (E := fun e => e ≠ .thresholdSubsequenceUnavailable) ?_
      (fun found answered => ⟨admitted, answered⟩)
      (fun e other => ⟨fun same => absurd same other, fun below => absurd below admitted⟩)
    simp only [admitted, decide_false, Bool.not_false, Bool.not_true, Bool.false_eq_true, if_false]
    refine Ensures.bind ((ensures_selectPositions wf answers alphabet query bound eta
      admitted).mono (fun _ h => h) (fun e large => by
        rw [large.1]
        exact nofun)) ?_
    rintro ⟨selected, adjusted⟩ ⟨sufficient, _⟩
    have answer : Ensures (fun found : List (Match R) × RangeSearchMetrics R =>
        ∃ radius selected, Suffices engine.neighborhood policy bound queryString radius selected ∧
          ∃ substrings : Substrings R, found.1 = substrings.toList.map Match.ofEntry ∧
            Minima.Minimal substrings (Seen policy bound queryString engine.store
              (candidates selected engine.index)))
        (fun e => e ≠ .thresholdSubsequenceUnavailable) (do
          let candidates ← generateCandidates selected engine.index
          let found ← Yurine.verify queryString candidates engine.store bound costs
          return (found, ⟨adjusted, selected.length, candidates.length⟩)) := by
      rw [generateCandidates_ok wf.indexed, bind_ok]
      exact Ensures.bind (ensures_verify answers query readable bound _)
        (fun _ listed => ⟨_, selected, sufficient, listed⟩)
    cases maxCandidates with
    | none => exact answer
    | some limit =>
      simp only [countCandidates_ok wf.indexed, bind_ok]
      exact ensures_ite (fun _ => nofun) (fun _ => answer)

end Selecting
end Yurine
