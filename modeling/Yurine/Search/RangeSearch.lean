import Yurine.Search.Encoding
import Yurine.Search.Engine
import Yurine.Search.Verification

/-! Range search: a strict bound, a radius for the filter, the candidates it leaves and their
verification. A radius too small to select query positions is widened by binary search. -/
namespace Yurine
open Outcome

variable {T R : Type}

structure RangeSearchParams (R : Type) where
  threshold : R
  maxCandidates : Option Nat

structure RangeSearchMetrics (R : Type) [Number R] where
  adjustedEta : Option (Cost R)
  selectedQueryPositions : Nat
  generatedCandidates : Nat

variable [Number R]

def automaticEta (threshold : Cost R) (querySequenceLen : Nat) : Result R (Cost R) :=
  if querySequenceLen = 0 then return Cost.zero
  else Cost.new (threshold.get / (querySequenceLen : R))

/-- The variables of the binary search over the wider radii. -/
structure RadiusSearch (R : Type) [Number R] where
  low : Nat
  high : Nat
  narrowest : Option (List SelectedPosition × Option (Cost R))

def radiusStep (selectAt : Cost R → Result R (List SelectedPosition)) (radii : List (Cost R))
    (search : RadiusSearch R) : Result R (RadiusSearch R) := do
  let middle := search.low + (search.high - search.low) / 2
  let radius ← index radii middle
  match selectAt radius with
  | .ok selected => return { search with high := middle, narrowest := some (selected, some radius) }
  | .error (.error .thresholdSubsequenceUnavailable) => return { search with low := middle + 1 }
  | .error failure => .error failure

/-- Every step leaves fewer radii between `low` and `high`. -/
def radiusLoop (selectAt : Cost R → Result R (List SelectedPosition)) (radii : List (Cost R)) :
    Nat → RadiusSearch R → Result R (RadiusSearch R)
  | 0, _ => panic
  | fuel + 1, search =>
    if search.low < search.high then do
      radiusLoop selectAt radii fuel (← radiusStep selectAt radii search)
    else return search

namespace SearchEngine
variable [DecidableEq T]

def selectAt (engine : SearchEngine T) (queryString : List Symbol) (bound : StrictBound R)
    (eta : Cost R) (costs : EditCosts R Symbol) : Result R (List SelectedPosition) :=
  MinCandidateSelector.select queryString bound eta engine.index costs engine.neighborhood

/-- The selected positions and the radius they were widened to. -/
def selectPositions (engine : SearchEngine T) (queryString : List Symbol) (bound : StrictBound R)
    (eta : Cost R) (costs : EditCosts R Symbol) :
    Result R (List SelectedPosition × Option (Cost R)) :=
  match engine.selectAt queryString bound eta costs with
  | .ok selected => return (selected, none)
  | .error (.error .thresholdSubsequenceUnavailable) => do
    let radii ← widerRadii queryString eta costs engine.neighborhood
    let search ← radiusLoop (fun radius => engine.selectAt queryString bound radius costs) radii
      (radii.length + 1) ⟨0, radii.length, none⟩
    okOr .thresholdSubsequenceUnavailable search.narrowest
  | .error failure => .error failure

def searchQueryString (engine : SearchEngine T) (queryString : List Symbol)
    (bound : StrictBound R) (eta : Cost R) (maxCandidates : Option Nat)
    (costs : EditCosts R Symbol) : Result R (List (Match R) × RangeSearchMetrics R) := do
  let selectable ← anyRadiusCanSelect queryString bound costs
  if !selectable then fail .thresholdSubsequenceUnavailable
  let (selected, adjustedEta) ← engine.selectPositions queryString bound eta costs
  if let some limit := maxCandidates then
    let candidates ← countCandidates selected engine.index
    if limit < candidates then fail (.searchTooExpensive candidates limit)
  let candidates ← generateCandidates selected engine.index
  let found ← Yurine.verify queryString candidates engine.store bound costs
  return (found, ⟨adjustedEta, selected.length, candidates.length⟩)

def searchWithMetrics (engine : SearchEngine T) (policy : Policy R T) (querySequence : List T)
    (params : RangeSearchParams R) : Result R (List (Match R) × RangeSearchMetrics R) := do
  let threshold ← Cost.new params.threshold
  let bound ← StrictBound.fromInclusive threshold
  let encodedQuery ← EncodedQuery.new querySequence engine.vocabulary
  let eta ← automaticEta threshold encodedQuery.string.length
  engine.searchQueryString encodedQuery.string bound eta params.maxCandidates
    (encodedQuery.costs engine.vocabulary policy.costs)

/-- `RangeSearcher::search`. -/
def search (engine : SearchEngine T) (policy : Policy R T) (querySequence : List T)
    (params : RangeSearchParams R) : Result R (List (Match R)) := do
  return (← engine.searchWithMetrics policy querySequence params).1

end SearchEngine
end Yurine
