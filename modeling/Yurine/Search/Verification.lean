import Yurine.Library.Minima
import Yurine.Search.Filtering
import Yurine.Search.Trie
import Mathlib.Order.Compare

/-! Anchored verification. Every candidate forces one substitution, the two directions
around it are extended independently, and each substring keeps its least distance. -/
namespace Yurine
open Outcome Minima

section Definitions
variable {R : Type}

/-- A data segment with its distance; the range is end-exclusive. -/
structure Match (R : Type) where
  sequenceId : Nat
  tokenRange : Nat × Nat
  distance : R
deriving DecidableEq, Repr

/-- The `(SequenceId, usize, usize)` keys of substrings, in their order. -/
abbrev SubstringKey : Type := SequenceId ×ₗ (Nat ×ₗ Nat)

def substringKey (stringId : SequenceId) (start stop : Nat) : SubstringKey :=
  toLex (stringId, toLex (start, stop))

instance : Std.LawfulEqCmp (compare : SubstringKey → SubstringKey → Ordering) :=
  ⟨fun same => compare_eq_iff_eq.mp same⟩

abbrev Substrings (R : Type) := Std.TreeMap SubstringKey R

structure DirectionalQueryStrings where
  backward : List Symbol
  forward : List Symbol

def DirectionalQueryStrings.new (queryString : List Symbol) (queryPosition : Nat) :
    Result R DirectionalQueryStrings := do
  let before ← slice queryString 0 queryPosition
  let after ← slice queryString (queryPosition + 1) queryString.length
  return ⟨before.reverse, after⟩

/-- `directional_query_strings.entry(query_position).or_insert_with(..)`. -/
def directionalQueryStringsAt (queryString : List Symbol) (queryPosition : Nat)
    (cache : Std.TreeMap Nat DirectionalQueryStrings) : Result R DirectionalQueryStrings :=
  match cache[queryPosition]? with
  | some directional => return directional
  | none => DirectionalQueryStrings.new queryString queryPosition

/-- The caches and results of one call. -/
structure Verification (R : Type) where
  backward : Std.TreeMap Nat (TrieNode R)
  forward : Std.TreeMap Nat (TrieNode R)
  directionalQueryStrings : Std.TreeMap Nat DirectionalQueryStrings
  substrings : Substrings R

def validatedCandidateString (queryString : List Symbol) (candidate : Candidate)
    (corpus : CorpusStore) : Result R (List Symbol) := do
  let found ← corpus.string candidate.stringId
  let string ← okOr (.unknownString candidate.stringId.val) found
  if string.length ≤ candidate.stringPosition.val then
    fail (.invalidStringPosition candidate.stringPosition.val string.length)
  if queryString.length ≤ candidate.queryPosition.val then
    fail (.invalidQueryPosition candidate.queryPosition.val queryString.length)
  return string

variable [Number R]

def createMatch (key : SubstringKey) (distance : Cost R) : Match R where
  sequenceId := (ofLex key).1.val
  tokenRange := ofLex (ofLex key).2
  distance := distance.get

/-- The distances of one direction, through the cache of the query position. -/
def scanDirection (queryString stringSymbols : List Symbol) (budget : R)
    (costs : EditCosts R Symbol) (queryPosition : Nat) (forest : Std.TreeMap Nat (TrieNode R)) :
    Result R (List R × Std.TreeMap Nat (TrieNode R)) := do
  let root ← match forest[queryPosition]? with
    | some root => pure root
    | none => TrieNode.root queryString costs
  let (distances, root) ← cachedPrefixDistances queryString stringSymbols budget root costs
  return (distances, forest.insert queryPosition root)

def recordSubstring (bound : StrictBound R) (anchorCost : R) (candidate : Candidate)
    (backward : R × Nat) (substrings : Substrings R) (forward : R × Nat) :
    Result R (Substrings R) := do
  let distance := addDistance (addDistance anchorCost backward.1) forward.1
  if bound.admits distance then
    let start ← subtract candidate.stringPosition.val backward.2
    let stop := candidate.stringPosition.val + forward.2 + 1
    return relax substrings (substringKey candidate.stringId start stop) distance
  else return substrings

def recordSubstrings (bound : StrictBound R) (anchorCost : R) (candidate : Candidate)
    (backward forward : List R) (substrings : Substrings R) : Result R (Substrings R) :=
  backward.zipIdx.foldlM (fun substrings entry =>
    forward.zipIdx.foldlM (recordSubstring bound anchorCost candidate entry) substrings) substrings

def verifyCandidate (queryString : List Symbol) (corpus : CorpusStore) (bound : StrictBound R)
    (costs : EditCosts R Symbol) (state : Verification R) (candidate : Candidate) :
    Result R (Verification R) := do
  let found ← corpus.string candidate.stringId
  let string ← okOr (.unknownString candidate.stringId.val) found
  let queryPosition := candidate.queryPosition.val
  let stringPosition := candidate.stringPosition.val
  let querySymbol ← index queryString queryPosition
  let stringSymbol ← index string stringPosition
  let substitution ← costs.substitution querySymbol stringSymbol
  let anchorCost := substitution.get
  if ¬ bound.admits anchorCost then return state
  let budget := bound.residual anchorCost
  let directional ← directionalQueryStringsAt queryString queryPosition
    state.directionalQueryStrings
  let before ← slice string 0 stringPosition
  let (backward, backwardForest) ← scanDirection directional.backward before.reverse budget costs
    queryPosition state.backward
  let after ← slice string (stringPosition + 1) string.length
  let (forward, forwardForest) ← scanDirection directional.forward after budget costs
    queryPosition state.forward
  let substrings ← recordSubstrings bound anchorCost candidate backward forward state.substrings
  return { backward := backwardForest, forward := forwardForest,
           directionalQueryStrings :=
             state.directionalQueryStrings.insert queryPosition directional,
           substrings }

def verify (queryString : List Symbol) (candidates : List Candidate) (corpus : CorpusStore)
    (bound : StrictBound R) (costs : EditCosts R Symbol) : Result R (List (Match R)) := do
  candidates.forM fun candidate => do
    let _ ← validatedCandidateString queryString candidate corpus
  let state ← candidates.foldlM (verifyCandidate queryString corpus bound costs) ⟨∅, ∅, ∅, ∅⟩
  state.substrings.toList.mapM fun entry => do
    let distance ← Cost.new entry.2
    return createMatch entry.1 distance

end Definitions
end Yurine
