import Yurine.Costs
import Yurine.Types
import Mathlib.Data.Finset.Insert
import Mathlib.Order.Bounds.Basic

/-! Substitution neighborhoods over a finite alphabet of distinct symbols. -/
namespace Yurine
open Outcome

variable {R : Type}

structure SubstitutionNeighborhood where
  alphabet : List Symbol
  distinct : alphabet.Nodup

namespace SubstitutionNeighborhood

/-- The uniqueness loop of `SubstitutionNeighborhood::new`. -/
def uniqueSymbols (alphabet : List Symbol) : Result R (Finset Symbol) :=
  alphabet.foldlM (fun unique symbol =>
    if symbol ∈ unique then fail .duplicateAlphabetSymbol
    else return insert symbol unique) ∅

theorem ensures_uniqueSymbols (alphabet : List Symbol) :
    Ensures (fun _ => alphabet.Nodup) (fun e => e = .duplicateAlphabetSymbol ∧ ¬ alphabet.Nodup)
      (uniqueSymbols (R := R) alphabet) := by
  have loop := Ensures.foldlM (ε := Error R) (l := alphabet) (s := (∅ : Finset Symbol))
    (E := fun e => e = .duplicateAlphabetSymbol ∧ ¬ alphabet.Nodup)
    (f := fun unique symbol =>
      if symbol ∈ unique then fail .duplicateAlphabetSymbol
      else return insert symbol unique)
    (motive := fun visited unique => visited.Nodup ∧ ∀ symbol, symbol ∈ unique ↔ symbol ∈ visited)
    (by simp) ?_
  · exact loop.post (fun _ h => h.1)
  · rintro before symbol after unique split ⟨nodup, content⟩
    refine ensures_ite (fun repeated => ⟨rfl, fun whole => ?_⟩) (fun new => ?_)
    · rw [split, List.nodup_append] at whole
      exact whole.2.2 symbol ((content symbol).mp repeated) symbol (by simp) rfl
    · rw [content] at new
      refine ⟨?_, fun other => by simp [content, or_comm]⟩
      exact List.nodup_append_comm.mp (List.nodup_cons.mpr ⟨new, nodup⟩)

def new (alphabet : List Symbol) : Result R SubstitutionNeighborhood := do
  let unique ← (ensures_uniqueSymbols alphabet).attach
  return ⟨alphabet, unique.2⟩

theorem new_ok {alphabet : List Symbol} (distinct : alphabet.Nodup) :
    new (R := R) alphabet = .ok ⟨alphabet, distinct⟩ := by
  have spec : Ensures (fun neighborhood => neighborhood = ⟨alphabet, distinct⟩)
      (fun _ => False) (new (R := R) alphabet) := by
    refine Ensures.bind ((ensures_uniqueSymbols alphabet).ensures_attach.mono
      (fun _ h => h) (fun _ h => h.2 distinct)) ?_
    intro _ _
    rfl
  exact ensures_eq.mp spec

variable [Number R]

/-- Splits the alphabet at `eta`: the symbols within it, and the least cost of leaving them. -/
def scan (neighborhood : SubstitutionNeighborhood) (symbol : Symbol) (eta : Cost R)
    (costs : EditCosts R Symbol) : Result R (List Symbol × Cost R) := do
  let deletion ← costs.deletion symbol
  neighborhood.alphabet.foldlM (fun state candidate => do
    let substitution ← costs.substitution symbol candidate
    if substitution ≤ eta then return (state.1 ++ [candidate], state.2)
    else return (state.1, min state.2 substitution)) ([], deletion)

def neighbors (neighborhood : SubstitutionNeighborhood) (policy : Policy R Symbol) (eta : Cost R)
    (symbol : Symbol) : List Symbol :=
  neighborhood.alphabet.filter (fun candidate => policy.substitution symbol candidate ≤ eta)

/-- The cheapest way to edit a symbol without pairing it with a neighbor. -/
def outsideCost (neighborhood : SubstitutionNeighborhood) (policy : Policy R Symbol)
    (eta : Cost R) (symbol : Symbol) : Cost R :=
  ((neighborhood.alphabet.filter (fun candidate => eta < policy.substitution symbol candidate)).map
    (policy.substitution symbol)).foldl min (policy.deletion symbol)

variable {neighborhood : SubstitutionNeighborhood} {policy : Policy R Symbol}
  {costs : EditCosts R Symbol} {known : Symbol → Prop} {eta : Cost R} {symbol : Symbol}

theorem scan_ok (answers : costs.Answers policy known) (query : known symbol)
    (alphabet : ∀ candidate ∈ neighborhood.alphabet, known candidate) :
    neighborhood.scan symbol eta costs =
      .ok (neighborhood.neighbors policy eta symbol, neighborhood.outsideCost policy eta symbol) := by
  unfold scan neighbors outsideCost
  rw [answers.deletion _ query, bind_ok]
  generalize policy.deletion symbol = outside
  suffices h : ∀ (rest found : List Symbol) (outside : Cost R), (∀ c ∈ rest, known c) →
      rest.foldlM (fun (state : List Symbol × Cost R) candidate => do
        let substitution ← costs.substitution symbol candidate
        if substitution ≤ eta then return (state.1 ++ [candidate], state.2)
        else return (state.1, min state.2 substitution)) (found, outside) =
      (.ok (found ++ rest.filter (fun candidate => policy.substitution symbol candidate ≤ eta),
        ((rest.filter (fun candidate => eta < policy.substitution symbol candidate)).map
          (policy.substitution symbol)).foldl min outside) : Result R _) by
    simpa using h neighborhood.alphabet [] outside alphabet
  intro rest
  induction rest with
  | nil =>
    intro found outside _
    simp [pure, Except.pure]
  | cons candidate rest ih =>
    intro found outside all
    rw [List.foldlM_cons, answers.substitution _ _ query (all candidate (by simp)), bind_ok]
    have rest_known := fun c hc => all c (List.mem_cons_of_mem candidate hc)
    by_cases near : policy.substitution symbol candidate ≤ eta
    · rw [if_pos near, List.filter_cons_of_pos (by simpa using near),
        List.filter_cons_of_neg (by simpa using near)]
      simpa using ih (found ++ [candidate]) outside rest_known
    · rw [if_neg near, List.filter_cons_of_neg (by simpa using near),
        List.filter_cons_of_pos (by simpa using near)]
      exact ih found (min outside (policy.substitution symbol candidate)) rest_known

theorem mem_neighbors {candidate : Symbol} :
    candidate ∈ neighborhood.neighbors policy eta symbol ↔
      candidate ∈ neighborhood.alphabet ∧ policy.substitution symbol candidate ≤ eta := by
  simp [neighbors]

theorem nodup_neighbors : (neighborhood.neighbors policy eta symbol).Nodup :=
  neighborhood.distinct.filter _

private theorem foldl_min_le (costs : List (Cost R)) (least : Cost R) :
    costs.foldl min least ≤ least ∧ ∀ cost ∈ costs, costs.foldl min least ≤ cost := by
  induction costs generalizing least with
  | nil => simp
  | cons cost costs ih =>
    obtain ⟨below, members⟩ := ih (min least cost)
    refine ⟨below.trans (min_le_left _ _), ?_⟩
    intro other mem
    rcases List.mem_cons.mp mem with rfl | mem
    · exact below.trans (min_le_right _ _)
    · exact members other mem

theorem outsideCost_le_deletion : neighborhood.outsideCost policy eta symbol ≤
    policy.deletion symbol := (foldl_min_le _ _).1

/-- A symbol of the alphabet that is no neighbor costs at least the outside cost. -/
theorem outsideCost_le_substitution {candidate : Symbol}
    (mem : candidate ∈ neighborhood.alphabet)
    (outside : candidate ∉ neighborhood.neighbors policy eta symbol) :
    neighborhood.outsideCost policy eta symbol ≤ policy.substitution symbol candidate := by
  refine (foldl_min_le _ _).2 _ (List.mem_map.mpr ⟨candidate, ?_, rfl⟩)
  rw [mem_neighbors, not_and, not_le] at outside
  simpa [mem] using outside mem

private theorem foldl_min_mem (costs : List (Cost R)) (least : Cost R) :
    costs.foldl min least = least ∨ costs.foldl min least ∈ costs := by
  induction costs generalizing least with
  | nil => exact .inl rfl
  | cons cost costs ih =>
    rcases ih (min least cost) with same | mem
    · rcases min_choice least cost with first | second
      · exact .inl (same.trans first)
      · exact .inr (List.mem_cons.mpr (.inl (same.trans second)))
    · exact .inr (List.mem_cons_of_mem cost mem)

/-- The outside cost is the least of the deletion and the substitutions above the radius. -/
theorem outsideCost_isLeast (neighborhood : SubstitutionNeighborhood) (policy : Policy R Symbol)
    (eta : Cost R) (symbol : Symbol) :
    IsLeast { cost | cost = policy.deletion symbol ∨ ∃ candidate ∈ neighborhood.alphabet,
      eta < policy.substitution symbol candidate ∧ cost = policy.substitution symbol candidate }
      (neighborhood.outsideCost policy eta symbol) := by
  constructor
  · rcases foldl_min_mem ((neighborhood.alphabet.filter (fun candidate =>
      eta < policy.substitution symbol candidate)).map (policy.substitution symbol))
      (policy.deletion symbol) with deleted | substituted
    · exact .inl deleted
    · obtain ⟨candidate, mem, same⟩ := List.mem_map.mp substituted
      obtain ⟨listed, far⟩ := List.mem_filter.mp mem
      exact .inr ⟨candidate, listed, of_decide_eq_true far, same.symm⟩
  · rintro cost (rfl | ⟨candidate, listed, far, rfl⟩)
    · exact outsideCost_le_deletion
    · exact outsideCost_le_substitution listed
        (fun near => absurd (mem_neighbors.mp near).2 (not_le.mpr far))

theorem outsideCost_eq_deletion
    (wide : ∀ candidate ∈ neighborhood.alphabet, policy.substitution symbol candidate ≤ eta) :
    neighborhood.outsideCost policy eta symbol = policy.deletion symbol := by
  have none_outside : neighborhood.alphabet.filter
      (fun candidate => eta < policy.substitution symbol candidate) = [] := by
    simpa using wide
  rw [outsideCost, none_outside]
  rfl

end SubstitutionNeighborhood
end Yurine
