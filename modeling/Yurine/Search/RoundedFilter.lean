import Yurine.Search.RoundedAnchors

/-! The filter with rounded sums. The contributions of a selection reach the bound when they are
added with rounding, so exactly they are short of it by one factor for every position at most, and
a script that is farther below the bound pairs one of the candidates. -/
namespace Yurine
open Outcome EditScripts MinCandidateSelector RoundedNumber

section Pairing
variable {R : Type} [Number R] {policy : Policy R Symbol} {neighborhood : SubstitutionNeighborhood}
  {radius : Cost R} {selected : List SelectedPosition}

/-- A substitution of the script is that of a selected position by one of its neighbors. -/
def MeetsNeighbor (neighborhood : SubstitutionNeighborhood) (policy : Policy R Symbol)
    (radius : Cost R) (selected : List SelectedPosition) (script : Script Symbol Symbol) : Prop :=
  ∃ before a b after, script = before ++ .substitute a b :: after ∧
    (source before).length ∈ positions selected ∧ b ∈ neighborhood.neighbors policy radius a

theorem exists_listed {index : PostingsIndex} {corpus : CorpusStore}
    (inverts : index.Inverts corpus) {id position : Nat} {string : List Symbol} {symbol : Symbol}
    (stored : corpus.strings[id]? = some string) (here : string[position]? = some symbol) :
    ∃ posting ∈ index.listed symbol, posting.place = (id, position) := by
  apply List.mem_map.mp
  rw [inverts.exact, CorpusStore.symbolAt, stored]
  exact here

/-- A script that meets a neighbor pairs the positions of a candidate. -/
theorem MeetsNeighbor.exists_candidate {index : PostingsIndex} {corpus : CorpusStore}
    (inverts : index.Inverts corpus) {script : Script Symbol Symbol}
    (meets : MeetsNeighbor neighborhood policy radius selected script)
    (selects : Selects neighborhood policy radius (source script) selected)
    {id start stop : Nat} {string : List Symbol} (stored : corpus.strings[id]? = some string)
    (built : target script = segment string start stop) :
    ∃ candidate ∈ candidates selected index, candidate.stringId.val = id ∧
      start ≤ candidate.stringPosition.val ∧
      Pairs script candidate.queryPosition.val (candidate.stringPosition.val - start) := by
  obtain ⟨before, a, b, after, rfl, chosen, near⟩ := meets
  obtain ⟨item, picked, position⟩ := List.mem_map.mp chosen
  obtain ⟨symbol, found, neighbors⟩ := selects.neighbors item picked
  have query : (source (before ++ .substitute a b :: after))[item.position.val]? = some a := by
    rw [position, source_append, source, List.getElem?_append_right le_rfl, Nat.sub_self]
    rfl
  rw [query, Option.some.injEq] at found
  have here : (segment string start stop)[(target before).length]? = some b := by
    rw [← built, target_append, target, List.getElem?_append_right le_rfl, Nat.sub_self]
    rfl
  have within := (List.getElem?_eq_some_iff.mp here).1
  rw [segment, List.length_take] at within
  rw [segment, List.getElem?_take_of_lt (by omega), List.getElem?_drop] at here
  obtain ⟨posting, mem, place⟩ := exists_listed inverts stored here
  obtain ⟨sameId, samePosition⟩ := Prod.mk.inj place
  refine ⟨_, mem_candidates.mpr ⟨item, picked, b, ?_, posting, mem, rfl⟩, sameId, ?_, ?_⟩
  · rwa [neighbors, ← found]
  · exact samePosition ▸ Nat.le_add_right start _
  · refine ⟨before, a, b, after, rfl, position.symm, ?_⟩
    show _ = posting.position.val - start
    rw [samePosition, Nat.add_sub_cancel_left]

end Pairing

variable {R : Type} [RoundedNumber R] {policy : Policy R Symbol} {bound : StrictBound R}
  {neighborhood : SubstitutionNeighborhood} {radius : Cost R} {selected : List SelectedPosition}

theorem value_sumInOrder_le {terms : List R} (nonneg : ∀ x ∈ terms, 0 ≤ x) :
    value (sumInOrder terms) ≤ growth R ^ terms.length * (terms.map value).sum := by
  unfold sumInOrder
  suffices h : ∀ a : R, 0 ≤ a → value (terms.foldl (· + ·) a) ≤
      growth R ^ terms.length * (value a + (terms.map value).sum) by
    have whole := h 0 le_rfl
    rwa [RoundedNumber.value_zero, zero_add] at whole
  induction terms with
  | nil =>
    intro a _
    rw [List.foldl_nil, List.length_nil, pow_zero, one_mul, List.map_nil, List.sum_nil, add_zero]
  | cons x terms ih =>
    intro a ha
    have hx := nonneg x List.mem_cons_self
    have rest := ih (fun y mem => nonneg y (List.mem_cons_of_mem x mem)) (a + x)
      (add_nonneg_of ha hx)
    have sum := RoundedNumber.value_add_le a x ha hx
    have tail : 0 ≤ (terms.map value).sum := by
      apply List.sum_nonneg
      intro q mem
      obtain ⟨y, listed, rfl⟩ := List.mem_map.mp mem
      exact value_nonneg (nonneg y (List.mem_cons_of_mem x listed))
    have power : 0 ≤ growth R ^ terms.length := (pow_pos growth_pos _).le
    have grown : (terms.map value).sum ≤ growth R * (terms.map value).sum :=
      le_mul_of_one_le_left tail one_le_growth
    rw [List.foldl_cons, List.length_cons, List.map_cons, List.sum_cons, pow_succ, mul_assoc]
    refine rest.trans (mul_le_mul_of_nonneg_left ?_ power)
    calc value (a + x) + (terms.map value).sum
        ≤ growth R * (value a + value x) + growth R * (terms.map value).sum :=
          add_le_add sum grown
      _ = growth R * (value a + (value x + (terms.map value).sum)) := by ring

/-- A script over the alphabet that meets no neighbor costs at least the contributions of the
selected positions. -/
theorem sum_contributions_le_total {script : Script Symbol Symbol}
    (alphabet : ∀ symbol ∈ target script, symbol ∈ neighborhood.alphabet)
    (unpaired : ¬ MeetsNeighbor neighborhood policy radius selected script) :
    ((selectedContributions neighborhood policy radius (source script) selected).map value).sum ≤
      total policy.exact script := by
  have charged : ((selectedContributions neighborhood policy radius (source script)
      selected).map value).sum = ((source script).zipIdx.map fun entry =>
        if entry.2 ∈ positions selected then
          value (neighborhood.outsideCost policy radius entry.1).get else 0).sum := by
    rw [List.sum_map_ite, List.map_const', List.sum_replicate, nsmul_zero, add_zero,
      selectedContributions, List.map_map]
    rfl
  rw [charged]
  apply charges_le_total policy.exact_nonneg script
  apply List.forall₂_iff_get.mpr
  constructor
  · rw [List.length_map, List.length_zipIdx, length_consumers]
  · intro i h h'
    rw [List.length_map, List.length_zipIdx] at h
    have consumed : (consumers script)[i]? = some ((consumers script).get ⟨i, h'⟩) :=
      List.getElem?_eq_getElem h'
    generalize (consumers script).get ⟨i, h'⟩ = edit at consumed ⊢
    rw [List.get_eq_getElem, List.getElem_map, List.getElem_zipIdx, Nat.zero_add]
    dsimp only
    split
    · rename_i chosen
      have consuming := (List.mem_filter.mp (List.mem_of_getElem? consumed)).2
      obtain ⟨before, after, rfl, rfl⟩ := consumer_at script consumed
      have here (a : Symbol) (rest : List Symbol)
          (whole : source (before ++ edit :: after) = source before ++ a :: rest) :
          (source (before ++ edit :: after))[(source before).length] = a := by
        rw [List.getElem_of_eq whole, List.getElem_append_right le_rfl]
        simp
      cases edit with
      | delete a =>
        rw [here a (source after) (source_append _ _)]
        exact value_le_iff.mpr SubstitutionNeighborhood.outsideCost_le_deletion
      | substitute a b =>
        rw [here a (source after) (source_append _ _)]
        refine value_le_iff.mpr (SubstitutionNeighborhood.outsideCost_le_substitution
          (alphabet b ?_) (fun near => unpaired ⟨before, a, b, after, rfl, chosen, near⟩))
        rw [target_append, target]
        exact List.mem_append_right _ List.mem_cons_self
      | insert b => cases consuming
    · exact policy.exact_nonneg.weight edit

/-- Over exact postings a script that stays below the bound by one factor for every position
pairs the positions of a candidate. -/
theorem exists_candidate_of_cheap {index : PostingsIndex} {corpus : CorpusStore}
    (inverts : index.Inverts corpus)
    (alphabet : ∀ symbol, index.listed symbol ≠ [] → symbol ∈ neighborhood.alphabet)
    {script : Script Symbol Symbol}
    (sufficient : Suffices neighborhood policy bound (source script) radius selected)
    {id start stop : Nat} {string : List Symbol} (stored : corpus.strings[id]? = some string)
    (built : target script = segment string start stop)
    (cheap : growth R ^ (source script).length * total policy.exact script <
      value bound.cost.get) :
    ∃ candidate ∈ candidates selected index, candidate.stringId.val = id ∧
      start ≤ candidate.stringPosition.val ∧
      Pairs script candidate.queryPosition.val (candidate.stringPosition.val - start) := by
  by_cases meets : MeetsNeighbor neighborhood policy radius selected script
  · exact meets.exists_candidate inverts sufficient.selects stored built
  · exfalso
    have occurring : ∀ symbol ∈ target script, symbol ∈ neighborhood.alphabet := by
      intro symbol mem
      rw [built] at mem
      obtain ⟨position, here⟩ :=
        List.mem_iff_getElem?.mp (List.mem_of_mem_drop (List.mem_of_mem_take mem))
      obtain ⟨posting, mem, _⟩ := exists_listed inverts stored here
      exact alphabet symbol (List.ne_nil_of_mem mem)
    have nonneg : ∀ x ∈ selectedContributions neighborhood policy radius (source script) selected,
        0 ≤ x := by
      intro x mem
      obtain ⟨entry, _, rfl⟩ := List.mem_map.mp mem
      exact Cost.nonneg _
    have few : (selectedContributions neighborhood policy radius (source script)
        selected).length ≤ (source script).length := by
      rw [selectedContributions, List.length_map, ← List.length_zipIdx (l := source script)]
      exact List.length_filter_le _ _
    apply sufficient.covers
    apply value_lt_iff.mp
    calc value (sumInOrder (selectedContributions neighborhood policy radius (source script)
          selected))
        ≤ growth R ^ _ * _ := value_sumInOrder_le nonneg
      _ ≤ growth R ^ (source script).length * total policy.exact script := by
        apply mul_le_mul (growth_pow_le few) (sum_contributions_le_total occurring meets)
        · apply List.sum_nonneg
          intro q mem
          obtain ⟨x, listed, rfl⟩ := List.mem_map.mp mem
          exact value_nonneg (nonneg x listed)
        · exact (pow_pos growth_pos _).le
      _ < value bound.cost.get := cheap

end Yurine
