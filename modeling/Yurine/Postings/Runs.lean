import Yurine.Postings.Builder

/-! Runs of the postings builder. A run is the calls made on it with what they return; calls that
are rejected leave nothing behind, and the index that is built in the end depends on the set of
the others alone, whatever the number of symbols is. -/
namespace Yurine
open Outcome Offsets Sorting

namespace PostingsIndexBuilder

variable {R : Type}

def addAll (builder : PostingsIndexBuilder) :
    List (Symbol × Posting) → List (Result R PUnit) × PostingsIndexBuilder
  | [] => ([], builder)
  | call :: rest =>
    let added := builder.addPosting call.1 call.2
    let others := added.2.addAll rest
    (added.1 :: others.1, others.2)

def accepted (calls : List (Symbol × Posting)) (outcomes : List (Result R PUnit)) :
    List (Symbol × Posting) :=
  (calls.zip outcomes).filterMap fun call =>
    match call.2 with
    | .ok _ => some call.1
    | .error _ => none

@[simp] theorem accepted_ok (call : Symbol × Posting) (calls : List (Symbol × Posting))
    (outcomes : List (Result R PUnit)) :
    accepted (call :: calls) (.ok ⟨⟩ :: outcomes) = call :: accepted calls outcomes := rfl

@[simp] theorem accepted_error (call : Symbol × Posting) (calls : List (Symbol × Posting))
    (reason : Error R) (outcomes : List (Result R PUnit)) :
    accepted (call :: calls) (fail reason :: outcomes) = accepted calls outcomes := rfl

def Known (symbolCount : Nat) (symbol : Symbol) : Prop :=
  ¬ symbol.isUnknown ∧ symbol.val < symbolCount

variable {builder : PostingsIndexBuilder} {symbol : Symbol}

theorem addPosting_known (known : Known builder.symbolCount symbol) (posting : Posting) :
    ∃ next, builder.addPosting (R := R) symbol posting = (.ok ⟨⟩, next) ∧
      next.symbolCount = builder.symbolCount ∧
      next.postings = builder.postings ++ [(symbol, posting)] := by
  have inside : ¬ (symbol.isUnknown ∨ builder.symbolCount ≤ symbol.val) :=
    fun outside => outside.elim known.1 (Nat.not_le.mpr known.2)
  exact ⟨_, dif_neg inside, rfl, rfl⟩

theorem addPosting_rejected (unknown : ¬ Known builder.symbolCount symbol) (posting : Posting) :
    builder.addPosting (R := R) symbol posting =
      (fail (.unknownStringSymbol symbol.val), builder) := by
  have outside : symbol.isUnknown ∨ builder.symbolCount ≤ symbol.val := by
    by_contra inside
    obtain ⟨named, inside⟩ := not_or.mp inside
    exact unknown ⟨named, Nat.lt_of_not_le inside⟩
  exact dif_pos outside

/-- A run appends its accepted calls, which are those for symbols of the vocabulary. -/
theorem addAll_spec (builder : PostingsIndexBuilder) (calls : List (Symbol × Posting)) :
    (builder.addAll (R := R) calls).2.symbolCount = builder.symbolCount ∧
    (builder.addAll (R := R) calls).2.postings =
      builder.postings ++ accepted calls (builder.addAll (R := R) calls).1 ∧
    ∀ call, call ∈ accepted calls (builder.addAll (R := R) calls).1 ↔
      call ∈ calls ∧ Known builder.symbolCount call.1 := by
  induction calls generalizing builder with
  | nil => exact ⟨rfl, by simp [addAll, accepted], by simp [accepted]⟩
  | cons first rest ih =>
    obtain ⟨symbol, posting⟩ := first
    by_cases known : Known builder.symbolCount symbol
    · obtain ⟨next, added, count, pushed⟩ := addPosting_known (R := R) known posting
      obtain ⟨later, appended, members⟩ := ih next
      rw [count] at later members
      simp only [addAll, added]
      refine ⟨later, ?_, fun call => ?_⟩
      · rw [appended, pushed, List.append_assoc]
        rfl
      · rw [accepted_ok, List.mem_cons, List.mem_cons, members, or_and_right]
        refine or_congr_left ⟨fun same => ⟨same, ?_⟩, And.left⟩
        rw [same]
        exact known
    · obtain ⟨later, appended, members⟩ := ih builder
      simp only [addAll, addPosting_rejected known]
      refine ⟨later, appended, fun call => ?_⟩
      rw [accepted_error, members, List.mem_cons, or_and_right]
      refine (or_iff_right ?_).symm
      rintro ⟨rfl, valid⟩
      exact known valid

/-- An index holds exactly these postings, each under its symbol and all in order. -/
structure Holds (R : Type) (symbolCount : Nat) (entries : List (Symbol × Posting))
    (index : PostingsIndex) : Prop where
  postings : ∀ symbol, ∃ postings, index.postingSlice (R := R) symbol = .ok postings ∧
    index.frequency (R := R) symbol = .ok postings.length ∧
    postings.Pairwise (fun a b => a.key < b.key) ∧
    ∀ posting, posting ∈ postings ↔ (symbol, posting) ∈ entries
  outside : ∀ symbol, symbol.isUnknown ∨ symbolCount ≤ symbol.val →
    index.postingSlice (R := R) symbol = .ok []
  alphabet : ∃ alphabet, index.alphabet (R := R) = .ok alphabet ∧ alphabet.Pairwise (· < ·) ∧
    ∀ symbol, symbol ∈ alphabet ↔ ∃ posting, (symbol, posting) ∈ entries
  offsets : index.postingOffsets.asSlice.length = symbolCount + 1 ∧
    index.postingOffsets.asSlice.head? = some 0 ∧
    index.postingOffsets.asSlice.IsChain (· ≤ ·) ∧
    index.postingOffsets.asSlice.getLast? = some index.postings.asSlice.length

theorem build_holds (builder : PostingsIndexBuilder)
    (known : ∀ entry ∈ builder.postings, Known builder.symbolCount entry.1) :
    ∃ index, builder.build (R := R) = .ok index ∧
      Holds R builder.symbolCount builder.postings index := by
  obtain ⟨index, built, lists, offsets, _⟩ := builder.build_ok (R := R)
  have listed := build_listed lists
  have empty {symbol : Symbol} (outside : symbol.isUnknown ∨ builder.symbolCount ≤ symbol.val) :
      index.listed symbol = [] := by
    apply List.eq_nil_iff_forall_not_mem.mpr
    intro posting mem
    obtain ⟨named, inside⟩ := known _ (((listed symbol).2 posting).mp mem)
    exact outside.elim named (Nat.not_le.mpr inside)
  have count : index.lists.length = builder.symbolCount := by
    rw [lists, sortedLists, List.length_map, length_groups]
  have wf : index.WellListed := by
    refine ⟨offsets, fun i list found nonempty => ?_⟩
    rw [lists, sortedLists, List.getElem?_map, getElem?_groups] at found
    obtain ⟨group, grouped, rfl⟩ := Option.map_eq_some_iff.mp found
    obtain ⟨_, rfl⟩ := Option.ite_some_none_eq_some.mp grouped
    obtain ⟨entry, mem⟩ := List.exists_mem_of_ne_nil _ fun none =>
      nonempty (congrArg (List.map Prod.snd) none)
    obtain ⟨mem, same⟩ := List.mem_filter.mp mem
    obtain ⟨named, _⟩ := known entry (by simpa using mem)
    rw [Symbol.isUnknown_iff] at named
    have bound := entry.1.isLt
    have position := of_decide_eq_true same
    omega
  refine ⟨index, built, ?_, ?_, ?_, ?_⟩
  · exact fun symbol => ⟨index.listed symbol, wf.postingSlice_ok symbol, wf.frequency_ok symbol,
      (listed symbol).1, (listed symbol).2⟩
  · intro symbol outside
    rw [wf.postingSlice_ok, empty outside]
  · obtain ⟨alphabet, found, sorted, content⟩ := wf.alphabet_ok (R := R)
    refine ⟨alphabet, found, sorted, fun symbol => ?_⟩
    rw [content, ne_eq, List.eq_nil_iff_forall_not_mem, not_forall]
    simp only [not_not, (listed symbol).2]
  · refine ⟨?_, offsets.first, offsets.ordered, offsets.last⟩
    have nonempty := List.length_pos_iff.mpr offsets.nonempty
    rw [PostingsIndex.lists, length_pieces] at count
    omega

/-- The index depends on the set of entries alone. -/
theorem build_congr {first second : PostingsIndexBuilder}
    (count : first.symbolCount = second.symbolCount)
    (same : ∀ entry, entry ∈ first.postings ↔ entry ∈ second.postings) :
    first.build (R := R) = second.build := by
  have sorted : dedupAdjacent (sortByKey key first.postings) =
      dedupAdjacent (sortByKey key second.postings) :=
    eq_of_strict first.sorted_strict second.sorted_strict (by simpa using same)
  rw [build, build, sorted, count]

end PostingsIndexBuilder

open PostingsIndexBuilder

/-- A run builds the index of the set of its accepted postings. -/
theorem addPosting_runs {R : Type} (symbolCount : Nat) (calls : List (Symbol × Posting)) :
    let run := (PostingsIndexBuilder.new symbolCount).addAll (R := R) calls
    (∀ call, call ∈ accepted calls run.1 ↔ call ∈ calls ∧ Known symbolCount call.1) ∧
    (∃ index, run.2.build (R := R) = .ok index ∧
      Holds R symbolCount (accepted calls run.1) index) ∧
    (∀ symbol posting, (run.2.addPosting (R := R) symbol posting).1 ≠ .ok ⟨⟩ →
      (run.2.addPosting (R := R) symbol posting).2 = run.2) ∧
    ∀ others, let other := (PostingsIndexBuilder.new symbolCount).addAll (R := R) others
      (∀ call, call ∈ accepted others other.1 ↔ call ∈ accepted calls run.1) →
        other.2.build (R := R) = run.2.build := by
  intro run
  obtain ⟨count, appended, members⟩ :=
    addAll_spec (R := R) (PostingsIndexBuilder.new symbolCount) calls
  have postings : run.2.postings = accepted calls run.1 := appended
  refine ⟨members, ?_, ?_, ?_⟩
  · have known : ∀ entry ∈ run.2.postings, Known run.2.symbolCount entry.1 := by
      intro entry mem
      rw [postings] at mem
      rw [show run.2.symbolCount = symbolCount from count]
      exact ((members entry).mp mem).2
    obtain ⟨index, built, holds⟩ := run.2.build_holds (R := R) known
    rw [postings, show run.2.symbolCount = symbolCount from count] at holds
    exact ⟨index, built, holds⟩
  · intro symbol posting failed
    by_cases known : Known run.2.symbolCount symbol
    · obtain ⟨next, added, _⟩ := addPosting_known (R := R) known posting
      rw [added] at failed
      exact absurd rfl failed
    · rw [addPosting_rejected known]
  · intro others other same
    obtain ⟨otherCount, otherAppended, _⟩ :=
      addAll_spec (R := R) (PostingsIndexBuilder.new symbolCount) others
    have otherPostings : other.2.postings = accepted others other.1 := otherAppended
    apply build_congr (otherCount.trans count.symm)
    intro entry
    rw [otherPostings, postings]
    exact same entry

end Yurine
