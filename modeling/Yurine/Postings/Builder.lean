import Yurine.Postings

/-! The postings builder. Sorting, removing repetitions and counting make the built index
depend on the set of added postings alone. -/
namespace Yurine
open Outcome Offsets Sorting

structure PostingsIndexBuilder where
  symbolCount : Nat
  postings : List (Symbol × Posting)
  known : ∀ entry ∈ postings, entry.1.val < symbolCount

namespace PostingsIndexBuilder

def new (symbolCount : Nat) : PostingsIndexBuilder := ⟨symbolCount, [], by simp⟩

/-- The outcome of the call and the builder after it. -/
def addPosting (builder : PostingsIndexBuilder) (symbol : Symbol) (posting : Posting) :
    Result R PUnit × PostingsIndexBuilder :=
  if unknown : symbol.isUnknown ∨ builder.symbolCount ≤ symbol.val then
    (fail (.unknownStringSymbol symbol.val), builder)
  else
    (.ok ⟨⟩, { builder with
      postings := builder.postings ++ [(symbol, posting)]
      known := by
        rw [not_or, not_le] at unknown
        simpa [or_imp, forall_and] using ⟨fun a b mem => builder.known (a, b) mem, unknown.2⟩ })

/-- The key of the sort. It determines the entry, so the unstable sort of the source has
one possible result. -/
def key (entry : Symbol × Posting) : U32 ×ₗ (U32 ×ₗ U32) := toLex (entry.1, entry.2.key)

def build (builder : PostingsIndexBuilder) : Result R PostingsIndex := do
  let postings := dedupAdjacent (sortByKey key builder.postings)
  let postingOffsets ← countOffsets builder.symbolCount (fun entry => entry.1.val) postings
  return ⟨.owned (postings.map Prod.snd), .owned postingOffsets⟩

variable {builder : PostingsIndexBuilder} {R : Type}

theorem key_injective : Function.Injective key := by
  rintro ⟨a, b⟩ ⟨c, d⟩ same
  obtain ⟨first, second⟩ := Prod.mk.inj (toLex.injective same)
  obtain rfl : a = c := first
  obtain rfl : b = d := Posting.key_injective second
  rfl

theorem addPosting_ok {symbol : Symbol} (known : symbol.val < builder.symbolCount)
    (bound : builder.symbolCount < 2 ^ 32) (posting : Posting) :
    (builder.addPosting (R := R) symbol posting).1 = .ok ⟨⟩ ∧
      (builder.addPosting (R := R) symbol posting).2.symbolCount = builder.symbolCount ∧
      (builder.addPosting (R := R) symbol posting).2.postings =
        builder.postings ++ [(symbol, posting)] := by
  unfold addPosting
  rw [dif_neg (by rw [Symbol.isUnknown_iff]; omega)]
  exact ⟨rfl, rfl, rfl⟩

/-- The lists of the built index, one for each symbol of the builder. -/
def sortedLists (builder : PostingsIndexBuilder) : List (List Posting) :=
  (groups builder.symbolCount (fun entry => entry.1.val)
    (dedupAdjacent (sortByKey key builder.postings))).map (List.map Prod.snd)

theorem sorted_strict (builder : PostingsIndexBuilder) :
    (dedupAdjacent (sortByKey key builder.postings)).Pairwise (fun a b => key a < key b) :=
  dedupAdjacent_strict key_injective (sortByKey_sorted key builder.postings)

theorem build_ok (builder : PostingsIndexBuilder) :
    ∃ index, builder.build (R := R) = .ok index ∧ index.lists = builder.sortedLists ∧
      Offsets.WellFormed index.postingOffsets.asSlice index.postings.asSlice.length ∧
      index.postings.isMapped = false := by
  have known : ∀ entry ∈ dedupAdjacent (sortByKey key builder.postings),
      entry.1.val < builder.symbolCount :=
    fun entry mem => builder.known entry (by simpa using mem)
  have grouped : (dedupAdjacent (sortByKey key builder.postings)).Pairwise
      (fun a b => a.1.val ≤ b.1.val) := by
    refine builder.sorted_strict.imp (fun {a b} less => ?_)
    rcases (Prod.Lex.lt_iff).mp less with h | h
    · exact Nat.le_of_lt h
    · exact Nat.le_of_eq (congrArg Fin.val h.1)
  have flat : builder.sortedLists.flatten =
      (dedupAdjacent (sortByKey key builder.postings)).map Prod.snd := by
    rw [sortedLists, ← List.map_flatten, flatten_groups grouped known]
  have offsets : offsetsFrom 0 (groups builder.symbolCount (fun entry => entry.1.val)
      (dedupAdjacent (sortByKey key builder.postings))) = offsetsFrom 0 builder.sortedLists :=
    (offsetsFrom_map _ 0 _).symm
  refine ⟨_, by rw [build, countOffsets_ok known, bind_ok]; rfl, ?_, ?_, rfl⟩
  · simp only [PostingsIndex.lists, Storage.asSlice, ← flat, offsets, pieces_offsetsFrom]
  · simp only [Storage.asSlice, ← flat, offsets]
    exact wellFormed_offsetsFrom _

/-- Every list is strictly ordered and holds exactly the postings added for its symbol. -/
theorem build_listed {index : PostingsIndex} (built : index.lists = builder.sortedLists)
    (symbol : Symbol) :
    (index.listed symbol).Pairwise (fun a b => a.key < b.key) ∧
      ∀ posting, posting ∈ index.listed symbol ↔ (symbol, posting) ∈ builder.postings := by
  have listed : index.listed symbol = if symbol.val < builder.symbolCount then
      ((dedupAdjacent (sortByKey key builder.postings)).filter
        (fun entry => entry.1.val = symbol.val)).map Prod.snd else [] := by
    rw [PostingsIndex.listed, built, sortedLists, List.getElem?_map, getElem?_groups]
    split <;> rfl
  rw [listed]
  split
  · constructor
    · rw [List.pairwise_map]
      have strict := builder.sorted_strict.filter (fun entry => entry.1.val = symbol.val)
      refine strict.imp_of_mem (fun {a b} ha hb less => ?_)
      rw [List.mem_filter, decide_eq_true_eq] at ha hb
      rcases (Prod.Lex.lt_iff).mp less with h | h
      · exact absurd (Fin.ext (ha.2.trans hb.2.symm)) (ne_of_lt h)
      · exact h.2
    · intro posting
      simp only [List.mem_map, List.mem_filter, mem_dedupAdjacent, mem_sortByKey,
        decide_eq_true_eq, Prod.exists, exists_eq_right]
      constructor
      · rintro ⟨other, mem, same⟩
        exact Fin.ext same ▸ mem
      · exact fun mem => ⟨symbol, mem, rfl⟩
  · rename_i outside
    exact ⟨.nil, fun posting => ⟨fun mem => absurd mem List.not_mem_nil,
      fun mem => absurd (builder.known _ mem) outside⟩⟩

end PostingsIndexBuilder
end Yurine
