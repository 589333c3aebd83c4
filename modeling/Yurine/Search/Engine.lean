import Yurine.Vocabulary
import Yurine.Postings.Verify
import Yurine.Search.Neighborhood

/-! The search engine: vocabulary, postings, corpus and neighborhood of one index. -/
namespace Yurine
open Outcome

variable {T R : Type} [DecidableEq T]

structure SearchEngine (T : Type) [DecidableEq T] where
  vocabulary : Vocabulary T
  index : PostingsIndex
  store : CorpusStore
  neighborhood : SubstitutionNeighborhood

namespace SearchEngine

def fromUnverifiedParts (vocabulary : Vocabulary T) (index : PostingsIndex) (store : CorpusStore) :
    Result R (SearchEngine T) := do
  let alphabet ← index.alphabet
  let neighborhood ← SubstitutionNeighborhood.new alphabet
  return ⟨vocabulary, index, store, neighborhood⟩

def fromParts (vocabulary : Vocabulary T) (index : PostingsIndex) (store : CorpusStore) :
    Result R (SearchEngine T) := do
  store.verify
  fromUnverifiedParts vocabulary index store

def verify (engine : SearchEngine T) : Result R PUnit := do
  engine.store.verify
  engine.index.verify engine.store

/-- Offset arrays fit their payloads and the three tables agree on the number of symbols. -/
structure Aligned (vocabulary : Vocabulary T) (index : PostingsIndex) (store : CorpusStore) :
    Prop where
  indexed : index.WellFormed
  stored : store.WellFormed
  lists : index.lists.length = vocabulary.len
  symbolCount : store.symbolCount = vocabulary.len

/-- What every constructor of an engine establishes. -/
structure WellFormed (engine : SearchEngine T) : Prop extends
    Aligned engine.vocabulary engine.index engine.store where
  /-- A slice has fewer elements than there are values of `usize`. -/
  capacity : engine.index.postings.asSlice.length < usizeRange
  sorted : engine.neighborhood.alphabet.Pairwise (· < ·)
  alphabet : ∀ symbol, symbol ∈ engine.neighborhood.alphabet ↔ engine.index.listed symbol ≠ []
  /-- The symbols of an owned corpus have been checked, those of a mapped one are checked
  on every read. -/
  readable : engine.store.symbols.isMapped = false →
    ∀ symbol ∈ engine.store.symbols.asSlice, symbol.val < engine.vocabulary.len

variable {engine : SearchEngine T} {vocabulary : Vocabulary T} {index : PostingsIndex}
  {store : CorpusStore}

theorem WellFormed.string_eq (wf : engine.WellFormed)
    (known : ∀ symbol ∈ engine.store.symbols.asSlice, symbol.val < engine.vocabulary.len)
    (id : SequenceId) :
    engine.store.string (R := R) id = .ok engine.store.strings[id.val]? := by
  apply CorpusStore.string_eq wf.stored
  rwa [wf.symbolCount]

/-- Aligned parts always make an engine. -/
theorem fromUnverifiedParts_ok (aligned : Aligned vocabulary index store) :
    ∃ neighborhood, fromUnverifiedParts (R := R) vocabulary index store =
        .ok ⟨vocabulary, index, store, neighborhood⟩ ∧
      neighborhood.alphabet.Pairwise (· < ·) ∧
      ∀ symbol, symbol ∈ neighborhood.alphabet ↔ index.listed symbol ≠ [] := by
  obtain ⟨alphabet, found, sorted, content⟩ := PostingsIndex.alphabet_ok (R := R) aligned.indexed
  refine ⟨⟨alphabet, sorted.imp (fun less => less.ne)⟩, ?_, sorted, content⟩
  unfold fromUnverifiedParts
  rw [found, bind_ok, SubstitutionNeighborhood.new_ok, bind_ok]
  rfl

theorem WellFormed.alphabet_lt (wf : engine.WellFormed) {symbol : Symbol}
    (mem : symbol ∈ engine.neighborhood.alphabet) : symbol.val < engine.vocabulary.len := by
  obtain ⟨posting, listed⟩ := List.exists_mem_of_ne_nil _ ((wf.alphabet symbol).mp mem)
  exact wf.lists ▸ (PostingsIndex.mem_listed listed).1

/-- Verification of an engine decides whether the corpus is over the vocabulary, its strings
have identifiers and the postings are its inverted index. -/
theorem decides_verify (aligned : Aligned engine.vocabulary engine.index engine.store) :
    Decides (((∀ symbol ∈ engine.store.symbols.asSlice, symbol.val < engine.vocabulary.len) ∧
        engine.store.strings.length ≤ 2 ^ 32) ∧ engine.index.Inverts engine.store)
      (fun _ => True) (engine.verify (R := R)) := by
  refine Decides.congr (Decides.and (CorpusStore.decides_verify aligned.stored)
    (fun _ => (PostingsIndex.decides_verify aligned.indexed aligned.stored).raises
      (fun _ _ => trivial))) ?_
  rw [aligned.symbolCount, PostingsIndex.checked_iff aligned.indexed aligned.stored]

end SearchEngine
end Yurine
