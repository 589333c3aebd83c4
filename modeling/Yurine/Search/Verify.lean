import Yurine.Search.BuilderSpec

/-! What verification of an engine accepts. -/
namespace Yurine.SearchEngine
open Outcome

variable {T R : Type} [DecidableEq T]

/-- `SearchEngine::verify` accepts exactly the engines whose postings are the inverted index
of a corpus over the vocabulary. -/
theorem verify_eq_ok_iff (engine : SearchEngine T)
    (aligned : Aligned engine.vocabulary engine.index engine.store)
    (named : engine.store.strings.length ≤ 2 ^ 32) :
    engine.verify (R := R) = .ok ⟨⟩ ↔
      (∀ symbol ∈ engine.store.symbols.asSlice, symbol.val < engine.vocabulary.len) ∧
      ∀ symbol, ∃ postings, engine.index.postingSlice (R := R) symbol = .ok postings ∧
        postings.Pairwise (fun a b => a.key < b.key) ∧
        ∀ id position, (∃ posting ∈ postings, posting.place = (id, position)) ↔
          ∃ string, engine.store.strings[id]? = some string ∧ string[position]? = some symbol := by
  rw [(decides_verify aligned).eq_ok, and_iff_left named]
  refine and_congr_right (fun _ => ?_)
  simp only [PostingsIndex.postingSlice_ok aligned.indexed]
  have occurs (id position : Nat) (symbol : Symbol) :
      engine.store.symbolAt (id, position) = some symbol ↔
        ∃ string, engine.store.strings[id]? = some string ∧ string[position]? = some symbol := by
    simp [CorpusStore.symbolAt, Option.bind_eq_some_iff]
  constructor
  · rintro ⟨ordered, exact⟩ symbol
    refine ⟨_, rfl, ordered symbol, fun id position => ?_⟩
    rw [← occurs, ← exact, List.mem_map]
  · intro all
    constructor
    · intro symbol
      obtain ⟨postings, found, ordered, _⟩ := all symbol
      rwa [Except.ok.inj found]
    · rintro symbol ⟨id, position⟩
      obtain ⟨postings, found, _, exact⟩ := all symbol
      rw [Except.ok.inj found, List.mem_map, occurs]
      exact exact id position

theorem verify_eq_ok_iff_banana : ∃ engine : SearchEngine Char,
    (SearchEngineBuilder.new.addSequences (R := Int)
      ["ban".toList, [], "ana".toList]).2.build (R := Int) = .ok engine ∧
    (∀ symbol ∈ engine.store.symbols.asSlice, symbol.val < engine.vocabulary.len) ∧
      ∀ symbol, ∃ postings, engine.index.postingSlice (R := Int) symbol = .ok postings ∧
        postings.Pairwise (fun a b => a.key < b.key) ∧
        ∀ id position, (∃ posting ∈ postings, posting.place = (id, position)) ↔
          ∃ string, engine.store.strings[id]? = some string ∧ string[position]? = some symbol := by
  obtain ⟨engine, built, ran⟩ := bind_eq_ok.mp (show ((SearchEngineBuilder.new.addSequences
      (R := Int) ["ban".toList, [], "ana".toList]).2.build (R := Int) >>= fun engine =>
        engine.verify (R := Int) >>= fun _ => .ok engine.store.strings.length) =
      .ok 3 by decide +kernel)
  obtain ⟨_, verified, count⟩ := bind_eq_ok.mp ran
  have named : engine.store.strings.length ≤ 2 ^ 32 := by
    rw [Except.ok.inj count]
    decide
  have indexes := (SearchEngineBuilder.indexes_of_built built).2
  exact ⟨engine, built,
    (verify_eq_ok_iff engine indexes.wellFormed.toAligned named).mp verified⟩

end Yurine.SearchEngine
