import Yurine.Search.BuilderSpec
import Mathlib.Data.Set.Function

/-! Index construction is lossless and consistent, whatever calls a run makes. -/
namespace Yurine.SearchEngineBuilder
open Outcome Offsets

variable {T R : Type} [DecidableEq T]

/-- The engine holds the sequences under one numbering of their tokens. -/
structure Reproduces (R : Type) (engine : SearchEngine T) (sequences : List (List T)) :
    Prop where
  /-- Decoding the string of an identifier gives back the sequence. -/
  decodes : ∀ (id : SequenceId) sequence, sequences[id.val]? = some sequence →
    ∃ string, engine.store.string (R := R) id = .ok (some string) ∧
      string.mapM engine.vocabulary.token = some sequence
  named : ∀ k, k < sequences.length → k < 2 ^ 32
  /-- Tokens and symbols are in bijection, and the two tables invert each other. -/
  bijective : Set.BijOn engine.vocabulary.symbol { token | token ∈ sequences.flatten }
    { symbol | symbol.val < engine.vocabulary.len }
  inverse : ∀ symbol token, engine.vocabulary.token symbol = some token ↔
    token ∈ sequences.flatten ∧ engine.vocabulary.symbol token = symbol
  postings : ∀ symbol, ∃ postings, engine.index.postingSlice (R := R) symbol = .ok postings ∧
    postings.Pairwise (fun a b => a.key < b.key) ∧
    ∀ id position, (∃ posting ∈ postings, posting.place = (id, position)) ↔
      ∃ sequence token, sequences[id]? = some sequence ∧ sequence[position]? = some token ∧
        engine.vocabulary.token symbol = some token
  alphabet : ∀ symbol, symbol ∈ engine.neighborhood.alphabet ↔
    ∃ token ∈ sequences.flatten, engine.vocabulary.symbol token = symbol
  verified : engine.verify (R := R) = .ok ⟨⟩

variable {engine : SearchEngine T} {sequences : List (List T)}

theorem mapM_token_encode (vocabulary : Vocabulary T) {sequence : List T}
    (known : ∀ token ∈ sequence, token ∈ vocabulary.tokens) :
    (vocabulary.encode sequence).mapM vocabulary.token = some sequence := by
  induction sequence with
  | nil => rfl
  | cons token rest ih =>
    have tail := ih (fun t h => known t (by simp [h]))
    rw [Vocabulary.encode] at tail ⊢
    rw [List.map_cons, List.mapM_cons, Vocabulary.token_symbol (known token (by simp)), tail]
    rfl

/-- Engines with the same tokens and the same strings index the same sequences. -/
theorem Indexes.sequences_eq {other : SearchEngine T} {sequences' : List (List T)}
    (indexes : Indexes engine sequences) (indexes' : Indexes other sequences')
    (tokens : engine.vocabulary.tokens = other.vocabulary.tokens)
    (strings : engine.store.strings = other.store.strings) : sequences = sequences' := by
  have decoded {e : SearchEngine T} {s : List (List T)} (h : Indexes e s) :
      e.store.strings.map (fun string => string.mapM e.vocabulary.token) = s.map some := by
    rw [h.strings, List.map_map]
    refine List.map_congr_left fun sequence mem => ?_
    exact mapM_token_encode _ fun token here =>
      (h.tokens token).mpr (List.mem_flatten.mpr ⟨sequence, mem, here⟩)
  have same : engine.vocabulary.token = other.vocabulary.token := by
    funext symbol
    rw [Vocabulary.token_eq_getElem?, Vocabulary.token_eq_getElem?, tokens]
  apply List.map_injective_iff.mpr (Option.some_injective _)
  rw [← decoded indexes, ← decoded indexes', strings, same]

/-- A symbol at a place of the corpus stands for the token at that place of the sequences. -/
theorem Indexes.symbolAt_iff (indexes : Indexes engine sequences) {id position : Nat}
    {symbol : Symbol} :
    engine.store.symbolAt (id, position) = some symbol ↔
      ∃ sequence token, sequences[id]? = some sequence ∧ sequence[position]? = some token ∧
        engine.vocabulary.token symbol = some token := by
  simp only [CorpusStore.symbolAt, indexes.strings, List.getElem?_map, Option.bind_eq_bind,
    Option.bind_eq_some_iff, Option.map_eq_some_iff]
  constructor
  · rintro ⟨_, ⟨sequence, found, rfl⟩, here⟩
    rw [Vocabulary.encode, List.getElem?_map, Option.map_eq_some_iff] at here
    obtain ⟨token, here, rfl⟩ := here
    refine ⟨sequence, token, found, here, Vocabulary.token_symbol ((indexes.tokens token).mpr ?_)⟩
    exact List.mem_flatten.mpr ⟨sequence, List.mem_of_getElem? found, List.mem_of_getElem? here⟩
  · rintro ⟨sequence, token, found, here, named⟩
    refine ⟨_, ⟨sequence, found, rfl⟩, ?_⟩
    rw [Vocabulary.encode, List.getElem?_map, here, Option.map_some,
      (Vocabulary.token_eq_some.mp named).1]

theorem Indexes.token_iff (indexes : Indexes engine sequences) {symbol : Symbol} {token : T} :
    engine.vocabulary.token symbol = some token ↔
      token ∈ sequences.flatten ∧ engine.vocabulary.symbol token = symbol := by
  rw [Vocabulary.token_eq_some, ← indexes.tokens, ← Vocabulary.symbol_lt_iff]
  constructor
  · rintro ⟨rfl, known⟩
    exact ⟨known, rfl⟩
  · rintro ⟨known, rfl⟩
    exact ⟨rfl, known⟩

theorem Indexes.mem_alphabet (indexes : Indexes engine sequences) {symbol : Symbol} :
    symbol ∈ engine.neighborhood.alphabet ↔
      ∃ token ∈ sequences.flatten, engine.vocabulary.symbol token = symbol := by
  rw [indexes.wellFormed.alphabet]
  have occurs : engine.index.listed symbol ≠ [] ↔
      ∃ place, engine.store.symbolAt place = some symbol := by
    simp only [← indexes.inverts.exact]
    constructor
    · intro nonempty
      obtain ⟨posting, mem⟩ := List.exists_mem_of_ne_nil _ nonempty
      exact ⟨_, List.mem_map.mpr ⟨posting, mem, rfl⟩⟩
    · rintro ⟨place, mem⟩ empty
      simp [empty] at mem
  rw [occurs]
  constructor
  · rintro ⟨⟨id, position⟩, here⟩
    obtain ⟨_, token, _, _, named⟩ := indexes.symbolAt_iff.mp here
    exact ⟨token, indexes.token_iff.mp named⟩
  · rintro ⟨token, mem, same⟩
    obtain ⟨sequence, hs, ht⟩ := List.mem_flatten.mp mem
    obtain ⟨id, hid, rfl⟩ := List.mem_iff_getElem.mp hs
    obtain ⟨position, hp, rfl⟩ := List.mem_iff_getElem.mp ht
    exact ⟨(id, position), indexes.symbolAt_iff.mpr ⟨_, _, List.getElem?_eq_getElem hid,
      List.getElem?_eq_getElem hp, indexes.token_iff.mpr ⟨mem, same⟩⟩⟩

theorem Indexes.verified (indexes : Indexes engine sequences)
    (count : sequences.length ≤ 2 ^ 32) : engine.verify (R := R) = .ok ⟨⟩ := by
  refine (SearchEngine.decides_verify indexes.wellFormed.toAligned).eq_ok.mpr
    ⟨⟨indexes.wellFormed.readable indexes.owned, ?_⟩, indexes.inverts⟩
  rw [indexes.strings, List.length_map]
  exact count

theorem Indexes.reproduces (indexes : Indexes engine sequences)
    (count : sequences.length ≤ 2 ^ 32) : Reproduces R engine sequences where
  decodes id sequence found := by
    have known : ∀ token ∈ sequence, token ∈ engine.vocabulary.tokens := fun token mem =>
      (indexes.tokens token).mpr (List.mem_flatten.mpr ⟨sequence, List.mem_of_getElem? found, mem⟩)
    have stored : engine.store.strings[id.val]? = some (engine.vocabulary.encode sequence) := by
      rw [indexes.strings, List.getElem?_map, found, Option.map_some]
    refine ⟨_, ?_, mapM_token_encode _ known⟩
    have readable := indexes.wellFormed.readable indexes.owned
    rw [indexes.wellFormed.string_eq readable, stored]
  named k inside := inside.trans_le count
  bijective := by
    refine ⟨fun token mem => ?_, fun a ha b hb same => ?_, fun symbol known => ?_⟩
    · exact Vocabulary.symbol_lt_iff.mpr ((indexes.tokens token).mpr mem)
    · have first := indexes.token_iff.mpr ⟨ha, rfl⟩
      have second := indexes.token_iff.mpr ⟨hb, rfl⟩
      rw [same] at first
      exact Option.some.inj (first.symm.trans second)
    · have found : engine.vocabulary.token symbol =
          some (engine.vocabulary.tokens.get ⟨symbol.val, known⟩) := by
        rw [Vocabulary.token_eq_getElem?, List.getElem?_eq_getElem known]
        rfl
      exact ⟨_, indexes.token_iff.mp found⟩
  inverse _ _ := indexes.token_iff
  postings symbol := by
    refine ⟨_, PostingsIndex.postingSlice_ok indexes.wellFormed.indexed symbol,
      indexes.inverts.ordered symbol, fun id position => ?_⟩
    rw [← indexes.symbolAt_iff, ← indexes.inverts.exact, List.mem_map]
  alphabet _ := indexes.mem_alphabet
  verified := indexes.verified count

/-- A rejected call leaves the builder unchanged, the accepted calls are numbered in order,
and the engine built after any run reproduces exactly the accepted sequences. -/
theorem construction_lossless :
    (∀ (builder : SearchEngineBuilder T) sequence (failure : Failure (Error R)),
      (builder.addSequence sequence).1 = .error failure →
        (builder.addSequence (R := R) sequence).2 = builder) ∧
    ∀ (sequences : List (List T)) (engine : SearchEngine T),
      (new.addSequences (R := R) sequences).2.build (R := R) = .ok engine →
        (new.addSequences (R := R) sequences).1.filterMap Except.toOption =
          List.range (accepted sequences (new.addSequences (R := R) sequences).1).length ∧
        Reproduces R engine (accepted sequences (new.addSequences (R := R) sequences).1) := by
  refine ⟨fun builder sequence failure => addSequence_error, fun sequences engine built => ?_⟩
  have ids := (addSequences_spec (R := R) new sequences).2
  obtain ⟨count, indexes⟩ := indexes_of_built built
  exact ⟨by simpa [new, List.range_eq_range'] using ids, indexes.reproduces count⟩

theorem construction_lossless_banana : ∃ engine : SearchEngine Char,
    (new.addSequences (R := Int) ["ban".toList, [], "ana".toList]).2.build (R := Int) =
      .ok engine ∧ Reproduces Int engine ["ban".toList, [], "ana".toList] := by
  obtain ⟨engine, built, _⟩ := bind_eq_ok.mp (show ((new.addSequences (R := Int)
      ["ban".toList, [], "ana".toList]).2.build (R := Int) >>= fun engine =>
        .ok engine.vocabulary.len) = .ok 3 by decide +kernel)
  have all : accepted ["ban".toList, [], "ana".toList] (new.addSequences (R := Int)
      ["ban".toList, [], "ana".toList]).1 = ["ban".toList, [], "ana".toList] := by decide +kernel
  have reproduced := (construction_lossless.2 _ engine built).2
  rw [all] at reproduced
  exact ⟨engine, built, reproduced⟩

end Yurine.SearchEngineBuilder
