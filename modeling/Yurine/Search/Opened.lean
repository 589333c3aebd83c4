import Yurine.Search.Reopen
import Yurine.Search.Tokens

/-! What an opened engine may be trusted with. Its payloads are unchecked, yet no read leaves
its arrays, and a search reports only segments that are there, no nearer than they are. -/
namespace Yurine
open Outcome Offsets EditScripts

variable {T R : Type} [DecidableEq T]

theorem charCodec_decode_ne_panic (bytes : List UInt8) :
    (charCodec (R := R)).decode bytes ≠ panic := by
  have decodes : Ensures (fun _ => True) (fun _ => True) ((charCodec (R := R)).decode bytes) :=
    ensures_ite (fun _ => trivial) (fun _ => ensures_ite (fun _ => trivial) (fun _ => trivial))
  exact decodes.ne_panic

namespace SearchEngine
variable {codec : TokenCodec R T} {bytes : List UInt8} {engine : SearchEngine T}

/-- An engine that was opened is well formed, whatever its codec did. -/
theorem opened_wellFormed (opened : openWith codec bytes = .ok engine) : engine.WellFormed := by
  obtain ⟨file, read, rest⟩ := bind_eq_ok.mp opened
  obtain ⟨rfl, small, kind, valid⟩ := (PersistedFile.safely_openFile bytes _ codec).of_ok read
  rw [PersistedFile.validateStructure, kind] at valid
  obtain ⟨arrays, found⟩ := (PersistedFile.safely_validateSearchEngine file).of_ok valid
  rw [found.mappedVocabulary, bind_ok] at rest
  obtain ⟨blob, _, decoding⟩ := bind_eq_ok.mp rest
  obtain ⟨tokens, decoded, numbering⟩ := bind_eq_ok.mp decoding
  obtain ⟨vocabulary, numbered, mapping⟩ := bind_eq_ok.mp numbering
  have count := vocabulary_count found (mapM_eq_ok.mp decoded).length_eq.symm
    ((Vocabulary.ensures_fromTokens tokens).of_ok numbered)
  exact ((safely_openMapped found small count).of_ok mapping).1

/-- No bytes make opening, reading or verifying an engine leave its arrays. -/
theorem open_verify_safe (codec : TokenCodec R T) (decodes : ∀ bytes, codec.decode bytes ≠ panic)
    (bytes : List UInt8) :
    openWith codec bytes ≠ panic ∧ ∀ engine, openWith codec bytes = .ok engine →
      (∀ id, engine.store.string (R := R) id ≠ panic) ∧
      (∀ symbol, engine.index.postingSlice (R := R) symbol ≠ panic) ∧
      (∀ symbol, engine.index.frequency (R := R) symbol ≠ panic) ∧
      engine.index.alphabet (R := R) ≠ panic ∧
      engine.store.verify (R := R) ≠ panic ∧
      engine.index.verify (R := R) engine.store ≠ panic ∧
      engine.verify (R := R) ≠ panic := by
  refine ⟨(safely_openWith decodes bytes).ne_panic, fun engine opened => ?_⟩
  have wf := opened_wellFormed opened
  refine ⟨fun id => ?_, fun symbol => ?_, fun symbol => ?_, ?_, ?_, ?_, ?_⟩
  · exact (CorpusStore.ensures_string wf.stored id).ne_panic
  · rw [PostingsIndex.postingSlice_ok wf.indexed]
    exact nofun
  · rw [PostingsIndex.frequency_ok wf.indexed]
    exact nofun
  · obtain ⟨alphabet, found, _⟩ := PostingsIndex.alphabet_ok (R := R) wf.indexed
    rw [found]
    exact nofun
  · exact (CorpusStore.decides_verify wf.stored).ne_panic
  · exact (PostingsIndex.decides_verify wf.indexed wf.stored).ne_panic
  · exact (decides_verify wf.toAligned).ne_panic

/-- A posting and a symbol of the file are outside its corpus and vocabulary. -/
theorem open_verify_safe_corrupt : ∃ (bytes : List UInt8) (engine : SearchEngine Char),
    writeFile (R := Int) .searchEngine charCodec (engineSections
      [LittleEndian.encode 4 97, LittleEndian.encode 4 98] 2
      ⟨.owned [⟨99, 99⟩, ⟨0, 1⟩], .owned [0, 2, 2]⟩ ⟨.owned [0, 7], .owned [0, 2, 2], 2⟩) =
        .ok bytes ∧
    openWith (R := Int) charCodec bytes = .ok engine ∧
    (∀ id, engine.store.string (R := Int) id ≠ panic) ∧
    (∀ symbol, engine.index.postingSlice (R := Int) symbol ≠ panic) ∧
    engine.verify (R := Int) ≠ panic := by
  obtain ⟨bytes, written, ran⟩ := bind_eq_ok.mp (show (writeFile (R := Int) .searchEngine charCodec
      (engineSections [LittleEndian.encode 4 97, LittleEndian.encode 4 98] 2
        ⟨.owned [⟨99, 99⟩, ⟨0, 1⟩], .owned [0, 2, 2]⟩ ⟨.owned [0, 7], .owned [0, 2, 2], 2⟩) >>=
          fun bytes => openWith charCodec bytes >>= fun engine => .ok engine.vocabulary.len) =
      .ok 2 by decide +kernel)
  obtain ⟨engine, opened, _⟩ := bind_eq_ok.mp ran
  obtain ⟨strings, postings, _, _, _, _, verified⟩ :=
    (open_verify_safe charCodec charCodec_decode_ne_panic bytes).2 engine opened
  exact ⟨bytes, engine, written, opened, strings, postings, verified⟩

/-- Search over any opened engine returns, and every reported match is a segment of a stored
string over the vocabulary, reported once and no nearer than it is. -/
theorem open_search_sound [DiscreteNumber R] (codec : TokenCodec R T) (bytes : List UInt8)
    (engine : SearchEngine T) (opened : openWith codec bytes = .ok engine) (policy : Policy R T)
    (querySequence : List T) (params : RangeSearchParams R) :
    engine.search policy querySequence params ≠ panic ∧
    ∀ found, engine.search policy querySequence params = .ok found →
      found.Pairwise (fun a b => a.key < b.key) ∧
      ∀ m ∈ found, ∃ (id : SequenceId) (string : List Symbol) (tokens : List T) (least : R),
        id.val = m.sequenceId ∧ engine.store.string (R := R) id = .ok (some string) ∧
        m.tokenRange.1 < m.tokenRange.2 ∧ m.tokenRange.2 ≤ string.length ∧
        (segment string m.tokenRange.1 m.tokenRange.2).mapM engine.vocabulary.token =
          some tokens ∧
        IsLeast (totals policy.weights querySequence tokens) least ∧
        least ≤ m.distance ∧ m.distance ≤ params.threshold := by
  have wf := opened_wellFormed opened
  have search := ensures_search wf policy querySequence params
  refine ⟨search.ne_panic, fun found returned => ?_⟩
  have answered := search.of_ok returned
  refine ⟨answered.pairwise, fun m mem => ?_⟩
  obtain ⟨id, string, tokens, named, read, ordered, inside, decoded, near, admitted⟩ :=
    answered.sound wf mem
  exact ⟨id, string, tokens, _, named, read, ordered, inside, decoded,
    isLeast_totals_iff.mpr rfl, near, admitted⟩

/-- The only posting names a place that holds another symbol. -/
theorem open_search_sound_corrupt : ∃ (bytes : List UInt8) (engine : SearchEngine Char),
    openWith (R := Int) charCodec bytes = .ok engine ∧
    engine.search (levenshteinCosts (R := Int) ⟨1, by decide, by decide⟩) "aa".toList ⟨1, none⟩ =
      .ok [⟨0, (0, 2), 1⟩] ∧
    ∃ (id : SequenceId) (string : List Symbol) (tokens : List Char) (least : Int),
      id.val = 0 ∧ engine.store.string (R := Int) id = .ok (some string) ∧ 0 < 2 ∧
      2 ≤ string.length ∧ (segment string 0 2).mapM engine.vocabulary.token = some tokens ∧
      IsLeast (totals (levenshteinCosts (R := Int) ⟨1, by decide, by decide⟩).weights "aa".toList
        tokens) least ∧ least ≤ 1 ∧ (1 : Int) ≤ 1 := by
  obtain ⟨bytes, _, ran⟩ := bind_eq_ok.mp (show (writeFile (R := Int) .searchEngine charCodec
      (engineSections [LittleEndian.encode 4 97, LittleEndian.encode 4 98] 2
        ⟨.owned [⟨0, 1⟩], .owned [0, 1, 1]⟩ ⟨.owned [0, 1], .owned [0, 2], 2⟩) >>= fun bytes =>
          openWith charCodec bytes >>= fun engine => engine.search
            (levenshteinCosts (R := Int) ⟨1, by decide, by decide⟩) "aa".toList ⟨1, none⟩) =
      .ok [⟨0, (0, 2), 1⟩] by decide +kernel)
  obtain ⟨engine, opened, returned⟩ := bind_eq_ok.mp ran
  refine ⟨bytes, engine, opened, returned, ?_⟩
  exact ((open_search_sound charCodec bytes engine opened _ _ _).2 _ returned).2 _
    (List.mem_singleton.mpr rfl)

end SearchEngine
end Yurine
