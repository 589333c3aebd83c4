import Yurine.Search.Builder
import Mathlib.Algebra.Order.BigOperators.Group.List
import Mathlib.Algebra.Order.Group.Nat
import Mathlib.Data.Nat.Cast.Basic

/-! What a built engine is: the inverted index of the added sequences. The three builders
agree because each loop invariant is stated against the same list of encoded sequences. -/
namespace Yurine.SearchEngineBuilder
open Outcome Offsets

variable {T R : Type}

section Runs
variable {builder : SearchEngineBuilder T}

theorem addSequence_error {sequence : List T} {failure : Failure (Error R)}
    (failed : (builder.addSequence sequence).1 = .error failure) :
    (builder.addSequence (R := R) sequence).2 = builder := by
  rcases addSequence_cases (R := R) builder sequence with ⟨_, _, same⟩ | ⟨_, _, same⟩
  · rw [same] at failed
    cases failed
  · rw [same]

/-- The sequences whose calls succeeded, in order. -/
def accepted (sequences : List (List T)) (outcomes : List (Result R Nat)) : List (List T) :=
  (sequences.zip outcomes).filterMap (fun call => call.2.toOption.map (fun _ => call.1))

/-- The identifiers returned by a run count up from the size of the builder. -/
theorem addSequences_spec (builder : SearchEngineBuilder T) (sequences : List (List T)) :
    (builder.addSequences (R := R) sequences).2.sequences = builder.sequences ++
        accepted sequences (builder.addSequences (R := R) sequences).1 ∧
      (builder.addSequences (R := R) sequences).1.filterMap Except.toOption =
        List.range' builder.sequences.length
          (accepted sequences (builder.addSequences (R := R) sequences).1).length := by
  induction sequences generalizing builder with
  | nil => simp [addSequences, accepted]
  | cons sequence rest ih =>
    obtain ⟨content, ids⟩ := ih (builder.addSequence (R := R) sequence).2
    rcases addSequence_cases (R := R) builder sequence with ⟨_, _, same⟩ | ⟨_, e, same⟩
    · simp only [addSequences, same, accepted, List.zip_cons_cons] at content ids ⊢
      refine ⟨by simpa [Except.toOption] using content, ?_⟩
      simpa [Except.toOption, List.range'_succ] using ids
    · simp only [addSequences, same, accepted, List.zip_cons_cons] at content ids ⊢
      exact ⟨by simpa [Except.toOption, fail] using content, ids⟩

end Runs

section Build
variable [DecidableEq T] {builder : SearchEngineBuilder T} {vocabulary : Vocabulary T}

/-- The engine is the inverted index of the sequences. -/
structure Indexes (engine : SearchEngine T) (sequences : List (List T)) : Prop where
  wellFormed : engine.WellFormed
  owned : engine.store.symbols.isMapped = false
  tokens : ∀ token, token ∈ engine.vocabulary.tokens ↔ token ∈ sequences.flatten
  strings : engine.store.strings = sequences.map engine.vocabulary.encode
  inverts : engine.index.Inverts engine.store

theorem ensures_addPostings (sequenceId : SequenceId) {string : List Symbol}
    (short : string.length < 2 ^ 32) (builder : PostingsIndexBuilder)
    (bound : builder.symbolCount < 2 ^ 32)
    (known : ∀ symbol ∈ string, symbol.val < builder.symbolCount) :
    Ensures (fun next => next.symbolCount = builder.symbolCount ∧
        ∀ symbol posting, (symbol, posting) ∈ next.postings ↔
          (symbol, posting) ∈ builder.postings ∨
            posting.stringId = sequenceId ∧ string[posting.position.val]? = some symbol)
      (fun _ => False) (addPostings (R := R) sequenceId string builder) := by
  have loop := Ensures.foldlM_zipIdx (ε := Error R) (E := fun _ => False) (l := string)
    (f := fun builder entry => do
      let position ← Position.fromUsize entry.2
      let added := PostingsIndexBuilder.addPosting builder entry.1 ⟨sequenceId, position⟩
      added.1
      return added.2) (s := builder)
    (motive := fun k next => next.symbolCount = builder.symbolCount ∧
        ∀ symbol posting, (symbol, posting) ∈ next.postings ↔
          (symbol, posting) ∈ builder.postings ∨ posting.stringId = sequenceId ∧
            posting.position.val < k ∧ string[posting.position.val]? = some symbol) (by simp) ?_
  · refine loop.post (fun next h => ⟨h.1, fun symbol posting => ?_⟩)
    rw [h.2]
    refine or_congr_right (and_congr_right fun _ => and_iff_right_of_imp fun found => ?_)
    exact (List.getElem?_eq_some_iff.mp found).1
  · rintro i inside next ⟨count, content⟩
    rw [Position.fromUsize_ok (inside.trans short), bind_ok]
    obtain ⟨added, same, postings⟩ := PostingsIndexBuilder.addPosting_ok (R := R)
      (show string[i].val < next.symbolCount by
        rw [count]; exact known _ (List.getElem_mem inside)) (by rwa [count])
      ⟨sequenceId, ⟨i, inside.trans short⟩⟩
    simp only [added, bind_ok]
    refine ⟨same.trans count, fun symbol posting => ?_⟩
    rw [postings, List.mem_append, content, or_assoc]
    refine or_congr_right ?_
    rw [List.mem_singleton, Prod.mk.injEq, Posting.mk.injEq]
    constructor
    · rintro (⟨hid, before, found⟩ | ⟨rfl, hid, hp⟩)
      · exact ⟨hid, by omega, found⟩
      · refine ⟨hid, by simp [hp], ?_⟩
        simp [hp, inside]
    · rintro ⟨hid, before, found⟩
      by_cases last : posting.position.val = i
      · rw [last, List.getElem?_eq_getElem inside, Option.some.injEq] at found
        exact .inr ⟨found.symm, hid, Fin.ext last⟩
      · exact .inl ⟨hid, by omega, found⟩

def symbolIn (strings : List (List Symbol)) (place : Nat × Nat) : Option Symbol :=
  strings[place.1]? >>= fun string => string[place.2]?

/-- What the encoding loop has indexed and stored after `k` sequences. -/
structure Encoded (strings : List (List Symbol)) (symbolCount k : Nat)
    (builders : PostingsIndexBuilder × CorpusStoreBuilder) : Prop where
  stored : builders.2.Holds (strings.take k)
  symbolCount : builders.1.symbolCount = symbolCount
  indexed : ∀ symbol posting, (symbol, posting) ∈ builders.1.postings ↔
    posting.stringId.val < k ∧ symbolIn strings posting.place = some symbol

theorem exists_posting {strings : List (List Symbol)} {place : Nat × Nat} {symbol : Symbol}
    (count : strings.length ≤ 2 ^ 32) (short : ∀ string ∈ strings, string.length < 2 ^ 32)
    (found : symbolIn strings place = some symbol) :
    ∃ posting : Posting, posting.place = place ∧ posting.stringId.val < strings.length := by
  obtain ⟨string, stored, here⟩ := Option.bind_eq_some_iff.mp found
  obtain ⟨inside, rfl⟩ := List.getElem?_eq_some_iff.mp stored
  have within := (List.getElem?_eq_some_iff.mp here).1
  exact ⟨⟨⟨place.1, inside.trans_le count⟩,
    ⟨place.2, within.trans (short _ (List.getElem_mem inside))⟩⟩, rfl, inside⟩

/-- After the loop the index of the recorded postings inverts the stored strings. -/
theorem Encoded.inverts {strings : List (List Symbol)} {symbolCount : Nat}
    {builders : PostingsIndexBuilder × CorpusStoreBuilder} {index : PostingsIndex}
    {store : CorpusStore} (encoded : Encoded strings symbolCount strings.length builders)
    (count : strings.length ≤ 2 ^ 32) (short : ∀ string ∈ strings, string.length < 2 ^ 32)
    (lists : index.lists = builders.1.sortedLists) (stored : store.strings = strings) :
    index.Inverts store := by
  refine ⟨fun symbol => (PostingsIndexBuilder.build_listed lists symbol).1, ?_⟩
  intro symbol place
  have same : store.symbolAt place = symbolIn strings place := by
    rw [CorpusStore.symbolAt, stored]
    rfl
  rw [same, List.mem_map]
  simp only [(PostingsIndexBuilder.build_listed lists symbol).2, encoded.indexed]
  constructor
  · rintro ⟨posting, ⟨_, found⟩, rfl⟩
    exact found
  · intro found
    obtain ⟨posting, rfl, inside⟩ := exists_posting count short found
    exact ⟨posting, ⟨inside, found⟩, rfl⟩

theorem ensures_encodeSequence {k : Nat} {builders : PostingsIndexBuilder × CorpusStoreBuilder}
    (valid : builder.Valid)
    (known : ∀ sequence ∈ builder.sequences, ∀ token ∈ sequence, token ∈ vocabulary.tokens)
    (inside : k < builder.sequences.length)
    (encoded : Encoded (builder.sequences.map vocabulary.encode) vocabulary.len k builders) :
    Ensures (Encoded (builder.sequences.map vocabulary.encode) vocabulary.len (k + 1))
      (fun _ => False) (encodeSequence (R := R) vocabulary builders (builder.sequences[k], k)) := by
  have small : k < 2 ^ 32 := inside.trans_le valid.count
  have mem := List.getElem_mem inside
  have here : (builder.sequences.map vocabulary.encode)[k]? =
      some (vocabulary.encode builder.sequences[k]) := by simp [inside]
  unfold encodeSequence
  rw [SequenceId.fromUsize_ok small, bind_ok]
  refine Ensures.bind (ensures_addPostings ⟨k, small⟩ ?_ builders.1 ?_ ?_) ?_
  · simpa [Vocabulary.encode] using valid.length _ mem
  · rw [encoded.symbolCount]
    exact vocabulary.len_lt
  · intro symbol found
    obtain ⟨token, read, rfl⟩ := List.mem_map.mp found
    rw [encoded.symbolCount]
    exact Vocabulary.symbol_lt_iff.mpr (known _ mem token read)
  · rintro next ⟨count, content⟩
    refine ⟨?_, count.trans encoded.symbolCount, fun symbol posting => ?_⟩
    · have stored := encoded.stored.addString (vocabulary.encode builder.sequences[k])
      rwa [show (builder.sequences.map vocabulary.encode).take k ++
        [vocabulary.encode builder.sequences[k]] =
          (builder.sequences.map vocabulary.encode).take (k + 1) by
            rw [List.take_add_one, here, Option.toList_some]] at stored
    · rw [content, encoded.indexed]
      constructor
      · rintro (⟨before, found⟩ | ⟨hid, found⟩)
        · exact ⟨by omega, found⟩
        · refine ⟨by simp [hid], ?_⟩
          simp only [symbolIn, Posting.place, hid, here]
          exact found
      · rintro ⟨before, found⟩
        by_cases last : posting.stringId.val = k
        · refine .inr ⟨Fin.ext last, ?_⟩
          simp only [symbolIn, Posting.place, last, here] at found
          exact found
        · exact .inl ⟨by omega, found⟩

omit [DecidableEq T] in
theorem total_lt (valid : builder.Valid) : builder.sequences.flatten.length < usizeRange := by
  rw [List.length_flatten]
  have bound := List.sum_le_card_nsmul (builder.sequences.map List.length) (2 ^ 32 - 1) (by
    intro n mem
    obtain ⟨sequence, hs, rfl⟩ := List.mem_map.mp mem
    have := valid.length sequence hs
    omega)
  rw [List.length_map, nsmul_eq_mul, Nat.cast_id] at bound
  have count := Nat.mul_le_mul_right (2 ^ 32 - 1) valid.count
  simp only [usizeRange]
  omega

/-- Building returns the inverted index of the sequences unless the vocabulary overflows. -/
theorem ensures_build (valid : builder.Valid) :
    Ensures (fun engine => Indexes engine builder.sequences)
      (fun e => e = .symbolOverflow) (builder.build (R := R)) := by
  unfold build
  refine Ensures.bind ((countTokens builder.sequences).ensures_build.mono (fun _ h => h)
    (fun _ h => h.1)) ?_
  intro vocabulary numbered
  have tokens (token : T) : token ∈ vocabulary.tokens ↔ token ∈ builder.sequences.flatten := by
    rw [numbered, (countTokens builder.sequences).byFrequency_perm.mem_iff, mem_countTokens]
  have known : ∀ sequence ∈ builder.sequences, ∀ token ∈ sequence, token ∈ vocabulary.tokens :=
    fun sequence hs token ht => (tokens token).mpr (List.mem_flatten.mpr ⟨sequence, hs, ht⟩)
  have loop := Ensures.foldlM_zipIdx (ε := Error R) (E := fun _ => False)
    (l := builder.sequences) (f := encodeSequence vocabulary)
    (s := (PostingsIndexBuilder.new vocabulary.len, CorpusStoreBuilder.new))
    (motive := Encoded (builder.sequences.map vocabulary.encode) vocabulary.len)
    ⟨CorpusStoreBuilder.new_holds, rfl, by simp [PostingsIndexBuilder.new]⟩
    (fun k inside builders encoded => ensures_encodeSequence valid known inside encoded)
  refine Ensures.bind (loop.mono (fun _ h => h) (fun _ h => h.elim)) ?_
  rintro ⟨indexBuilder, storeBuilder⟩ encoded
  obtain ⟨index, built, lists, offsets, _⟩ := indexBuilder.build_ok (R := R)
  simp only [built, bind_ok]
  have stored := encoded.stored
  rw [List.take_of_length_le (by simp)] at stored
  obtain ⟨store_wf, strings⟩ := stored.build vocabulary.len_lt
  have count : index.lists.length = vocabulary.len := by
    rw [lists, PostingsIndexBuilder.sortedLists, List.length_map, Sorting.length_groups]
    exact encoded.symbolCount
  have aligned : SearchEngine.Aligned vocabulary index (storeBuilder.build vocabulary.len) :=
    ⟨⟨offsets, count ▸ vocabulary.len_lt⟩, store_wf, count, rfl⟩
  have all_known : ∀ symbol ∈ (storeBuilder.build vocabulary.len).symbols.asSlice,
      symbol.val < vocabulary.len := by
    intro symbol mem
    rw [CorpusStore.mem_symbols_iff store_wf, strings] at mem
    obtain ⟨string, stored, mem⟩ := mem
    obtain ⟨sequence, hs, rfl⟩ := List.mem_map.mp stored
    obtain ⟨token, ht, rfl⟩ := List.mem_map.mp mem
    exact Vocabulary.symbol_lt_iff.mpr (known sequence hs token ht)
  have inverts : index.Inverts (storeBuilder.build vocabulary.len) := by
    rw [← List.length_map (f := vocabulary.encode)] at encoded
    refine encoded.inverts ?_ ?_ lists strings
    · rw [List.length_map]
      exact valid.count
    · intro string stored
      obtain ⟨sequence, hs, rfl⟩ := List.mem_map.mp stored
      rw [Vocabulary.encode, List.length_map]
      exact valid.length sequence hs
  obtain ⟨neighborhood, made, sorted, alphabet⟩ :=
    SearchEngine.fromUnverifiedParts_ok (R := R) aligned
  unfold SearchEngine.fromParts
  rw [(CorpusStore.decides_verify (R := R) store_wf).eq_ok.mpr
    ⟨all_known, by rw [strings, List.length_map]; exact valid.count⟩, bind_ok, made]
  have capacity : index.postings.asSlice.length < usizeRange := by
    rw [((PostingsIndex.checked_iff aligned.indexed store_wf).mpr inverts).count,
      ← store_wf.offsets.flatten, ← CorpusStore.strings, strings]
    have same : (builder.sequences.map vocabulary.encode).flatten.length =
        builder.sequences.flatten.length := by
      simp [Vocabulary.encode, List.length_flatten, Function.comp_def]
    rw [same]
    exact total_lt valid
  exact ⟨⟨aligned, capacity, sorted, alphabet, fun _ => all_known⟩, rfl, tokens, strings, inverts⟩

/-- The engine built after any run of additions indexes the sequences that were accepted. -/
theorem indexes_of_built {sequences : List (List T)} {engine : SearchEngine T}
    (built : (new.addSequences (R := R) sequences).2.build (R := R) = .ok engine) :
    (accepted sequences (new.addSequences (R := R) sequences).1).length ≤ 2 ^ 32 ∧
      Indexes engine (accepted sequences (new.addSequences (R := R) sequences).1) := by
  have valid := new_valid.addSequences (R := R) sequences
  have count := valid.count
  have indexes := (ensures_build (R := R) valid).of_ok built
  rw [(addSequences_spec (R := R) new sequences).1] at count indexes
  exact ⟨count, indexes⟩

end Build
end Yurine.SearchEngineBuilder
