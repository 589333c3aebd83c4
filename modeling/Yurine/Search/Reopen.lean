import Yurine.Persistence.Identity
import Yurine.Search.Construction
import Yurine.Search.Persistence

/-! Saving and opening a search engine are inverse. A file of the six sections opens as the
engine over their arrays, so a saved engine comes back over mapped copies of its own. -/
namespace Yurine
open Outcome Offsets

variable {T R : Type}

namespace SearchEngine
variable [DecidableEq T] {codec : TokenCodec R T} {encodings : List (List UInt8)} {tokens : List T}

section Tokens

/-- The encoding of each token decodes to it. -/
def Decode (codec : TokenCodec R T) (encodings : List (List UInt8)) (tokens : List T) : Prop :=
  List.Forall₂ (fun bytes token => codec.decode bytes = .ok token) encodings tokens

/-- Framing writes the encodings one after another and their ends. -/
theorem ensures_frameTokens (contract : ∀ token ∈ tokens, codec.RoundTrips token) :
    Ensures (fun framed => ∃ encodings, Decode codec encodings tokens ∧
        framed = (offsetsFrom 0 encodings, encodings.flatten))
      (fun _ => False) (tokens.foldlM (frameToken codec) ([0], [])) := by
  refine Ensures.foldlM (motive := fun visited framed => ∃ encodings,
    Decode codec encodings visited ∧ framed = (offsetsFrom 0 encodings, encodings.flatten))
    ⟨[], .nil, rfl⟩ ?_
  rintro visited token after _ split ⟨encodings, decode, rfl⟩
  obtain ⟨bytes, encodes, decodes⟩ := contract token (by simp [split]) encodings.flatten
  have cut : slice (ε := Error R) (encodings.flatten ++ bytes) encodings.flatten.length
      (encodings.flatten ++ bytes).length = .ok bytes := by
    rw [slice_ok (by simp) (le_refl _), List.drop_left, List.length_append,
      Nat.add_sub_cancel_left, List.take_length]
  unfold frameToken
  simp only [encodes, bind_ok, cut, decodes, ne_eq, not_true_eq_false, if_false]
  refine ⟨encodings ++ [bytes], List.rel_append decode (.cons decodes .nil), ?_⟩
  rw [offsetsFrom_concat]
  simp

omit [DecidableEq T] in
theorem decodeTokens_ok (decode : Decode codec encodings tokens) :
    decodeTokens codec (offsetsFrom 0 encodings) encodings.flatten = .ok tokens := by
  have cuts := wellFormed_offsetsFrom encodings
  have whole := pieces_offsetsFrom encodings
  rw [pieces] at whole
  rw [Decode, ← whole, List.forall₂_map_left_iff] at decode
  refine mapM_eq_ok.mpr (List.forall₂_iff_zip.mpr ⟨decode.length_eq, fun {bounds token} paired => ?_⟩)
  obtain ⟨ordered, inside⟩ := cuts.window (List.of_mem_zip paired).1
  rw [slice_ok ordered inside, bind_ok]
  exact (List.forall₂_iff_zip.mp decode).2 paired

end Tokens

section Sections
variable {vocabulary : Vocabulary T} {index : PostingsIndex} {store : CorpusStore}

def engineSections (encodings : List (List UInt8)) (count : Nat) (index : PostingsIndex)
    (store : CorpusStore) : List (SectionKind × SectionData) := [
  (.vocabularyTokenOffsets, .u64 (offsetsFrom 0 encodings)),
  (.vocabularyTokenBlob, .bytes encodings.flatten count),
  (.sequenceOffsets, .u64 store.stringOffsets.asSlice),
  (.corpusSymbols, .symbols store.symbols.asSlice),
  (.postingOffsets, .u64 index.postingOffsets.asSlice),
  (.postings, .postings index.postings.asSlice)]

/-- Lengths that the 64-bit fields of a file hold. -/
structure Small (index : PostingsIndex) (store : CorpusStore) : Prop where
  strings : store.strings.length + 1 < u64Range
  symbols : store.symbols.asSlice.length < u64Range
  postings : index.postings.asSlice.length < u64Range

theorem fits_engineSections (aligned : Aligned vocabulary index store)
    (small : Small index store) (count : encodings.length = vocabulary.len) :
    ∀ entry ∈ engineSections encodings vocabulary.len index store, entry.2.Fits R entry.1 := by
  have tokens := vocabulary.len_lt
  have strings := small.strings
  have lists := aligned.lists
  have first := List.length_pos_of_ne_nil aligned.stored.offsets.nonempty
  have second := List.length_pos_of_ne_nil aligned.indexed.offsets.nonempty
  rw [CorpusStore.strings, length_pieces] at strings
  rw [PostingsIndex.lists, length_pieces] at lists
  simp only [engineSections, List.forall_mem_cons, List.not_mem_nil, false_implies, implies_true,
    and_true]
  refine ⟨SectionData.fits_u64 rfl ?_, SectionData.fits_bytes rfl _ ?_,
    SectionData.fits_u64 rfl ?_, SectionData.fits_symbols small.symbols,
    SectionData.fits_u64 rfl ?_, SectionData.fits_postings small.postings⟩
  · rw [length_offsetsFrom, u64Range]
    omega
  · rw [u64Range]
    omega
  · omega
  · rw [u64Range]
    omega

theorem arraysOf {file : PersistedFile}
    (holds : file.Holds R (engineSections encodings vocabulary.len index store))
    (aligned : Aligned vocabulary index store) (small : Small index store)
    (count : encodings.length = vocabulary.len) :
    ∃ arrays : PersistedFile.EngineArrays, arrays.Of R file ∧
      arrays.vocabularyOffsets = offsetsFrom 0 encodings ∧
      arrays.sequenceOffsets = store.stringOffsets.asSlice ∧
      arrays.postingOffsets = index.postingOffsets.asSlice ∧
      arrays.vocabularyBlob.elementCount = vocabulary.len := by
  have cuts := wellFormed_offsetsFrom encodings
  have below {offsets : List Nat} {length : Nat} (wf : Offsets.WellFormed offsets length)
      (bound : length < u64Range) : ∀ n ∈ offsets, n < u64Range :=
    fun n mem => (wf.le_length mem).trans_lt bound
  obtain ⟨blob, blobAt, blobIs, _, inside⟩ := holds.sectionAt
    (show (.vocabularyTokenBlob, .bytes encodings.flatten vocabulary.len) ∈ _ by
      simp [engineSections])
  obtain ⟨corpus, corpusAt, corpusIs, _⟩ := holds.sectionAt
    (show (.corpusSymbols, .symbols store.symbols.asSlice) ∈ _ by simp [engineSections])
  obtain ⟨postings, postingsAt, postingsIs, _⟩ := holds.sectionAt
    (show (.postings, .postings index.postings.asSlice) ∈ _ by simp [engineSections])
  have lists := aligned.lists
  have nonempty := List.length_pos_of_ne_nil aligned.indexed.offsets.nonempty
  rw [PostingsIndex.lists, length_pieces] at lists
  refine ⟨⟨offsetsFrom 0 encodings, store.stringOffsets.asSlice, index.postingOffsets.asSlice, blob,
    corpus, postings⟩, ⟨?_, blobAt, ?_, corpusAt, ?_, postingsAt, ?_, ?_, ?_,
    ?_⟩, rfl, rfl, rfl, blobIs.elementCount⟩
  · refine holds.mappedOffsets (by simp [engineSections]) rfl (below cuts ?_)
    rw [show encodings.flatten.length = blob.byteLen from blobIs.byteLen.symm]
    exact ((Nat.le_add_left _ _).trans inside).trans_lt holds.small
  · exact holds.mappedOffsets (by simp [engineSections]) rfl
      (below aligned.stored.offsets small.symbols)
  · exact holds.mappedOffsets (by simp [engineSections]) rfl
      (below aligned.indexed.offsets small.postings)
  · exact blobIs.byteLen ▸ cuts
  · exact corpusIs.elementCount ▸ aligned.stored.offsets
  · exact postingsIs.elementCount ▸ aligned.indexed.offsets
  · show index.postingOffsets.asSlice.length = (offsetsFrom 0 encodings).length
    rw [length_offsetsFrom, count]
    omega

theorem validateSearchEngine_ok {file : PersistedFile}
    (holds : file.Holds R (engineSections encodings vocabulary.len index store))
    {arrays : PersistedFile.EngineArrays} (found : arrays.Of R file)
    (count : arrays.vocabularyOffsets.length = vocabulary.len + 1)
    (elements : arrays.vocabularyBlob.elementCount = vocabulary.len) :
    file.validateSearchEngine (R := R) = .ok ⟨⟩ := by
  have tokens := vocabulary.len_lt
  have valid {offsets : List Nat} {length : Nat} (wf : Offsets.WellFormed offsets length) :=
    (decides_validateOffsets (R := R) offsets length).eq_ok.mpr wf
  have exactly : file.requireExactSections (R := R) [.vocabularyTokenOffsets, .vocabularyTokenBlob,
      .sequenceOffsets, .corpusSymbols, .postingOffsets, .postings] = .ok ⟨⟩ :=
    holds.requireExactSections
  unfold PersistedFile.validateSearchEngine
  rw [exactly, bind_ok, found.mappedVocabulary, bind_ok,
    found.vocabularyBlob, bind_ok, found.mappedSequences, bind_ok, found.corpus, bind_ok,
    found.mappedPostings, bind_ok, found.postings, bind_ok, valid found.tokens, bind_ok,
    valid found.strings, bind_ok, valid found.lists, bind_ok, elements,
    checkedAdd64_ok (by rw [u64Range]; omega), okOr_some, bind_ok, if_neg (not_not.mpr count),
    if_neg (not_not.mpr (found.sameCount.trans count))]
  rfl

/-- An engine over mapped copies of the arrays of these parts. -/
structure Copies (opened : SearchEngine T) (vocabulary : Vocabulary T) (index : PostingsIndex)
    (store : CorpusStore) : Prop where
  tokens : opened.vocabulary.tokens = vocabulary.tokens
  index : opened.index =
    PostingsIndex.fromMapped index.postings.asSlice index.postingOffsets.asSlice
  store : opened.store =
    CorpusStore.fromMapped store.symbols.asSlice store.stringOffsets.asSlice vocabulary.len
  wellFormed : opened.WellFormed

/-- A file with these sections opens over their arrays. -/
theorem openWith_holds {file : PersistedFile} {bytes : List UInt8} (kind : file.kind = .searchEngine)
    (holds : file.Holds R (engineSections encodings vocabulary.len index store))
    (opens : PersistedFile.openFile bytes .searchEngine codec = (do
      file.validateStructure
      return file))
    (decode : Decode codec encodings vocabulary.tokens) (aligned : Aligned vocabulary index store)
    (small : Small index store) :
    ∃ opened, openWith codec bytes = .ok opened ∧ opened.Copies vocabulary index store := by
  have tokens : encodings.length = vocabulary.len := decode.length_eq
  obtain ⟨arrays, found, vocabularyOffsets, sequenceOffsets, postingOffsets, elements⟩ :=
    arraysOf holds aligned small tokens
  have count : arrays.vocabularyOffsets.length = vocabulary.len + 1 := by
    rw [vocabularyOffsets, length_offsetsFrom, tokens]
  obtain ⟨other, numbered, same⟩ := vocabulary.fromTokens_ok (R := R)
  have len : other.len = vocabulary.len := congrArg List.length same
  have symbolsRead : file.mappedSymbols (R := R) .corpusSymbols = .ok store.symbols.asSlice :=
    holds.mappedSymbols (by simp [engineSections])
  have postingsRead : file.mappedPostings (R := R) .postings = .ok index.postings.asSlice :=
    holds.mappedPostings (by simp [engineSections])
  have blobRead : file.blob (R := R) .vocabularyTokenBlob = .ok encodings.flatten :=
    holds.blob (show (SectionKind.vocabularyTokenBlob,
      SectionData.bytes encodings.flatten vocabulary.len) ∈ _ by simp [engineSections])
  have aligned' : Aligned other
      (PostingsIndex.fromMapped index.postings.asSlice index.postingOffsets.asSlice)
      (CorpusStore.fromMapped store.symbols.asSlice store.stringOffsets.asSlice other.len) :=
    ⟨⟨aligned.indexed.offsets, aligned.indexed.count⟩, ⟨aligned.stored.offsets, other.len_lt⟩,
      len ▸ aligned.lists, rfl⟩
  obtain ⟨neighborhood, made, _⟩ := fromUnverifiedParts_ok (R := R) aligned'
  have parts : openMapped (R := R) file other = fromUnverifiedParts other
      (PostingsIndex.fromMapped index.postings.asSlice index.postingOffsets.asSlice)
      (CorpusStore.fromMapped store.symbols.asSlice store.stringOffsets.asSlice other.len) := by
    rw [openMapped, symbolsRead, bind_ok, found.mappedSequences, bind_ok, postingsRead, bind_ok,
      found.mappedPostings, bind_ok, sequenceOffsets, postingOffsets]
  have opened := parts.trans made
  have wf := (safely_openMapped found holds.small (len ▸ count)).of_ok opened
  refine ⟨_, ?_, same, rfl, by rw [len], wf.1⟩
  unfold openWith
  rw [opens, PersistedFile.validateStructure, kind]
  simp only [validateSearchEngine_ok holds found count elements, bind_ok]
  rw [show (pure file : Result R PersistedFile) = .ok file from rfl, bind_ok,
    found.mappedVocabulary, bind_ok, blobRead, bind_ok, vocabularyOffsets,
    decodeTokens_ok decode, bind_ok, numbered, bind_ok]
  exact opened

/-- Any aligned parts can be written to a file that opens over them, unless the file outgrows
64-bit offsets. -/
theorem ensures_writeEngine (short : (utf8 codec.id).length ≤ maxCodecIdLen)
    (decode : Decode codec encodings vocabulary.tokens) (aligned : Aligned vocabulary index store)
    (small : Small index store) :
    Ensures (fun bytes => ∃ opened, openWith codec bytes = .ok opened ∧
        opened.Copies vocabulary index store)
      (fun _ => u64Range ≤ room (headerLen + maxCodecIdLen + 7 + 6 * sectionEntryLen)
        (engineSections encodings vocabulary.len index store))
      (writeFile .searchEngine codec (engineSections encodings vocabulary.len index store)) := by
  have written := ensures_writeFile (R := R) .searchEngine short
    (engineSections encodings vocabulary.len index store) (show 6 < 2 ^ 32 by decide)
    (show List.Nodup [SectionKind.vocabularyTokenOffsets, .vocabularyTokenBlob,
       .sequenceOffsets, .corpusSymbols, .postingOffsets, .postings] by decide)
    (fits_engineSections aligned small decode.length_eq)
  apply written.mono _ (fun _ large => large.trans (layoutLen_le_room short _))
  rintro bytes ⟨descriptors, holds, opens, _⟩
  exact openWith_holds rfl holds opens decode aligned small

end Sections

section Saving
variable {engine opened : SearchEngine T}

theorem WellFormed.small (wf : engine.WellFormed) (verified : engine.verify (R := R) = .ok ⟨⟩) :
    Small engine.index engine.store := by
  obtain ⟨⟨_, named⟩, inverts⟩ := (decides_verify wf.toAligned).eq_ok.mp verified
  have count := ((PostingsIndex.checked_iff wf.indexed wf.stored).mpr inverts).count
  have capacity := wf.capacity
  rw [usizeRange] at capacity
  constructor
  · rw [u64Range]
    omega
  · rw [← count]
    exact capacity
  · exact capacity

/-- A verified engine is saved, unless the file outgrows 64-bit offsets, as a file that opens
over copies of its arrays. -/
theorem ensures_saveWith (wf : engine.WellFormed) (verified : engine.verify (R := R) = .ok ⟨⟩)
    (contract : ∀ token ∈ engine.vocabulary.tokens, codec.RoundTrips token)
    (short : (utf8 codec.id).length ≤ maxCodecIdLen) :
    Ensures (fun bytes => ∃ opened, openWith codec bytes = .ok opened ∧
        opened.Copies engine.vocabulary engine.index engine.store)
      (fun _ => ∃ encodings, Decode codec encodings engine.vocabulary.tokens ∧
        u64Range ≤ room (headerLen + maxCodecIdLen + 7 + 6 * sectionEntryLen)
          (engineSections encodings engine.vocabulary.len engine.index engine.store))
      (engine.saveWith codec) := by
  unfold saveWith
  rw [verified, bind_ok]
  refine Ensures.bind ((ensures_frameTokens contract).mono (fun _ h => h) (fun _ h => h.elim)) ?_
  rintro _ ⟨encodings, decode, rfl⟩
  exact (ensures_writeEngine short decode wf.toAligned (wf.small verified)).mono (fun _ h => h)
    (fun _ large => ⟨encodings, decode, large⟩)

/-- A saved engine opens with no codec but one of the same identifier. -/
theorem saveWith_identity {T' : Type} [DecidableEq T'] {other : TokenCodec R T'}
    {opened : SearchEngine T'} {bytes : List UInt8} (saved : engine.saveWith codec = .ok bytes)
    (reopened : openWith other bytes = .ok opened) : codec.id = other.id := by
  obtain ⟨_, _, saved⟩ := bind_eq_ok.mp saved
  obtain ⟨⟨offsets, blob⟩, _, written⟩ := bind_eq_ok.mp saved
  obtain ⟨file, found, _⟩ := bind_eq_ok.mp reopened
  exact (openFile_identity (by simp) written found).2

/-- The sorted alphabet is determined by the posting lists. -/
theorem neighborhood_eq (wf : opened.WellFormed) (wf' : engine.WellFormed)
    (lists : ∀ symbol, opened.index.listed symbol = engine.index.listed symbol) :
    opened.neighborhood = engine.neighborhood := by
  have same : opened.neighborhood.alphabet = engine.neighborhood.alphabet := by
    refine Sorting.eq_of_strict wf.sorted wf'.sorted (fun symbol => ?_)
    rw [wf.alphabet, wf'.alphabet, lists]
  cases h : opened.neighborhood with
  | mk alphabet distinct =>
    cases h' : engine.neighborhood with
    | mk other distinct' =>
      rw [h, h'] at same
      subst same
      rfl

end Saving

section Congruence
variable [Number R] {engine opened : SearchEngine T} {index other : PostingsIndex}
  {store copy : CorpusStore}

theorem select_congr
    (postings : ∀ symbol, index.postingSlice (R := R) symbol = other.postingSlice symbol)
    (queryString : List Symbol) (bound : StrictBound R) (eta : Cost R) (costs : EditCosts R Symbol)
    (neighborhood : SubstitutionNeighborhood) :
    MinCandidateSelector.select queryString bound eta index costs neighborhood =
      MinCandidateSelector.select queryString bound eta other costs neighborhood := by
  have scores : MinCandidateSelector.score eta index costs neighborhood =
      MinCandidateSelector.score eta other costs neighborhood := by
    funext symbol
    simp only [MinCandidateSelector.score, MinCandidateSelector.countNeighbors,
      PostingsIndex.frequency, postings]
  rw [MinCandidateSelector.select, MinCandidateSelector.select, scores]

omit [Number R] in
theorem candidates_congr
    (postings : ∀ symbol, index.postingSlice (R := R) symbol = other.postingSlice symbol)
    (selected : List SelectedPosition) :
    countCandidates (R := R) selected index = countCandidates selected other ∧
      generateCandidates (R := R) selected index = generateCandidates selected other := by
  have expand (position : Position) :
      expandNeighbor (R := R) index position = expandNeighbor other position := by
    funext neighbor
    rw [expandNeighbor, expandNeighbor, postings]
  constructor
  · simp only [countCandidates, PostingsIndex.frequency, postings]
  · simp only [generateCandidates, expand]

theorem verify_congr (strings : ∀ id, store.string (R := R) id = copy.string id)
    (queryString : List Symbol) (candidates : List Candidate) (bound : StrictBound R)
    (costs : EditCosts R Symbol) :
    Yurine.verify queryString candidates store bound costs =
      Yurine.verify queryString candidates copy bound costs := by
  have step : verifyCandidate queryString store bound costs =
      verifyCandidate queryString copy bound costs := by
    funext state candidate
    simp only [verifyCandidate, strings]
  simp only [Yurine.verify, validatedCandidateString, strings, step]

omit [Number R] in
theorem encoding_congr {vocabulary same : Vocabulary T} (tokens : vocabulary.tokens = same.tokens)
    (querySequence : List T) :
    EncodedQuery.new (R := R) querySequence vocabulary = EncodedQuery.new querySequence same := by
  have step : EncodedQuery.encodeToken (R := R) vocabulary = EncodedQuery.encodeToken same := by
    funext state token
    simp only [EncodedQuery.encodeToken, Vocabulary.symbol_congr tokens, Vocabulary.len, tokens]
  rw [EncodedQuery.new, EncodedQuery.new, step]

theorem costs_congr {vocabulary same : Vocabulary T} (tokens : vocabulary.tokens = same.tokens)
    (query : EncodedQuery T) (costs : EditCosts R T) :
    query.costs vocabulary costs = query.costs same costs := by
  simp only [EncodedQuery.costs, EncodedQuery.token_eq_index, EncodedQuery.tokens, tokens]

/-- A search is determined by the tokens, the strings, the posting lists and the alphabet. -/
theorem search_congr (tokens : opened.vocabulary.tokens = engine.vocabulary.tokens)
    (strings : ∀ id, opened.store.string (R := R) id = engine.store.string id)
    (postings : ∀ symbol, opened.index.postingSlice (R := R) symbol =
      engine.index.postingSlice symbol)
    (neighborhood : opened.neighborhood = engine.neighborhood) (policy : Policy R T)
    (querySequence : List T) (params : RangeSearchParams R) :
    opened.search policy querySequence params = engine.search policy querySequence params := by
  have selectAt : opened.selectAt (R := R) = engine.selectAt := by
    funext queryString bound eta costs
    rw [SearchEngine.selectAt, SearchEngine.selectAt, select_congr postings, neighborhood]
  have positions : opened.selectPositions (R := R) = engine.selectPositions := by
    funext queryString bound eta costs
    rw [selectPositions, selectPositions, selectAt, neighborhood]
  have answers : opened.searchQueryString (R := R) = engine.searchQueryString := by
    funext queryString bound eta maxCandidates costs
    simp only [searchQueryString, positions, candidates_congr postings, verify_congr strings]
  simp only [search, searchWithMetrics, encoding_congr tokens, costs_congr tokens, answers]

end Congruence

namespace Copies
variable {engine opened : SearchEngine T}

theorem postingSlice (copies : opened.Copies engine.vocabulary engine.index engine.store)
    (symbol : Symbol) :
    opened.index.postingSlice (R := R) symbol = engine.index.postingSlice symbol := by
  rw [copies.index]
  rfl

theorem strings (copies : opened.Copies engine.vocabulary engine.index engine.store) :
    opened.store.strings = engine.store.strings := by
  rw [copies.store]
  rfl

/-- The symbols of a verified engine pass the checks on mapped strings. -/
theorem string (copies : opened.Copies engine.vocabulary engine.index engine.store)
    (wf : engine.WellFormed)
    (known : ∀ symbol ∈ engine.store.symbols.asSlice, symbol.val < engine.vocabulary.len)
    (id : SequenceId) : opened.store.string (R := R) id = engine.store.string id := by
  have valid : ∀ symbol ∈ opened.store.symbols.asSlice,
      symbol.val < opened.store.symbolCount := by
    rw [copies.store]
    exact known
  rw [wf.string_eq known, CorpusStore.string_eq copies.wellFormed.stored valid, copies.strings]

theorem verify (copies : opened.Copies engine.vocabulary engine.index engine.store)
    (wf : engine.WellFormed) (verified : engine.verify (R := R) = .ok ⟨⟩) :
    opened.verify (R := R) = .ok ⟨⟩ := by
  obtain ⟨⟨known, named⟩, inverts⟩ := (decides_verify wf.toAligned).eq_ok.mp verified
  have len : opened.vocabulary.len = engine.vocabulary.len := congrArg List.length copies.tokens
  refine (decides_verify copies.wellFormed.toAligned).eq_ok.mpr ⟨⟨?_, ?_⟩, ?_⟩
  · rw [copies.store, len]
    exact known
  · rw [copies.store]
    exact named
  · rw [copies.store, copies.index]
    exact ⟨inverts.ordered, inverts.exact⟩

variable [Number R]

theorem search (copies : opened.Copies engine.vocabulary engine.index engine.store)
    (wf : engine.WellFormed)
    (known : ∀ symbol ∈ engine.store.symbols.asSlice, symbol.val < engine.vocabulary.len)
    (policy : Policy R T) (querySequence : List T) (params : RangeSearchParams R) :
    opened.search policy querySequence params = engine.search policy querySequence params := by
  have listed (symbol : Symbol) : opened.index.listed symbol = engine.index.listed symbol := by
    rw [copies.index]
    rfl
  exact search_congr copies.tokens (copies.string wf known) copies.postingSlice
    (neighborhood_eq copies.wellFormed wf listed) policy querySequence params

end Copies

variable [Number R]

/-- Saving and reopening preserves an engine and every search on it, and saving fails only
when the file outgrows 64-bit offsets. -/
theorem save_open_preserves (sequences : List (List T)) (engine : SearchEngine T)
    (built : (SearchEngineBuilder.new.addSequences (R := R) sequences).2.build (R := R) =
      .ok engine) (codec : TokenCodec R T)
    (contract : ∀ token ∈ engine.vocabulary.tokens, codec.RoundTrips token)
    (short : (utf8 codec.id).length ≤ 255) :
    (∀ bytes, engine.saveWith codec = .ok bytes → ∃ opened, openWith codec bytes = .ok opened ∧
      (∀ symbol, opened.vocabulary.token symbol = engine.vocabulary.token symbol) ∧
      (∀ id, opened.store.string (R := R) id = engine.store.string id) ∧
      (∀ symbol, opened.index.postingSlice (R := R) symbol = engine.index.postingSlice symbol) ∧
      opened.verify (R := R) = .ok ⟨⟩ ∧
      ∀ (policy : Policy R T) querySequence params,
        opened.search policy querySequence params = engine.search policy querySequence params) ∧
    ∀ failure, engine.saveWith codec = .error failure →
      ∃ encodings, Decode codec encodings engine.vocabulary.tokens ∧
        2 ^ 64 ≤ room (headerLen + maxCodecIdLen + 7 + 6 * sectionEntryLen)
          (engineSections encodings engine.vocabulary.len engine.index engine.store) := by
  obtain ⟨count, indexes⟩ := SearchEngineBuilder.indexes_of_built built
  have wf := indexes.wellFormed
  have known := wf.readable indexes.owned
  have verified := indexes.verified (R := R) count
  have saves := ensures_saveWith wf verified contract short
  constructor
  · intro bytes saved
    obtain ⟨opened, reopened, copies⟩ := saves.of_ok saved
    refine ⟨opened, reopened, fun symbol => ?_, copies.string (R := R) wf known,
      copies.postingSlice (R := R), copies.verify wf verified, copies.search wf known⟩
    rw [Vocabulary.token_eq_getElem?, Vocabulary.token_eq_getElem?, copies.tokens]
  · intro failure failed
    rw [failed] at saves
    cases failure with
    | error e => exact saves
    | panic => exact saves.elim

theorem save_open_preserves_banana : ∃ (engine opened : SearchEngine Char) (bytes : List UInt8),
    (SearchEngineBuilder.new.addSequences (R := Int)
      ["ban".toList, [], "ana".toList]).2.build (R := Int) = .ok engine ∧
    engine.saveWith (R := Int) charCodec = .ok bytes ∧
    openWith (R := Int) charCodec bytes = .ok opened ∧
    (∀ symbol, opened.vocabulary.token symbol = engine.vocabulary.token symbol) ∧
    opened.verify (R := Int) = .ok ⟨⟩ ∧ ∀ (policy : Policy Int Char) querySequence params,
      opened.search policy querySequence params = engine.search policy querySequence params := by
  obtain ⟨bytes, ran⟩ : ∃ bytes, ((SearchEngineBuilder.new.addSequences (R := Int)
      ["ban".toList, [], "ana".toList]).2.build (R := Int) >>=
        fun engine => engine.saveWith charCodec) = .ok bytes := ⟨_, by rfl⟩
  obtain ⟨engine, built, saved⟩ := bind_eq_ok.mp ran
  obtain ⟨opened, reopened, tokens, _, _, verified, searches⟩ :=
    (save_open_preserves _ engine built charCodec (fun token _ => charCodec_roundTrips token)
      (by decide)).1 bytes saved
  exact ⟨engine, opened, bytes, built, saved, reopened, tokens, verified, searches⟩

end SearchEngine
end Yurine
