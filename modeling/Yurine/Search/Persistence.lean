import Yurine.Persistence.Safety
import Yurine.Search.Tokens

/-! Saving and opening a search engine. An opened engine has its offset arrays checked and its
payloads unchecked; that is enough for every read to stay inside its arrays. -/
namespace Yurine
open Outcome Offsets EditScripts

variable {T R : Type}

def CorpusStore.fromMapped (symbols : List Symbol) (stringOffsets : List Nat) (symbolCount : Nat) :
    CorpusStore :=
  ⟨.mapped symbols, .mapped stringOffsets, symbolCount⟩

def PostingsIndex.fromMapped (postings : List Posting) (postingOffsets : List Nat) :
    PostingsIndex :=
  ⟨.mapped postings, .mapped postingOffsets⟩

namespace SearchEngine
variable [DecidableEq T]

/-- One token framed and checked by decoding it again. -/
def frameToken (codec : TokenCodec R T) (state : List Nat × List UInt8) (token : T) :
    Result R (List Nat × List UInt8) := do
  let blob ← codec.encode token state.2
  let encoded ← slice blob state.2.length blob.length
  let decoded ← codec.decode encoded
  if decoded ≠ token then
    fail (.invalidTokenEncoding "token codec does not round-trip the vocabulary")
  return (state.1 ++ [blob.length], blob)

/-- The bytes of the file that `save_with` publishes. -/
def saveWith (engine : SearchEngine T) (codec : TokenCodec R T) : Result R (List UInt8) := do
  engine.verify
  let (tokenOffsets, tokenBlob) ← engine.vocabulary.tokens.foldlM (frameToken codec) ([0], [])
  writeFile .searchEngine codec [
    (.vocabularyTokenOffsets, .u64 tokenOffsets),
    (.vocabularyTokenBlob, .bytes tokenBlob engine.vocabulary.len),
    (.sequenceOffsets, .u64 engine.store.stringOffsets.asSlice),
    (.corpusSymbols, .symbols engine.store.symbols.asSlice),
    (.postingOffsets, .u64 engine.index.postingOffsets.asSlice),
    (.postings, .postings engine.index.postings.asSlice)]

def decodeTokens (codec : TokenCodec R T) (offsets : List Nat) (blob : List UInt8) :
    Result R (List T) :=
  (windows offsets).mapM fun bounds => do
    codec.decode (← slice blob bounds.1 bounds.2)

/-- The engine over the mapped sections of a file. -/
def openMapped (file : PersistedFile) (vocabulary : Vocabulary T) : Result R (SearchEngine T) := do
  let symbols ← file.mappedSymbols .corpusSymbols
  let stringOffsets ← file.mappedOffsets .sequenceOffsets
  let postings ← file.mappedPostings .postings
  let postingOffsets ← file.mappedOffsets .postingOffsets
  fromUnverifiedParts vocabulary (PostingsIndex.fromMapped postings postingOffsets)
    (CorpusStore.fromMapped symbols stringOffsets vocabulary.len)

/-- `open_with` on a file with these bytes. -/
def openWith (codec : TokenCodec R T) (bytes : List UInt8) : Result R (SearchEngine T) := do
  let file ← PersistedFile.openFile bytes .searchEngine codec
  let offsets ← file.mappedOffsets .vocabularyTokenOffsets
  let blob ← file.blob .vocabularyTokenBlob
  let tokens ← decodeTokens codec offsets blob
  let vocabulary ← Vocabulary.fromTokens tokens
  openMapped file vocabulary

section Safety
variable {codec : TokenCodec R T} {file : PersistedFile} {vocabulary : Vocabulary T}
  {arrays : PersistedFile.EngineArrays}

omit [DecidableEq T] in
theorem safely_decodeTokens (decodes : ∀ bytes, codec.decode bytes ≠ panic) {offsets : List Nat}
    {blob : List UInt8} (cuts : Offsets.WellFormed offsets blob.length) :
    Safely (fun tokens => tokens.length = (windows offsets).length)
      (decodeTokens codec offsets blob) := by
  have decoded (bytes : List UInt8) : Safely (fun _ => True) (codec.decode bytes) := by
    have total := decodes bytes
    match codec.decode bytes, total with
    | .ok _, _ => trivial
    | .error (.error _), _ => trivial
    | .error .panic, total => exact total rfl
  have each : ∀ bounds ∈ windows offsets, Safely (fun _ => True) (do
      codec.decode (← slice blob bounds.1 bounds.2)) := by
    intro bounds mem
    obtain ⟨ordered, inside⟩ := cuts.window mem
    rw [slice_ok ordered inside, bind_ok]
    exact decoded _
  exact (Ensures.mapM each).post (fun tokens related => related.length_eq.symm)

theorem vocabulary_count (found : arrays.Of R file) {tokens : List T}
    (sizes : tokens.length = (windows arrays.vocabularyOffsets).length)
    (same : vocabulary.tokens = tokens) :
    arrays.vocabularyOffsets.length = vocabulary.len + 1 := by
  have nonempty := List.length_pos_of_ne_nil found.tokens.nonempty
  rw [Vocabulary.len, same, sizes, length_windows]
  omega

theorem safely_openMapped (found : arrays.Of R file) (small : file.bytes.length < u64Range)
    (count : arrays.vocabularyOffsets.length = vocabulary.len + 1) :
    Safely (fun engine => engine.WellFormed ∧ engine.vocabulary = vocabulary ∧
        engine.store.symbols.isMapped = true)
      (openMapped (R := R) file vocabulary) := by
  refine Ensures.bind (PersistedFile.safely_mappedSlice _ _ _) ?_
  rintro symbols ⟨corpus, corpusAt, symbolsLength, _⟩
  obtain rfl := Except.ok.inj (found.corpus.symm.trans corpusAt)
  rw [found.mappedSequences, bind_ok]
  refine Ensures.bind (PersistedFile.safely_mappedSlice _ _ _) ?_
  rintro postings ⟨descriptor, postingsAt, postingsLength, inside⟩
  obtain rfl := Except.ok.inj (found.postings.symm.trans postingsAt)
  rw [found.mappedPostings, bind_ok]
  have lists : (PostingsIndex.fromMapped postings arrays.postingOffsets).lists.length =
      vocabulary.len := by
    rw [PostingsIndex.lists, length_pieces, PostingsIndex.fromMapped, Storage.asSlice,
      found.sameCount, count, Nat.add_sub_cancel]
  have aligned : Aligned vocabulary (PostingsIndex.fromMapped postings arrays.postingOffsets)
      (CorpusStore.fromMapped symbols arrays.sequenceOffsets vocabulary.len) :=
    ⟨⟨postingsLength.symm ▸ found.lists, lists ▸ vocabulary.len_lt⟩,
      ⟨symbolsLength.symm ▸ found.strings, vocabulary.len_lt⟩, lists, rfl⟩
  obtain ⟨neighborhood, made, sorted, alphabet⟩ := fromUnverifiedParts_ok (R := R) aligned
  rw [made]
  refine ⟨⟨aligned, ?_, sorted, alphabet, by rintro ⟨⟩⟩, rfl, rfl⟩
  rw [← postingsLength] at inside
  simp only [PostingsIndex.fromMapped, Storage.asSlice, postingLayout, usizeRange, u64Range]
    at inside small ⊢
  omega

/-- Opening any bytes returns a well-formed engine or an error. -/
theorem safely_openWith (decodes : ∀ bytes, codec.decode bytes ≠ panic) (bytes : List UInt8) :
    Safely (fun engine => engine.WellFormed) (openWith codec bytes) := by
  refine Ensures.bind (PersistedFile.safely_openFile bytes _ codec) ?_
  rintro file ⟨rfl, small, kind, valid⟩
  rw [PersistedFile.validateStructure, kind] at valid
  obtain ⟨arrays, found⟩ := (PersistedFile.safely_validateSearchEngine file).of_ok valid
  rw [found.mappedVocabulary, bind_ok]
  refine Ensures.bind (PersistedFile.safely_blob _) ?_
  rintro blob ⟨descriptor, blobAt, length⟩
  obtain rfl := Except.ok.inj (found.vocabularyBlob.symm.trans blobAt)
  refine Ensures.bind (safely_decodeTokens decodes (length.symm ▸ found.tokens)) (fun tokens sizes => ?_)
  refine Ensures.bind ((Vocabulary.ensures_fromTokens tokens).mono (fun _ h => h)
    (fun _ _ => trivial)) (fun vocabulary same => ?_)
  exact (safely_openMapped found small (vocabulary_count found sizes same)).post (fun _ h => h.1)

end Safety
end SearchEngine
end Yurine
