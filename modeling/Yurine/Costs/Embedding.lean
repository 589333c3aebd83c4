import Yurine.Costs.CustomRoundTrip
import Yurine.Persistence.Identity

/-! Embedding-based costs: a store of token vectors and three constant costs, saved to separate
files. Elements are bit patterns, and the check of a row, which computes its norm, is a
parameter. -/
namespace Yurine
open Outcome Offsets Sorting LittleEndian CustomCosts

variable {T : Type}

/-- `validate_embedding`. -/
abbrev RowCheck : Type := List U32 → Result U32 PUnit

/-- `NonZeroUsize`. -/
abbrev NonZero : Type := { n : Nat // n ≠ 0 }

/-- The checks of an inserted vector, and the division of its elements by its norm. -/
structure Normalization where
  check : RowCheck
  scale : List U32 → U32 → U32

structure EmbeddingStoreBuilder (T : Type) where
  dimension : NonZero
  embeddingIndices : RuleMap T U32
  embeddings : List U32
deriving DecidableEq

structure EmbeddingStore (T : Type) where
  dimension : NonZero
  embeddingIndices : RuleMap T U32
  embeddings : Storage U32
  /-- The number of rows whose checks are cached. -/
  validatedRows : Option Nat
deriving DecidableEq

structure CosineEmbeddingCosts (T : Type) where
  embeddings : EmbeddingStore T
  deletion : CostBits
  insertion : CostBits
  missingSubstitution : CostBits
deriving DecidableEq

def chunksExact (len : Nat) (values : List α) : List (List α) :=
  (List.range (values.length / len)).map fun i => (values.drop (i * len)).take len

/-- `METADATA_VERSION` of all cost files. -/
def costMetadataVersion : U32 := 1

namespace EmbeddingStoreBuilder

def new (dimension : NonZero) : EmbeddingStoreBuilder T := ⟨dimension, ∅, []⟩

/-- The previous vector of the token, if there is one, and the builder after the insertion. -/
def insert [DecidableEq T] (normalization : Normalization) (builder : EmbeddingStoreBuilder T)
    (token : T) (embedding : List U32) :
    Result U32 (Option (List U32) × EmbeddingStoreBuilder T) := do
  let dimension := builder.dimension.val
  if embedding.length ≠ dimension then
    fail (.invalidEmbeddingDimension dimension embedding.length)
  normalization.check embedding
  let embedding := embedding.map (normalization.scale embedding)
  match builder.embeddingIndices.lookup token with
  | some index =>
    let start := index.val * dimension
    let previous ← slice builder.embeddings start (start + dimension)
    let embeddings := builder.embeddings.take start ++ embedding ++
      builder.embeddings.drop (start + dimension)
    return (some previous, { builder with embeddings })
  | none =>
    if fits : builder.embeddings.length / dimension < 2 ^ 32 then
      let embeddingIndices := builder.embeddingIndices.insert token ⟨_, fits⟩
      let embeddings := builder.embeddings ++ embedding
      return (none, { builder with embeddingIndices, embeddings })
    else fail .embeddingIndexOverflow

def build (builder : EmbeddingStoreBuilder T) : EmbeddingStore T :=
  ⟨builder.dimension, builder.embeddingIndices, .owned builder.embeddings, none⟩

end EmbeddingStoreBuilder

namespace EmbeddingStore
variable [DecidableEq T]

/-- The vector of a token. The cached check of a row is that of its elements. -/
def get (validate : RowCheck) (store : EmbeddingStore T) (token : T) : Option (List U32) := do
  let index ← store.embeddingIndices.lookup token
  let start ← checkedMul index.val store.dimension.val
  let stop ← checkedAdd start store.dimension.val
  let row ← if stop ≤ store.embeddings.asSlice.length then
    some ((store.embeddings.asSlice.drop start).take (stop - start)) else none
  match store.validatedRows with
  | some rows => if index.val < rows ∧ validate row = .ok ⟨⟩ then some row else none
  | none => some row

def len (store : EmbeddingStore T) : Nat := store.embeddingIndices.keys.length

def verify (validate : RowCheck) (store : EmbeddingStore T) : Result U32 PUnit := do
  let expectedLen ← okOr (.invalidFile "embedding matrix length overflows")
    (checkedMul store.len store.dimension.val)
  if store.embeddings.asSlice.length ≠ expectedLen then
    fail (.invalidFile "embedding matrix length does not match its shape")
  (chunksExact store.dimension.val store.embeddings.asSlice).zipIdx.forM fun entry => do
    -- `validated_rows[index]`
    if store.validatedRows.any (fun rows => rows ≤ entry.2) then panic
    validate entry.1

/-- The rows of the file, of which the map is iterated in some order. -/
def encodeRows (codec : TokenCodec U32 T) (order : List (T × U32)) :
    Result U32 (List (List UInt8 × U32)) :=
  order.mapM fun entry => do
    let encoded ← codec.encode entry.1 []
    let decoded ← codec.decode encoded
    if decoded ≠ entry.1 then
      fail (.invalidTokenEncoding "token codec does not round-trip the embedding index")
    return (encoded, entry.2)

/-- The bytes of the file that `save_with` publishes. -/
def saveWith (validate : RowCheck) (store : EmbeddingStore T) (order : List (T × U32))
    (codec : TokenCodec U32 T) : Result U32 (List UInt8) := do
  store.verify validate
  let rows ← encodeRows codec order
  let rows := sortByKey (fun row => byteKey row.1) rows
  if (windows rows).any (fun pair => pair.1.1 = pair.2.1) then
    fail (.invalidTokenEncoding "token codec maps distinct embedding tokens to the same bytes")
  let metadata := u32Layout.write costMetadataVersion ++ encode 8 store.dimension.val
  writeFile .embeddingStore codec [
    (.embeddingTokenOffsets, .u64 (offsetsFrom 0 (rows.map Prod.fst))),
    (.embeddingTokenBlob, .bytes (rows.map Prod.fst).flatten store.len),
    (.embeddings, .f32Rows store.embeddings.asSlice (rows.map fun row => row.2.val)
      store.dimension.val),
    (.costMetadata, .bytes metadata 1)]

def readDimension (bytes : List UInt8) : Result U32 NonZero := do
  let (version, metadata) ← (MetadataReader.new bytes).u32
  if version ≠ costMetadataVersion then
    fail (.invalidFile "unsupported embedding metadata version")
  let (dimension, metadata) ← metadata.u64
  let dimension ← if nonzero : dimension ≠ 0 then .ok ⟨dimension, nonzero⟩
    else fail (.invalidFile "embedding dimension is zero")
  metadata.finish
  return dimension

/-- One more token of the index. -/
def addToken (codec : TokenCodec U32 T) (blob : List UInt8) (indices : RuleMap T U32)
    (entry : (Nat × Nat) × Nat) : Result U32 (RuleMap T U32) := do
  let token ← codec.decode (← slice blob entry.1.1 entry.1.2)
  if fits : entry.2 < 2 ^ 32 then
    if (indices.lookup token).isSome then
      fail (.invalidFile "decoded embedding index contains duplicate tokens")
    else return indices.insert token ⟨entry.2, fits⟩
  else fail .embeddingIndexOverflow

/-- `open_with` on a file with these bytes. -/
def openWith (codec : TokenCodec U32 T) (bytes : List UInt8) : Result U32 (EmbeddingStore T) := do
  let file ← PersistedFile.openFile bytes .embeddingStore codec
  let dimension ← readDimension (← file.blob .costMetadata)
  let offsets ← file.mappedOffsets .embeddingTokenOffsets
  let blob ← file.blob .embeddingTokenBlob
  let embeddings ← file.mappedSlice u32Layout 4 .embeddings
  let rowCount := offsets.length - 1
  let expectedValues ← okOr (.invalidFile "embedding matrix length overflows")
    (checkedMul rowCount dimension.val)
  if embeddings.length ≠ expectedValues then
    fail (.invalidFile "embedding matrix length does not match its shape")
  let indices ← (windows offsets).zipIdx.foldlM (addToken codec blob) ∅
  return ⟨dimension, indices, .mapped embeddings, some rowCount⟩

end EmbeddingStore

def noTokenCodec : TokenCodec U32 Unit where
  id := "yurine:none"
  version := 1
  encode _ _ := fail (.invalidTokenEncoding "this file kind does not contain tokens")
  decode _ := fail (.invalidTokenEncoding "this file kind does not contain tokens")

namespace LevenshteinCosts

def save : Result U32 (List UInt8) := writeFile .levenshteinCosts noTokenCodec []

def openFile (bytes : List UInt8) : Result U32 PUnit := do
  let _ ← PersistedFile.openFile bytes .levenshteinCosts noTokenCodec
  return ⟨⟩

end LevenshteinCosts

namespace CosineEmbeddingCosts

def metadata (costs : CosineEmbeddingCosts T) : List UInt8 :=
  u32Layout.write costMetadataVersion ++ u32Layout.write costs.deletion.bits ++
    u32Layout.write costs.insertion.bits ++ u32Layout.write costs.missingSubstitution.bits

def save (costs : CosineEmbeddingCosts T) : Result U32 (List UInt8) :=
  writeFile .cosineEmbeddingCosts noTokenCodec [(.costMetadata, .bytes costs.metadata 1)]

def readMetadata (bytes : List UInt8) : Result U32 (CostBits × CostBits × CostBits) := do
  let (version, reader) ← (MetadataReader.new bytes).u32
  if version ≠ costMetadataVersion then
    fail (.invalidFile "unsupported cosine-cost metadata version")
  let (deletion, reader) ← readDefault reader
  let (insertion, reader) ← readDefault reader
  let (missingSubstitution, reader) ← readDefault reader
  reader.finish
  return (deletion, insertion, missingSubstitution)

/-- The costs of the file go with any store that the caller supplies. -/
def openFile (bytes : List UInt8) (embeddings : EmbeddingStore T) :
    Result U32 (CosineEmbeddingCosts T) := do
  let file ← PersistedFile.openFile bytes .cosineEmbeddingCosts noTokenCodec
  let (deletion, insertion, missingSubstitution) ← readMetadata (← file.blob .costMetadata)
  return ⟨embeddings, deletion, insertion, missingSubstitution⟩

section Reading
open MetadataReader

theorem readMetadata_metadata (costs : CosineEmbeddingCosts T) :
    readMetadata costs.metadata =
      .ok (costs.deletion, costs.insertion, costs.missingSubstitution) := by
  have accepts : Accepts True At _ _ := Accepts.bind recognizes_u32 (fun version =>
    Accepts.guard (version ≠ costMetadataVersion)
      (.invalidFile "unsupported cosine-cost metadata version")
      (Accepts.bind recognizes_readDefault (fun deletion =>
        Accepts.bind recognizes_readDefault (fun insertion =>
          Accepts.bind recognizes_readDefault (fun missing =>
            Accepts.finish (fun reader input (at_ : At reader input) => decides_finish at_)
              (deletion, insertion, missing))))))
  apply accepts.complete (MetadataReader.new costs.metadata) costs.metadata
  · refine ⟨_, _, costMetadataVersion, ?_, rfl, not_not.mpr rfl, _, _, costs.deletion, rfl,
      costField_bits _, _, _, costs.insertion, rfl, costField_bits _, _, [],
      costs.missingSubstitution, (List.append_nil _).symm, costField_bits _, rfl, rfl⟩
    simp only [metadata, List.append_assoc]
  · exact new_at (by simp [metadata, u32Layout_faithful.length_write]; decide)

/-- The file of a policy opens with its constants and whatever store is supplied. -/
theorem save_openFile (costs : CosineEmbeddingCosts T) : ∃ bytes, costs.save = .ok bytes ∧
    ∀ {T' : Type} (embeddings : EmbeddingStore T'), openFile bytes embeddings =
      .ok ⟨embeddings, costs.deletion, costs.insertion, costs.missingSubstitution⟩ := by
  have length : costs.metadata.length = 16 := by
    simp [metadata, u32Layout_faithful.length_write]
    rfl
  obtain ⟨bytes, file, saved, opened, blob⟩ := writeFile_openFile (.inr rfl) noTokenCodec
    (by decide) (show costs.metadata.length < 2 ^ 63 by rw [length]; decide)
  refine ⟨bytes, saved, fun embeddings => ?_⟩
  apply bind_eq_ok.mpr ⟨file, opened, _⟩
  apply bind_eq_ok.mpr ⟨costs.metadata, blob, _⟩
  exact bind_eq_ok.mpr ⟨_, readMetadata_metadata costs, rfl⟩

end Reading
end CosineEmbeddingCosts
end Yurine
