import Yurine.Library.Offsets
import Yurine.Library.Sorting
import Yurine.Persistence.Codec
import Yurine.Postings

/-! The version 1 snapshot container: a fixed-width header, a codec identifier, a section table
and the section payloads, on a 64-bit little-endian host whose mappings are aligned. A file is
its bytes; all arithmetic on recorded offsets is checked in 64 bits before anything is read. -/
namespace Yurine
open Outcome Offsets Sorting LittleEndian

variable {R : Type}

/-- One more than the largest `u64`. -/
abbrev u64Range : Nat := 2 ^ 64

/-- `a.checked_add(b)` for `u64`. -/
def checkedAdd64 (a b : Nat) : Option Nat := if a + b < u64Range then some (a + b) else none

/-- `a.checked_mul(b)` for `u64`. -/
def checkedMul64 (a b : Nat) : Option Nat := if a * b < u64Range then some (a * b) else none

def magic : List UInt8 := [89, 85, 82, 73, 78, 69, 0, 0]

def formatVersion : Nat := 1

def maxCodecIdLen : Nat := 255

def endianMarker : Nat := 0x01020304

def headerLen : Nat := 64

def sectionEntryLen : Nat := 32

structure DiskHeader where
  magic : List UInt8
  formatVersion : Nat
  endianMarker : Nat
  fileKind : Nat
  headerLen : Nat
  codecVersion : Nat
  sectionCount : Nat
  codecOffset : Nat
  codecLen : Nat
  sectionTableOffset : Nat
  fileLen : Nat

namespace DiskHeader

def widths : List Nat := [4, 4, 4, 4, 4, 4, 8, 8, 8, 8]

def fields (header : DiskHeader) : List Nat :=
  [header.formatVersion, header.endianMarker, header.fileKind, header.headerLen,
    header.codecVersion, header.sectionCount, header.codecOffset, header.codecLen,
    header.sectionTableOffset, header.fileLen]

def asBytes (header : DiskHeader) : List UInt8 :=
  header.magic ++ encodeFields widths header.fields

/-- The header at the start of the bytes, if there are enough of them. -/
def refFromPrefix (bytes : List UInt8) : Option DiskHeader :=
  if bytes.length < Yurine.headerLen then none
  else match decodeFields widths (bytes.drop 8) with
    | [formatVersion, endianMarker, fileKind, headerLen, codecVersion, sectionCount, codecOffset,
        codecLen, sectionTableOffset, fileLen] =>
      some ⟨bytes.take 8, formatVersion, endianMarker, fileKind, headerLen, codecVersion,
        sectionCount, codecOffset, codecLen, sectionTableOffset, fileLen⟩
    | _ => none

end DiskHeader

structure DiskSectionEntry where
  kind : Nat
  flags : Nat
  offset : Nat
  byteLen : Nat
  elementCount : Nat

namespace DiskSectionEntry

def widths : List Nat := [4, 4, 8, 8, 8]

def layout : Layout DiskSectionEntry where
  size := sectionEntryLen
  write entry := encodeFields widths
    [entry.kind, entry.flags, entry.offset, entry.byteLen, entry.elementCount]
  read bytes := match decodeFields widths bytes with
    | [kind, flags, offset, byteLen, elementCount] => ⟨kind, flags, offset, byteLen, elementCount⟩
    | _ => ⟨0, 0, 0, 0, 0⟩

end DiskSectionEntry

inductive FileKind where
  | searchEngine
  | embeddingStore
  | levenshteinCosts
  | customCosts
  | cosineEmbeddingCosts
deriving DecidableEq, Repr

namespace FileKind

def toRaw : FileKind → Nat
  | searchEngine => 1
  | embeddingStore => 2
  | levenshteinCosts => 3
  | customCosts => 4
  | cosineEmbeddingCosts => 5

def fromRaw : Nat → Result R FileKind
  | 1 => return searchEngine
  | 2 => return embeddingStore
  | 3 => return levenshteinCosts
  | 4 => return customCosts
  | 5 => return cosineEmbeddingCosts
  | _ => fail (.invalidFile "unknown file kind")

end FileKind

inductive SectionKind where
  | vocabularyTokenOffsets
  | vocabularyTokenBlob
  | sequenceOffsets
  | corpusSymbols
  | postingOffsets
  | postings
  | embeddingTokenOffsets
  | embeddingTokenBlob
  | embeddings
  | costMetadata
deriving DecidableEq, Repr

namespace SectionKind

def toRaw : SectionKind → Nat
  | vocabularyTokenOffsets => 1
  | vocabularyTokenBlob => 2
  | sequenceOffsets => 3
  | corpusSymbols => 4
  | postingOffsets => 5
  | postings => 6
  | embeddingTokenOffsets => 7
  | embeddingTokenBlob => 8
  | embeddings => 9
  | costMetadata => 10

def fromRaw : Nat → Result R SectionKind
  | 1 => return vocabularyTokenOffsets
  | 2 => return vocabularyTokenBlob
  | 3 => return sequenceOffsets
  | 4 => return corpusSymbols
  | 5 => return postingOffsets
  | 6 => return postings
  | 7 => return embeddingTokenOffsets
  | 8 => return embeddingTokenBlob
  | 9 => return embeddings
  | 10 => return costMetadata
  | _ => fail (.invalidFile "unknown section kind")

/-- The size and alignment of the elements; blobs have none. -/
def elementLayout : SectionKind → Option (Nat × Nat)
  | vocabularyTokenBlob | embeddingTokenBlob | costMetadata => none
  | vocabularyTokenOffsets | embeddingTokenOffsets | sequenceOffsets | postingOffsets => some (8, 8)
  | corpusSymbols => some (4, 4)
  | postings => some (8, 4)
  | embeddings => some (4, 4)

def alignment (kind : SectionKind) : Nat := (kind.elementLayout.map Prod.snd).getD 1

end SectionKind

/-- The element types of the typed views: `u64`, `DiskSymbol` (and `f32` patterns) and
`DiskPosting`, whose bit patterns are all valid. -/
def u64Layout : Layout Nat := ⟨8, encode 8, decode⟩

def u32Layout : Layout U32 where
  size := 4
  write value := encode 4 value.val
  read bytes := Fin.ofNat _ (decode bytes)

def postingLayout : Layout Posting where
  size := 8
  write posting := u32Layout.write posting.stringId ++ u32Layout.write posting.position
  read bytes := ⟨u32Layout.read (bytes.take 4), u32Layout.read (bytes.drop 4)⟩

structure SectionDescriptor where
  kind : SectionKind
  offset : Nat
  byteLen : Nat
  elementCount : Nat
deriving DecidableEq, Repr

/-- What a caller hands over for a section. -/
inductive SectionData where
  | bytes (blob : List UInt8) (elementCount : Nat)
  | f32Rows (values : List U32) (rowIndices : List Nat) (rowLen : Nat)
  | u64 (values : List Nat)
  | symbols (values : List Symbol)
  | postings (values : List Posting)

namespace SectionData

def elementCount : SectionData → Result R Nat
  | bytes _ elementCount => return elementCount
  | f32Rows _ rowIndices rowLen =>
    okOr (.invalidFile "section element count overflows") (checkedMul64 rowIndices.length rowLen)
  | u64 values => return values.length
  | symbols values => return values.length
  | postings values => return values.length

def byteLen : SectionData → Result R Nat
  | bytes blob _ => return blob.length
  | f32Rows values rowIndices rowLen => do
    let count ← elementCount (f32Rows values rowIndices rowLen)
    okOr (.invalidFile "section byte length overflows") (checkedMul64 count 4)
  | u64 values => return values.length * 8
  | symbols values => return values.length * 4
  | postings values => return values.length * 8

/-- The bytes written for a section. -/
def writeTo : SectionData → Result R (List UInt8)
  | bytes blob _ => return blob
  | f32Rows values rowIndices rowLen => do
    let rows ← rowIndices.mapM fun index =>
      slice values (index * rowLen) (index * rowLen + rowLen)
    return u32Layout.writeAll rows.flatten
  | u64 values => return u64Layout.writeAll values
  | symbols values => return u32Layout.writeAll values
  | postings values => return postingLayout.writeAll values

end SectionData

def alignUp (value alignment : Nat) : Result R Nat :=
  okOr (.invalidFile "file alignment overflows")
    (checkedAdd64 value ((alignment - value % alignment) % alignment))

def validateCodecIdLen (codecId : String) : Result R PUnit :=
  if maxCodecIdLen < (utf8 codecId).length then
    fail (.codecIdTooLong (utf8 codecId).length maxCodecIdLen)
  else return ⟨⟩

/-- The descriptor of one section, placed at the cursor, and the cursor after it. -/
def describeSection (placed : List SectionDescriptor × Nat) (entry : SectionKind × SectionData) :
    Result R (List SectionDescriptor × Nat) := do
  let cursor ← alignUp placed.2 entry.1.alignment
  let byteLen ← entry.2.byteLen
  let elementCount ← entry.2.elementCount
  let stop ← okOr (.invalidFile "file length overflows") (checkedAdd64 cursor byteLen)
  return (placed.1 ++ [⟨entry.1, cursor, byteLen, elementCount⟩], stop)

def SectionDescriptor.entry (descriptor : SectionDescriptor) : DiskSectionEntry :=
  ⟨descriptor.kind.toRaw, 0, descriptor.offset, descriptor.byteLen, descriptor.elementCount⟩

/-- The writer with the number of bytes it has accounted for. -/
def writeSection (state : List UInt8 × Nat)
    (entry : (SectionKind × SectionData) × SectionDescriptor) : Result R (List UInt8 × Nat) := do
  let padding ← subtract entry.2.offset state.2
  let data ← entry.1.2.writeTo
  return (state.1 ++ List.replicate padding 0 ++ data, entry.2.offset + entry.2.byteLen)

/-- What stands before the payloads: header, codec identifier, padding and section table. -/
def writePrelude (header : DiskHeader) (codecId : String) (descriptors : List SectionDescriptor) :
    List UInt8 :=
  header.asBytes ++ utf8 codecId ++
    List.replicate (header.sectionTableOffset - header.codecOffset - header.codecLen) 0 ++
    DiskSectionEntry.layout.writeAll (descriptors.map SectionDescriptor.entry)

/-- The bytes that `write_file` publishes. -/
def writeFile (kind : FileKind) (codec : TokenCodec R T)
    (sections : List (SectionKind × SectionData)) : Result R (List UInt8) := do
  validateCodecIdLen codec.id
  let codecOffset := headerLen
  let codecLen := (utf8 codec.id).length
  let sectionTableOffset ← alignUp (codecOffset + codecLen) 8
  let tableLen ← okOr (.invalidFile "section table length overflows")
    (checkedMul64 sections.length sectionEntryLen)
  let (descriptors, cursor) ← sections.foldlM describeSection ([], sectionTableOffset + tableLen)
  let header : DiskHeader :=
    ⟨magic, formatVersion, endianMarker, kind.toRaw, headerLen, codec.version.val, sections.length,
      codecOffset, codecLen, sectionTableOffset, cursor⟩
  let (bytes, _) ← (sections.zip descriptors).foldlM writeSection
    (writePrelude header codec.id descriptors, sectionTableOffset + tableLen)
  return bytes

def checkedRange (bytes : List UInt8) (offset len : Nat) : Result R (List UInt8) := do
  let stop ← okOr (.invalidFile "file range overflows") (checkedAdd64 offset len)
  if offset ≤ stop ∧ stop ≤ bytes.length then return (bytes.drop offset).take len
  else fail (.invalidFile "file range is truncated")

def validateHeader (header : DiskHeader) (expectedKind : FileKind) : Result R FileKind := do
  if header.magic ≠ magic then fail (.invalidFile "magic does not match")
  if header.formatVersion ≠ formatVersion then
    fail (.unsupportedFormatVersion header.formatVersion)
  if header.endianMarker ≠ endianMarker then fail .endiannessMismatch
  let kind ← FileKind.fromRaw header.fileKind
  if kind ≠ expectedKind then fail (.invalidFile "file kind does not match")
  if header.headerLen ≠ headerLen then fail (.invalidFile "header size does not match")
  return kind

def validateSection (bytes : List UInt8) (descriptor : SectionDescriptor) : Result R PUnit := do
  let _ ← checkedRange bytes descriptor.offset descriptor.byteLen
  match descriptor.kind.elementLayout with
  | none => return ⟨⟩
  | some (elementSize, alignment) =>
    let expectedLen ← okOr (.invalidFile "section byte length overflows")
      (checkedMul64 descriptor.elementCount elementSize)
    if descriptor.byteLen ≠ expectedLen then
      fail (.invalidFile "section byte length does not match element count")
    if descriptor.offset % alignment ≠ 0 then fail (.invalidFile "section offset is not aligned")

/-- The check of one pair of neighboring regions. -/
def validateNeighbors (pair : (Nat × Nat) × (Nat × Nat)) : Result R PUnit := do
  let previousEnd ← okOr (.invalidFile "file range overflows") (checkedAdd64 pair.1.1 pair.1.2)
  if pair.2.1 < previousEnd then fail (.invalidFile "file regions overlap")

/-- Regions are pairs of an offset and a length. The order of equal offsets is immaterial. -/
def validateNonOverlapping (codecOffset codecLen tableOffset tableLen : Nat)
    (sections : List SectionDescriptor) : Result R PUnit :=
  let ranges := [(0, headerLen), (codecOffset, codecLen), (tableOffset, tableLen)] ++
    sections.map (fun descriptor => (descriptor.offset, descriptor.byteLen))
  let ranges := sortByKey Prod.fst (ranges.filter (fun range => range.2 ≠ 0))
  (windows ranges).forM validateNeighbors

def validateOffsets (offsets : List Nat) (payloadLen : Nat) : Result R PUnit := do
  if offsets.head? ≠ some 0 ∨ offsets.getLast? ≠ some payloadLen then
    fail (.invalidFile "offset endpoints do not match payload")
  if (windows offsets).any (fun pair => pair.2 < pair.1) then
    fail (.invalidFile "offsets are not monotonic")

/-- A mapped file with the descriptors of its sections, of distinct kinds. -/
structure PersistedFile where
  bytes : List UInt8
  kind : FileKind
  sections : List SectionDescriptor

namespace PersistedFile

/-- `PersistedFile::section`. -/
def sectionAt (file : PersistedFile) (kind : SectionKind) : Result R SectionDescriptor :=
  okOr (.invalidFile "required section is missing")
    (file.sections.find? (fun descriptor => descriptor.kind = kind))

/-- A typed view of a section; the mapping itself is aligned to every element type. -/
def mappedSlice (file : PersistedFile) (layout : Layout α) (alignment : Nat) (kind : SectionKind) :
    Result R (List α) := do
  let descriptor ← file.sectionAt kind
  let expectedLen ← okOr (.invalidFile "section byte length overflows")
    (checkedMul64 descriptor.elementCount layout.size)
  if descriptor.byteLen ≠ expectedLen then
    fail (.invalidFile "section byte length does not match element count")
  let stop ← okOr (.invalidFile "section range overflows")
    (checkedAdd64 descriptor.offset descriptor.byteLen)
  if file.bytes.length < stop then fail (.invalidFile "section lies outside the file")
  if descriptor.offset % alignment ≠ 0 then
    fail (.invalidFile "section has invalid length or alignment")
  return layout.readAll descriptor.elementCount (file.bytes.drop descriptor.offset)

def mappedOffsets (file : PersistedFile) (kind : SectionKind) : Result R (List Nat) :=
  file.mappedSlice u64Layout 8 kind

def mappedSymbols (file : PersistedFile) (kind : SectionKind) : Result R (List Symbol) :=
  file.mappedSlice u32Layout 4 kind

def mappedPostings (file : PersistedFile) (kind : SectionKind) : Result R (List Posting) :=
  file.mappedSlice postingLayout 4 kind

/-- `PersistedFile::bytes`. -/
def blob (file : PersistedFile) (kind : SectionKind) : Result R (List UInt8) := do
  let descriptor ← file.sectionAt kind
  checkedRange file.bytes descriptor.offset descriptor.byteLen

def requireExactSections (file : PersistedFile) (expected : List SectionKind) : Result R PUnit :=
  if file.sections.length ≠ expected.length ∨
      expected.any (fun kind => ¬ file.sections.any (fun descriptor => descriptor.kind = kind)) then
    fail (.invalidFile "sections do not match the selected file kind")
  else return ⟨⟩

def validateSearchEngine (file : PersistedFile) : Result R PUnit := do
  file.requireExactSections [.vocabularyTokenOffsets, .vocabularyTokenBlob, .sequenceOffsets,
    .corpusSymbols, .postingOffsets, .postings]
  let vocabularyOffsets ← file.mappedOffsets .vocabularyTokenOffsets
  let vocabularyBlob ← file.sectionAt .vocabularyTokenBlob
  let sequenceOffsets ← file.mappedOffsets .sequenceOffsets
  let corpus ← file.sectionAt .corpusSymbols
  let postingOffsets ← file.mappedOffsets .postingOffsets
  let postings ← file.sectionAt .postings
  validateOffsets vocabularyOffsets vocabularyBlob.byteLen
  validateOffsets sequenceOffsets corpus.elementCount
  validateOffsets postingOffsets postings.elementCount
  let expectedVocabularyOffsets ← okOr (.invalidFile "vocabulary offset count overflows")
    (checkedAdd64 vocabularyBlob.elementCount 1)
  if vocabularyOffsets.length ≠ expectedVocabularyOffsets then
    fail (.invalidFile "vocabulary offset count does not match token count")
  if postingOffsets.length ≠ expectedVocabularyOffsets then
    fail (.invalidFile "posting offset count does not match vocabulary")

def validateEmbeddingStore (file : PersistedFile) : Result R PUnit := do
  file.requireExactSections [.embeddingTokenOffsets, .embeddingTokenBlob, .embeddings,
    .costMetadata]
  let offsets ← file.mappedOffsets .embeddingTokenOffsets
  let blob ← file.sectionAt .embeddingTokenBlob
  let _ ← file.sectionAt .embeddings
  let _ ← file.sectionAt .costMetadata
  validateOffsets offsets blob.byteLen
  let expectedOffsets ← okOr (.invalidFile "embedding token offset count overflows")
    (checkedAdd64 blob.elementCount 1)
  if offsets.length ≠ expectedOffsets then
    fail (.invalidFile "embedding token offset count does not match token count")

def validateStructure (file : PersistedFile) : Result R PUnit :=
  match file.kind with
  | .searchEngine => file.validateSearchEngine
  | .embeddingStore => file.validateEmbeddingStore
  | .levenshteinCosts => file.requireExactSections []
  | .customCosts | .cosineEmbeddingCosts => file.requireExactSections [.costMetadata]

/-- One entry of the section table, checked and added to the sections before it. -/
def readEntry (bytes : List UInt8) (sections : List SectionDescriptor) (entry : DiskSectionEntry) :
    Result R (List SectionDescriptor) := do
  let kind ← SectionKind.fromRaw entry.kind
  if entry.flags ≠ 0 then fail (.invalidFile "section flags are not zero")
  let descriptor : SectionDescriptor := ⟨kind, entry.offset, entry.byteLen, entry.elementCount⟩
  validateSection bytes descriptor
  if sections.any (fun other => other.kind = kind) then
    fail (.invalidFile "section kind is duplicated")
  return sections ++ [descriptor]

def parseContents (bytes : List UInt8) (header : DiskHeader) (kind : FileKind)
    (expectedCodec : String) (expectedCodecVersion : Nat) : Result R PersistedFile := do
  if maxCodecIdLen < header.codecLen then fail (.invalidFile "codec identifier is too long")
  let codecBytes ← checkedRange bytes header.codecOffset header.codecLen
  let actualCodec ← okOr (.invalidFile "codec identifier is not UTF-8") (fromUtf8 codecBytes)
  if actualCodec ≠ expectedCodec then fail (.codecMismatch expectedCodec actualCodec)
  if header.codecVersion ≠ expectedCodecVersion then
    fail (.codecVersionMismatch expectedCodecVersion header.codecVersion)
  let tableLen ← okOr (.invalidFile "section table length overflows")
    (checkedMul64 header.sectionCount sectionEntryLen)
  let table ← checkedRange bytes header.sectionTableOffset tableLen
  let entries := DiskSectionEntry.layout.readAll header.sectionCount table
  let sections ← entries.foldlM (readEntry bytes) []
  validateNonOverlapping header.codecOffset header.codecLen header.sectionTableOffset tableLen
    sections
  let file : PersistedFile := ⟨bytes, kind, sections⟩
  file.validateStructure
  return file

/-- `PersistedFile::open` of a file with these bytes. -/
def openFile (bytes : List UInt8) (expectedKind : FileKind) (codec : TokenCodec R T) :
    Result R PersistedFile := do
  validateCodecIdLen codec.id
  let header ← okOr (.invalidFile "header is truncated") (DiskHeader.refFromPrefix bytes)
  let kind ← validateHeader header expectedKind
  if header.fileLen ≠ bytes.length then
    fail (.invalidFile "recorded file length does not match")
  parseContents bytes header kind codec.id codec.version.val

end PersistedFile
end Yurine
