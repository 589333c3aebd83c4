import Yurine.Persistence.Identity

/-! Every payload that a file kind may have is read back from the container, in whatever order
the sections are written. The writer fails only when the file it lays out outgrows 64 bits. -/
namespace Yurine
open Outcome Offsets LittleEndian

variable {R T : Type}

/-- The row of a matrix with this number. -/
def rowAt (len : Nat) (values : List U32) (index : Nat) : List U32 :=
  (values.drop (index * len)).take len

namespace SectionData

/-- The bytes of a section whose rows are inside its matrix. -/
def payload : SectionData → List UInt8
  | bytes blob _ => blob
  | f32Rows values rowIndices rowLen => u32Layout.writeAll (rowIndices.flatMap (rowAt rowLen values))
  | u64 values => u64Layout.writeAll values
  | symbols values => u32Layout.writeAll values
  | postings values => postingLayout.writeAll values

/-- The payload as an array of offsets. -/
def offsets (data : SectionData) : List Nat := u64Layout.readAll data.count data.payload

/-- The data is that of a section of this kind: its numbers are 64-bit words, its rows are
inside the matrix and its elements fill it. -/
structure Matches (data : SectionData) (kind : SectionKind) : Prop where
  words : ∀ values, data = u64 values → ∀ n ∈ values, n < u64Range
  rows : ∀ values rowIndices rowLen, data = f32Rows values rowIndices rowLen →
    ∀ i ∈ rowIndices, i * rowLen + rowLen ≤ values.length
  layout : ∀ size alignment, kind.elementLayout = some (size, alignment) →
    data.size = data.count * size
  small : data.count < u64Range

theorem matches_bytes {kind : SectionKind} (untyped : kind.elementLayout = none)
    (values : List UInt8) {count : Nat} (small : count < u64Range) :
    (bytes values count).Matches kind := by
  constructor
  · rintro _ ⟨⟩
  · rintro _ _ _ ⟨⟩
  · intro size alignment typed
    rw [untyped] at typed
    cases typed
  · exact small

theorem length_rowAt {len : Nat} {values : List U32} {index : Nat}
    (inside : index * len + len ≤ values.length) : (rowAt len values index).length = len := by
  rw [rowAt, List.length_take, List.length_drop]
  omega

theorem length_rows {len : Nat} {values : List U32} {rowIndices : List Nat}
    (inside : ∀ i ∈ rowIndices, i * len + len ≤ values.length) :
    (rowIndices.flatMap (rowAt len values)).length = rowIndices.length * len := by
  induction rowIndices with
  | nil => simp
  | cons i rest ih =>
    rw [List.flatMap_cons, List.length_append, length_rowAt (inside i (by simp)),
      ih (fun j mem => inside j (List.mem_cons_of_mem i mem)), List.length_cons, Nat.succ_mul,
      Nat.add_comm]

theorem writeTo_rows {values : List U32} {rowIndices : List Nat} {rowLen : Nat}
    (inside : ∀ i ∈ rowIndices, i * rowLen + rowLen ≤ values.length) :
    (f32Rows values rowIndices rowLen).writeTo (R := R) =
      .ok (f32Rows values rowIndices rowLen).payload := by
  have rows : rowIndices.mapM (fun index =>
      slice (ε := Error R) values (index * rowLen) (index * rowLen + rowLen)) =
        .ok (rowIndices.map (rowAt rowLen values)) := by
    apply mapM_ok
    intro i mem
    rw [slice_ok (Nat.le_add_right _ _) (inside i mem), Nat.add_sub_cancel_left]
    rfl
  rw [writeTo, rows, bind_ok]
  rfl

theorem Matches.length_payload {data : SectionData} {kind : SectionKind}
    (matched : data.Matches kind) : data.payload.length = data.size := by
  cases data with
  | bytes blob count => rfl
  | f32Rows values rowIndices rowLen =>
    rw [payload, u32Layout_faithful.length_writeAll, length_rows (matched.rows _ _ _ rfl)]
    rfl
  | u64 values => exact u64Layout_faithful.length_writeAll values
  | symbols values => exact u32Layout_faithful.length_writeAll values
  | postings values => exact postingLayout_faithful.length_writeAll values

theorem Matches.writeTo {data : SectionData} {kind : SectionKind} (matched : data.Matches kind) :
    data.writeTo (R := R) = .ok data.payload := by
  cases data with
  | f32Rows values rowIndices rowLen => exact writeTo_rows (matched.rows _ _ _ rfl)
  | _ => rfl

theorem Matches.fits {data : SectionData} {kind : SectionKind} (matched : data.Matches kind)
    (small : data.size < u64Range) : data.Fits R kind := by
  have payload : ∃ payload, data.writeTo (R := R) = .ok payload ∧ payload.length = data.size :=
    ⟨data.payload, matched.writeTo, matched.length_payload⟩
  cases data with
  | f32Rows values rowIndices rowLen =>
    have counted : (f32Rows values rowIndices rowLen).elementCount (R := R) =
        .ok (f32Rows values rowIndices rowLen).count := by
      rw [elementCount, checkedMul64_ok matched.small]
      rfl
    refine ⟨?_, counted, payload, matched.layout, matched.small⟩
    rw [byteLen, counted, bind_ok]
    exact okOr_eq_ok.mpr (checkedMul64_ok small)
  | _ => exact ⟨rfl, rfl, payload, matched.layout, matched.small⟩

theorem offsets_u64 {values : List Nat} (words : ∀ n ∈ values, n < u64Range) :
    (u64 values).offsets = values := by
  have read := u64Layout_faithful.readAll_writeAll words []
  rwa [List.append_nil] at read

end SectionData

theorem size_le_layoutEnd (start : Nat) {sections : List (SectionKind × SectionData)}
    {entry : SectionKind × SectionData} (mem : entry ∈ sections) :
    entry.2.size ≤ layoutEnd start sections := by
  obtain ⟨before, after, rfl⟩ := List.append_of_mem mem
  rw [List.append_cons, layoutEnd_append, layoutEnd_concat]
  exact (Nat.le_add_left _ _).trans (le_layoutEnd _ _)

/-- The sections of a file of each kind, in one of their orders. The offset arrays cut their
payloads, and there is one token or posting list more than offsets. -/
inductive Laid : FileKind → List (SectionKind × SectionData) → Prop where
  | searchEngine (tokenOffsets tokenBlob stringOffsets corpus postingOffsets postings : SectionData)
      (tokens : WellFormed tokenOffsets.offsets tokenBlob.size)
      (strings : WellFormed stringOffsets.offsets corpus.count)
      (lists : WellFormed postingOffsets.offsets postings.count)
      (tokenCount : tokenOffsets.count = tokenBlob.count + 1)
      (listCount : postingOffsets.count = tokenBlob.count + 1) :
      Laid .searchEngine [(.vocabularyTokenOffsets, tokenOffsets), (.vocabularyTokenBlob, tokenBlob),
        (.sequenceOffsets, stringOffsets), (.corpusSymbols, corpus),
        (.postingOffsets, postingOffsets), (.postings, postings)]
  | embeddingStore (tokenOffsets tokenBlob embeddings metadata : SectionData)
      (tokens : WellFormed tokenOffsets.offsets tokenBlob.size)
      (tokenCount : tokenOffsets.count = tokenBlob.count + 1) :
      Laid .embeddingStore [(.embeddingTokenOffsets, tokenOffsets), (.embeddingTokenBlob, tokenBlob),
        (.embeddings, embeddings), (.costMetadata, metadata)]
  | levenshteinCosts : Laid .levenshteinCosts []
  | customCosts (metadata : SectionData) : Laid .customCosts [(.costMetadata, metadata)]
  | cosineEmbeddingCosts (metadata : SectionData) :
      Laid .cosineEmbeddingCosts [(.costMetadata, metadata)]

/-- The kinds of the sections do not depend on their data. -/
theorem Laid.distinct {kind : FileKind} {listed : List (SectionKind × SectionData)}
    (laid : Laid kind listed) : (listed.map Prod.fst).Nodup ∧ listed.length < 2 ^ 32 := by
  cases laid <;> constructor <;> simp

theorem SectionData.Matches.oneMore {offsets : SectionData} {kind : SectionKind}
    (matched : offsets.Matches kind) {count : Nat} (more : offsets.count = count + 1) :
    checkedAdd64 count 1 = some offsets.offsets.length := by
  have small := matched.small
  rw [SectionData.offsets, Layout.length_readAll, more]
  exact checkedAdd64_ok (more ▸ small)

namespace PersistedFile
variable {file : PersistedFile} {sections listed : List (SectionKind × SectionData)}

theorem Holds.requirePermuted (holds : file.Holds R sections) (order : sections.Perm listed) :
    file.requireExactSections (R := R) (listed.map Prod.fst) = .ok ⟨⟩ := by
  have same := holds.requireExactSections
  unfold PersistedFile.requireExactSections at same ⊢
  rwa [← (order.map Prod.fst).length_eq, ← (order.map Prod.fst).any_eq]

theorem validateOffsets_ok {offsets : List Nat} {length : Nat} (cuts : WellFormed offsets length) :
    validateOffsets (R := R) offsets length = .ok ⟨⟩ :=
  (decides_validateOffsets offsets length).eq_ok.mpr cuts

theorem Holds.offsetsAt (holds : file.Holds R sections) (order : sections.Perm listed)
    (matched : ∀ entry ∈ sections, entry.2.Matches entry.1) (entry : SectionKind × SectionData)
    (mem : entry ∈ listed) (laid : entry.1.elementLayout = some (8, 8)) :
    file.mappedOffsets (R := R) entry.1 = .ok entry.2.offsets := by
  have here := order.mem_iff.mpr mem
  have data := matched entry here
  apply holds.mapped here data.writeTo
  · rw [SectionKind.alignment, laid]
    exact dvd_refl 8
  · exact data.layout 8 8 laid

/-- A section is described by its size and its number of elements. -/
theorem Holds.describedAt (holds : file.Holds R sections) (order : sections.Perm listed)
    (entry : SectionKind × SectionData) (mem : entry ∈ listed) :
    ∃ d, file.sectionAt (R := R) entry.1 = .ok d ∧ d.byteLen = entry.2.size ∧
      d.elementCount = entry.2.count := by
  obtain ⟨d, found, described, _⟩ := holds.sectionAt (order.mem_iff.mpr mem)
  exact ⟨d, found, described.byteLen, described.elementCount⟩

/-- The sections of a file pass the checks of its kind. -/
theorem Holds.validateStructure_ok (holds : file.Holds R sections) (order : sections.Perm listed)
    (matched : ∀ entry ∈ sections, entry.2.Matches entry.1) (laid : Laid file.kind listed) :
    file.validateStructure (R := R) = .ok ⟨⟩ := by
  have exact := holds.requirePermuted order
  generalize same : file.kind = kind at laid
  rw [PersistedFile.validateStructure, same]
  cases laid with
  | searchEngine tokenOffsets tokenBlob stringOffsets corpus postingOffsets postings tokens strings
      lists tokenCount listCount =>
    obtain ⟨blob, blobAt, blobLen, blobCount⟩ := holds.describedAt order
      (.vocabularyTokenBlob, tokenBlob) (by simp)
    obtain ⟨symbols, symbolsAt, _, symbolsCount⟩ := holds.describedAt order
      (.corpusSymbols, corpus) (by simp)
    obtain ⟨posted, postedAt, _, postedCount⟩ := holds.describedAt order
      (.postings, postings) (by simp)
    have data (entry : SectionKind × SectionData) (mem : entry ∈ _) := matched entry
      (order.mem_iff.mpr mem)
    have named := (data (.vocabularyTokenOffsets, tokenOffsets) (by simp)).oneMore tokenCount
    have listed := (data (.postingOffsets, postingOffsets) (by simp)).oneMore listCount
    apply bind_eq_ok.mpr ⟨_, exact, _⟩
    apply bind_eq_ok.mpr ⟨_, holds.offsetsAt order matched
      (.vocabularyTokenOffsets, tokenOffsets) (by simp) rfl, _⟩
    apply bind_eq_ok.mpr ⟨blob, blobAt, _⟩
    apply bind_eq_ok.mpr ⟨_, holds.offsetsAt order matched
      (.sequenceOffsets, stringOffsets) (by simp) rfl, _⟩
    apply bind_eq_ok.mpr ⟨symbols, symbolsAt, _⟩
    apply bind_eq_ok.mpr ⟨_, holds.offsetsAt order matched
      (.postingOffsets, postingOffsets) (by simp) rfl, _⟩
    apply bind_eq_ok.mpr ⟨posted, postedAt, _⟩
    apply bind_eq_ok.mpr ⟨_, validateOffsets_ok (blobLen ▸ tokens), _⟩
    apply bind_eq_ok.mpr ⟨_, validateOffsets_ok (symbolsCount ▸ strings), _⟩
    apply bind_eq_ok.mpr ⟨_, validateOffsets_ok (postedCount ▸ lists), _⟩
    apply bind_eq_ok.mpr ⟨tokenOffsets.offsets.length, okOr_eq_ok.mpr (blobCount ▸ named), _⟩
    rw [if_neg (not_not.mpr rfl), if_neg]
    · rfl
    · exact not_not.mpr (Option.some.inj (listed.symm.trans named))
  | embeddingStore tokenOffsets tokenBlob embeddings metadata tokens tokenCount =>
    obtain ⟨blob, blobAt, blobLen, blobCount⟩ := holds.describedAt order
      (.embeddingTokenBlob, tokenBlob) (by simp)
    obtain ⟨matrix, matrixAt, _⟩ := holds.describedAt order
      (.embeddings, embeddings) (by simp)
    obtain ⟨constants, constantsAt, _⟩ := holds.describedAt order
      (.costMetadata, metadata) (by simp)
    have named := (matched (.embeddingTokenOffsets, tokenOffsets)
      (order.mem_iff.mpr (by simp))).oneMore tokenCount
    apply bind_eq_ok.mpr ⟨_, exact, _⟩
    apply bind_eq_ok.mpr ⟨_, holds.offsetsAt order matched
      (.embeddingTokenOffsets, tokenOffsets) (by simp) rfl, _⟩
    apply bind_eq_ok.mpr ⟨blob, blobAt, _⟩
    apply bind_eq_ok.mpr ⟨matrix, matrixAt, _⟩
    apply bind_eq_ok.mpr ⟨constants, constantsAt, _⟩
    apply bind_eq_ok.mpr ⟨_, validateOffsets_ok (blobLen ▸ tokens), _⟩
    apply bind_eq_ok.mpr ⟨tokenOffsets.offsets.length, okOr_eq_ok.mpr (blobCount ▸ named), _⟩
    exact if_neg (not_not.mpr rfl)
  | levenshteinCosts => exact exact
  | customCosts metadata => exact exact
  | cosineEmbeddingCosts metadata => exact exact

/-- A section is read back as the data written: the descriptor with which it was placed, its bytes
and, where its kind has elements, a typed view of them. -/
structure ReadsBack (R : Type) (file : PersistedFile) (entry : SectionKind × SectionData)
    (descriptor : SectionDescriptor) : Prop where
  sectionAt : file.sectionAt (R := R) entry.1 = .ok descriptor
  kind : descriptor.kind = entry.1
  byteLen : descriptor.byteLen = entry.2.payload.length
  elementCount : descriptor.elementCount = entry.2.count
  bytes : file.blob (R := R) entry.1 = .ok entry.2.payload
  offsets : ∀ values, entry.2 = .u64 values → entry.1.elementLayout = some (8, 8) →
    file.mappedOffsets (R := R) entry.1 = .ok values
  symbols : ∀ values, entry.2 = .symbols values → entry.1.elementLayout = some (4, 4) →
    file.mappedSymbols (R := R) entry.1 = .ok values
  postings : ∀ values, entry.2 = .postings values → entry.1.elementLayout = some (8, 4) →
    file.mappedPostings (R := R) entry.1 = .ok values
  rows : ∀ values rowIndices rowLen, entry.2 = .f32Rows values rowIndices rowLen →
    entry.1.elementLayout = some (4, 4) →
    file.mappedSlice (R := R) u32Layout 4 entry.1 = .ok (rowIndices.flatMap (rowAt rowLen values))

theorem Holds.readsBack_zip (holds : file.Holds R sections) {entry : SectionKind × SectionData}
    {descriptor : SectionDescriptor} (paired : (entry, descriptor) ∈ sections.zip file.sections)
    (matched : entry.2.Matches entry.1) : file.ReadsBack R entry descriptor := by
  have mem := (List.of_mem_zip paired).1
  obtain ⟨found, described, stored, inside⟩ := holds.sectionAt_zip paired
  have written := Except.ok.inj (stored.symm.trans matched.writeTo)
  refine ⟨found, described.kind, ?_, described.elementCount, ?_, ?_, ?_, ?_, ?_⟩
  · rw [described.byteLen, matched.length_payload]
  · rw [PersistedFile.blob, found, bind_ok, checkedRange_ok inside holds.small, written]
  all_goals
    have aligned {size alignment : Nat} (laid : entry.1.elementLayout = some (size, alignment)) :
        entry.1.alignment = alignment := by
      rw [SectionKind.alignment, laid]
      rfl
    obtain ⟨kind, data⟩ := entry
  · rintro values rfl laid
    have read := holds.mappedSlice u64Layout_faithful mem (matched.words values rfl) rfl rfl rfl
    rwa [aligned laid] at read
  · rintro values rfl laid
    have read := holds.mappedSlice u32Layout_faithful mem (fun _ _ => trivial) rfl rfl rfl
    rwa [aligned laid] at read
  · rintro values rfl laid
    have read := holds.mappedSlice postingLayout_faithful mem (fun _ _ => trivial) rfl rfl rfl
    rwa [aligned laid] at read
  · rintro values rowIndices rowLen rfl laid
    have length := SectionData.length_rows (matched.rows _ _ _ rfl)
    have read := holds.mappedSlice u32Layout_faithful mem (fun _ _ => trivial) matched.writeTo
      length.symm (by rw [length]; rfl)
    rwa [aligned laid] at read

theorem Holds.readsBack (holds : file.Holds R sections) {entry : SectionKind × SectionData}
    (mem : entry ∈ sections) (matched : entry.2.Matches entry.1) :
    ∃ descriptor, file.ReadsBack R entry descriptor := by
  obtain ⟨descriptor, paired⟩ := holds.exists_paired mem
  exact ⟨descriptor, holds.readsBack_zip paired matched⟩

end PersistedFile

section File
variable {kind : FileKind} {codec : TokenCodec R T}
  {sections listed : List (SectionKind × SectionData)}

/-- A file of any kind is written unless it outgrows 64-bit offsets, and opens with its sections
where they have been described. -/
theorem writeFile_opens (short : (utf8 codec.id).length ≤ maxCodecIdLen) (laid : Laid kind listed)
    (order : sections.Perm listed) (matched : ∀ entry ∈ sections, entry.2.Matches entry.1)
    (small : layoutLen codec.id sections < u64Range) :
    ∃ bytes descriptors, writeFile kind codec sections = .ok bytes ∧
      (⟨bytes, kind, descriptors⟩ : PersistedFile).Holds R sections ∧
      PersistedFile.openFile bytes kind codec = .ok ⟨bytes, kind, descriptors⟩ ∧
      sections.foldlM (describeSection (R := R)) ([], layoutStart codec.id sections) =
        .ok (descriptors, bytes.length) := by
  obtain ⟨distinct, few⟩ := laid.distinct
  have distinct := (order.map Prod.fst).nodup_iff.mpr distinct
  have fits : ∀ entry ∈ sections, entry.2.Fits R entry.1 := fun entry mem =>
    (matched entry mem).fits ((size_le_layoutEnd _ mem).trans_lt small)
  have written := ensures_writeFile kind short sections (order.length_eq ▸ few) distinct fits
  obtain ⟨bytes, writes, descriptors, holds, opens, described⟩ :=
    (written.mono (fun _ h => h) (fun _ large => absurd small (not_lt.mpr large))).returns
  refine ⟨bytes, descriptors, writes, holds, ?_, described⟩
  rw [opens, holds.validateStructure_ok order matched laid]
  rfl

end File

section Congruence
variable {kind : FileKind} {codec : TokenCodec R T}
  {sections others : List (SectionKind × SectionData)}

/-- Sections that are described and written alike, whatever they are written from. -/
structure Alike (R : Type) (entry other : SectionKind × SectionData) : Prop where
  kind : entry.1 = other.1
  byteLen : entry.2.byteLen (R := R) = other.2.byteLen
  elementCount : entry.2.elementCount (R := R) = other.2.elementCount
  writeTo : entry.2.writeTo (R := R) = other.2.writeTo

theorem Alike.refl (entry : SectionKind × SectionData) : Alike R entry entry := ⟨rfl, rfl, rfl, rfl⟩

theorem describeSections_congr (alike : List.Forall₂ (Alike R) sections others)
    (placed : List SectionDescriptor × Nat) :
    sections.foldlM (describeSection (R := R)) placed = others.foldlM describeSection placed := by
  induction alike generalizing placed with
  | nil => rfl
  | @cons entry other _ _ first _ ih =>
    have same : describeSection (R := R) placed entry = describeSection placed other := by
      rw [describeSection, first.kind, first.byteLen, first.elementCount]
      rfl
    rw [List.foldlM_cons, List.foldlM_cons, same]
    exact congrArg _ (funext ih)

theorem writeSections_congr (alike : List.Forall₂ (Alike R) sections others)
    (descriptors : List SectionDescriptor) (state : List UInt8 × Nat) :
    (sections.zip descriptors).foldlM (writeSection (R := R)) state =
      (others.zip descriptors).foldlM writeSection state := by
  induction alike generalizing descriptors state with
  | nil => rfl
  | @cons entry other _ _ first _ ih =>
    cases descriptors with
    | nil => rfl
    | cons descriptor descriptors =>
      have same : writeSection (R := R) state (entry, descriptor) =
          writeSection state (other, descriptor) := by
        rw [writeSection, first.writeTo]
        rfl
      rw [List.zip_cons_cons, List.zip_cons_cons, List.foldlM_cons, List.foldlM_cons, same]
      exact congrArg _ (funext (ih descriptors))

/-- A file depends only on the payloads of its sections. -/
theorem writeFile_congr (alike : List.Forall₂ (Alike R) sections others) :
    writeFile kind codec sections = writeFile kind codec others := by
  simp only [writeFile, alike.length_eq, describeSections_congr alike, writeSections_congr alike]

end Congruence

/-- What the writer lays out for a file of any kind is parsed again, and every section is read
back with the descriptor that placed it, whatever the order of the sections. -/
theorem writeFile_readsBack (kind : FileKind) (codec : TokenCodec R T)
    (short : (utf8 codec.id).length ≤ 255) {sections listed : List (SectionKind × SectionData)}
    (laid : Laid kind listed) (order : sections.Perm listed)
    (matched : ∀ entry ∈ sections, entry.2.Matches entry.1)
    (small : layoutLen codec.id sections < 2 ^ 64) :
    ∃ bytes header file, writeFile kind codec sections = .ok bytes ∧
      DiskHeader.refFromPrefix bytes = some header ∧ header.fileLen = bytes.length ∧
      header.codecVersion = codec.version.val ∧
      PersistedFile.parseContents (R := R) bytes header kind codec.id codec.version.val = .ok file ∧
      PersistedFile.openFile bytes kind codec = .ok file ∧ file.kind = kind ∧ file.bytes = bytes ∧
      sections.foldlM (describeSection (R := R)) ([], layoutStart codec.id sections) =
        .ok (file.sections, header.fileLen) ∧
      List.Forall₂ (file.ReadsBack R) sections file.sections := by
  obtain ⟨bytes, descriptors, writes, holds, opened, described⟩ :=
    writeFile_opens short laid order matched small
  obtain ⟨header, _, rest, prelude, whole⟩ :=
    writeFile_prelude (order.length_eq ▸ laid.distinct.2) writes
  have read : DiskHeader.refFromPrefix bytes = some header := by
    rw [whole, writePrelude, List.append_assoc, List.append_assoc, List.append_assoc]
    exact DiskHeader.refFromPrefix_asBytes prelude.toFits _
  obtain ⟨_, _, parsed⟩ := bind_eq_ok.mp opened
  rw [read, okOr_some, bind_ok, validateHeader_ok prelude, bind_ok] at parsed
  by_cases length : header.fileLen = bytes.length
  · rw [if_neg (not_not.mpr length)] at parsed
    refine ⟨bytes, header, _, writes, read, length, prelude.codecVersion, parsed, opened, rfl, rfl,
      length ▸ described, List.forall₂_iff_zip.mpr ⟨holds.described.length_eq, ?_⟩⟩
    intro entry descriptor paired
    exact holds.readsBack_zip paired (matched entry (List.of_mem_zip paired).1)
  · rw [if_pos length] at parsed
    cases parsed

theorem writeFile_readsBack_reversed : ∃ (codec : TokenCodec Int Char) (bytes : List UInt8)
    (file : PersistedFile), codec.id = "" ∧
    writeFile .embeddingStore codec [(.costMetadata, .bytes [] 1),
      (.embeddings, .f32Rows [7, 8] [1, 0] 1), (.embeddingTokenBlob, .bytes [97, 98] 2),
      (.embeddingTokenOffsets, .u64 [0, 0, 2])] = .ok bytes ∧
    PersistedFile.openFile bytes .embeddingStore codec = .ok file ∧
    file.sectionAt (R := Int) .costMetadata = .ok ⟨.costMetadata, 192, 0, 1⟩ ∧
    file.sectionAt (R := Int) .embeddings = .ok ⟨.embeddings, 192, 8, 2⟩ ∧
    file.blob (R := Int) .costMetadata = .ok [] ∧
    file.mappedOffsets (R := Int) .embeddingTokenOffsets = .ok [0, 0, 2] ∧
    file.mappedSlice (R := Int) u32Layout 4 .embeddings = .ok [8, 7] := by
  have tokens : WellFormed (SectionData.u64 [0, 0, 2]).offsets (SectionData.bytes [97, 98] 2).size := by
    rw [SectionData.offsets_u64 (by decide)]
    exact ⟨rfl, rfl, by decide⟩
  obtain ⟨bytes, _, file, writes, _, _, _, _, opens, _, _, described, reads⟩ := writeFile_readsBack
    .embeddingStore { charCodec (R := Int) with id := "" } (by decide)
    (.embeddingStore _ _ (.f32Rows [7, 8] [1, 0] 1) (.bytes [] 1) tokens rfl)
    (List.reverse_perm _) (by
      simp only [List.reverse_cons, List.reverse_nil, List.nil_append, List.cons_append,
        List.forall_mem_cons, List.not_mem_nil, false_implies, implies_true, and_true]
      refine ⟨SectionData.matches_bytes rfl _ (by decide), ⟨by rintro _ ⟨⟩, ?_, ?_, by decide⟩,
        SectionData.matches_bytes rfl _ (by decide), ⟨?_, by rintro _ _ _ ⟨⟩, ?_, by decide⟩⟩
      · rintro _ _ _ ⟨⟩
        decide
      · rintro _ _ ⟨⟩
        rfl
      · rintro _ ⟨⟩
        decide
      · rintro _ _ ⟨⟩
        rfl) (by decide +kernel)
  obtain ⟨sections, _⟩ := Prod.mk.inj (Except.ok.inj described)
  rw [← sections] at reads
  obtain _ | ⟨metadata, _ | ⟨matrix, _ | ⟨_, _ | ⟨offsets, _⟩⟩⟩⟩ := reads
  exact ⟨_, bytes, file, rfl, writes, opens, metadata.sectionAt, matrix.sectionAt, metadata.bytes,
    offsets.offsets _ rfl rfl, matrix.rows _ _ _ rfl rfl⟩

end Yurine
