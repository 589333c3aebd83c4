import Yurine.Persistence.Format

/-! Opening a snapshot never reads outside it, whatever its bytes are. What validation
establishes is what the typed views and the offset arrays need later on. -/
namespace Yurine
open Outcome Offsets LittleEndian

variable {R T α : Type}

/-- The call neither panics nor promises anything about its error. -/
abbrev Safely (post : α → Prop) (x : Result R α) : Prop := Ensures post (fun _ => True) x

theorem safely_okOr (e : Error R) (o : Option α) : Safely (fun a => o = some a) (okOr e o) := by
  cases o with
  | none => trivial
  | some a => exact rfl

theorem safely_guard {c : Prop} [Decidable c] {e : Error R} {rest : Result R α} {post : α → Prop}
    (passes : ¬ c → Safely post rest) :
    Safely post (if c then (fail e : Result R PUnit) >>= fun _ => rest else rest) :=
  ensures_ite (fun _ => trivial) passes

theorem safely_checkedRange (bytes : List UInt8) (offset len : Nat) :
    Safely (R := R) (fun range => range = (bytes.drop offset).take len ∧
      offset + len ≤ bytes.length) (checkedRange bytes offset len) := by
  refine Ensures.bind (safely_okOr _ _) (fun stop sum => ?_)
  have same : offset + len = stop := by
    unfold checkedAdd64 at sum
    split at sum
    · exact Option.some.inj sum
    · cases sum
  exact ensures_ite (fun inside => ⟨rfl, same ▸ inside.2⟩) (fun _ => trivial)

theorem decides_validateOffsets (offsets : List Nat) (payloadLen : Nat) :
    Decides (Offsets.WellFormed offsets payloadLen) (fun _ => True)
      (validateOffsets (R := R) offsets payloadLen) := by
  refine Decides.congr (Decides.guard trivial (fun _ => Decides.guard_last trivial)) ?_
  have ordered : ¬ ((windows offsets).any (fun pair => pair.2 < pair.1)) = true ↔
      offsets.IsChain (· ≤ ·) := by
    rw [isChain_iff_windows]
    simp
  rw [ordered, not_or, not_not, not_not]
  exact ⟨fun h => ⟨h.1.1, h.1.2, h.2⟩, fun h => ⟨⟨h.first, h.last⟩, h.ordered⟩⟩

namespace PersistedFile
variable {file : PersistedFile}

theorem safely_sectionAt (file : PersistedFile) (kind : SectionKind) :
    Safely (R := R) (fun descriptor => file.sectionAt (R := R) kind = .ok descriptor)
      (file.sectionAt kind) := by
  unfold sectionAt
  cases file.sections.find? (fun descriptor => descriptor.kind = kind) with
  | none => trivial
  | some descriptor => exact rfl

theorem safely_mappedSlice (layout : Layout α) (alignment : Nat) (kind : SectionKind) :
    Safely (R := R) (fun values => ∃ descriptor, file.sectionAt (R := R) kind = .ok descriptor ∧
        values.length = descriptor.elementCount ∧
        descriptor.elementCount * layout.size ≤ file.bytes.length)
      (file.mappedSlice layout alignment kind) := by
  refine Ensures.bind (safely_sectionAt file kind) (fun descriptor found => ?_)
  refine Ensures.bind (safely_okOr _ _) (fun expectedLen product => ?_)
  refine safely_guard (fun same => ?_)
  refine Ensures.bind (safely_okOr _ _) (fun stop sum => ?_)
  refine safely_guard (fun inside => safely_guard (fun _ => ?_))
  refine ⟨descriptor, found, Layout.length_readAll _ _, ?_⟩
  unfold checkedMul64 at product
  unfold checkedAdd64 at sum
  split at product <;> cases product
  split at sum <;> cases sum
  omega

theorem safely_blob (kind : SectionKind) :
    Safely (R := R) (fun blob => ∃ descriptor, file.sectionAt (R := R) kind = .ok descriptor ∧
      blob.length = descriptor.byteLen) (file.blob kind) := by
  refine Ensures.bind (safely_sectionAt file kind) (fun descriptor found => ?_)
  refine (safely_checkedRange _ _ _).post ?_
  rintro _ ⟨rfl, inside⟩
  refine ⟨descriptor, found, ?_⟩
  rw [List.length_take, List.length_drop]
  omega

theorem safely_requireExactSections (expected : List SectionKind) :
    Safely (R := R) (fun _ => True) (file.requireExactSections expected) :=
  ensures_ite (fun _ => trivial) (fun _ => trivial)

/-- What opening an engine slices by. -/
structure EngineArrays where
  vocabularyOffsets : List Nat
  sequenceOffsets : List Nat
  postingOffsets : List Nat
  vocabularyBlob : SectionDescriptor
  corpus : SectionDescriptor
  postings : SectionDescriptor

/-- What the validation of an engine file finds: three offset arrays that cut their payloads,
two of them of one length. -/
structure EngineArrays.Of (R : Type) (arrays : EngineArrays) (file : PersistedFile) : Prop where
  mappedVocabulary : file.mappedOffsets (R := R) .vocabularyTokenOffsets =
    .ok arrays.vocabularyOffsets
  vocabularyBlob : file.sectionAt (R := R) .vocabularyTokenBlob = .ok arrays.vocabularyBlob
  mappedSequences : file.mappedOffsets (R := R) .sequenceOffsets = .ok arrays.sequenceOffsets
  corpus : file.sectionAt (R := R) .corpusSymbols = .ok arrays.corpus
  mappedPostings : file.mappedOffsets (R := R) .postingOffsets = .ok arrays.postingOffsets
  postings : file.sectionAt (R := R) .postings = .ok arrays.postings
  tokens : Offsets.WellFormed arrays.vocabularyOffsets arrays.vocabularyBlob.byteLen
  strings : Offsets.WellFormed arrays.sequenceOffsets arrays.corpus.elementCount
  lists : Offsets.WellFormed arrays.postingOffsets arrays.postings.elementCount
  sameCount : arrays.postingOffsets.length = arrays.vocabularyOffsets.length

theorem safely_validateSearchEngine (file : PersistedFile) :
    Safely (R := R) (fun _ => ∃ arrays : EngineArrays, arrays.Of R file)
      file.validateSearchEngine := by
  have mapped (kind : SectionKind) : Safely (R := R)
      (fun values => file.mappedOffsets (R := R) kind = .ok values ∧ True)
      (file.mappedOffsets kind) :=
    ((safely_mappedSlice u64Layout 8 kind).post (fun _ _ => trivial)).returned
  have cuts (offsets : List Nat) (length : Nat) : Safely (R := R)
      (fun _ => Offsets.WellFormed offsets length) (validateOffsets offsets length) :=
    (decides_validateOffsets offsets length).mono (fun _ h => h) (fun _ _ => trivial)
  refine Ensures.bind (safely_requireExactSections _) (fun _ _ => ?_)
  refine Ensures.bind (mapped _) (fun vocabularyOffsets h₁ => ?_)
  refine Ensures.bind (safely_sectionAt file _) (fun vocabularyBlob h₂ => ?_)
  refine Ensures.bind (mapped _) (fun sequenceOffsets h₃ => ?_)
  refine Ensures.bind (safely_sectionAt file _) (fun corpus h₄ => ?_)
  refine Ensures.bind (mapped _) (fun postingOffsets h₅ => ?_)
  refine Ensures.bind (safely_sectionAt file _) (fun postings h₆ => ?_)
  refine Ensures.bind (cuts _ _) (fun _ tokens => ?_)
  refine Ensures.bind (cuts _ _) (fun _ strings => ?_)
  refine Ensures.bind (cuts _ _) (fun _ lists => ?_)
  refine Ensures.bind (safely_okOr _ _) (fun expected _ => ?_)
  refine safely_guard (fun first => ensures_ite (fun _ => trivial) (fun second => ?_))
  exact ⟨⟨_, _, _, _, _, _⟩, h₁.1, h₂, h₃.1, h₄, h₅.1, h₆, tokens, strings, lists,
    (not_not.mp second).trans (not_not.mp first).symm⟩

theorem safely_validateStructure (file : PersistedFile) :
    Safely (R := R) (fun _ => True) file.validateStructure := by
  unfold validateStructure
  split
  · exact (safely_validateSearchEngine file).post (fun _ _ => trivial)
  · refine Ensures.bind (safely_requireExactSections _) (fun _ _ => ?_)
    refine Ensures.bind (safely_mappedSlice u64Layout 8 _) (fun offsets _ => ?_)
    refine Ensures.bind (safely_sectionAt file _) (fun blob _ => ?_)
    refine Ensures.bind (safely_sectionAt file _) (fun _ _ => ?_)
    refine Ensures.bind (safely_sectionAt file _) (fun _ _ => ?_)
    refine Ensures.bind ((decides_validateOffsets _ _).mono (fun _ h => h) (fun _ _ => trivial))
      (fun _ _ => ?_)
    refine Ensures.bind (safely_okOr _ _) (fun _ _ => ?_)
    exact ensures_ite (fun _ => trivial) (fun _ => trivial)
  · exact safely_requireExactSections _
  · exact safely_requireExactSections _
  · exact safely_requireExactSections _

theorem safely_validateSection (bytes : List UInt8) (descriptor : SectionDescriptor) :
    Safely (R := R) (fun _ => True) (validateSection bytes descriptor) := by
  refine Ensures.bind (safely_checkedRange _ _ _) (fun _ _ => ?_)
  split
  · trivial
  · refine Ensures.bind (safely_okOr _ _) (fun _ _ => ?_)
    exact safely_guard (fun _ => ensures_ite (fun _ => trivial) (fun _ => trivial))

theorem safely_fromRaw (raw : Nat) :
    Safely (R := R) (fun _ => True) (SectionKind.fromRaw raw) := by
  unfold SectionKind.fromRaw
  split <;> trivial

theorem safely_readEntry (bytes : List UInt8) (sections : List SectionDescriptor)
    (entry : DiskSectionEntry) :
    Safely (R := R) (fun _ => True) (readEntry bytes sections entry) := by
  refine Ensures.bind (safely_fromRaw _) (fun kind _ => safely_guard (fun _ => ?_))
  refine Ensures.bind (safely_validateSection _ _) (fun _ _ => ?_)
  exact safely_guard (fun _ => trivial)

theorem safely_validateNonOverlapping (codecOffset codecLen tableOffset tableLen : Nat)
    (sections : List SectionDescriptor) : Safely (R := R) (fun _ => True)
      (validateNonOverlapping codecOffset codecLen tableOffset tableLen sections) := by
  refine Ensures.forM (motive := fun _ => True) trivial (fun _ pair _ _ _ => ?_)
  refine Ensures.bind (safely_okOr _ _) (fun _ _ => ?_)
  exact ensures_ite (fun _ => trivial) (fun _ => trivial)

/-- A parsed file has passed the validation of its kind. -/
theorem safely_parseContents (bytes : List UInt8) (header : DiskHeader) (kind : FileKind)
    (codec : String) (codecVersion : Nat) :
    Safely (R := R) (fun file => file.bytes = bytes ∧ file.kind = kind ∧
        file.validateStructure (R := R) = .ok ⟨⟩)
      (parseContents bytes header kind codec codecVersion) := by
  refine safely_guard (fun _ => ?_)
  refine Ensures.bind (safely_checkedRange _ _ _) (fun codecBytes _ => ?_)
  refine Ensures.bind (safely_okOr _ _) (fun actualCodec _ => ?_)
  refine safely_guard (fun _ => safely_guard (fun _ => ?_))
  refine Ensures.bind (safely_okOr _ _) (fun tableLen _ => ?_)
  refine Ensures.bind (safely_checkedRange _ _ _) (fun table _ => ?_)
  refine Ensures.bind (Ensures.foldlM (motive := fun _ _ => True) trivial
    (fun _ entry _ sections _ _ => safely_readEntry bytes sections entry)) (fun sections _ => ?_)
  refine Ensures.bind (safely_validateNonOverlapping _ _ _ _ _) (fun _ _ => ?_)
  refine Ensures.bind (safely_validateStructure _).returned (fun _ valid => ?_)
  exact ⟨rfl, rfl, valid.1⟩

theorem safely_validateHeader (header : DiskHeader) (expectedKind : FileKind) :
    Safely (R := R) (fun kind => kind = expectedKind) (validateHeader header expectedKind) := by
  have raw : Safely (R := R) (fun _ => True) (FileKind.fromRaw header.fileKind) := by
    unfold FileKind.fromRaw
    split <;> trivial
  refine safely_guard (fun _ => safely_guard (fun _ => safely_guard (fun _ => ?_)))
  refine Ensures.bind raw (fun kind _ => safely_guard (fun same => safely_guard (fun _ => ?_)))
  exact not_not.mp same

theorem refFromPrefix_fileLen {bytes : List UInt8} {header : DiskHeader}
    (read : DiskHeader.refFromPrefix bytes = some header) : header.fileLen < u64Range := by
  unfold DiskHeader.refFromPrefix at read
  split at read
  · cases read
  · simp only [DiskHeader.widths, decodeFields, Option.some.injEq] at read
    subst read
    exact decode_take_lt 8 _

/-- Opening any bytes returns a validated file or an error. -/
theorem safely_openFile (bytes : List UInt8) (kind : FileKind) (codec : TokenCodec R T) :
    Safely (fun file => file.bytes = bytes ∧ bytes.length < u64Range ∧ file.kind = kind ∧
        file.validateStructure (R := R) = .ok ⟨⟩)
      (openFile bytes kind codec) := by
  have codecId : Safely (R := R) (fun _ => True) (validateCodecIdLen codec.id) :=
    ensures_ite (fun _ => trivial) (fun _ => trivial)
  refine Ensures.bind codecId (fun _ _ => ?_)
  refine Ensures.bind (safely_okOr _ _) (fun header read => ?_)
  refine Ensures.bind (safely_validateHeader _ _) (fun found same => safely_guard (fun length => ?_))
  refine (safely_parseContents _ _ _ _ _).post ?_
  rintro file ⟨whole, kindOf, valid⟩
  exact ⟨whole, not_not.mp length ▸ refFromPrefix_fileLen read, kindOf.trans same, valid⟩

end PersistedFile
end Yurine
