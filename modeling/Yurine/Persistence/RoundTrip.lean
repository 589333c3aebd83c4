import Yurine.Persistence.Regions

/-! The container is read back as it was written. The writer places the sections one after
another behind the table; the reader finds each payload at its offset, whatever the sections
hold. -/
namespace Yurine
open Outcome LittleEndian

variable {R T : Type}

namespace SectionData

/-- The number of bytes and of elements of a section, where they do not overflow. -/
def size : SectionData → Nat
  | bytes blob _ => blob.length
  | f32Rows _ rowIndices rowLen => rowIndices.length * rowLen * 4
  | u64 values => values.length * 8
  | symbols values => values.length * 4
  | postings values => values.length * 8

def count : SectionData → Nat
  | bytes _ elementCount => elementCount
  | f32Rows _ rowIndices rowLen => rowIndices.length * rowLen
  | u64 values => values.length
  | symbols values => values.length
  | postings values => values.length

/-- The payload can be measured and written, and matches the layout of its kind. -/
structure Fits (R : Type) (data : SectionData) (kind : SectionKind) : Prop where
  byteLen : data.byteLen (R := R) = .ok data.size
  elementCount : data.elementCount (R := R) = .ok data.count
  payload : ∃ payload, data.writeTo (R := R) = .ok payload ∧ payload.length = data.size
  layout : ∀ size alignment, kind.elementLayout = some (size, alignment) →
    data.size = data.count * size
  small : data.count < u64Range

theorem fits_bytes {kind : SectionKind} (laid : kind.elementLayout = none) (blob : List UInt8)
    {count : Nat} (small : count < u64Range) : (bytes blob count).Fits R kind :=
  ⟨rfl, rfl, ⟨blob, rfl, rfl⟩, by simp [laid], small⟩

theorem fits_u64 {kind : SectionKind} (laid : kind.elementLayout = some (8, 8)) {values : List Nat}
    (small : values.length < u64Range) : (u64 values).Fits R kind := by
  refine ⟨rfl, rfl, ⟨_, rfl, u64Layout_faithful.length_writeAll values⟩, ?_, small⟩
  rw [laid]
  rintro _ _ ⟨⟩
  rfl

theorem fits_symbols {values : List Symbol} (small : values.length < u64Range) :
    (symbols values).Fits R .corpusSymbols := by
  refine ⟨rfl, rfl, ⟨_, rfl, u32Layout_faithful.length_writeAll values⟩, ?_, small⟩
  rintro _ _ ⟨⟩
  rfl

theorem fits_postings {values : List Posting} (small : values.length < u64Range) :
    (postings values).Fits R .postings := by
  refine ⟨rfl, rfl, ⟨_, rfl, postingLayout_faithful.length_writeAll values⟩, ?_, small⟩
  rintro _ _ ⟨⟩
  rfl

end SectionData

section Placing

/-- The end of the last of some sections. -/
def stopOf (start : Nat) (descriptors : List SectionDescriptor) : Nat :=
  descriptors.foldl (fun _ descriptor => descriptor.offset + descriptor.byteLen) start

@[simp] theorem stopOf_concat (start : Nat) (descriptors : List SectionDescriptor)
    (last : SectionDescriptor) :
    stopOf start (descriptors ++ [last]) = last.offset + last.byteLen := by
  simp [stopOf]

theorem stopOf_le {start x : Nat} {descriptors : List SectionDescriptor} (first : start ≤ x)
    (all : ∀ d ∈ descriptors, d.offset + d.byteLen ≤ x) : stopOf start descriptors ≤ x := by
  rcases List.eq_nil_or_concat' descriptors with rfl | ⟨front, last, rfl⟩
  · exact first
  · rw [stopOf_concat]
    exact all last (by simp)

structure Describes (entry : SectionKind × SectionData) (descriptor : SectionDescriptor) :
    Prop where
  kind : descriptor.kind = entry.1
  byteLen : descriptor.byteLen = entry.2.size
  elementCount : descriptor.elementCount = entry.2.count
  aligned : descriptor.offset % entry.1.alignment = 0

theorem Describes.map_kind {sections : List (SectionKind × SectionData)}
    {descriptors : List SectionDescriptor} (described : List.Forall₂ Describes sections descriptors) :
    descriptors.map SectionDescriptor.kind = sections.map Prod.fst := by
  induction described with
  | nil => rfl
  | cons describes _ ih => rw [List.map_cons, List.map_cons, describes.kind, ih]

/-- The sections are described in order, one after another from the start on. -/
structure Placed (start : Nat) (sections : List (SectionKind × SectionData))
    (descriptors : List SectionDescriptor) : Prop where
  described : List.Forall₂ Describes sections descriptors
  ordered : descriptors.Pairwise (fun a b => a.offset + a.byteLen ≤ b.offset)
  after : ∀ d ∈ descriptors, start ≤ d.offset
  before : ∀ d ∈ descriptors, d.offset + d.byteLen ≤ stopOf start descriptors
  small : stopOf start descriptors < u64Range

theorem alignment_pos (kind : SectionKind) : 0 < kind.alignment ∧ kind.alignment ≤ 8 := by
  cases kind <;> decide

/-- The next offset with this alignment. -/
def padded (value alignment : Nat) : Nat := value + (alignment - value % alignment) % alignment

theorem le_padded (value alignment : Nat) : value ≤ padded value alignment := Nat.le_add_right _ _

theorem padded_lt (value : Nat) {alignment : Nat} (positive : 0 < alignment) :
    padded value alignment < value + alignment :=
  Nat.add_lt_add_left (Nat.mod_lt _ positive) value

theorem padded_aligned {value alignment : Nat} (positive : 0 < alignment) :
    padded value alignment % alignment = 0 := by
  have remainder := Nat.mod_lt value positive
  have parts := Nat.div_add_mod value alignment
  rw [padded, Nat.add_mod_mod, show value + (alignment - value % alignment) =
    alignment * (value / alignment) + alignment by omega]
  simp

theorem ensures_alignUp (value alignment : Nat) :
    Ensures (fun cursor => cursor = padded value alignment ∧ cursor < u64Range)
      (fun _ => u64Range ≤ padded value alignment) (alignUp (R := R) value alignment) := by
  unfold alignUp checkedAdd64
  split
  · exact ⟨rfl, ‹_›⟩
  · exact not_lt.mp ‹_›

theorem checkedAdd64_ok {a b : Nat} (small : a + b < u64Range) : checkedAdd64 a b = some (a + b) :=
  if_pos small

theorem checkedMul64_ok {a b : Nat} (small : a * b < u64Range) : checkedMul64 a b = some (a * b) :=
  if_pos small

/-- Where sections that are laid out one after another end. -/
def layoutEnd (start : Nat) (sections : List (SectionKind × SectionData)) : Nat :=
  sections.foldl (fun cursor entry => padded cursor entry.1.alignment + entry.2.size) start

@[simp] theorem layoutEnd_concat (start : Nat) (sections : List (SectionKind × SectionData))
    (entry : SectionKind × SectionData) :
    layoutEnd start (sections ++ [entry]) =
      padded (layoutEnd start sections) entry.1.alignment + entry.2.size := by
  simp [layoutEnd]

theorem layoutEnd_append (start : Nat) (before after : List (SectionKind × SectionData)) :
    layoutEnd start (before ++ after) = layoutEnd (layoutEnd start before) after := by
  simp [layoutEnd]

theorem le_layoutEnd (start : Nat) (sections : List (SectionKind × SectionData)) :
    start ≤ layoutEnd start sections := by
  induction sections using List.reverseRecOn with
  | nil => exact le_refl _
  | append_singleton before entry ih =>
    rw [layoutEnd_concat]
    exact (ih.trans (le_padded _ _)).trans (Nat.le_add_right _ _)

/-- The room that sections take with at most seven bytes of padding before each. -/
def room (start : Nat) (sections : List (SectionKind × SectionData)) : Nat :=
  start + (sections.map (fun entry => entry.2.size + 7)).sum

theorem layoutEnd_le_room (start : Nat) (sections : List (SectionKind × SectionData)) :
    layoutEnd start sections ≤ room start sections := by
  induction sections using List.reverseRecOn with
  | nil => exact le_refl _
  | append_singleton before entry ih =>
    obtain ⟨positive, narrow⟩ := alignment_pos entry.1
    have near := padded_lt (layoutEnd start before) positive
    simp only [layoutEnd_concat, room, List.map_append, List.map_cons, List.map_nil,
      List.sum_append, List.sum_cons, List.sum_nil] at ih ⊢
    omega

/-- Describing the sections succeeds unless the file outgrows 64-bit offsets. -/
theorem ensures_describeSections {start : Nat} (small : start < u64Range)
    {sections : List (SectionKind × SectionData)}
    (fits : ∀ entry ∈ sections, entry.2.Fits R entry.1) :
    Ensures (fun placed => Placed start sections placed.1 ∧ placed.2 = stopOf start placed.1 ∧
        placed.2 = layoutEnd start sections)
      (fun _ => u64Range ≤ layoutEnd start sections)
      (sections.foldlM (describeSection (R := R)) ([], start)) := by
  have empty : Placed start [] [] := ⟨.nil, .nil, by simp, by simp, small⟩
  have loop := Ensures.foldlM (ε := Error R) (l := sections) (f := describeSection (R := R))
    (s := ([], start)) (E := fun _ => u64Range ≤ layoutEnd start sections)
    (motive := fun visited placed => Placed start visited placed.1 ∧
      placed.2 = stopOf start placed.1 ∧ placed.2 = layoutEnd start visited)
    ⟨empty, rfl, rfl⟩ ?_
  · exact loop
  · rintro visited entry after ⟨descriptors, cursor⟩ split ⟨placed, stop, here⟩
    simp only at placed stop here
    subst stop
    have data := fits entry (by simp [split])
    obtain ⟨positive, _⟩ := alignment_pos entry.1
    have whole : padded (layoutEnd start visited) entry.1.alignment + entry.2.size ≤
        layoutEnd start sections := by
      rw [split, List.append_cons, layoutEnd_append, layoutEnd_concat]
      exact le_layoutEnd _ _
    have first : start ≤ stopOf start descriptors := here ▸ le_layoutEnd _ _
    refine Ensures.bind ((ensures_alignUp _ _).mono (fun _ h => h) (fun _ large => ?_)) ?_
    · simp only [here] at large
      exact large.trans ((Nat.le_add_right _ _).trans whole)
    rintro _ ⟨rfl, offset_small⟩
    have beyond := le_padded (stopOf start descriptors) entry.1.alignment
    simp only
    rw [data.byteLen, bind_ok, data.elementCount, bind_ok]
    unfold checkedAdd64
    split
    · rename_i fitting
      rw [okOr_some, bind_ok, ensures_pure]
      simp only [stopOf_concat]
      refine ⟨⟨List.rel_append placed.described (.cons ⟨rfl, rfl, rfl, padded_aligned positive⟩ .nil),
        ?_, ?_, ?_, ?_⟩, trivial, by rw [layoutEnd_concat, here]⟩
      · rw [List.pairwise_append]
        refine ⟨placed.ordered, List.pairwise_singleton _ _, fun d mem last same => ?_⟩
        rw [List.mem_singleton.mp same]
        exact (placed.before d mem).trans beyond
      · intro d mem
        rcases List.mem_append.mp mem with mem | mem
        · exact placed.after d mem
        · rw [List.mem_singleton.mp mem]
          exact first.trans beyond
      · intro d mem
        rw [stopOf_concat]
        rcases List.mem_append.mp mem with mem | mem
        · exact (placed.before d mem).trans (beyond.trans (Nat.le_add_right _ _))
        · rw [List.mem_singleton.mp mem]
      · rw [stopOf_concat]
        exact fitting
    · rename_i large
      rw [here] at large
      exact (not_lt.mp large).trans whole

end Placing

section Writing
variable {start : Nat} {sections : List (SectionKind × SectionData)}
  {descriptors : List SectionDescriptor}

theorem range_append {bytes : List UInt8} {offset len : Nat} (inside : offset + len ≤ bytes.length)
    (more : List UInt8) :
    ((bytes ++ more).drop offset).take len = (bytes.drop offset).take len := by
  rw [List.drop_append_of_le_length (by omega), List.take_append_of_le_length]
  rw [List.length_drop]
  omega

/-- The payload of a section is at its place. -/
def Stores (R : Type) (bytes : List UInt8) (entry : SectionKind × SectionData)
    (descriptor : SectionDescriptor) : Prop :=
  entry.2.writeTo (R := R) = .ok ((bytes.drop descriptor.offset).take descriptor.byteLen) ∧
    descriptor.offset + descriptor.byteLen ≤ bytes.length

/-- The writer keeps what it has written and puts each payload at its place. -/
theorem ensures_writeSections (placed : Placed start sections descriptors)
    (fits : ∀ entry ∈ sections, entry.2.Fits R entry.1) {prelude : List UInt8}
    (length : prelude.length = start) :
    Ensures (fun out => out.1.length = stopOf start descriptors ∧ out.1.take start = prelude ∧
        List.Forall₂ (Stores R out.1) sections descriptors)
      (fun _ => False)
      ((sections.zip descriptors).foldlM (writeSection (R := R)) (prelude, start)) := by
  have sizes := placed.described.length_eq
  have seconds : (sections.zip descriptors).map Prod.snd = descriptors :=
    List.map_snd_zip sizes.ge
  have loop := Ensures.foldlM (ε := Error R) (l := sections.zip descriptors)
    (f := writeSection (R := R)) (s := (prelude, start)) (E := fun _ => False)
    (motive := fun visited out => out.2 = stopOf start (visited.map Prod.snd) ∧
      out.1.length = out.2 ∧ start ≤ out.2 ∧ out.1.take start = prelude ∧
      ∀ pair ∈ visited, Stores R out.1 pair.1 pair.2)
    ⟨rfl, length, le_refl _, by rw [← length, List.take_length], by simp⟩ ?_
  · refine loop.post (fun out h => ?_)
    obtain ⟨stop, whole, _, kept, stored⟩ := h
    rw [seconds] at stop
    refine ⟨whole.trans stop, kept, List.forall₂_iff_zip.mpr ⟨sizes, fun {entry descriptor} mem => ?_⟩⟩
    exact stored _ mem
  · rintro visited ⟨entry, descriptor⟩ after ⟨out, written⟩ split ⟨rfl, whole, first, kept, stored⟩
    simp only at whole first kept
    have mem : (entry, descriptor) ∈ sections.zip descriptors := by simp [split]
    have order := placed.ordered
    rw [← seconds, split, List.map_append, List.map_cons, List.pairwise_append] at order
    have past : stopOf start (visited.map Prod.snd) ≤ descriptor.offset := by
      refine stopOf_le (placed.after descriptor (List.of_mem_zip mem).2) (fun d listed => ?_)
      exact order.2.2 d listed descriptor (by simp)
    obtain ⟨described⟩ : Nonempty (Describes entry descriptor) :=
      ⟨(List.forall₂_iff_zip.mp placed.described).2 mem⟩
    obtain ⟨payload, writes, size⟩ := (fits entry (List.of_mem_zip mem).1).payload
    rw [← described.byteLen] at size
    unfold writeSection
    simp only [subtract, if_pos past, bind_ok, writes]
    have filled : (out ++ List.replicate (descriptor.offset - stopOf start (visited.map Prod.snd))
        (0 : UInt8)).length = descriptor.offset := by
      rw [List.length_append, List.length_replicate, whole]
      omega
    refine ⟨by simp, ?_, ?_, ?_, fun pair listed => ?_⟩
    · rw [List.length_append, filled, size]
    · exact first.trans (past.trans (Nat.le_add_right _ _))
    · rw [List.append_assoc, List.take_append_of_le_length (whole ▸ first), kept]
    · rcases List.mem_append.mp listed with old | new
      · obtain ⟨same, inside⟩ := stored pair old
        simp only at same inside
        rw [Stores, List.append_assoc, range_append inside]
        exact ⟨same, by rw [List.length_append]; omega⟩
      · obtain rfl := List.mem_singleton.mp new
        refine ⟨?_, by rw [List.length_append, filled, size]⟩
        rw [List.drop_left' filled, ← size, List.take_length, writes]

end Writing

section Reading
variable {bytes : List UInt8} {sections : List (SectionKind × SectionData)}
  {descriptors : List SectionDescriptor} {start : Nat}

theorem checkedRange_ok {offset len : Nat} (inside : offset + len ≤ bytes.length)
    (small : bytes.length < u64Range) :
    checkedRange (R := R) bytes offset len = .ok ((bytes.drop offset).take len) := by
  rw [checkedRange, checkedAdd64_ok (inside.trans_lt small), okOr_some, bind_ok,
    if_pos ⟨Nat.le_add_right _ _, inside⟩]
  rfl

theorem fromRaw_toRaw (kind : SectionKind) : SectionKind.fromRaw (R := R) kind.toRaw = .ok kind := by
  cases kind <;> rfl

theorem fileKind_fromRaw_toRaw (kind : FileKind) :
    FileKind.fromRaw (R := R) kind.toRaw = .ok kind := by
  cases kind <;> rfl

theorem validateSection_ok {entry : SectionKind × SectionData} {descriptor : SectionDescriptor}
    (small : bytes.length < u64Range) (described : Describes entry descriptor)
    (fits : entry.2.Fits R entry.1)
    (inside : descriptor.offset + descriptor.byteLen ≤ bytes.length) :
    validateSection (R := R) bytes descriptor = .ok ⟨⟩ := by
  obtain ⟨kind, byteLen, elementCount, aligned⟩ := described
  unfold validateSection
  rw [checkedRange_ok inside small, bind_ok, kind]
  cases laid : entry.1.elementLayout with
  | none => rfl
  | some layout =>
    obtain ⟨size, alignment⟩ := layout
    have same := fits.layout size alignment laid
    rw [SectionKind.alignment, laid] at aligned
    simp only [Option.map_some, Option.getD_some] at aligned
    simp only [elementCount, checkedMul64_ok (a := entry.2.count) (b := size) (by omega), okOr_some,
      bind_ok, byteLen, same, ne_eq, not_true_eq_false, if_false, aligned]
    rfl

/-- Reading the table back gives the descriptors it was written from. -/
theorem readEntries_ok (distinct : (descriptors.map SectionDescriptor.kind).Nodup)
    (valid : ∀ d ∈ descriptors, validateSection (R := R) bytes d = .ok ⟨⟩) :
    (descriptors.map SectionDescriptor.entry).foldlM (PersistedFile.readEntry (R := R) bytes) [] =
      .ok descriptors := by
  suffices h : ∀ before after : List SectionDescriptor, before ++ after = descriptors →
      (after.map SectionDescriptor.entry).foldlM (PersistedFile.readEntry (R := R) bytes) before =
        .ok descriptors from h [] descriptors rfl
  intro before after
  induction after generalizing before with
  | nil =>
    intro same
    rw [List.append_nil] at same
    rw [same]
    rfl
  | cons d after ih =>
    intro same
    have fresh : ¬ (before.any fun other => decide (other.kind = d.kind)) = true := by
      rw [← same, List.map_append, List.map_cons, List.nodup_append] at distinct
      simp only [List.any_eq_true, decide_eq_true_eq, not_exists, not_and]
      intro other mem repeated
      exact distinct.2.2 _ (List.mem_map_of_mem mem) d.kind (by simp) repeated
    have read : PersistedFile.readEntry (R := R) bytes before d.entry = .ok (before ++ [d]) := by
      unfold PersistedFile.readEntry
      simp only [SectionDescriptor.entry, fromRaw_toRaw, bind_ok, ne_eq, not_true_eq_false,
        if_false, valid d (by simp [← same]), fresh]
      rfl
    rw [List.map_cons, List.foldlM_cons, read, bind_ok]
    exact ih (before ++ [d]) (by simpa using same)

/-- The header that the writer builds. -/
structure DiskHeader.Written (header : DiskHeader) (kind : FileKind) (codec : TokenCodec R T)
    (count : Nat) : Prop extends header.Fits where
  sameMagic : header.magic = Yurine.magic
  version : header.formatVersion = Yurine.formatVersion
  marker : header.endianMarker = Yurine.endianMarker
  kind : header.fileKind = kind.toRaw
  length : header.headerLen = Yurine.headerLen
  codecVersion : header.codecVersion = codec.version.val
  sectionCount : header.sectionCount = count
  codecOffset : header.codecOffset = Yurine.headerLen
  codecLen : header.codecLen = (utf8 codec.id).length
  table : header.codecOffset + header.codecLen ≤ header.sectionTableOffset

section Prelude
variable {header : DiskHeader} {kind : FileKind} {codec : TokenCodec R T}

theorem validateHeader_ok (written : header.Written kind codec descriptors.length) :
    validateHeader (R := R) header kind = .ok kind := by
  unfold validateHeader
  simp only [written.sameMagic, written.version, written.marker, written.kind, written.length,
    fileKind_fromRaw_toRaw, bind_ok, ne_eq, not_true_eq_false, if_false]
  rfl

/-- The identifier and the table stand where the header says. -/
theorem prelude_ranges (written : header.Written kind codec descriptors.length)
    (rest : List UInt8) :
    (writePrelude header codec.id descriptors).length =
        header.sectionTableOffset + descriptors.length * sectionEntryLen ∧
      ((writePrelude header codec.id descriptors ++ rest).drop header.codecOffset).take
        header.codecLen = utf8 codec.id ∧
      ((writePrelude header codec.id descriptors ++ rest).drop header.sectionTableOffset).take
        (descriptors.length * sectionEntryLen) =
          DiskSectionEntry.layout.writeAll (descriptors.map SectionDescriptor.entry) := by
  have size := DiskHeader.length_asBytes written.toFits
  have order := written.table
  have offset := written.codecOffset
  have len := written.codecLen
  have table : (DiskSectionEntry.layout.writeAll
      (descriptors.map SectionDescriptor.entry)).length =
        descriptors.length * sectionEntryLen := by
    rw [DiskSectionEntry.layout_faithful.length_writeAll, List.length_map]
    rfl
  have front : (header.asBytes ++ utf8 codec.id ++ List.replicate
      (header.sectionTableOffset - header.codecOffset - header.codecLen) (0 : UInt8)).length =
        header.sectionTableOffset := by
    simp only [List.length_append, List.length_replicate, size]
    omega
  refine ⟨by rw [writePrelude, List.length_append, front, table], ?_, ?_⟩
  · rw [writePrelude, offset, ← size, List.append_assoc, List.append_assoc, List.append_assoc,
      List.drop_left, len, List.take_left]
  · rw [writePrelude, List.append_assoc, List.drop_left' front, List.take_left' table]

/-- Readers find the header, and the codec and the table pass. -/
theorem openFile_prelude (written : header.Written kind codec descriptors.length)
    (short : (utf8 codec.id).length ≤ maxCodecIdLen)
    (entries : ∀ d ∈ descriptors, d.entry.Fits) (rest : List UInt8)
    (whole : bytes = writePrelude header codec.id descriptors ++ rest)
    (length : header.fileLen = bytes.length) (small : bytes.length < u64Range) :
    PersistedFile.openFile bytes kind codec = (do
      let sections ← (descriptors.map SectionDescriptor.entry).foldlM
        (PersistedFile.readEntry bytes) []
      validateNonOverlapping header.codecOffset header.codecLen header.sectionTableOffset
        (descriptors.length * sectionEntryLen) sections
      (⟨bytes, kind, sections⟩ : PersistedFile).validateStructure
      return ⟨bytes, kind, sections⟩) := by
  obtain ⟨size, identifier, table⟩ := prelude_ranges written rest
  have order := written.table
  have inside : header.sectionTableOffset + descriptors.length * sectionEntryLen ≤
      bytes.length := by
    rw [whole, List.length_append, size]
    omega
  have read : DiskHeader.refFromPrefix bytes = some header := by
    rw [whole, writePrelude, List.append_assoc, List.append_assoc, List.append_assoc]
    exact DiskHeader.refFromPrefix_asBytes written.toFits _
  have idLen : validateCodecIdLen (R := R) codec.id = .ok ⟨⟩ := if_neg (not_lt.mpr short)
  have short' : ¬ maxCodecIdLen < header.codecLen := by
    rw [written.codecLen]
    exact not_lt.mpr short
  unfold PersistedFile.openFile
  rw [idLen, bind_ok, read, okOr_some, bind_ok, validateHeader_ok written, bind_ok,
    if_neg (not_not.mpr length)]
  unfold PersistedFile.parseContents
  rw [if_neg short', checkedRange_ok (by omega) small, bind_ok, whole, identifier, fromUtf8_utf8,
    okOr_some, bind_ok, ← whole, if_neg (not_not.mpr rfl),
    if_neg (not_not.mpr written.codecVersion), written.sectionCount,
    checkedMul64_ok (by omega), okOr_some, bind_ok, checkedRange_ok inside small, bind_ok]
  have fit : ∀ entry ∈ descriptors.map SectionDescriptor.entry, entry.Fits := by
    intro entry mem
    obtain ⟨d, listed, rfl⟩ := List.mem_map.mp mem
    exact entries d listed
  have back := DiskSectionEntry.layout_faithful.readAll_writeAll fit []
  rw [List.append_nil, List.length_map] at back
  rw [whole, table, back]

end Prelude

/-- The regions of a written file are apart. -/
theorem regions_apart (placed : Placed start sections descriptors)
    {codecLen tableOffset tableLen : Nat} (codec : headerLen + codecLen ≤ tableOffset)
    (table : tableOffset + tableLen = start) :
    validateNonOverlapping (R := R) headerLen codecLen tableOffset tableLen descriptors =
      .ok ⟨⟩ := by
  have small := placed.small
  have first : start ≤ stopOf start descriptors := by
    rcases descriptors.eq_nil_or_concat' with rfl | ⟨front, last, rfl⟩
    · exact le_refl _
    · have mem : last ∈ front ++ [last] := by simp
      exact (placed.after last mem).trans ((Nat.le_add_right _ _).trans (placed.before last mem))
  refine (decides_validateNonOverlapping (by omega) (by omega) (fun d mem =>
    (placed.before d mem).trans_lt small)).eq_ok.mpr (List.Pairwise.filter _ ?_)
  have later : ∀ region ∈ descriptors.map (fun d => (d.offset, d.byteLen)),
      start ≤ region.1 := by
    intro region mem
    obtain ⟨d, listed, rfl⟩ := List.mem_map.mp mem
    exact placed.after d listed
  simp only [List.cons_append, List.nil_append, List.pairwise_cons, List.mem_cons,
    forall_eq_or_imp, Apart]
  refine ⟨⟨by omega, by omega, fun region mem => ?_⟩, ⟨by omega, fun region mem => ?_⟩,
    fun region mem => ?_, ?_⟩
  · have := later region mem
    omega
  · have := later region mem
    omega
  · have := later region mem
    omega
  · exact List.pairwise_map.mpr (placed.ordered.imp Or.inl)

/-- A file whose sections are these. -/
structure PersistedFile.Holds (R : Type) (file : PersistedFile)
    (sections : List (SectionKind × SectionData)) : Prop where
  described : List.Forall₂ Describes sections file.sections
  stored : List.Forall₂ (Stores R file.bytes) sections file.sections
  distinct : (sections.map Prod.fst).Nodup
  small : file.bytes.length < u64Range

/-- Where the sections of a file start: behind the table, which is aligned to 8 bytes. -/
def layoutStart (codecId : String) (sections : List (SectionKind × SectionData)) : Nat :=
  padded (headerLen + (utf8 codecId).length) 8 + sections.length * sectionEntryLen

/-- The length of the file that the writer lays out. -/
def layoutLen (codecId : String) (sections : List (SectionKind × SectionData)) : Nat :=
  layoutEnd (layoutStart codecId sections) sections

theorem layoutLen_le_room {codecId : String} (short : (utf8 codecId).length ≤ maxCodecIdLen)
    (sections : List (SectionKind × SectionData)) :
    layoutLen codecId sections ≤
      room (headerLen + maxCodecIdLen + 7 + sections.length * sectionEntryLen) sections := by
  have near := padded_lt (headerLen + (utf8 codecId).length) (show 0 < 8 by decide)
  apply (layoutEnd_le_room _ _).trans
  apply Nat.add_le_add_right
  rw [layoutStart]
  omega

/-- Writing succeeds unless the file outgrows 64-bit offsets, and the bytes written open as a
file that holds the sections where they have been described. -/
theorem ensures_writeFile (kind : FileKind) {codec : TokenCodec R T}
    (short : (utf8 codec.id).length ≤ maxCodecIdLen)
    (sections : List (SectionKind × SectionData)) (few : sections.length < 2 ^ 32)
    (distinct : (sections.map Prod.fst).Nodup)
    (fits : ∀ entry ∈ sections, entry.2.Fits R entry.1) :
    Ensures (fun bytes => ∃ descriptors,
        (⟨bytes, kind, descriptors⟩ : PersistedFile).Holds R sections ∧
        PersistedFile.openFile bytes kind codec = (do
          (⟨bytes, kind, descriptors⟩ : PersistedFile).validateStructure
          return ⟨bytes, kind, descriptors⟩) ∧
        sections.foldlM (describeSection (R := R)) ([], layoutStart codec.id sections) =
          .ok (descriptors, bytes.length))
      (fun _ => u64Range ≤ layoutLen codec.id sections)
      (writeFile kind codec sections) := by
  have idLen : validateCodecIdLen (R := R) codec.id = .ok ⟨⟩ := if_neg (not_lt.mpr short)
  have tableSmall : sections.length * sectionEntryLen < u64Range := by
    rw [sectionEntryLen, u64Range]
    omega
  unfold writeFile
  rw [idLen, bind_ok]
  simp only [checkedMul64_ok tableSmall, okOr_some, bind_ok]
  have near := padded_lt (headerLen + (utf8 codec.id).length) (show 0 < 8 by decide)
  have beyond := le_padded (headerLen + (utf8 codec.id).length) 8
  refine Ensures.bind ((ensures_alignUp _ _).mono (fun _ h => h) (fun _ large => ?_)) ?_
  · simp only [headerLen, maxCodecIdLen, u64Range] at large near short
    omega
  rintro _ ⟨rfl, _⟩
  generalize tableAt : padded (headerLen + (utf8 codec.id).length) 8 = tableOffset at near beyond ⊢
  have startSmall : tableOffset + sections.length * sectionEntryLen < u64Range := by
    simp only [headerLen, maxCodecIdLen, sectionEntryLen, u64Range] at near short ⊢
    omega
  refine Ensures.bind ((ensures_describeSections startSmall fits).returned.mono (fun _ h => h)
    (fun _ large => by rwa [layoutLen, layoutStart, tableAt])) ?_
  rintro ⟨descriptors, cursor⟩ ⟨described, placed, stop, _⟩
  simp only at placed stop
  subst stop
  have sizes := placed.described.length_eq
  have written : DiskHeader.Written ⟨magic, formatVersion, endianMarker, kind.toRaw, headerLen,
      codec.version.val, sections.length, headerLen, (utf8 codec.id).length, tableOffset,
      stopOf (tableOffset + sections.length * sectionEntryLen) descriptors⟩ kind codec
      descriptors.length := by
    refine ⟨⟨rfl, ?_⟩, rfl, rfl, rfl, rfl, rfl, rfl, sizes, rfl, rfl, beyond⟩
    have raw : kind.toRaw < 256 ^ 4 := by cases kind <;> decide
    have idSmall : (utf8 codec.id).length < 256 ^ 8 := short.trans_lt (by decide)
    have tableOffsetSmall : tableOffset < 256 ^ 8 := (Nat.le_add_right _ _).trans_lt startSmall
    exact .cons (show formatVersion < 256 ^ 4 by decide)
      (.cons (show endianMarker < 256 ^ 4 by decide) (.cons raw
      (.cons (show headerLen < 256 ^ 4 by decide) (.cons codec.version.isLt (.cons few
      (.cons (show headerLen < 256 ^ 8 by decide) (.cons idSmall (.cons tableOffsetSmall
      (.cons placed.small .nil)))))))))
  have preludeLength := (prelude_ranges written []).1
  rw [← sizes] at preludeLength
  refine Ensures.bind ((ensures_writeSections placed fits preludeLength).mono (fun _ h => h)
    (fun _ impossible => impossible.elim)) ?_
  rintro ⟨bytes, _⟩ ⟨length, kept, stored⟩
  simp only at length kept stored
  have small : bytes.length < u64Range := length ▸ placed.small
  have related := List.forall₂_iff_zip.mp placed.described
  have partner {d : SectionDescriptor} (mem : d ∈ descriptors) :
      ∃ entry, (entry, d) ∈ sections.zip descriptors := by
    rw [← List.map_snd_zip sizes.ge] at mem
    obtain ⟨⟨entry, _⟩, paired, rfl⟩ := List.mem_map.mp mem
    exact ⟨entry, paired⟩
  have entries : ∀ d ∈ descriptors, d.entry.Fits := by
    intro d mem
    obtain ⟨entry, paired⟩ := partner mem
    have inside := (placed.before d mem).trans_lt placed.small
    have raw : d.kind.toRaw < 256 ^ 4 := by cases d.kind <;> decide
    have count := (related.2 paired).elementCount
    refine ⟨raw, (by decide : (0 : Nat) < 256 ^ 4), ?_, ?_, ?_⟩
    · exact (Nat.le_add_right _ _).trans_lt inside
    · exact (Nat.le_add_left _ _).trans_lt inside
    · show d.elementCount < u64Range
      rw [count]
      exact (fits entry (List.of_mem_zip paired).1).small
  have kinds := Describes.map_kind placed.described
  refine ⟨descriptors, ⟨placed.described, stored, distinct, small⟩, ?_, ?_⟩
  swap
  · rw [layoutStart, tableAt, described, length]
  rw [openFile_prelude written short entries
    (bytes.drop (tableOffset + sections.length * sectionEntryLen))
    (by rw [← kept, List.take_append_drop]) length.symm small,
    readEntries_ok (kinds ▸ distinct) ?_, bind_ok, ← sizes, regions_apart placed beyond rfl, bind_ok]
  intro d mem
  obtain ⟨entry, paired⟩ := partner mem
  exact validateSection_ok small (related.2 paired) (fits entry (List.of_mem_zip paired).1)
    ((List.forall₂_iff_zip.mp stored).2 paired).2

namespace PersistedFile.Holds
variable {file : PersistedFile}

theorem requireExactSections (holds : file.Holds R sections) :
    file.requireExactSections (R := R) (sections.map Prod.fst) = .ok ⟨⟩ := by
  refine if_neg (not_or.mpr ⟨?_, ?_⟩)
  · rw [not_not, List.length_map, holds.described.length_eq]
  · rw [← Describes.map_kind holds.described]
    simp only [List.any_map, List.any_eq_true, not_exists, not_and, Function.comp_apply,
      decide_eq_true_eq]
    exact fun d mem missing => missing d mem rfl

/-- Every section is found under its kind. -/
theorem sectionAt_zip (holds : file.Holds R sections) {entry : SectionKind × SectionData}
    {descriptor : SectionDescriptor} (paired : (entry, descriptor) ∈ sections.zip file.sections) :
    file.sectionAt (R := R) entry.1 = .ok descriptor ∧ Describes entry descriptor ∧
      Stores R file.bytes entry descriptor := by
  have described : Describes entry descriptor := (List.forall₂_iff_zip.mp holds.described).2 paired
  refine ⟨?_, described, (List.forall₂_iff_zip.mp holds.stored).2 paired⟩
  have distinct := holds.distinct
  rw [← Describes.map_kind holds.described] at distinct
  have listed := (List.of_mem_zip paired).2
  rw [PersistedFile.sectionAt, okOr_eq_ok]
  cases found : file.sections.find? (fun d => d.kind = entry.1) with
  | none =>
    have missing := List.find?_eq_none.mp found _ listed
    rw [decide_eq_true_eq] at missing
    exact absurd described.kind missing
  | some other =>
    have same := List.find?_some found
    rw [decide_eq_true_eq] at same
    rw [List.inj_on_of_nodup_map distinct (List.mem_of_find?_eq_some found) listed
      (same.trans described.kind.symm)]

theorem exists_paired (holds : file.Holds R sections) {entry : SectionKind × SectionData}
    (mem : entry ∈ sections) : ∃ d, (entry, d) ∈ sections.zip file.sections := by
  rw [← List.map_fst_zip holds.described.length_eq.le] at mem
  obtain ⟨⟨_, d⟩, paired, rfl⟩ := List.mem_map.mp mem
  exact ⟨d, paired⟩

theorem sectionAt (holds : file.Holds R sections) {entry : SectionKind × SectionData}
    (mem : entry ∈ sections) : ∃ d, file.sectionAt (R := R) entry.1 = .ok d ∧ Describes entry d ∧
      Stores R file.bytes entry d := by
  obtain ⟨d, paired⟩ := holds.exists_paired mem
  exact ⟨d, holds.sectionAt_zip paired⟩

theorem blob (holds : file.Holds R sections) {kind : SectionKind} {blob : List UInt8} {count : Nat}
    (mem : (kind, .bytes blob count) ∈ sections) : file.blob (R := R) kind = .ok blob := by
  obtain ⟨d, found, described, writes, inside⟩ := holds.sectionAt mem
  rw [PersistedFile.blob, found, bind_ok, checkedRange_ok inside holds.small, ← writes]
  rfl

theorem mapped (holds : file.Holds R sections) {entry : SectionKind × SectionData}
    (mem : entry ∈ sections) {payload : List UInt8} (writes : entry.2.writeTo (R := R) = .ok payload)
    {layout : Layout α} {alignment : Nat} (divides : alignment ∣ entry.1.alignment)
    (size : entry.2.size = entry.2.count * layout.size) :
    file.mappedSlice (R := R) layout alignment entry.1 =
      .ok (layout.readAll entry.2.count payload) := by
  obtain ⟨d, found, described, stored, inside⟩ := holds.sectionAt mem
  have small := holds.small
  have length := described.byteLen.trans size
  have aligned := Nat.mod_eq_zero_of_dvd (divides.trans (Nat.dvd_of_mod_eq_zero described.aligned))
  obtain rfl := Except.ok.inj (writes.symm.trans stored)
  unfold PersistedFile.mappedSlice
  rw [found, bind_ok, described.elementCount, checkedMul64_ok (by omega), okOr_some, bind_ok,
    if_neg (not_not.mpr length), checkedAdd64_ok (by omega), okOr_some, bind_ok,
    if_neg (not_lt.mpr inside), if_neg (not_not.mpr aligned), length, Layout.readAll_take]
  rfl

theorem mappedSlice {layout : Layout α} {valid : α → Prop} (faithful : layout.Faithful valid)
    (holds : file.Holds R sections) {entry : SectionKind × SectionData} (mem : entry ∈ sections)
    {values : List α} (all : ∀ a ∈ values, valid a)
    (writes : entry.2.writeTo (R := R) = .ok (layout.writeAll values))
    (count : entry.2.count = values.length) (size : entry.2.size = values.length * layout.size) :
    file.mappedSlice (R := R) layout entry.1.alignment entry.1 = .ok values := by
  have back := faithful.readAll_writeAll all []
  rw [List.append_nil] at back
  rw [holds.mapped mem writes (dvd_refl _) (count ▸ size), count, back]

theorem mappedOffsets (holds : file.Holds R sections) {kind : SectionKind} {values : List Nat}
    (mem : (kind, .u64 values) ∈ sections) (laid : kind.elementLayout = some (8, 8))
    (small : ∀ n ∈ values, n < u64Range) :
    file.mappedOffsets (R := R) kind = .ok values := by
  have read := holds.mappedSlice u64Layout_faithful mem small rfl rfl rfl
  rwa [SectionKind.alignment, laid] at read

theorem mappedSymbols (holds : file.Holds R sections) {values : List Symbol}
    (mem : (.corpusSymbols, .symbols values) ∈ sections) :
    file.mappedSymbols (R := R) .corpusSymbols = .ok values :=
  holds.mappedSlice u32Layout_faithful mem (fun _ _ => trivial) rfl rfl rfl

theorem mappedPostings (holds : file.Holds R sections) {values : List Posting}
    (mem : (.postings, .postings values) ∈ sections) :
    file.mappedPostings (R := R) .postings = .ok values :=
  holds.mappedSlice postingLayout_faithful mem (fun _ _ => trivial) rfl rfl rfl

end PersistedFile.Holds
end Reading
end Yurine
