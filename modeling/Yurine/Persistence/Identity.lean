import Yurine.Persistence.RoundTrip

/-! A file that was written opens only as the kind it was written as and for the codec it was
written with: both stand at the start of the file, whatever the sections are. -/
namespace Yurine
open Outcome LittleEndian

variable {R T : Type} {kind : FileKind} {codec : TokenCodec R T}
  {sections : List (SectionKind × SectionData)} {bytes : List UInt8}

theorem checkedAdd64_eq_some {a b c : Nat} (added : checkedAdd64 a b = some c) :
    c = a + b ∧ c < u64Range := by
  unfold checkedAdd64 at added
  split at added
  · cases added
    exact ⟨rfl, ‹_›⟩
  · cases added

/-- Describing adds one descriptor for each section and keeps the cursor within 64 bits. -/
theorem describeSections_ok {placed described : List SectionDescriptor × Nat}
    (small : placed.2 < u64Range)
    (returned : sections.foldlM (describeSection (R := R)) placed = .ok described) :
    described.1.length = placed.1.length + sections.length ∧ described.2 < u64Range := by
  induction sections generalizing placed with
  | nil =>
    cases returned
    exact ⟨rfl, small⟩
  | cons entry sections ih =>
    rw [List.foldlM_cons] at returned
    obtain ⟨next, step, rest⟩ := bind_eq_ok.mp returned
    obtain ⟨cursor, _, step⟩ := bind_eq_ok.mp step
    obtain ⟨byteLen, _, step⟩ := bind_eq_ok.mp step
    obtain ⟨count, _, step⟩ := bind_eq_ok.mp step
    obtain ⟨stop, added, step⟩ := bind_eq_ok.mp step
    cases step
    obtain ⟨length, last⟩ := ih (checkedAdd64_eq_some (okOr_eq_ok.mp added)).2 rest
    refine ⟨?_, last⟩
    rw [length, List.length_append, List.length_singleton, List.length_cons]
    omega

theorem writeSections_prefix {entries : List ((SectionKind × SectionData) × SectionDescriptor)}
    {state written : List UInt8 × Nat}
    (returned : entries.foldlM (writeSection (R := R)) state = .ok written) :
    state.1 <+: written.1 := by
  induction entries generalizing state with
  | nil =>
    cases returned
    exact List.prefix_rfl
  | cons entry entries ih =>
    rw [List.foldlM_cons] at returned
    obtain ⟨next, step, rest⟩ := bind_eq_ok.mp returned
    obtain ⟨padding, _, step⟩ := bind_eq_ok.mp step
    obtain ⟨data, _, step⟩ := bind_eq_ok.mp step
    cases step
    apply List.IsPrefix.trans _ (ih rest)
    simp only [List.append_assoc]
    exact List.prefix_append _ _

/-- A written file starts with the header of its kind and the identifier of its codec. -/
theorem writeFile_prelude (few : sections.length < 2 ^ 32)
    (returned : writeFile kind codec sections = .ok bytes) :
    ∃ header descriptors rest, header.Written kind codec descriptors.length ∧
      bytes = writePrelude header codec.id descriptors ++ rest := by
  obtain ⟨_, short, returned⟩ := bind_eq_ok.mp returned
  obtain ⟨tableOffset, aligned, returned⟩ := bind_eq_ok.mp returned
  obtain ⟨tableLen, counted, returned⟩ := bind_eq_ok.mp returned
  obtain ⟨described, placed, returned⟩ := bind_eq_ok.mp returned
  obtain ⟨written, wrote, returned⟩ := bind_eq_ok.mp returned
  cases returned
  have shortId : (utf8 codec.id).length ≤ maxCodecIdLen := by
    by_contra long
    rw [validateCodecIdLen, if_pos (not_le.mp long)] at short
    cases short
  obtain ⟨rfl, _⟩ := (ensures_alignUp (R := R) _ _).of_ok aligned
  have near := padded_lt (headerLen + (utf8 codec.id).length) (show 0 < 8 by decide)
  have beyond := le_padded (headerLen + (utf8 codec.id).length) 8
  generalize padded (headerLen + (utf8 codec.id).length) 8 = tableOffset at near beyond placed wrote
  have tableSmall : sections.length * sectionEntryLen < u64Range := by
    rw [sectionEntryLen, u64Range]
    omega
  rw [checkedMul64_ok tableSmall, okOr_some] at counted
  cases counted
  have startSmall : tableOffset + sections.length * sectionEntryLen < u64Range := by
    simp only [headerLen, maxCodecIdLen, sectionEntryLen, u64Range] at near shortId ⊢
    omega
  obtain ⟨count, small⟩ := describeSections_ok startSmall placed
  obtain ⟨rest, whole⟩ := writeSections_prefix wrote
  refine ⟨_, described.1, rest, ?_, whole.symm⟩
  refine ⟨⟨rfl, ?_⟩, rfl, rfl, rfl, rfl, rfl, rfl, by simpa using count.symm, rfl, rfl, beyond⟩
  have raw : kind.toRaw < 256 ^ 4 := by cases kind <;> decide
  have idSmall : (utf8 codec.id).length < 256 ^ 8 := shortId.trans_lt (by decide)
  have tableOffsetSmall : tableOffset < 256 ^ 8 := (Nat.le_add_right _ _).trans_lt startSmall
  exact .cons (show formatVersion < 256 ^ 4 by decide)
    (.cons (show endianMarker < 256 ^ 4 by decide) (.cons raw
    (.cons (show headerLen < 256 ^ 4 by decide) (.cons codec.version.isLt (.cons few
    (.cons (show headerLen < 256 ^ 8 by decide) (.cons idSmall (.cons tableOffsetSmall
    (.cons small .nil)))))))))

/-- A written file opens only under its own kind and the identifier of its own codec. -/
theorem openFile_identity {T' : Type} {expected : FileKind} {other : TokenCodec R T'}
    {file : PersistedFile} (few : sections.length < 2 ^ 32)
    (returned : writeFile kind codec sections = .ok bytes)
    (opened : PersistedFile.openFile bytes expected other = .ok file) :
    kind = expected ∧ codec.id = other.id := by
  obtain ⟨header, descriptors, rest, written, whole⟩ := writeFile_prelude few returned
  obtain ⟨_, identifier, _⟩ := prelude_ranges written rest
  have read : DiskHeader.refFromPrefix bytes = some header := by
    rw [whole, writePrelude, List.append_assoc, List.append_assoc, List.append_assoc]
    exact DiskHeader.refFromPrefix_asBytes written.toFits _
  obtain ⟨_, _, opened⟩ := bind_eq_ok.mp opened
  rw [read, okOr_some, bind_ok] at opened
  obtain ⟨found, checked, opened⟩ := bind_eq_ok.mp opened
  constructor
  · by_contra different
    unfold validateHeader at checked
    simp only [written.sameMagic, written.version, written.marker, written.kind, written.length,
      fileKind_fromRaw_toRaw, bind_ok, ne_eq, not_true_eq_false, if_false, if_pos different]
      at checked
    cases checked
  · by_contra different
    by_cases length : header.fileLen ≠ bytes.length
    · rw [if_pos length] at opened
      cases opened
    rw [if_neg length] at opened
    unfold PersistedFile.parseContents at opened
    by_cases long : maxCodecIdLen < header.codecLen
    · rw [if_pos long] at opened
      cases opened
    rw [if_neg long] at opened
    obtain ⟨codecBytes, range, opened⟩ := bind_eq_ok.mp opened
    have same : codecBytes = utf8 codec.id := by
      obtain ⟨stop, _, range⟩ := bind_eq_ok.mp range
      split at range
      · cases range
        rw [whole, identifier]
      · cases range
    rw [same, fromUtf8_utf8, okOr_some, bind_ok, if_pos different] at opened
    cases opened

end Yurine
