import Yurine.Persistence.Safety
import Mathlib.Order.CompletePartialOrder
import Mathlib.Order.Interval.Set.Disjoint

/-! Records and regions of a snapshot: headers, table entries and elements are read back as
written, and the check of the regions decides whether they are apart. -/
namespace Yurine
open Outcome Offsets Sorting LittleEndian

variable {R : Type}

theorem u64Layout_faithful : u64Layout.Faithful (· < u64Range) where
  length_write := length_encode 8
  read_write _ small := decode_encode small

theorem u32Layout_faithful : u32Layout.Faithful (fun _ => True) where
  length_write _ := length_encode 4 _
  read_write value _ := by
    have small : value.val < 256 ^ 4 := value.isLt
    simp only [u32Layout, decode_encode small]
    exact Fin.ofNat_val_eq_self value

theorem u32Layout_write_read {bytes : List UInt8} (size : bytes.length = 4) :
    u32Layout.write (u32Layout.read bytes) = bytes := by
  have small : decode bytes < 2 ^ 32 := (decode_lt bytes).trans_eq (by rw [size]; rfl)
  simp only [u32Layout, Fin.ofNat, Nat.mod_eq_of_lt small]
  rw [← size, encode_decode]

theorem postingLayout_faithful : postingLayout.Faithful (fun _ => True) where
  length_write posting := by
    simp only [postingLayout, List.length_append, u32Layout_faithful.length_write]
    rfl
  read_write posting _ := by
    have size : (u32Layout.write posting.stringId).length = 4 := u32Layout_faithful.length_write _
    simp only [postingLayout, List.take_left' size, List.drop_left' size,
      u32Layout_faithful.read_write _ trivial]

/-- The fields of an entry that fit their widths. -/
structure DiskSectionEntry.Fits (entry : DiskSectionEntry) : Prop where
  kind : entry.kind < 256 ^ 4
  flags : entry.flags < 256 ^ 4
  offset : entry.offset < u64Range
  byteLen : entry.byteLen < u64Range
  elementCount : entry.elementCount < u64Range

theorem DiskSectionEntry.layout_faithful : layout.Faithful Fits where
  length_write _ := length_encodeFields rfl
  read_write entry fits := by
    have related : List.Forall₂ (fun width n => n < 256 ^ width) widths
        [entry.kind, entry.flags, entry.offset, entry.byteLen, entry.elementCount] :=
      .cons fits.kind (.cons fits.flags (.cons fits.offset
        (.cons fits.byteLen (.cons fits.elementCount .nil))))
    have fields := decodeFields_encodeFields related []
    rw [List.append_nil] at fields
    simp only [layout, fields]

/-- The fields of a header that fit their widths. -/
structure DiskHeader.Fits (header : DiskHeader) : Prop where
  magic : header.magic.length = 8
  fields : List.Forall₂ (fun width n => n < 256 ^ width) widths header.fields

theorem DiskHeader.length_asBytes {header : DiskHeader} (fits : header.Fits) :
    header.asBytes.length = Yurine.headerLen := by
  rw [asBytes, List.length_append, fits.magic, length_encodeFields fits.fields.length_eq]
  rfl

theorem DiskHeader.refFromPrefix_asBytes {header : DiskHeader} (fits : header.Fits)
    (rest : List UInt8) : refFromPrefix (header.asBytes ++ rest) = some header := by
  have long : ¬ (header.asBytes ++ rest).length < Yurine.headerLen := by
    rw [List.length_append, length_asBytes fits]
    omega
  rw [refFromPrefix, if_neg long, asBytes, List.append_assoc, List.take_left' fits.magic,
    List.drop_left' fits.magic, decodeFields_encodeFields fits.fields]
  rfl

section Overlap

/-- Two regions, given by offset and length, that share no byte. -/
def Apart (a b : Nat × Nat) : Prop := a.1 + a.2 ≤ b.1 ∨ b.1 + b.2 ≤ a.1

theorem decides_validateNeighbors {pair : (Nat × Nat) × (Nat × Nat)}
    (small : pair.1.1 + pair.1.2 < u64Range) :
    Decides (pair.1.1 + pair.1.2 ≤ pair.2.1) (fun _ => True)
      (validateNeighbors (R := R) pair) := by
  unfold validateNeighbors
  rw [checkedAdd64, if_pos small, okOr_some, bind_ok]
  exact (Decides.guard_last trivial).congr not_lt

variable {sort : List (Nat × Nat) → List (Nat × Nat)}

/-- Neighbors in an order of their offsets are apart exactly when all regions are. -/
theorem windows_apart_iff (sorts : Sorts Prod.fst sort) {ranges : List (Nat × Nat)}
    (nonempty : ∀ range ∈ ranges, range.2 ≠ 0) :
    (∀ pair ∈ windows (sort ranges), pair.1.1 + pair.1.2 ≤ pair.2.1) ↔
      ranges.Pairwise Apart := by
  have trans : IsTrans (Nat × Nat) (fun a b => a.1 + a.2 ≤ b.1) := ⟨fun _ _ _ _ _ => by omega⟩
  have chain : (sort ranges).IsChain (fun a b => a.1 + a.2 ≤ b.1) ↔ ∀ pair ∈
      windows (sort ranges), pair.1.1 + pair.1.2 ≤ pair.2.1 := isChain_iff_windows
  have reordered : (sort ranges).Pairwise Apart ↔ ranges.Pairwise Apart :=
    (sorts.perm ranges).pairwise_iff (fun h => h.symm)
  rw [← chain, List.isChain_iff_pairwise, ← reordered]
  constructor
  · exact fun ordered => ordered.imp Or.inl
  · intro apart
    refine ((sorts.sorted ranges).and apart).imp_of_mem ?_
    rintro a b - mem ⟨sorted, before | after⟩
    · exact before
    · have := nonempty b ((sorts.perm ranges).mem_iff.mp mem)
      omega

def regions (codecOffset codecLen tableOffset tableLen : Nat)
    (sections : List SectionDescriptor) : List (Nat × Nat) :=
  [(0, headerLen), (codecOffset, codecLen), (tableOffset, tableLen)] ++
    sections.map (fun descriptor => (descriptor.offset, descriptor.byteLen))

/-- `validate_non_overlapping` with the order that its unstable sort leaves. -/
def validateNonOverlappingWith (sort : List (Nat × Nat) → List (Nat × Nat))
    (codecOffset codecLen tableOffset tableLen : Nat) (sections : List SectionDescriptor) :
    Result R PUnit :=
  let ranges := regions codecOffset codecLen tableOffset tableLen sections
  (windows (sort (ranges.filter (fun range => range.2 ≠ 0)))).forM validateNeighbors

variable {codecOffset codecLen tableOffset tableLen : Nat} {sections : List SectionDescriptor}

/-- The check accepts exactly the regions whose non-empty ones are pairwise apart. -/
theorem decides_validateNonOverlappingWith (sorts : Sorts Prod.fst sort)
    (codec : codecOffset + codecLen < u64Range) (table : tableOffset + tableLen < u64Range)
    (inside : ∀ descriptor ∈ sections, descriptor.offset + descriptor.byteLen < u64Range) :
    Decides (((regions codecOffset codecLen tableOffset tableLen sections).filter
        (fun range => range.2 ≠ 0)).Pairwise Apart) (fun _ => True)
      (validateNonOverlappingWith (R := R) sort codecOffset codecLen tableOffset tableLen
        sections) := by
  refine Decides.congr (Decides.forM (P := fun pair => pair.1.1 + pair.1.2 ≤ pair.2.1) ?_)
    (windows_apart_iff sorts (fun range mem => by simpa using (List.mem_filter.mp mem).2))
  intro pair mem
  apply decides_validateNeighbors
  have listed := (List.mem_filter.mp ((sorts.perm _).mem_iff.mp
    (List.of_mem_zip (a := pair.1) (b := pair.2) mem).1)).1
  simp only [regions, List.cons_append, List.nil_append, List.mem_cons, List.mem_map] at listed
  rcases listed with first | second | third | ⟨descriptor, member, same⟩
  · rw [first]
    decide
  · rw [second]
    exact codec
  · rw [third]
    exact table
  · rw [← same]
    exact inside descriptor member

theorem decides_validateNonOverlapping (codec : codecOffset + codecLen < u64Range)
    (table : tableOffset + tableLen < u64Range)
    (inside : ∀ descriptor ∈ sections, descriptor.offset + descriptor.byteLen < u64Range) :
    Decides ((([(0, headerLen), (codecOffset, codecLen), (tableOffset, tableLen)] ++
        sections.map (fun descriptor => (descriptor.offset, descriptor.byteLen))).filter
          (fun range => range.2 ≠ 0)).Pairwise Apart) (fun _ => True)
      (validateNonOverlapping (R := R) codecOffset codecLen tableOffset tableLen sections) :=
  decides_validateNonOverlappingWith (sorts_sortByKey Prod.fst) codec table inside

/-- The bytes of a region. -/
def occupied (range : Nat × Nat) : Set Nat := Set.Ico range.1 (range.1 + range.2)

theorem disjoint_occupied_iff {a b : Nat × Nat} (left : a.2 ≠ 0) (right : b.2 ≠ 0) :
    Disjoint (occupied a) (occupied b) ↔ Apart a b := by
  rw [occupied, occupied, Set.Ico_disjoint_Ico, Apart]
  omega

theorem pairwise_disjoint_iff {ranges : List (Nat × Nat)} (nonempty : ∀ range ∈ ranges,
    range.2 ≠ 0) : ranges.Pairwise (fun a b => Disjoint (occupied a) (occupied b)) ↔
      ranges.Pairwise Apart :=
  List.Pairwise.iff_of_mem fun {a b} left right =>
    disjoint_occupied_iff (nonempty a left) (nonempty b right)

/-- The regions in another order, and with empty ones, are accepted alike. -/
theorem validateNonOverlappingWith_congr {first second : List (Nat × Nat) → List (Nat × Nat)}
    (firstSorts : Sorts Prod.fst first) (secondSorts : Sorts Prod.fst second)
    {others : List SectionDescriptor} (codec : codecOffset + codecLen < u64Range)
    (table : tableOffset + tableLen < u64Range)
    (inside : ∀ descriptor ∈ sections, descriptor.offset + descriptor.byteLen < u64Range)
    (outside : ∀ descriptor ∈ others, descriptor.offset + descriptor.byteLen < u64Range)
    (same : (others.filter (fun descriptor => descriptor.byteLen ≠ 0)).Perm
      (sections.filter (fun descriptor => descriptor.byteLen ≠ 0))) :
    validateNonOverlappingWith (R := R) second codecOffset codecLen tableOffset tableLen others =
        .ok ⟨⟩ ↔
      validateNonOverlappingWith (R := R) first codecOffset codecLen tableOffset tableLen sections =
        .ok ⟨⟩ := by
  rw [(decides_validateNonOverlappingWith secondSorts codec table outside).eq_ok,
    (decides_validateNonOverlappingWith firstSorts codec table inside).eq_ok]
  apply List.Perm.pairwise_iff (fun h => h.symm)
  rw [regions, regions, List.filter_append, List.filter_append, List.filter_map, List.filter_map]
  exact (same.map _).append_left _

/-- Whatever order the sections come in and the sort leaves, the check accepts exactly the
regions whose non-empty ones share no byte, and empty sections change nothing. -/
theorem validateNonOverlapping_exact (sorts : Sorts Prod.fst sort)
    (codec : codecOffset + codecLen < u64Range) (table : tableOffset + tableLen < u64Range)
    (inside : ∀ descriptor ∈ sections, descriptor.offset + descriptor.byteLen < u64Range) :
    (validateNonOverlappingWith (R := R) sort codecOffset codecLen tableOffset tableLen sections =
        .ok ⟨⟩ ↔
      ((regions codecOffset codecLen tableOffset tableLen sections).filter
        (fun range => range.2 ≠ 0)).Pairwise (fun a b => Disjoint (occupied a) (occupied b))) ∧
    (∀ other others, Sorts Prod.fst other → others.Perm sections →
      (validateNonOverlappingWith (R := R) other codecOffset codecLen tableOffset tableLen others =
          .ok ⟨⟩ ↔
        validateNonOverlappingWith (R := R) sort codecOffset codecLen tableOffset tableLen
          sections = .ok ⟨⟩)) ∧
    ∀ empty : List SectionDescriptor, (∀ descriptor ∈ empty, descriptor.byteLen = 0 ∧
        descriptor.offset < u64Range) →
      (validateNonOverlappingWith (R := R) sort codecOffset codecLen tableOffset tableLen
          (empty ++ sections) = .ok ⟨⟩ ↔
        validateNonOverlappingWith (R := R) sort codecOffset codecLen tableOffset tableLen
          sections = .ok ⟨⟩) := by
  refine ⟨?_, ?_, ?_⟩
  · rw [(decides_validateNonOverlappingWith sorts codec table inside).eq_ok,
      pairwise_disjoint_iff fun range mem => by simpa using (List.mem_filter.mp mem).2]
  · intro other others otherSorts same
    exact validateNonOverlappingWith_congr sorts otherSorts codec table inside
      (fun descriptor mem => inside descriptor (same.mem_iff.mp mem)) (same.filter _)
  · intro empty zero
    apply validateNonOverlappingWith_congr sorts sorts codec table inside
    · intro descriptor mem
      rcases List.mem_append.mp mem with mem | mem
      · obtain ⟨none, word⟩ := zero descriptor mem
        omega
      · exact inside descriptor mem
    · have none : empty.filter (fun descriptor => descriptor.byteLen ≠ 0) = [] :=
        List.filter_eq_nil_iff.mpr fun descriptor mem => by simp [(zero descriptor mem).1]
      rw [List.filter_append, none, List.nil_append]

/-- An empty table at the start of a section, in an order that a stable sort does not leave. -/
theorem validateNonOverlapping_exact_empty :
    validateNonOverlappingWith (R := Int) (fun ranges => sortByKey Prod.fst ranges.reverse)
      headerLen 8 (headerLen + 8) 0 [⟨.costMetadata, headerLen + 8, 4, 1⟩] = .ok ⟨⟩ := by
  have sorts : Sorts Prod.fst fun ranges : List (Nat × Nat) =>
      sortByKey Prod.fst ranges.reverse :=
    ⟨fun ranges => (sortByKey_perm _ _).trans ranges.reverse_perm,
      fun ranges => sortByKey_sorted _ _⟩
  refine (validateNonOverlapping_exact sorts (by decide) (by decide) (by decide)).1.mpr ?_
  simp [regions, headerLen, occupied, Set.Ico_disjoint_Ico]

end Overlap
end Yurine
