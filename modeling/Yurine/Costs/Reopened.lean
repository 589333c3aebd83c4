import Yurine.Costs.EmbeddingRoundTrip

/-! Costs that were saved. Nothing has to be known of the sizes of a policy whose save returned:
the writer has measured them and a store has checked its rows, so the file opens as what was
saved. -/
namespace Yurine
open Outcome Offsets Sorting LittleEndian CustomCosts

variable {R T : Type}

section Measured
variable {sections : List (SectionKind × SectionData)}

theorem SectionData.byteLen_eq_ok {data : SectionData} {len : Nat}
    (measured : data.byteLen (R := R) = .ok len) : len = data.size := by
  cases data with
  | f32Rows values rowIndices rowLen =>
    obtain ⟨count, counted, product⟩ := bind_eq_ok.mp measured
    have counted := okOr_eq_ok.mp counted
    have product := okOr_eq_ok.mp product
    unfold checkedMul64 at counted product
    split at counted
    · cases counted
      split at product
      · cases product
        rfl
      · cases product
    · cases counted
  | _ =>
    cases measured
    rfl

theorem describeSection_eq_ok {placed next : List SectionDescriptor × Nat}
    {entry : SectionKind × SectionData}
    (described : describeSection (R := R) placed entry = .ok next) :
    next.2 = padded placed.2 entry.1.alignment + entry.2.size ∧ next.2 < u64Range := by
  obtain ⟨cursor, aligned, described⟩ := bind_eq_ok.mp described
  obtain ⟨byteLen, measured, described⟩ := bind_eq_ok.mp described
  obtain ⟨elementCount, _, described⟩ := bind_eq_ok.mp described
  obtain ⟨stop, sum, last⟩ := bind_eq_ok.mp described
  cases last
  have sum := okOr_eq_ok.mp sum
  unfold checkedAdd64 at sum
  split at sum
  · rename_i small
    cases sum
    rw [(ensures_alignUp _ _).of_ok aligned |>.1, SectionData.byteLen_eq_ok measured] at small ⊢
    exact ⟨rfl, small⟩
  · cases sum

theorem describeSections_eq_ok {placed last : List SectionDescriptor × Nat}
    (start : placed.2 < u64Range)
    (described : sections.foldlM (describeSection (R := R)) placed = .ok last) :
    layoutEnd placed.2 sections < u64Range := by
  induction sections generalizing placed with
  | nil => exact start
  | cons entry sections ih =>
    rw [List.foldlM_cons] at described
    obtain ⟨next, first, later⟩ := bind_eq_ok.mp described
    obtain ⟨stop, small⟩ := describeSection_eq_ok first
    have whole := ih small later
    rw [stop] at whole
    exact whole

/-- A file that was written has 64-bit offsets. -/
theorem layoutLen_lt {kind : FileKind} {codec : TokenCodec R T} {bytes : List UInt8}
    (few : sections.length < 2 ^ 32) (written : writeFile kind codec sections = .ok bytes) :
    (utf8 codec.id).length ≤ maxCodecIdLen ∧ layoutLen codec.id sections < u64Range := by
  obtain ⟨_, short, written⟩ := bind_eq_ok.mp written
  obtain ⟨table, aligned, written⟩ := bind_eq_ok.mp written
  obtain ⟨tableLen, product, written⟩ := bind_eq_ok.mp written
  obtain ⟨⟨descriptors, cursor⟩, described, _⟩ := bind_eq_ok.mp written
  have short : (utf8 codec.id).length ≤ maxCodecIdLen := by
    by_contra long
    rw [validateCodecIdLen, if_pos (not_le.mp long)] at short
    cases short
  obtain ⟨rfl, _⟩ := (ensures_alignUp _ _).of_ok aligned
  have product := okOr_eq_ok.mp product
  rw [checkedMul64_ok (by rw [sectionEntryLen, u64Range]; omega)] at product
  cases product
  have near := padded_lt (headerLen + (utf8 codec.id).length) (show 0 < 8 by decide)
  refine ⟨short, describeSections_eq_ok ?_ described⟩
  simp only [headerLen, maxCodecIdLen, sectionEntryLen, u64Range] at near short ⊢
  omega

end Measured

variable [DecidableEq T] {codec : TokenCodec U32 T} {bytes : List UInt8}

namespace CustomCosts
variable {costs : CustomCosts T} {iteration : Iteration T}

/-- Custom costs that were saved open as costs with the same rules. -/
theorem exists_opened (contract : ∀ token, codec.RoundTrips token) (reachable : costs.Reachable)
    (of : iteration.Of costs) (saved : costs.saveWith iteration codec = .ok bytes) :
    ∃ opened, openWith codec bytes = .ok opened ∧ costs.SameRules opened := by
  obtain ⟨enc, encodes⟩ := exists_encodes contract
  rw [saveWith, encodeMetadata_ok encodes of, bind_ok] at saved
  obtain ⟨short, small⟩ := layoutLen_lt (by simp) saved
  have inside := (size_le_layoutEnd _ (List.mem_singleton_self _)).trans_lt small
  obtain ⟨opened, read, same⟩ := readMetadata_ok encodes reachable of inside
  have written := ensures_writeFile (R := U32) .customCosts short
    [(.costMetadata, .bytes (costs.metadata (pairRows enc iteration.pairs)
      (ruleRows enc iteration.deletions) (ruleRows enc iteration.insertions)) 1)] (by simp)
    (by simp) (by
      intro entry mem
      cases List.mem_singleton.mp mem
      exact SectionData.fits_bytes rfl _ (by decide))
  obtain ⟨descriptors, holds, opens, _⟩ := written.of_ok saved
  refine ⟨opened, bind_eq_ok.mpr ⟨⟨bytes, .customCosts, descriptors⟩, ?_,
    bind_eq_ok.mpr ⟨_, holds.blob (List.mem_singleton_self _), read⟩⟩, same⟩
  rw [opens]
  exact bind_eq_ok.mpr ⟨_, holds.requireExactSections, rfl⟩

end CustomCosts
namespace EmbeddingStore
variable {store : EmbeddingStore T} {validate : RowCheck} {order : List (T × U32)}

omit [DecidableEq T] in
theorem verify_eq_ok (verified : store.verify validate = .ok ⟨⟩) :
    store.RowsValid validate ∧ store.len * store.dimension.val < usizeRange ∧
      store.embeddings.asSlice.length = store.len * store.dimension.val := by
  obtain ⟨expected, product, verified⟩ := bind_eq_ok.mp verified
  have product := okOr_eq_ok.mp product
  unfold checkedMul at product
  split at product
  · rename_i small
    cases product
    split at verified
    · cases verified
    · rename_i length
      refine ⟨fun row mem => ?_, small, not_not.mp length⟩
      obtain ⟨i, here⟩ := List.mem_iff_getElem?.mp mem
      have checked := forM_eq_ok.mp verified (row, i) (List.mk_mem_zipIdx_iff_getElem?.mpr here)
      split at checked
      · cases checked
      · exact checked
  · cases product

/-- A store that was saved opens over its rows. -/
theorem exists_rows (contract : ∀ token, codec.RoundTrips token) (wf : store.WellFormed)
    (lists : Lists order fun token => store.embeddingIndices.lookup token)
    (saved : store.saveWith validate order codec = .ok bytes) :
    ∃ opened, openWith codec bytes = .ok opened ∧ opened.dimension = store.dimension ∧
      opened.embeddings.asSlice.length = store.len * store.dimension.val ∧
      (store.RowsValid validate → opened.RowsValid validate) ∧
      ∀ token, opened.row token = store.row token := by
  obtain ⟨enc, encodes⟩ := exists_encodes contract
  rw [saveWith_eq encodes lists] at saved
  obtain ⟨_, _, saved⟩ := bind_eq_ok.mp saved
  obtain ⟨short, small⟩ := layoutLen_lt (by simp [sections]) saved
  obtain ⟨again, indices, written, opens, entries⟩ :=
    writeFile_openWith encodes wf lists short small
  rw [saved] at written
  cases written
  exact ⟨_, opens, rfl, wf.length_savedMatrix enc lists, fun valid => wf.rowsValid_opened valid lists,
    wf.row_opened lists entries⟩

/-- A store that was saved opens as a valid one with the same vectors. -/
theorem exists_opened (contract : ∀ token, codec.RoundTrips token)
    (numbered : Numbered store.embeddingIndices store.len)
    (cached : ∀ rows, store.validatedRows = some rows → rows = store.len) (nonempty : 0 < store.len)
    (lists : Lists order fun token => store.embeddingIndices.lookup token)
    (saved : store.saveWith validate order codec = .ok bytes) :
    store.verify validate = .ok ⟨⟩ ∧ ∃ opened, openWith codec bytes = .ok opened ∧
      opened.verify validate = .ok ⟨⟩ ∧
      ∀ token, opened.get validate token = store.get validate token := by
  obtain ⟨_, verified, _⟩ := bind_eq_ok.mp saved
  obtain ⟨valid, fits, matrix⟩ := verify_eq_ok verified
  have wf : store.WellFormed :=
    ⟨numbered, matrix, (Nat.le_mul_of_pos_left _ nonempty).trans_lt fits, cached⟩
  obtain ⟨opened, opens, _, length, rowsValid, rows⟩ := exists_rows contract wf lists saved
  have wellFormed := wellFormed_openWith opens
  have size := length.trans_lt fits
  refine ⟨verified, opened, opens, ?_, fun token => ?_⟩
  · rw [wellFormed.verify_eq (rowsValid valid), ← wellFormed.matrix]
    exact if_pos size
  · rw [wellFormed.get_eq_row (rowsValid valid) size, wf.get_eq_row valid (matrix ▸ fits), rows]

/-- Two saved stores open as the same one when their dimensions and their vectors are the same. -/
theorem openWith_eq_iff {other : EmbeddingStore T} {order' : List (T × U32)} {bytes' : List UInt8}
    {opened : EmbeddingStore T} (contract : ∀ token, codec.RoundTrips token)
    (wf : store.WellFormed) (wf' : other.WellFormed)
    (lists : Lists order fun token => store.embeddingIndices.lookup token)
    (lists' : Lists order' fun token => other.embeddingIndices.lookup token)
    (saved : store.saveWith validate order codec = .ok bytes)
    (saved' : other.saveWith validate order' codec = .ok bytes')
    (opens : openWith codec bytes' = .ok opened) : openWith codec bytes = .ok opened ↔
      store.dimension = other.dimension ∧ ∀ token, store.row token = other.row token := by
  constructor
  · intro again
    obtain ⟨first, reopened, dimension, _, _, rows⟩ := exists_rows contract wf lists saved
    obtain ⟨second, reopened', dimension', _, _, rows'⟩ := exists_rows contract wf' lists' saved'
    obtain rfl := Except.ok.inj (again.symm.trans reopened)
    obtain rfl := Except.ok.inj (opens.symm.trans reopened')
    exact ⟨dimension.symm.trans dimension', fun token => (rows token).symm.trans (rows' token)⟩
  · rintro ⟨dimension, rows⟩
    obtain ⟨enc, encodes⟩ := exists_encodes contract
    obtain ⟨_, verified, _⟩ := bind_eq_ok.mp saved
    obtain ⟨_, verified', _⟩ := bind_eq_ok.mp saved'
    have canonical := saveWith_congr encodes wf wf' (verify_eq_ok verified).1
      (verify_eq_ok verified').1 lists lists' dimension rows
    rw [saved, saved'] at canonical
    rw [Except.ok.inj canonical]
    exact opens

end EmbeddingStore
end Yurine
