import Yurine.Costs.CustomRoundTrip

/-! Opening any custom-cost file. The maps are allocated with the counts of the file, so the
reservations are part of the run; the check of the counts bounds them. -/
namespace Yurine
open Outcome LittleEndian

namespace CustomCosts
open MetadataReader
variable {T : Type} [DecidableEq T]

/-- A call that also reserves capacities. -/
abbrev Reserving (α : Type) := Recording (Error U32) Nat α

/-- `HashMap::with_capacity`. -/
def withCapacity (V : Type) (capacity : Nat) : Reserving (RuleMap T V) := do
  record capacity
  return ∅

/-- `readMetadata` with the capacities that it reserves. -/
def readMetadataReserving (codec : TokenCodec U32 T) (bytes : List UInt8) :
    Reserving (CustomCosts T) := do
  let (version, reader) ← (MetadataReader.new bytes).u32 (R := U32)
  if version ≠ metadataVersion then
    (fail (.invalidFile "unsupported custom-cost metadata version") : Result U32 PUnit)
  let (defaultSubstitution, reader) ← readDefault reader
  let (defaultDeletion, reader) ← readDefault reader
  let (defaultInsertion, reader) ← readDefault reader
  let (substitutionCount, reader) ← reader.u64 (R := U32)
  let (deletionCount, reader) ← reader.u64 (R := U32)
  let (insertionCount, reader) ← reader.u64 (R := U32)
  validateRuleCounts reader.remaining substitutionCount deletionCount insertionCount
  let (substitutions, reader) ← ((List.replicate substitutionCount ()).foldlM
    (fun state _ => readSubstitution codec state) (∅, reader) : Result U32 _)
  let deletions ← withCapacity CostBits deletionCount
  let (deletions, reader) ← ((List.replicate deletionCount ()).foldlM
    (fun state _ => readRule codec "deletion rule is duplicated" state) (deletions, reader) :
      Result U32 _)
  let insertions ← withCapacity CostBits insertionCount
  let (insertions, reader) ← ((List.replicate insertionCount ()).foldlM
    (fun state _ => readRule codec "insertion rule is duplicated" state) (insertions, reader) :
      Result U32 _)
  reader.finish (R := U32)
  return ⟨defaultSubstitution, defaultDeletion, defaultInsertion, substitutions, deletions,
    insertions⟩

def openWithReserving (codec : TokenCodec U32 T) (bytes : List UInt8) :
    Reserving (CustomCosts T) := do
  let file ← PersistedFile.openFile bytes .customCosts codec
  let metadata ← file.blob (R := U32) .costMetadata
  readMetadataReserving codec metadata

variable {codec : TokenCodec U32 T}

omit [DecidableEq T] in
theorem records_withCapacity {V α : Type} {P : Nat → Prop} {capacity : Nat} (holds : P capacity)
    {f : RuleMap T V → Reserving α} {y : Result U32 α} (rest : Records P (f ∅) y) :
    Records P (withCapacity V capacity >>= f) y := by
  have reserved : Records P (withCapacity V capacity : Reserving (RuleMap T V)) (.ok ∅) :=
    (Records.record holds).bind (fun _ _ => Records.lift (.ok ∅))
  apply reserved.bind (g := fun _ => y)
  rintro _ ⟨⟩
  exact rest

/-- Reading a field leaves no more ahead than before. -/
theorem records_read {α β : Type} {P : Nat → Prop}
    {parse : MetadataReader → Result U32 (α × MetadataReader)} {language : List UInt8 → α → Prop}
    (recognizes : Recognizes True At parse language) {reader : MetadataReader}
    {input : List UInt8} (at_ : reader.At input) {most : Nat} (size : input.length ≤ most)
    {f : α × MetadataReader → Reserving β} {g : α × MetadataReader → Result U32 β}
    (next : ∀ value reader rest, At reader rest → rest.length ≤ most →
      Records P (f (value, reader)) (g (value, reader))) :
    Records P (monadLift (parse reader) >>= f) (parse reader >>= g) := by
  apply (Records.lift _).bind
  rintro ⟨value, after⟩ read
  obtain ⟨field, rest, rfl, _, behind⟩ := recognizes.sound reader input _ at_ read
  rw [List.length_append] at size
  exact next value after rest behind (by omega)

/-- The parser reserves at most a twelfth of the length of the metadata at once. -/
theorem records_readMetadata {bytes : List UInt8} (small : bytes.length < usizeRange) :
    Records (fun capacity => capacity * 12 ≤ bytes.length) (readMetadataReserving codec bytes)
      (readMetadata codec bytes) := by
  apply records_read recognizes_u32 (new_at small) le_rfl
  intro version reader rest at_ size
  apply Records.guard
  intro _
  apply records_read recognizes_readDefault at_ size
  intro defaultSubstitution reader rest at_ size
  apply records_read recognizes_readDefault at_ size
  intro defaultDeletion reader rest at_ size
  apply records_read recognizes_readDefault at_ size
  intro defaultInsertion reader rest at_ size
  apply records_read recognizes_u64 at_ size
  intro substitutionCount reader rest at_ size
  apply records_read recognizes_u64 at_ size
  intro deletionCount reader rest at_ size
  apply records_read recognizes_u64 at_ size
  intro insertionCount reader rest at_ size
  apply (Records.lift _).bind
  intro _ checked
  -- the counts that pass the check bound both capacities
  have fits := (decides_validateRuleCounts (at_.remaining ▸ at_.fits) _ _ _).eq_ok.mp checked
  rw [at_.remaining] at fits
  apply (Records.lift _).bind
  rintro ⟨substitutions, reader⟩ _
  apply records_withCapacity (by omega)
  apply (Records.lift _).bind
  rintro ⟨deletions, reader⟩ _
  apply records_withCapacity (by omega)
  apply (Records.lift _).bind
  rintro ⟨insertions, reader⟩ _
  exact (Records.lift _).bind (fun _ _ => Records.lift (.ok _))

/-- `open_with` never panics on any file when the codec does not. It opens exactly the files
whose metadata is in the format, as the policy they list, and it reserves at most a twelfth of
the length of the metadata for a map. -/
theorem openWith_format (codec : TokenCodec U32 T) (decodes : codec.Decodes)
    (bytes : List UInt8) :
    openWith codec bytes ≠ panic ∧
    ∀ file metadata, PersistedFile.openFile bytes .customCosts codec = .ok file →
      file.blob (R := U32) .costMetadata = .ok metadata →
      (∀ costs, openWith codec bytes = .ok costs ↔
        ∃ listing, Formats codec metadata listing ∧ costs = listing.policy) ∧
      ∃ capacities, (openWithReserving codec bytes).run.run [] =
          (openWith codec bytes, capacities) ∧
        ∀ capacity ∈ capacities, capacity * 12 ≤ metadata.length := by
  have safe := PersistedFile.safely_openFile bytes .customCosts codec
  have small {file : PersistedFile} (opened : PersistedFile.openFile bytes .customCosts codec =
      .ok file) {metadata : List UInt8} (blob : file.blob (R := U32) .costMetadata = .ok metadata) :
      metadata.length < usizeRange := by
    obtain ⟨rfl, fits, _⟩ := safe.of_ok opened
    obtain ⟨descriptor, _, ranged⟩ := bind_eq_ok.mp blob
    obtain ⟨rfl, inside⟩ := (safely_checkedRange _ _ _).of_ok ranged
    have ranges : usizeRange = u64Range := rfl
    rw [List.length_take, List.length_drop]
    omega
  constructor
  · apply bind_ne_panic safe.ne_panic
    intro file opened
    apply bind_ne_panic (PersistedFile.safely_blob _).ne_panic
    intro metadata blob
    exact (accepts_readMetadata (small opened blob)).2 decodes
  · intro file metadata opened blob
    have fits := small opened blob
    have same : openWith codec bytes = readMetadata codec metadata := by
      unfold openWith
      rw [opened, bind_ok, blob, bind_ok]
    constructor
    · rw [same]
      exact (accepts_readMetadata fits).1
    · have reserves : Records (fun capacity => capacity * 12 ≤ metadata.length)
          (openWithReserving codec bytes) (openWith codec bytes) := by
        apply (Records.lift _).bind
        intro other found
        obtain rfl := Except.ok.inj (opened.symm.trans found)
        apply (Records.lift _).bind
        intro content read
        obtain rfl := Except.ok.inj (blob.symm.trans read)
        exact records_readMetadata fits
      exact reserves []

theorem openWith_format_dot : ∃ bytes costs capacities,
    (openWithReserving charCodec bytes).run.run [] = (.ok costs, capacities) ∧
    (∀ capacity ∈ capacities, capacity * 12 ≤ 56) ∧
    openWith charCodec bytes = .ok costs ∧ costs.deletion '.' = .zero ∧
    costs.deletion 'a' = .one := by
  obtain ⟨metadata, format, size⟩ : ∃ metadata, Formats charCodec metadata
      ⟨.one, .one, .one, [], [('.', .zero)], []⟩ ∧ metadata.length = 56 := by
    have rule : RuleField charCodec (pushBytes [] [46, 0, 0, 0] ++
        u32Layout.write CostBits.zero.bits) ('.', .zero) :=
      ⟨_, _, rfl, ⟨[46, 0, 0, 0], by decide, rfl, by decide +kernel⟩, costField_bits _⟩
    have rules := fields_cons.mpr ⟨_, [], rfl, rule, fields_nil.mpr rfl⟩
    refine ⟨_, ⟨_, _, _, _, _, _, _, rfl, costField_bits _, costField_bits _, costField_bits _,
      ⟨by decide, rfl⟩, ⟨by decide, rfl⟩, ⟨by decide, rfl⟩, ⟨_, _, _, rfl, fields_nil.mpr rfl,
      rules, fields_nil.mpr rfl⟩, by simp, by simp, by simp⟩, by decide +kernel⟩
  obtain ⟨bytes, file, _, opened, blob⟩ := writeFile_openFile (.inl rfl) charCodec (by decide)
    (show metadata.length < 2 ^ 63 by rw [size]; decide)
  obtain ⟨accepts, capacities, ran, bounded⟩ :=
    (openWith_format charCodec charCodec_decodes bytes).2 file metadata opened blob
  have returned := (accepts _).mpr ⟨_, format, rfl⟩
  rw [returned] at ran
  rw [size] at bounded
  exact ⟨bytes, _, capacities, ran, bounded, returned, rfl, rfl⟩

end CustomCosts
end Yurine
