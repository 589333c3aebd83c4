import Yurine.Costs.CustomGrammar
import Mathlib.Algebra.Order.BigOperators.Group.List

/-! Custom-cost files are canonical and are read back. Under the contract of the codec the
encoded keys of the rules are distinct, so sorting them leaves one order only, and no check
of the reader rejects what the writer wrote. -/
namespace Yurine
open Outcome Offsets Sorting LittleEndian

section Order
variable {K V κ : Type} [LinearOrder κ] {key : K → κ} {order other : List (K × V)}
  {lookup : K → Option V}

/-- The entries of a map in the order of their keys. -/
def inKeyOrder (key : K → κ) (order : List (K × V)) : List (K × V) :=
  sortByKey (fun entry => key entry.1) order

theorem Lists.ordered (key : K → κ) (lists : Lists order lookup) :
    Lists (inKeyOrder key order) lookup :=
  lists.perm (sortByKey_perm _ _)

theorem Lists.strict (injective : Function.Injective key) (lists : Lists order lookup) :
    (inKeyOrder key order).Pairwise (fun a b => key a.1 < key b.1) := by
  have distinct := List.pairwise_map.mp (lists.ordered key).distinct
  apply ((sortByKey_sorted _ _).and distinct).imp
  rintro a b ⟨sorted, different⟩
  exact lt_of_le_of_ne sorted (fun same => different (injective same))

/-- A map has one order of its entries that is sorted by an injective key. -/
theorem Lists.inKeyOrder_eq (injective : Function.Injective key) (first : Lists order lookup)
    (second : Lists other lookup) : inKeyOrder key order = inKeyOrder key other := by
  apply eq_of_strict (first.strict injective) (second.strict injective)
  rintro ⟨k, v⟩
  rw [(first.ordered key).entries, (second.ordered key).entries]

theorem sortByKey_map {B : Type} (key : B → κ) (enc : K → B) (order : List (K × V)) :
    sortByKey (fun row => key row.1) (order.map (Prod.map enc id)) =
      (inKeyOrder (key ∘ enc) order).map (Prod.map enc id) := by
  symm
  apply List.map_insertionSort
  intros
  exact Iff.rfl

theorem Lists.distinct_rows {B : Type} {enc : K → B} (injective : Function.Injective enc)
    (lists : Lists order lookup) : ((order.map (Prod.map enc id)).map Prod.fst).Nodup := by
  have keys : (order.map (Prod.map enc id)).map Prod.fst = (order.map Prod.fst).map enc := by
    simp [Function.comp_def]
  rw [keys]
  exact lists.distinct.map injective

theorem windows_distinct {B : Type} {rows : List (B × V)} (distinct : (rows.map Prod.fst).Nodup) :
    ∀ pair ∈ windows rows, pair.1.1 ≠ pair.2.1 :=
  isChain_iff_windows.mp (List.pairwise_map.mp distinct).isChain

end Order

namespace CustomCosts
variable {T : Type}

/-- The keys by which the writer sorts its records. -/
def tokenKey (enc : T → List UInt8) (token : T) : List Nat := byteKey (enc token)

def pairKey (enc : T → List UInt8) (pair : T × T) : List Nat ×ₗ List Nat :=
  toLex (byteKey (enc pair.1), byteKey (enc pair.2))

/-- The rows of the file, in the order of the file. -/
def ruleRows (enc : T → List UInt8) (order : List (T × CostBits)) :
    List (List UInt8 × CostBits) :=
  (inKeyOrder (tokenKey enc) order).map (Prod.map enc id)

def pairRows (enc : T → List UInt8) (order : List ((T × T) × CostBits)) :
    List ((List UInt8 × List UInt8) × CostBits) :=
  (inKeyOrder (pairKey enc) order).map (Prod.map (Prod.map enc enc) id)

theorem sort_rules (enc : T → List UInt8) (order : List (T × CostBits)) :
    sortByKey (fun row => byteKey row.1) (order.map (Prod.map enc id)) = ruleRows enc order :=
  sortByKey_map byteKey enc order

theorem sort_pairs (enc : T → List UInt8) (order : List ((T × T) × CostBits)) :
    sortByKey (fun row => toLex (byteKey row.1.1, byteKey row.1.2))
      (order.map (Prod.map (Prod.map enc enc) id)) = pairRows enc order :=
  sortByKey_map (fun pair => toLex (byteKey pair.1, byteKey pair.2)) (Prod.map enc enc) order

variable [DecidableEq T] {codec : TokenCodec U32 T} {enc : T → List UInt8}
  {costs : CustomCosts T} {iteration : Iteration T}

/-- Every token is encoded as these bytes, which decode to it. -/
structure Encodes (codec : TokenCodec U32 T) (enc : T → List UInt8) : Prop where
  encode : ∀ token, encodeToken codec token = .ok (enc token)
  decode : ∀ token, codec.decode (enc token) = .ok token

theorem exists_encodes (contract : ∀ token, codec.RoundTrips token) :
    ∃ enc, Encodes codec enc := by
  have encoded (token : T) : ∃ bytes, codec.encode token [] = .ok ([] ++ bytes) ∧
      codec.decode bytes = .ok token := contract token []
  choose enc encodes decodes using encoded
  refine ⟨enc, fun token => ?_, decodes⟩
  unfold encodeToken
  rw [encodes, bind_ok, List.nil_append, decodes, bind_ok, if_neg (not_not.mpr rfl)]
  rfl

theorem Encodes.injective (encodes : Encodes codec enc) : Function.Injective enc := by
  intro a b same
  have decoded := encodes.decode a
  rw [same, encodes.decode b] at decoded
  exact (Except.ok.inj decoded).symm

section Writing

theorem Encodes.tokenKey_injective (encodes : Encodes codec enc) :
    Function.Injective (tokenKey enc) :=
  byteKey_injective.comp encodes.injective

theorem Encodes.pairKey_injective (encodes : Encodes codec enc) :
    Function.Injective (pairKey enc) := by
  rintro ⟨a, b⟩ ⟨c, d⟩ same
  obtain ⟨first, second⟩ := Prod.mk.inj (toLex.injective same)
  exact Prod.ext (encodes.tokenKey_injective first) (encodes.tokenKey_injective second)

theorem encodeRules_ok (encodes : Encodes codec enc) (order : List (T × CostBits)) :
    encodeRules codec order = .ok (order.map (Prod.map enc id)) := by
  refine mapM_ok (fun rule _ => ?_)
  rw [encodes.encode, bind_ok]
  rfl

theorem encodeSubstitutions_ok (encodes : Encodes codec enc) (iteration : Iteration T) :
    encodeSubstitutions codec iteration.substitutions =
      .ok (iteration.pairs.map (Prod.map (Prod.map enc enc) id)) := by
  unfold encodeSubstitutions
  rw [mapM_ok (g := fun entry => entry.2.map fun rule => ((enc entry.1, enc rule.1), rule.2)), bind_ok]
  · simp [Iteration.pairs, List.flatMap, List.map_flatten, Function.comp_def]
    rfl
  · intro entry _
    rw [encodes.encode, bind_ok]
    refine mapM_ok (fun rule _ => ?_)
    rw [encodes.encode, bind_ok]
    rfl

theorem rejectDuplicateEncodings_ok {rows : List (List UInt8 × CostBits)}
    (distinct : (rows.map Prod.fst).Nodup) : rejectDuplicateEncodings rows = .ok ⟨⟩ := by
  apply if_neg
  rw [List.any_eq_true]
  rintro ⟨pair, mem, same⟩
  exact windows_distinct distinct pair mem (of_decide_eq_true same)

/-- The writer succeeds, and its metadata is determined by the rules. -/
theorem encodeMetadata_ok (encodes : Encodes codec enc) (of : iteration.Of costs) :
    costs.encodeMetadata iteration codec = .ok (costs.metadata (pairRows enc iteration.pairs)
      (ruleRows enc iteration.deletions) (ruleRows enc iteration.insertions)) := by
  have pairs : ((pairRows enc iteration.pairs).map Prod.fst).Nodup :=
    (of.pairs.ordered _).distinct_rows (encodes.injective.prodMap encodes.injective)
  have deletions : ((ruleRows enc iteration.deletions).map Prod.fst).Nodup :=
    (of.deletions.ordered _).distinct_rows encodes.injective
  have insertions : ((ruleRows enc iteration.insertions).map Prod.fst).Nodup :=
    (of.insertions.ordered _).distinct_rows encodes.injective
  unfold encodeMetadata
  rw [encodeSubstitutions_ok encodes, bind_ok, encodeRules_ok encodes, bind_ok,
    encodeRules_ok encodes, bind_ok]
  simp only [sort_rules, sort_pairs]
  rw [rejectDuplicateEncodings_ok deletions, bind_ok, rejectDuplicateEncodings_ok insertions,
    bind_ok, if_neg]
  · rfl
  · rw [List.any_eq_true]
    rintro ⟨pair, mem, same⟩
    exact windows_distinct pairs pair mem (of_decide_eq_true same)

theorem encodeMetadata_congr {other : CustomCosts T} {order : Iteration T}
    (encodes : Encodes codec enc) (first : iteration.Of costs) (second : order.Of other)
    (same : costs.SameRules other) :
    costs.encodeMetadata iteration codec = other.encodeMetadata order codec := by
  have pairs := second.pairs
  have deletions := second.deletions
  have insertions := second.insertions
  rw [← funext same.substitutions] at pairs
  rw [← funext same.deletions] at deletions
  rw [← funext same.insertions] at insertions
  rw [encodeMetadata_ok encodes first, encodeMetadata_ok encodes second, pairRows, ruleRows,
    ruleRows, first.pairs.inKeyOrder_eq encodes.pairKey_injective pairs,
    first.deletions.inKeyOrder_eq encodes.tokenKey_injective deletions,
    first.insertions.inKeyOrder_eq encodes.tokenKey_injective insertions]
  unfold metadata
  rw [same.defaultSubstitution, same.defaultDeletion, same.defaultInsertion]
  rfl

end Writing

section Reading

theorem length_le_flatMap {α : Type} {record : α → List UInt8} {rows : List α} {row : α}
    (mem : row ∈ rows) : (record row).length ≤ (rows.flatMap record).length := by
  rw [List.length_flatMap]
  exact List.le_sum_of_mem (List.mem_map.mpr ⟨row, mem, rfl⟩)

theorem costField_bits (cost : CostBits) : CostField (u32Layout.write cost.bits) cost :=
  ⟨cost.bits, rfl, CostBits.new_bits cost⟩

theorem Encodes.tokenField (encodes : Encodes codec enc) {token : T}
    (small : (pushBytes [] (enc token)).length < u64Range) :
    TokenField codec (pushBytes [] (enc token)) token := by
  refine ⟨enc token, ?_, rfl, encodes.decode token⟩
  simp only [pushBytes, List.nil_append, List.length_append] at small
  omega

theorem Encodes.fields_rules (encodes : Encodes codec enc) (order : List (T × CostBits))
    (small : ((ruleRows enc order).flatMap ruleRecord).length < u64Range) :
    Fields (RuleField codec) ((ruleRows enc order).flatMap ruleRecord)
      (inKeyOrder (tokenKey enc) order) := by
  rw [ruleRows, List.flatMap_map] at small ⊢
  apply fields_flatMap
  intro rule mem
  have short := (length_le_flatMap mem).trans_lt small
  rw [ruleRecord, List.length_append, Prod.map_fst] at short
  exact ⟨_, _, rfl, encodes.tokenField (by omega), costField_bits rule.2⟩

theorem Encodes.fields_pairs (encodes : Encodes codec enc) (reachable : costs.Reachable)
    (of : iteration.Of costs)
    (small : ((pairRows enc iteration.pairs).flatMap substitutionRecord).length < u64Range) :
    Fields (SubstitutionField codec) ((pairRows enc iteration.pairs).flatMap substitutionRecord)
      (inKeyOrder (pairKey enc) iteration.pairs) := by
  rw [pairRows, List.flatMap_map] at small ⊢
  apply fields_flatMap
  intro rule mem
  have short := (length_le_flatMap mem).trans_lt small
  have split : substitutionRecord (Prod.map (Prod.map enc enc) id rule) =
      pushBytes [] (enc rule.1.1) ++ (pushBytes [] (enc rule.1.2) ++
        u32Layout.write rule.2.bits) := by
    simp [substitutionRecord, pushBytes]
  rw [split, List.length_append, List.length_append] at short
  refine ⟨_, _, _, split, encodes.tokenField (by omega), encodes.tokenField (by omega),
    costField_bits rule.2, fun same => ?_⟩
  have present := (of.pairs.entries _ _).mp (mem_sortByKey.mp mem)
  rw [← Prod.mk.eta (p := rule.1), same, reachable.different] at present
  cases present

/-- What the writer wrote is in the format, with the rules in the order of their keys. -/
theorem metadata_formats (encodes : Encodes codec enc) (reachable : costs.Reachable)
    (of : iteration.Of costs)
    (small : (costs.metadata (pairRows enc iteration.pairs) (ruleRows enc iteration.deletions)
      (ruleRows enc iteration.insertions)).length < u64Range) :
    Formats codec (costs.metadata (pairRows enc iteration.pairs)
        (ruleRows enc iteration.deletions) (ruleRows enc iteration.insertions))
      ⟨costs.defaultSubstitution, costs.defaultDeletion, costs.defaultInsertion,
        inKeyOrder (pairKey enc) iteration.pairs, inKeyOrder (tokenKey enc) iteration.deletions,
        inKeyOrder (tokenKey enc) iteration.insertions⟩ := by
  simp only [metadata, List.flatMap_append, List.append_assoc] at small ⊢
  simp only [List.length_append] at small
  have pairs := encodes.fields_pairs reachable of (by omega)
  have deletions := encodes.fields_rules iteration.deletions (by omega)
  have insertions := encodes.fields_rules iteration.insertions (by omega)
  have manyPairs := pairs.length_le SubstitutionField.length_le
  have manyDeletions := deletions.length_le RuleField.length_le
  have manyInsertions := insertions.length_le RuleField.length_le
  refine ⟨_, _, _, _, _, _, _, rfl, costField_bits _, costField_bits _, costField_bits _,
    ⟨?_, by rw [pairRows, List.length_map]⟩, ⟨?_, by rw [ruleRows, List.length_map]⟩,
    ⟨?_, by rw [ruleRows, List.length_map]⟩, ⟨_, _, _, rfl, pairs, deletions, insertions⟩,
    (of.pairs.ordered _).distinct, (of.deletions.ordered _).distinct,
    (of.insertions.ordered _).distinct⟩ <;> dsimp only <;> omega

/-- The reader accepts what the writer wrote and restores every rule. -/
theorem readMetadata_ok (encodes : Encodes codec enc) (reachable : costs.Reachable)
    (of : iteration.Of costs)
    (small : (costs.metadata (pairRows enc iteration.pairs) (ruleRows enc iteration.deletions)
      (ruleRows enc iteration.insertions)).length < usizeRange) :
    ∃ opened, readMetadata codec (costs.metadata (pairRows enc iteration.pairs)
        (ruleRows enc iteration.deletions) (ruleRows enc iteration.insertions)) = .ok opened ∧
      costs.SameRules opened := by
  have formats := metadata_formats encodes reachable of small
  refine ⟨_, ((accepts_readMetadata small).1 _).mpr ⟨_, formats, rfl⟩, ?_⟩
  obtain ⟨_, _, _, _, _, _, _, _, _, _, _, _, _, _, fields⟩ := formats
  obtain ⟨pairs, deletions, insertions⟩ := fields.lists
  exact ⟨rfl, rfl, rfl, congrFun ((of.pairs.ordered _).unique pairs),
    congrFun ((of.deletions.ordered _).unique deletions),
    congrFun ((of.insertions.ordered _).unique insertions)⟩

end Reading
section File

omit [DecidableEq T] in
/-- A file with the metadata of a policy is written and opened with it. -/
theorem writeFile_openFile {kind : FileKind} (costs : kind = .customCosts ∨
    kind = .cosineEmbeddingCosts) (codec : TokenCodec U32 T)
    (short : (utf8 codec.id).length ≤ maxCodecIdLen) {metadata : List UInt8}
    (small : metadata.length < 2 ^ 63) :
    ∃ bytes file, writeFile kind codec [(.costMetadata, .bytes metadata 1)] = .ok bytes ∧
      PersistedFile.openFile bytes kind codec = .ok file ∧
      file.blob (R := U32) .costMetadata = .ok metadata := by
  have fits : ∀ entry ∈ [(SectionKind.costMetadata, SectionData.bytes metadata 1)],
      entry.2.Fits U32 entry.1 := by
    intro entry mem
    cases List.mem_singleton.mp mem
    exact SectionData.fits_bytes rfl metadata (by decide)
  have written := ensures_writeFile kind short _ (by simp) (by simp) fits
  cases result : writeFile (R := U32) kind codec [(.costMetadata, .bytes metadata 1)] with
  | ok bytes =>
    rw [result] at written
    obtain ⟨descriptors, holds, opened, _⟩ := written
    refine ⟨bytes, _, rfl, ?_, holds.blob (List.mem_singleton_self _)⟩
    rw [opened]
    rcases costs with rfl | rfl
    · exact bind_eq_ok.mpr ⟨_, holds.requireExactSections, rfl⟩
    · exact bind_eq_ok.mpr ⟨_, holds.requireExactSections, rfl⟩
  | error failure =>
    rw [result] at written
    cases failure with
    | error reason =>
      have large := LE.le.trans written (layoutLen_le_room short _)
      simp [room, SectionData.size, headerLen, maxCodecIdLen, sectionEntryLen, u64Range] at large
      omega
    | panic => exact written.elim

/-- A policy built with the constructor and the setters is saved and opened with equal costs,
and policies with equal rules are saved as equal files, whatever the orders of the maps. -/
theorem save_open_canonical (codec : TokenCodec U32 T)
    (contract : ∀ token, codec.RoundTrips token) (short : (utf8 codec.id).length ≤ 255) :
    (∀ (costs : CustomCosts T) (iteration : Iteration T), costs.Reachable → iteration.Of costs →
      ∃ metadata, costs.encodeMetadata iteration codec = .ok metadata ∧
        (metadata.length < 2 ^ 63 → ∃ bytes opened, costs.saveWith iteration codec = .ok bytes ∧
          openWith codec bytes = .ok opened ∧ opened.substitution = costs.substitution ∧
          opened.deletion = costs.deletion ∧ opened.insertion = costs.insertion)) ∧
    ∀ (first second : CustomCosts T) (iteration order : Iteration T), iteration.Of first →
      order.Of second → first.SameRules second →
      first.saveWith iteration codec = second.saveWith order codec := by
  obtain ⟨enc, encodes⟩ := exists_encodes contract
  constructor
  · intro costs iteration reachable of
    refine ⟨_, encodeMetadata_ok encodes of, fun small => ?_⟩
    obtain ⟨bytes, file, saved, opened, blob⟩ := writeFile_openFile (.inl rfl) codec short small
    have inside := lt_of_lt_of_le small (by decide : 2 ^ 63 ≤ usizeRange)
    obtain ⟨restored, read, same⟩ := readMetadata_ok encodes reachable of inside
    obtain ⟨substitution, deletion, insertion⟩ := same.costs
    refine ⟨bytes, restored, ?_, ?_, substitution.symm, deletion.symm, insertion.symm⟩
    · exact bind_eq_ok.mpr ⟨_, encodeMetadata_ok encodes of, saved⟩
    · exact bind_eq_ok.mpr ⟨_, opened, bind_eq_ok.mpr ⟨_, blob, read⟩⟩
  · intro first second iteration order listed other same
    rw [saveWith, saveWith, encodeMetadata_congr encodes listed other same]

theorem save_open_canonical_rules : ∃ (first second opened : CustomCosts Char)
    (bytes : List UInt8),
    first = ((new .one .one .one).setSubstitution 'a' 'b' .zero).setDeletion '.' .zero ∧
    second = ((new .one .one .one).setDeletion '.' .zero).setSubstitution 'a' 'b' .zero ∧
    first.saveWith first.iterate charCodec = .ok bytes ∧
    second.saveWith second.iterate charCodec = .ok bytes ∧
    openWith charCodec bytes = .ok opened ∧ opened.substitution 'a' 'b' = .zero ∧
    opened.substitution 'b' 'a' = .one := by
  obtain ⟨all, canonical⟩ := save_open_canonical charCodec charCodec_roundTrips (by decide)
  obtain ⟨metadata, encoded, read⟩ :=
    all _ _ (.setDeletion (.setSubstitution (.new .one .one .one))) (iterate_of _)
  have small : metadata.length < 2 ^ 63 := by
    have evaluated : (encodeMetadata (setDeletion (setSubstitution (new .one .one .one) 'a' 'b'
        .zero) '.' .zero) (iterate (setDeletion (setSubstitution (new .one .one .one) 'a' 'b'
        .zero) '.' .zero)) charCodec).map List.length = .ok 84 := by decide +kernel
    rw [encoded] at evaluated
    have length : metadata.length = 84 := Except.ok.inj evaluated
    omega
  obtain ⟨bytes, opened, saved, reopened, substitution, _, _⟩ := read small
  refine ⟨_, _, opened, bytes, rfl, rfl, saved, ?_, reopened, ?_, ?_⟩
  · rw [← saved]
    exact canonical _ _ _ _ (iterate_of _) (iterate_of _)
      ⟨rfl, rfl, rfl, fun _ => rfl, fun _ => rfl, fun _ => rfl⟩
  · rw [substitution]
    rfl
  · rw [substitution]
    rfl

/-- A codec with an identifier of 256 bytes is refused. -/
theorem saveWith_longId : ∃ (codec : TokenCodec U32 Char) (costs : CustomCosts Char),
    codec = { charCodec with id := String.ofList (List.replicate 256 'x') } ∧
    costs = new .one .one .one ∧ (∀ token, codec.RoundTrips token) ∧ costs.Reachable ∧
    costs.iterate.Of costs ∧
    costs.saveWith costs.iterate codec = fail (.codecIdTooLong 256 255) :=
  ⟨_, _, rfl, rfl, fun token output => charCodec_roundTrips (R := U32) token output, .new _ _ _,
    iterate_of _, by decide +kernel⟩

end File
end CustomCosts
end Yurine
