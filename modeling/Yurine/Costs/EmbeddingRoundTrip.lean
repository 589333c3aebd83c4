import Yurine.Costs.EmbeddingRows

/-! Embedding-store files are canonical and are read back. A store maps each of its tokens to a
row of its matrix. Saving sorts the tokens by their encodings and permutes the rows with them, so
a file depends on that map alone, whatever the numbers of the rows are. -/
namespace Yurine
open Outcome Offsets Sorting LittleEndian CustomCosts

variable {T : Type}

section Values
variable {K V W κ : Type} [LinearOrder κ] {order : List (K × V)} {lookup : K → Option V}

theorem Lists.mapValues (lists : Lists order lookup) (f : V → W) :
    Lists (order.map (Prod.map id f)) (fun k => (lookup k).map f) := by
  constructor
  · simpa [Function.comp_def] using lists.distinct
  · intro k w
    simp only [List.mem_map, Prod.exists, Prod.map_apply, id_eq, Prod.mk.injEq, lists.entries,
      Option.map_eq_some_iff]
    constructor
    · rintro ⟨_, v, found, rfl, rfl⟩
      exact ⟨v, found, rfl⟩
    · rintro ⟨v, found, rfl⟩
      exact ⟨k, v, found, rfl, rfl⟩

theorem inKeyOrder_mapValues (key : K → κ) (order : List (K × V)) (f : V → W) :
    inKeyOrder key (order.map (Prod.map id f)) = (inKeyOrder key order).map (Prod.map id f) := by
  symm
  apply List.map_insertionSort
  intros
  exact Iff.rfl

end Values

variable [DecidableEq T]

namespace EmbeddingStoreBuilder
variable {builder : EmbeddingStoreBuilder T}

/-- The builders that a program can make; dimensions are machine words. -/
inductive Reachable : EmbeddingStoreBuilder T → Prop where
  | new (dimension : NonZero) (word : dimension.val < usizeRange) : Reachable (new dimension)
  | insert {builder next : EmbeddingStoreBuilder T} {normalization : Normalization} {token : T}
      {embedding : List U32} {previous : Option (List U32)} : Reachable builder →
      builder.insert normalization token embedding = .ok (previous, next) → Reachable next

/-- Every token has a row of the matrix. -/
structure WellFormed (builder : EmbeddingStoreBuilder T) : Prop where
  numbered : Numbered builder.embeddingIndices builder.embeddingIndices.keys.length
  matrix : builder.embeddings.length =
    builder.embeddingIndices.keys.length * builder.dimension.val
  dimension : builder.dimension.val < usizeRange

theorem WellFormed.insert (wf : builder.WellFormed) {normalization : Normalization} {token : T}
    {embedding : List U32} {previous : Option (List U32)} {next : EmbeddingStoreBuilder T}
    (inserted : builder.insert normalization token embedding = .ok (previous, next)) :
    next.WellFormed := by
  have rowed : builder.Rowed := ⟨wf.numbered, wf.matrix⟩
  by_cases wrong : embedding.length ≠ builder.dimension.val
  · rw [insert_of_wrong wrong] at inserted
    cases inserted
  have fits := not_not.mp wrong
  rw [insert_of_length fits] at inserted
  obtain ⟨_, _, placed⟩ := bind_eq_ok.mp inserted
  have size : (embedding.map (normalization.scale embedding)).length = builder.dimension.val := by
    rw [List.length_map, fits]
  obtain ⟨_, _, writes⟩ := (rowed.ensures_place token size).of_ok placed
  exact ⟨writes.rowed.numbered, writes.rowed.matrix, writes.dimension.symm ▸ wf.dimension⟩

theorem Reachable.wellFormed (reachable : builder.Reachable) : builder.WellFormed := by
  induction reachable with
  | new dimension word => exact ⟨.empty, by simp [EmbeddingStoreBuilder.new], word⟩
  | insert _ inserted ih => exact ih.insert inserted

end EmbeddingStoreBuilder
namespace EmbeddingStore
variable {store : EmbeddingStore T} {validate : RowCheck}

/-- What a store says of a token: its row of the matrix. -/
def row (store : EmbeddingStore T) (token : T) : Option (List U32) :=
  (store.embeddingIndices.lookup token).map fun index =>
    rowAt store.dimension.val store.embeddings.asSlice index.val

/-- The stores that a program can build or open. -/
inductive Reachable : EmbeddingStore T → Prop where
  | built {builder : EmbeddingStoreBuilder T} : builder.Reachable → Reachable builder.build
  | opened {store : EmbeddingStore T} {codec : TokenCodec U32 T} {bytes : List UInt8} :
      openWith codec bytes = .ok store → Reachable store

def RowsValid (validate : RowCheck) (store : EmbeddingStore T) : Prop :=
  ∀ row ∈ chunksExact store.dimension.val store.embeddings.asSlice, validate row = .ok ⟨⟩

structure WellFormed (store : EmbeddingStore T) : Prop where
  numbered : Numbered store.embeddingIndices store.len
  matrix : store.embeddings.asSlice.length = store.len * store.dimension.val
  dimension : store.dimension.val < usizeRange
  cached : ∀ rows, store.validatedRows = some rows → rows = store.len

theorem addToken_eq_ok {codec : TokenCodec U32 T} {blob : List UInt8} {indices next : RuleMap T U32}
    {entry : (Nat × Nat) × Nat} (added : addToken codec blob indices entry = .ok next) :
    ∃ token i, indices.lookup token = none ∧ i.val = entry.2 ∧ next = indices.insert token i := by
  obtain ⟨bytes, _, added⟩ := bind_eq_ok.mp added
  obtain ⟨token, _, added⟩ := bind_eq_ok.mp added
  split at added
  · rename_i fits
    split at added
    · cases added
    · rename_i absent
      cases added
      exact ⟨token, ⟨entry.2, fits⟩, Option.not_isSome_iff_eq_none.mp absent, rfl, rfl⟩
  · cases added

theorem numbered_addTokens {codec : TokenCodec U32 T} {blob : List UInt8}
    {windows : List (Nat × Nat)} {rows : Nat} {indices found : RuleMap T U32}
    (numbered : Numbered indices rows)
    (added : (windows.zipIdx rows).foldlM (addToken codec blob) indices = .ok found) :
    Numbered found (rows + windows.length) := by
  induction windows generalizing rows indices with
  | nil =>
    cases added
    exact numbered
  | cons bounds windows ih =>
    rw [List.zipIdx_cons, List.foldlM_cons] at added
    obtain ⟨next, first, rest⟩ := bind_eq_ok.mp added
    obtain ⟨token, i, fresh, number, rfl⟩ := addToken_eq_ok first
    have all := ih (numbered.insert fresh number) rest
    rwa [Nat.add_assoc, Nat.add_comm 1] at all

theorem readDimension_lt {bytes : List UInt8} {dimension : NonZero}
    (read : readDimension bytes = .ok dimension) : dimension.val < usizeRange := by
  obtain ⟨⟨version, reader⟩, _, read⟩ := bind_eq_ok.mp read
  simp only at read
  by_cases other : version ≠ costMetadataVersion
  · rw [if_pos other] at read
    cases read
  rw [if_neg other] at read
  obtain ⟨⟨value, next⟩, word, read⟩ := bind_eq_ok.mp read
  have small := MetadataReader.u64_lt word
  split at read
  · obtain ⟨found, same, read⟩ := bind_eq_ok.mp read
    obtain ⟨_, _, read⟩ := bind_eq_ok.mp read
    cases same
    cases read
    exact small
  · cases read

theorem wellFormed_openWith {codec : TokenCodec U32 T} {bytes : List UInt8}
    (opened : openWith codec bytes = .ok store) : store.WellFormed := by
  obtain ⟨file, _, opened⟩ := bind_eq_ok.mp opened
  obtain ⟨metadata, _, opened⟩ := bind_eq_ok.mp opened
  obtain ⟨dimension, read, opened⟩ := bind_eq_ok.mp opened
  obtain ⟨offsets, _, opened⟩ := bind_eq_ok.mp opened
  obtain ⟨blob, _, opened⟩ := bind_eq_ok.mp opened
  obtain ⟨embeddings, _, opened⟩ := bind_eq_ok.mp opened
  obtain ⟨expected, product, opened⟩ := bind_eq_ok.mp opened
  split at opened
  · cases opened
  rename_i length
  obtain ⟨indices, added, opened⟩ := bind_eq_ok.mp opened
  cases opened
  have numbered := numbered_addTokens .empty added
  rw [Nat.zero_add, length_windows] at numbered
  have product := okOr_eq_ok.mp product
  unfold checkedMul at product
  split at product
  · cases product
    refine ⟨numbered.count ▸ numbered, ?_, readDimension_lt read, ?_⟩
    · rw [EmbeddingStore.len, numbered.count]
      exact not_not.mp length
    · rintro rows ⟨⟩
      exact numbered.count.symm
  · cases product

theorem Reachable.wellFormed (reachable : store.Reachable) : store.WellFormed := by
  cases reachable with
  | built built =>
    obtain ⟨numbered, matrix, dimension⟩ := built.wellFormed
    exact ⟨numbered, matrix, dimension, nofun⟩
  | opened opened => exact wellFormed_openWith opened

namespace WellFormed

theorem rowCount (wf : store.WellFormed) :
    store.embeddings.asSlice.length / store.dimension.val = store.len := by
  rw [wf.matrix, Nat.mul_div_cancel _ (Nat.pos_of_ne_zero store.dimension.property)]

theorem rowInside (wf : store.WellFormed) {i : Nat} (inside : i < store.len) :
    i * store.dimension.val + store.dimension.val ≤ store.embeddings.asSlice.length := by
  rw [wf.matrix, ← Nat.succ_mul]
  exact Nat.mul_le_mul_right _ inside

/-- A store of valid rows passes its check, if the size of its matrix is a machine word. -/
theorem verify_eq (wf : store.WellFormed) (valid : store.RowsValid validate) :
    store.verify validate = if store.len * store.dimension.val < usizeRange then .ok ⟨⟩
      else fail (.invalidFile "embedding matrix length overflows") := by
  unfold verify checkedMul
  split
  · rw [okOr_some, bind_ok, if_neg (not_not.mpr wf.matrix)]
    apply forM_eq_ok.mpr
    rintro ⟨row, i⟩ mem
    have inside : i < store.len := by
      have position := List.mem_zipIdx mem
      rw [length_chunksExact, wf.rowCount] at position
      omega
    have cached : ¬ store.validatedRows.any (fun rows => rows ≤ i) = true := by
      cases found : store.validatedRows with
      | none => exact Bool.false_ne_true
      | some rows =>
        rw [wf.cached rows found, Option.any_some, decide_eq_true_eq]
        exact not_le.mpr inside
    rw [if_neg cached]
    exact valid row (List.fst_mem_of_mem_zipIdx mem)
  · rfl

/-- A token gets its row, whether the checks of the rows are cached or not. -/
theorem get_eq_row (wf : store.WellFormed) (valid : store.RowsValid validate)
    (small : store.embeddings.asSlice.length < usizeRange) (token : T) :
    store.get validate token = store.row token := by
  unfold get row
  cases found : store.embeddingIndices.lookup token with
  | none => rfl
  | some i =>
    have number := wf.numbered.inside token i found
    have inside := wf.rowInside number
    have checked : validate (rowAt store.dimension.val store.embeddings.asSlice i.val) = .ok ⟨⟩ :=
      valid _ (mem_chunksExact.mpr ⟨i.val, wf.rowCount ▸ number, rfl⟩)
    have start : checkedMul i.val store.dimension.val = some (i.val * store.dimension.val) :=
      if_pos (by omega)
    have stop : checkedAdd (i.val * store.dimension.val) store.dimension.val =
        some (i.val * store.dimension.val + store.dimension.val) := if_pos (by omega)
    simp only [Option.bind_eq_bind, Option.bind_some, start, stop, if_pos inside,
      Nat.add_sub_cancel_left, Option.map_some]
    cases cache : store.validatedRows with
    | none => rfl
    | some rows => exact if_pos ⟨wf.cached rows cache ▸ number, checked⟩

end WellFormed
section Saving
variable {codec : TokenCodec U32 T} {enc : T → List UInt8} {order : List (T × U32)}

def metadata (store : EmbeddingStore T) : List UInt8 :=
  u32Layout.write costMetadataVersion ++ encode 8 store.dimension.val

/-- The sections of a store whose rows are written in this order. -/
def sections (store : EmbeddingStore T) (rows : List (List UInt8 × U32)) :
    List (SectionKind × SectionData) := [
  (.embeddingTokenOffsets, .u64 (offsetsFrom 0 (rows.map Prod.fst))),
  (.embeddingTokenBlob, .bytes (rows.map Prod.fst).flatten store.len),
  (.embeddings, .f32Rows store.embeddings.asSlice (rows.map fun row => row.2.val)
    store.dimension.val),
  (.costMetadata, .bytes store.metadata 1)]

/-- The rows in the order of the file. -/
def savedRows (enc : T → List UInt8) (order : List (T × U32)) : List (List UInt8 × U32) :=
  (inKeyOrder (tokenKey enc) order).map (Prod.map enc id)

theorem encodeRows_ok (encodes : Encodes codec enc) (order : List (T × U32)) :
    encodeRows codec order = .ok (order.map (Prod.map enc id)) := by
  apply mapM_ok
  rintro ⟨token, i⟩ _
  obtain ⟨bytes, encoded, checked⟩ := bind_eq_ok.mp (encodes.encode token)
  obtain ⟨decoded, decodes, checked⟩ := bind_eq_ok.mp checked
  split at checked
  · cases checked
  · rename_i same
    cases checked
    rw [encoded, bind_ok, decodes, bind_ok, if_neg same]
    rfl

/-- What is saved is a file of the sections, with the tokens sorted. -/
theorem saveWith_eq (encodes : Encodes codec enc)
    (lists : Lists order fun token => store.embeddingIndices.lookup token) :
    store.saveWith validate order codec = (do
      store.verify validate
      writeFile .embeddingStore codec (store.sections (savedRows enc order))) := by
  have distinct : ((savedRows enc order).map Prod.fst).Nodup :=
    (lists.ordered _).distinct_rows encodes.injective
  have sorted : sortByKey (fun row => byteKey row.1) (order.map (Prod.map enc id)) =
      savedRows enc order := sortByKey_map byteKey enc order
  have unlike : ¬ (windows (savedRows enc order)).any (fun pair => pair.1.1 = pair.2.1) = true := by
    rw [List.any_eq_true]
    rintro ⟨pair, mem, same⟩
    exact windows_distinct distinct pair mem (of_decide_eq_true same)
  rw [saveWith, encodeRows_ok encodes, bind_ok]
  simp only [sorted, if_neg unlike]
  rfl

theorem length_order (lists : Lists order fun token => store.embeddingIndices.lookup token) :
    order.length = store.len := by
  have keys := lists_entriesOf store.embeddingIndices
  have same : (order.map Prod.fst).Perm ((entriesOf store.embeddingIndices).map Prod.fst) := by
    apply (List.perm_ext_iff_of_nodup lists.distinct keys.distinct).mpr
    intro token
    simp only [List.mem_map, Prod.exists, lists.entries, keys.entries]
  have length := same.length_eq
  rw [List.length_map, List.length_map] at length
  rw [length, len, entriesOf, List.length_map, AList.keys, List.keys, List.length_map]

theorem length_inKeyOrder {κ : Type} [LinearOrder κ] (key : T → κ)
    (lists : Lists order fun token => store.embeddingIndices.lookup token) :
    (inKeyOrder key order).length = store.len := by
  rw [inKeyOrder, length_sortByKey, length_order lists]

theorem length_savedRows (enc : T → List UInt8)
    (lists : Lists order fun token => store.embeddingIndices.lookup token) :
    (savedRows enc order).length = store.len := by
  rw [savedRows, List.length_map, length_inKeyOrder _ lists]

theorem WellFormed.savedRow_inside (wf : store.WellFormed)
    (lists : Lists order fun token => store.embeddingIndices.lookup token) :
    ∀ i ∈ (savedRows enc order).map (fun row => row.2.val),
      i * store.dimension.val + store.dimension.val ≤ store.embeddings.asSlice.length := by
  intro i mem
  simp only [savedRows, List.map_map, List.mem_map, Function.comp_apply, Prod.map_snd, id_eq] at mem
  obtain ⟨⟨token, index⟩, listed, rfl⟩ := mem
  exact wf.rowInside (wf.numbered.inside token index (((lists.ordered _).entries _ _).mp listed))

theorem WellFormed.matches_sections (wf : store.WellFormed)
    (lists : Lists order fun token => store.embeddingIndices.lookup token)
    (small : layoutLen codec.id (store.sections (savedRows enc order)) < u64Range) :
    ∀ entry ∈ store.sections (savedRows enc order), entry.2.Matches entry.1 := by
  have below : ∀ entry ∈ store.sections (savedRows enc order), entry.2.size < u64Range :=
    fun entry mem => (size_le_layoutEnd _ mem).trans_lt small
  have length := length_savedRows enc lists
  simp only [sections, List.forall_mem_cons, List.not_mem_nil, false_implies, implies_true,
    and_true, SectionData.size, length_offsetsFrom, List.length_map, length] at below ⊢
  obtain ⟨offsets, blob, matrix, _⟩ := below
  refine ⟨⟨?_, by rintro _ _ _ ⟨⟩, ?_, ?_⟩, SectionData.matches_bytes rfl _ ?_,
    ⟨by rintro _ ⟨⟩, ?_, ?_, ?_⟩, SectionData.matches_bytes rfl _ (by decide)⟩
  · rintro _ ⟨⟩ n mem
    exact ((wellFormed_offsetsFrom _).le_length mem).trans_lt blob
  · rintro _ _ ⟨⟩
    rfl
  · show _ < _
    simp only [SectionData.count, length_offsetsFrom, List.length_map, length]
    omega
  · show store.len < _
    omega
  · rintro _ _ _ ⟨⟩
    exact wf.savedRow_inside lists
  · rintro _ _ ⟨⟩
    rfl
  · simp only [SectionData.count, List.length_map, length]
    omega

theorem laid_sections (lists : Lists order fun token => store.embeddingIndices.lookup token)
    (words : ∀ n ∈ offsetsFrom 0 ((savedRows enc order).map Prod.fst), n < u64Range) :
    Laid .embeddingStore (store.sections (savedRows enc order)) := by
  apply Laid.embeddingStore
  · rw [SectionData.offsets_u64 words]
    exact wellFormed_offsetsFrom _
  · simp [SectionData.count, length_savedRows enc lists]

end Saving
section Opening
variable {codec : TokenCodec U32 T} {enc : T → List UInt8} {order : List (T × U32)}
open MetadataReader

omit [DecidableEq T] in
theorem readDimension_metadata (word : store.dimension.val < usizeRange) :
    readDimension store.metadata = .ok store.dimension := by
  have length : store.metadata.length = 12 := by
    simp [metadata, u32Layout_faithful.length_write]
    rfl
  have here : (MetadataReader.new store.metadata).At store.metadata :=
    new_at (by rw [length]; decide)
  have word32 : Recognizes True At (u32 (R := U32)) _ := recognizes_u32
  have word64 : Recognizes True At (u64 (R := U32)) _ := recognizes_u64
  obtain ⟨_, version, later⟩ := word32.complete _ _ _ costMetadataVersion rfl here
  rw [← List.append_nil (encode 8 store.dimension.val)] at later
  obtain ⟨_, dimension, last⟩ := word64.complete _ _ _ store.dimension.val ⟨word, rfl⟩ later
  apply bind_eq_ok.mpr ⟨_, version, _⟩
  apply bind_eq_ok.mpr ⟨_, dimension, _⟩
  simp only [dif_pos store.dimension.property]
  apply bind_eq_ok.mpr ⟨store.dimension, rfl, _⟩
  exact bind_eq_ok.mpr ⟨⟨⟩, (decides_finish last).eq_ok.mpr rfl, rfl⟩

/-- The tokens of a file are numbered in its order. -/
theorem addTokens_ok (decodes : ∀ token, codec.decode (enc token) = .ok token) {tokens : List T}
    (distinct : tokens.Nodup) (few : tokens.length ≤ 2 ^ 32) :
    ∃ indices, (windows (offsetsFrom 0 (tokens.map enc))).zipIdx.foldlM
        (addToken codec (tokens.map enc).flatten) ∅ = .ok indices ∧
      ∀ token i, indices.lookup token = some i ↔ tokens[i.val]? = some token := by
  have cuts := wellFormed_offsetsFrom (tokens.map enc)
  have whole := pieces_offsetsFrom (tokens.map enc)
  have count : (windows (offsetsFrom 0 (tokens.map enc))).length = tokens.length := by simp
  have loop := Ensures.foldlM_zipIdx (ε := Error U32) (E := fun _ => False)
    (l := windows (offsetsFrom 0 (tokens.map enc))) (f := addToken codec (tokens.map enc).flatten)
    (s := ∅) (motive := fun n (indices : RuleMap T U32) => ∀ token i,
      indices.lookup token = some i ↔ i.val < n ∧ tokens[i.val]? = some token) (by simp) ?_
  · obtain ⟨indices, added, entries⟩ := loop.returns
    refine ⟨indices, added, fun token i => (entries token i).trans ?_⟩
    rw [count, and_iff_right_iff_imp]
    exact fun found => (List.getElem?_eq_some_iff.mp found).1
  · intro n inside indices entries
    have here : n < tokens.length := count ▸ inside
    obtain ⟨ordered, bounded⟩ := cuts.window (List.getElem_mem inside)
    have cut : piece (tokens.map enc).flatten (windows (offsetsFrom 0 (tokens.map enc)))[n] =
        enc tokens[n] := by
      have same := congrArg (·[n]?) whole
      simpa [pieces, List.getElem?_map, List.getElem?_eq_getElem, inside, here] using same
    have fresh : indices.lookup tokens[n] = none := by
      by_contra known
      obtain ⟨i, found⟩ := Option.ne_none_iff_exists'.mp known
      obtain ⟨before, same⟩ := (entries _ i).mp found
      have repeated := (List.getElem?_inj here distinct).mp
        ((List.getElem?_eq_getElem here).trans same.symm)
      omega
    have decoded : codec.decode (piece (tokens.map enc).flatten
        (windows (offsetsFrom 0 (tokens.map enc)))[n]) = .ok tokens[n] := by
      rw [cut, decodes]
    unfold addToken
    rw [slice_ok ordered bounded, bind_ok]
    rw [piece] at decoded
    rw [decoded, bind_ok, dif_pos (by omega), if_neg (by rw [fresh]; exact Bool.false_ne_true)]
    intro token i
    by_cases same : token = tokens[n]
    · rw [same, AList.lookup_insert, Option.some.injEq]
      constructor
      · rintro rfl
        exact ⟨Nat.lt_succ_self n, List.getElem?_eq_getElem here⟩
      · rintro ⟨_, found⟩
        apply Fin.ext
        exact (List.getElem?_inj here distinct).mp
          ((List.getElem?_eq_getElem here).trans found.symm)
    · rw [AList.lookup_insert_ne same, entries, Nat.lt_succ_iff_lt_or_eq]
      constructor
      · rintro ⟨before, found⟩
        exact ⟨.inl before, found⟩
      · rintro ⟨before | rfl, found⟩
        · exact ⟨before, found⟩
        · rw [List.getElem?_eq_getElem here] at found
          exact absurd (Option.some.inj found).symm same

/-- The matrix of a file has the rows in its order. -/
def savedMatrix (store : EmbeddingStore T) (rows : List (List UInt8 × U32)) : List U32 :=
  (rows.map fun row => row.2.val).flatMap (rowAt store.dimension.val store.embeddings.asSlice)

theorem WellFormed.length_savedMatrix (wf : store.WellFormed) (enc : T → List UInt8)
    (lists : Lists order fun token => store.embeddingIndices.lookup token) :
    (store.savedMatrix (savedRows enc order)).length = store.len * store.dimension.val := by
  rw [savedMatrix, SectionData.length_rows (wf.savedRow_inside lists), List.length_map,
    length_savedRows enc lists]

/-- A saved store opens over its rows in the order of the file. -/
theorem writeFile_openWith (encodes : Encodes codec enc) (wf : store.WellFormed)
    (lists : Lists order fun token => store.embeddingIndices.lookup token)
    (short : (utf8 codec.id).length ≤ maxCodecIdLen)
    (small : layoutLen codec.id (store.sections (savedRows enc order)) < u64Range) :
    ∃ bytes indices, writeFile .embeddingStore codec (store.sections (savedRows enc order)) =
        .ok bytes ∧
      openWith codec bytes = .ok ⟨store.dimension, indices,
        .mapped (store.savedMatrix (savedRows enc order)), some store.len⟩ ∧
      ∀ token i, indices.lookup token = some i ↔
        ((inKeyOrder (tokenKey enc) order).map Prod.fst)[i.val]? = some token := by
  have matched := wf.matches_sections lists small
  have offsetsIn : (.embeddingTokenOffsets, .u64 (offsetsFrom 0 ((savedRows enc order).map Prod.fst)))
      ∈ store.sections (savedRows enc order) := by simp [sections]
  have blobIn : (.embeddingTokenBlob, .bytes ((savedRows enc order).map Prod.fst).flatten store.len)
      ∈ store.sections (savedRows enc order) := by simp [sections]
  have matrixIn : (.embeddings, .f32Rows store.embeddings.asSlice
      ((savedRows enc order).map fun row => row.2.val) store.dimension.val)
      ∈ store.sections (savedRows enc order) := by simp [sections]
  have constantsIn : (.costMetadata, .bytes store.metadata 1)
      ∈ store.sections (savedRows enc order) := by simp [sections]
  have words := (matched _ offsetsIn).words _ rfl
  obtain ⟨bytes, descriptors, writes, holds, opens, _⟩ :=
    writeFile_opens short (laid_sections lists words) (List.Perm.refl _) matched small
  have count := length_savedRows enc lists
  have tokens : (savedRows enc order).map Prod.fst =
      ((inKeyOrder (tokenKey enc) order).map Prod.fst).map enc := by
    simp [savedRows, Function.comp_def]
  have length := wf.length_savedMatrix enc lists
  obtain ⟨_, readsOffsets⟩ := holds.readsBack offsetsIn (matched _ offsetsIn)
  obtain ⟨_, readsBlob⟩ := holds.readsBack blobIn (matched _ blobIn)
  obtain ⟨_, readsMatrix⟩ := holds.readsBack matrixIn (matched _ matrixIn)
  obtain ⟨_, readsConstants⟩ := holds.readsBack constantsIn (matched _ constantsIn)
  have offsets := readsOffsets.offsets _ rfl rfl
  have blob := readsBlob.bytes
  have matrix : PersistedFile.mappedSlice (R := U32) ⟨bytes, .embeddingStore, descriptors⟩ u32Layout
      4 .embeddings = .ok (store.savedMatrix (savedRows enc order)) :=
    readsMatrix.rows _ _ _ rfl rfl
  have constants := readsConstants.bytes
  have few : ((inKeyOrder (tokenKey enc) order).map Prod.fst).length ≤ 2 ^ 32 := by
    rw [List.length_map, length_inKeyOrder _ lists]
    exact wf.numbered.few
  obtain ⟨indices, added, entries⟩ := addTokens_ok encodes.decode (lists.ordered _).distinct few
  rw [← tokens] at added
  refine ⟨bytes, indices, writes, ?_, entries⟩
  apply bind_eq_ok.mpr ⟨_, opens, _⟩
  apply bind_eq_ok.mpr ⟨_, constants, _⟩
  apply bind_eq_ok.mpr ⟨_, readDimension_metadata wf.dimension, _⟩
  apply bind_eq_ok.mpr ⟨_, offsets, _⟩
  apply bind_eq_ok.mpr ⟨_, blob, _⟩
  apply bind_eq_ok.mpr ⟨_, matrix, _⟩
  have rows : (offsetsFrom 0 ((savedRows enc order).map Prod.fst)).length - 1 = store.len := by
    rw [length_offsetsFrom, List.length_map, count, Nat.add_sub_cancel]
  have fits : store.len * store.dimension.val < usizeRange := by
    have size := (size_le_layoutEnd _ matrixIn).trans_lt small
    rw [SectionData.size, List.length_map, count] at size
    simp only [usizeRange, u64Range] at size ⊢
    omega
  simp only [rows]
  apply bind_eq_ok.mpr ⟨store.len * store.dimension.val, okOr_eq_ok.mpr (if_pos fits), _⟩
  rw [if_neg (not_not.mpr length)]
  exact bind_eq_ok.mpr ⟨indices, added, rfl⟩

section Opened
variable {indices : RuleMap T U32}

theorem WellFormed.rowAt_saved (wf : store.WellFormed)
    (lists : Lists order fun token => store.embeddingIndices.lookup token) {i : Nat}
    (inside : i < (inKeyOrder (tokenKey enc) order).length) :
    rowAt store.dimension.val (store.savedMatrix (savedRows enc order)) i =
      rowAt store.dimension.val store.embeddings.asSlice (inKeyOrder (tokenKey enc) order)[i].2.val := by
  rw [savedMatrix, rowAt_flatMap (fun j mem =>
    SectionData.length_rowAt (wf.savedRow_inside lists j mem)) (by simpa [savedRows] using inside)]
  simp [savedRows]

theorem WellFormed.row_opened (wf : store.WellFormed)
    (lists : Lists order fun token => store.embeddingIndices.lookup token)
    (entries : ∀ token i, indices.lookup token = some i ↔
      ((inKeyOrder (tokenKey enc) order).map Prod.fst)[i.val]? = some token) (token : T) :
    row ⟨store.dimension, indices, .mapped (store.savedMatrix (savedRows enc order)),
      some store.len⟩ token = store.row token := by
  have ordered := lists.ordered (tokenKey enc)
  have few : (inKeyOrder (tokenKey enc) order).length ≤ 2 ^ 32 :=
    length_inKeyOrder (tokenKey enc) lists ▸ wf.numbered.few
  unfold row
  cases found : store.embeddingIndices.lookup token with
  | none =>
    have missing : indices.lookup token = none := by
      by_contra known
      obtain ⟨i, here⟩ := Option.ne_none_iff_exists'.mp known
      obtain ⟨⟨_, v⟩, mem, rfl⟩ := List.mem_map.mp (List.mem_of_getElem? ((entries _ i).mp here))
      have listed := (ordered.entries _ v).mp mem
      rw [show store.embeddingIndices.lookup _ = none from found] at listed
      cases listed
    rw [missing]
    rfl
  | some number =>
    obtain ⟨i, inside, here⟩ := List.mem_iff_getElem.mp ((ordered.entries token number).mpr found)
    have placed : indices.lookup token = some ⟨i, by omega⟩ := by
      rw [entries, List.getElem?_map, List.getElem?_eq_getElem inside, here]
      rfl
    rw [placed, Option.map_some, Option.map_some, Option.some.injEq]
    exact (wf.rowAt_saved lists inside).trans (by rw [here])

theorem WellFormed.rowsValid_opened (wf : store.WellFormed) (valid : store.RowsValid validate)
    (lists : Lists order fun token => store.embeddingIndices.lookup token) :
    RowsValid validate (⟨store.dimension, indices, .mapped (store.savedMatrix (savedRows enc order)),
      some store.len⟩ : EmbeddingStore T) := by
  intro row mem
  obtain ⟨i, inside, rfl⟩ := mem_chunksExact.mp mem
  have positive := Nat.pos_of_ne_zero store.dimension.property
  simp only [Storage.asSlice] at inside ⊢
  rw [wf.length_savedMatrix enc lists, Nat.mul_div_cancel _ positive,
    ← length_inKeyOrder (tokenKey enc) lists] at inside
  apply valid
  apply mem_chunksExact.mpr ⟨_, _, (wf.rowAt_saved lists inside).symm⟩
  rw [wf.rowCount]
  exact wf.numbered.inside _ _ (((lists.ordered (tokenKey enc)).entries _ _).mp
    (List.getElem_mem inside))

end Opened
end Opening
section Canonical
variable {codec : TokenCodec U32 T} {enc : T → List UInt8} {first second : EmbeddingStore T}
  {order other : List (T × U32)}

/-- The entries of a store with their rows in place of the numbers of the rows. -/
def content (store : EmbeddingStore T) (order : List (T × U32)) : List (T × List U32) :=
  order.map (Prod.map id fun index =>
    rowAt store.dimension.val store.embeddings.asSlice index.val)

/-- Equal maps from tokens to rows have equal content in the order of the file. -/
theorem content_eq (encodes : Encodes codec enc)
    (listed : Lists order fun token => first.embeddingIndices.lookup token)
    (others : Lists other fun token => second.embeddingIndices.lookup token)
    (same : ∀ token, first.row token = second.row token) :
    first.content (inKeyOrder (tokenKey enc) order) =
      second.content (inKeyOrder (tokenKey enc) other) := by
  have left : Lists (first.content order) first.row := listed.mapValues _
  have right : Lists (second.content other) second.row := others.mapValues _
  rw [← funext same] at right
  rw [content, content, ← inKeyOrder_mapValues, ← inKeyOrder_mapValues]
  exact left.inKeyOrder_eq encodes.tokenKey_injective right

omit [DecidableEq T] in
theorem savedTokens_eq (store : EmbeddingStore T) (order : List (T × U32)) :
    (savedRows enc order).map Prod.fst =
      (store.content (inKeyOrder (tokenKey enc) order)).map (fun entry => enc entry.1) := by
  simp [savedRows, content, Function.comp_def]

omit [DecidableEq T] in
theorem savedMatrix_eq (store : EmbeddingStore T) (order : List (T × U32)) :
    store.savedMatrix (savedRows enc order) =
      (store.content (inKeyOrder (tokenKey enc) order)).flatMap Prod.snd := by
  simp [savedMatrix, savedRows, content, List.flatMap_map]

/-- Stores that map the same tokens to the same rows are saved as the same file. -/
theorem saveWith_congr (encodes : Encodes codec enc) (wf : first.WellFormed)
    (wf' : second.WellFormed) (valid : first.RowsValid validate) (valid' : second.RowsValid validate)
    (listed : Lists order fun token => first.embeddingIndices.lookup token)
    (others : Lists other fun token => second.embeddingIndices.lookup token)
    (dimension : first.dimension = second.dimension)
    (same : ∀ token, first.row token = second.row token) :
    first.saveWith validate order codec = second.saveWith validate other codec := by
  have equal := content_eq encodes listed others same
  have tokens : (savedRows enc order).map Prod.fst = (savedRows enc other).map Prod.fst := by
    rw [savedTokens_eq first, savedTokens_eq second, equal]
  have matrix : first.savedMatrix (savedRows enc order) =
      second.savedMatrix (savedRows enc other) := by
    rw [savedMatrix_eq, savedMatrix_eq, equal]
  have count : first.len = second.len := by
    have length := congrArg List.length tokens
    rwa [List.length_map, List.length_map, length_savedRows enc listed,
      length_savedRows enc others] at length
  have rowCount : (savedRows enc order).length = (savedRows enc other).length := by
    rw [length_savedRows enc listed, length_savedRows enc others, count]
  have alike : List.Forall₂ (Alike U32) (first.sections (savedRows enc order))
      (second.sections (savedRows enc other)) := by
    rw [sections, sections, tokens, count, metadata, metadata, dimension]
    refine .cons (.refl _) (.cons (.refl _) (.cons ⟨rfl, ?_, ?_, ?_⟩ (.cons (.refl _) .nil)))
    · simp only [SectionData.byteLen, SectionData.elementCount, List.length_map, rowCount]
    · simp only [SectionData.elementCount, List.length_map, rowCount]
    · have written := congrArg u32Layout.writeAll matrix
      rw [savedMatrix, savedMatrix, dimension] at written
      rw [SectionData.writeTo_rows (dimension ▸ wf.savedRow_inside listed),
        SectionData.writeTo_rows (wf'.savedRow_inside others)]
      exact congrArg _ written
  rw [saveWith_eq encodes listed, saveWith_eq encodes others, wf.verify_eq valid,
    wf'.verify_eq valid', count, dimension, writeFile_congr alike]

end Canonical

/-- A store with valid rows is saved and opened with the same rows, and stores with the same rows
are saved as equal files, whatever the numbers of the rows and the orders of the maps. -/
theorem saves_canonically (validate : RowCheck) (codec : TokenCodec U32 T)
    (contract : ∀ token, codec.RoundTrips token) (short : (utf8 codec.id).length ≤ 255) :
    (∀ (store : EmbeddingStore T) (order : List (T × U32)), store.Reachable →
      store.RowsValid validate → Lists order (fun token => store.embeddingIndices.lookup token) →
      ∃ rows, encodeRows codec order = .ok rows ∧
        (layoutLen codec.id (store.sections (sortByKey (fun row => byteKey row.1) rows)) < 2 ^ 64 →
          ∃ bytes opened, store.saveWith validate order codec = .ok bytes ∧
            openWith codec bytes = .ok opened ∧ opened.dimension = store.dimension ∧
            (∀ token, token ∈ opened.embeddingIndices ↔ token ∈ store.embeddingIndices) ∧
            (∀ token, opened.get validate token = store.get validate token) ∧
            ∀ token, (opened.get validate token).isSome ↔ token ∈ store.embeddingIndices)) ∧
    ∀ (first second : EmbeddingStore T) (order other : List (T × U32)), first.Reachable →
      second.Reachable → first.RowsValid validate → second.RowsValid validate →
      Lists order (fun token => first.embeddingIndices.lookup token) →
      Lists other (fun token => second.embeddingIndices.lookup token) →
      first.dimension = second.dimension → (∀ token, first.row token = second.row token) →
      first.saveWith validate order codec = second.saveWith validate other codec := by
  obtain ⟨enc, encodes⟩ := exists_encodes contract
  constructor
  · intro store order reachable valid lists
    have wf := reachable.wellFormed
    refine ⟨_, encodeRows_ok encodes order, fun small => ?_⟩
    rw [show sortByKey _ (order.map (Prod.map enc id)) = savedRows enc order from
      sortByKey_map byteKey enc order] at small
    obtain ⟨bytes, indices, writes, opens, entries⟩ :=
      writeFile_openWith encodes wf lists short small
    have fits : store.len * store.dimension.val < usizeRange := by
      have matrixIn : (.embeddings, .f32Rows store.embeddings.asSlice
          ((savedRows enc order).map fun row => row.2.val) store.dimension.val)
          ∈ store.sections (savedRows enc order) := by simp [sections]
      have size := (size_le_layoutEnd _ matrixIn).trans_lt small
      rw [SectionData.size, List.length_map, length_savedRows enc lists] at size
      rw [usizeRange]
      omega
    have get := wf.get_eq_row valid (wf.matrix ▸ fits)
    have getOpened := (wellFormed_openWith opens).get_eq_row (wf.rowsValid_opened valid lists)
      ((wf.length_savedMatrix enc lists).trans_lt fits)
    have rows := wf.row_opened lists entries
    refine ⟨bytes, _, ?_, opens, rfl, fun token => ?_, fun token => ?_, fun token => ?_⟩
    · rw [saveWith_eq encodes lists, wf.verify_eq valid, if_pos fits]
      exact writes
    · rw [← AList.lookup_isSome, ← AList.lookup_isSome]
      have same := congrArg Option.isSome (rows token)
      simp only [row, Option.isSome_map] at same
      rw [same]
    · rw [getOpened, get, rows]
    · rw [getOpened, rows, row, Option.isSome_map, AList.lookup_isSome]
  · intro first second order other reachable reachable' valid valid' listed others
    exact saveWith_congr encodes reachable.wellFormed reachable'.wellFormed valid valid' listed others

/-- The check and the normalization of the unit vectors of the plane. -/
private def unitCheck : RowCheck := fun row =>
  if row = [0, 0x3f800000] ∨ row = [0x3f800000, 0] then .ok ⟨⟩
  else fail (.invalidFile "embedding is not L2-normalized")

private def unitNormalization : Normalization := ⟨unitCheck, fun _ element => element⟩

private def planeBuilder (tokens : List (Char × U32)) (rows : List U32) :
    EmbeddingStoreBuilder Char :=
  ⟨⟨2, by decide⟩, tokens.foldl (fun indices entry => indices.insert entry.1 entry.2) ∅, rows⟩

theorem saves_canonically_units : ∃ (first second opened : EmbeddingStore Char) (bytes : List UInt8),
    first = (planeBuilder [('b', 0), ('a', 1)] [0x3f800000, 0, 0, 0x3f800000]).build ∧
    second = (planeBuilder [('a', 0), ('b', 1)] [0, 0x3f800000, 0x3f800000, 0]).build ∧
    first.saveWith unitCheck (entriesOf first.embeddingIndices) charCodec = .ok bytes ∧
    second.saveWith unitCheck (entriesOf second.embeddingIndices) charCodec = .ok bytes ∧
    openWith charCodec bytes = .ok opened ∧ opened.get unitCheck 'a' = some [0, 0x3f800000] ∧
    opened.get unitCheck 'b' = some [0x3f800000, 0] ∧ opened.get unitCheck 'c' = none := by
  have start : (planeBuilder [] []).Reachable := .new ⟨2, by decide⟩ (by decide)
  have insertB : (planeBuilder [] []).insert unitNormalization 'b' [0x3f800000, 0] =
      .ok (none, planeBuilder [('b', 0)] [0x3f800000, 0]) := by decide +kernel
  have insertA : (planeBuilder [('b', 0)] [0x3f800000, 0]).insert unitNormalization 'a'
      [0, 0x3f800000] = .ok (none, planeBuilder [('b', 0), ('a', 1)]
        [0x3f800000, 0, 0, 0x3f800000]) := by decide +kernel
  have insertA' : (planeBuilder [] []).insert unitNormalization 'a' [0, 0x3f800000] =
      .ok (none, planeBuilder [('a', 0)] [0, 0x3f800000]) := by decide +kernel
  have insertB' : (planeBuilder [('a', 0)] [0, 0x3f800000]).insert unitNormalization 'b'
      [0x3f800000, 0] = .ok (none, planeBuilder [('a', 0), ('b', 1)]
        [0, 0x3f800000, 0x3f800000, 0]) := by decide +kernel
  have first := (start.insert insertB).insert insertA
  have second := (start.insert insertA').insert insertB'
  obtain ⟨all, canonical⟩ := saves_canonically unitCheck charCodec charCodec_roundTrips (by decide)
  have valid : RowsValid unitCheck
      (planeBuilder [('b', 0), ('a', 1)] [0x3f800000, 0, 0, 0x3f800000]).build := by
    unfold RowsValid
    decide +kernel
  have valid' : RowsValid unitCheck
      (planeBuilder [('a', 0), ('b', 1)] [0, 0x3f800000, 0x3f800000, 0]).build := by
    unfold RowsValid
    decide +kernel
  obtain ⟨rows, encoded, saves⟩ := all _ _ (.built first) valid (lists_entriesOf _)
  cases encoded
  obtain ⟨bytes, opened, saved, opens, _, _, get, _⟩ := saves (by decide +kernel)
  refine ⟨_, _, opened, bytes, rfl, rfl, saved, ?_, opens, ?_, ?_, ?_⟩
  · rw [← saved]
    refine canonical _ _ _ _ (.built second) (.built first) valid' valid (lists_entriesOf _)
      (lists_entriesOf _) rfl (fun token => ?_)
    by_cases a : token = 'a'
    · subst a
      decide +kernel
    by_cases b : token = 'b'
    · subst b
      decide +kernel
    simp only [row, planeBuilder, EmbeddingStoreBuilder.build, List.foldl_cons, List.foldl_nil,
      AList.lookup_insert_ne a, AList.lookup_insert_ne b, AList.lookup_empty, Option.map_none]
  · rw [get]
    decide +kernel
  · rw [get]
    decide +kernel
  · rw [get]
    decide +kernel

/-- A codec with an identifier of 256 bytes is refused. -/
theorem saves_refuses_longId : ∃ (validate : RowCheck) (codec : TokenCodec U32 Char)
    (store : EmbeddingStore Char),
    codec = { charCodec with id := String.ofList (List.replicate 256 'x') } ∧
    (∀ token, codec.RoundTrips token) ∧ store.Reachable ∧ store.RowsValid validate ∧
    Lists (entriesOf store.embeddingIndices) (fun token => store.embeddingIndices.lookup token) ∧
    store.saveWith validate (entriesOf store.embeddingIndices) codec =
      fail (.codecIdTooLong 256 255) :=
  ⟨fun _ => .ok ⟨⟩, _, EmbeddingStoreBuilder.build (.new ⟨2, by decide⟩), rfl,
    fun token output => charCodec_roundTrips (R := U32) token output, .built (.new _ (by decide)),
    fun _ _ => rfl, lists_entriesOf _, by decide +kernel⟩

end EmbeddingStore
end Yurine
