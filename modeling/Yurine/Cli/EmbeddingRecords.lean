import Yurine.Cli.CostRules
import Yurine.Costs.EmbeddingRoundTrip

/-! What an embedding file says. Every line is a token with a vector, all vectors have the
dimension of the first one, and the store has the normalized vector of each token. -/
namespace Yurine.CostConfig
open Outcome CustomCosts Loading EmbeddingStoreBuilder

variable {T : Type}

/-- The line is this token with this vector. -/
def ReadsEmbedding (json : ConfigJson) (tokenizer : Tokenizer (CliError U32) T)
    (line : Option String) (record : T × List U32) : Prop :=
  ∃ text parsed, line = some text ∧ json.embedding text = .ok parsed ∧
    singleToken tokenizer parsed.token = .ok record.1 ∧ parsed.embedding = record.2

section Steps
variable [DecidableEq T] {normalization : Normalization} {builder next : EmbeddingStoreBuilder T}
  {record : T × List U32}

def put (scale : List U32 → U32 → U32) (builder : EmbeddingStoreBuilder T)
    (record : T × List U32) : EmbeddingStoreBuilder T :=
  if fits : builder.embeddings.length / builder.dimension.val < 2 ^ 32 then
    { builder with
      embeddingIndices := builder.embeddingIndices.insert record.1 ⟨_, fits⟩
      embeddings := builder.embeddings ++ record.2.map (scale record.2) }
  else builder

/-- The token is new and its vector is one for this builder. -/
structure Suits (normalization : Normalization) (builder : EmbeddingStoreBuilder T)
    (record : T × List U32) : Prop where
  length : record.2.length = builder.dimension.val
  check : normalization.check record.2 = .ok ⟨⟩
  fresh : builder.embeddingIndices.lookup record.1 = none
  room : builder.embeddings.length / builder.dimension.val < 2 ^ 32

theorem insert_eq_none : builder.insert normalization record.1 record.2 = .ok (none, next) ↔
    Suits normalization builder record ∧ next = put normalization.scale builder record := by
  obtain ⟨token, vector⟩ := record
  by_cases length : vector.length = builder.dimension.val
  · rw [insert_of_length length, bind_eq_ok]
    constructor
    · rintro ⟨_, check, placed⟩
      rw [place] at placed
      split at placed
      · obtain ⟨_, _, placed⟩ := bind_eq_ok.mp placed
        cases placed
      · rename_i fresh
        split at placed
        · rename_i room
          cases placed
          exact ⟨⟨length, check, fresh, room⟩, by rw [put, dif_pos room]⟩
        · cases placed
    · rintro ⟨suits, rfl⟩
      refine ⟨⟨⟩, suits.check, ?_⟩
      have fresh : builder.embeddingIndices.lookup token = none := suits.fresh
      rw [place, put, dif_pos suits.room]
      simp only [fresh, dif_pos suits.room]
      rfl
  · rw [insert_of_wrong length]
    constructor
    · intro impossible
      cases impossible
    · exact fun both => absurd both.1.length length

/-- The builder that a record is put into: the first record decides the dimension. -/
def opened (state : Option (EmbeddingStoreBuilder T)) (record : T × List U32) :
    Option (EmbeddingStoreBuilder T) :=
  match state with
  | some builder => some builder
  | none =>
    if nonzero : record.2.length ≠ 0 then some (EmbeddingStoreBuilder.new ⟨_, nonzero⟩) else none

def Takes (normalization : Normalization) (state : Option (EmbeddingStoreBuilder T))
    (record : T × List U32) : Prop :=
  ∃ builder, opened state record = some builder ∧ Suits normalization builder record

def take (scale : List U32 → U32 → U32) (state : Option (EmbeddingStoreBuilder T))
    (record : T × List U32) : Option (EmbeddingStoreBuilder T) :=
  (opened state record).map fun builder => put scale builder record

variable {json : ConfigJson} {tokenizer : Tokenizer (CliError U32) T} {path : Path}

theorem insertRecord_eq_ok {lineNumber : Nat} :
    insertRecord normalization path builder record.1 record.2 lineNumber = .ok next ↔
      Suits normalization builder record ∧ next = put normalization.scale builder record := by
  rw [insertRecord, bind_eq_ok]
  constructor
  · rintro ⟨⟨previous, store⟩, inserted, last⟩
    rw [withContext_eq_ok, raise_eq_ok, ofLibrary_ok_iff] at inserted
    cases previous with
    | some row => cases last
    | none =>
      cases last
      exact insert_eq_none.mp inserted
  · rintro ⟨suits, rfl⟩
    refine ⟨(none, put normalization.scale builder record), ?_, rfl⟩
    rw [withContext_eq_ok, raise_eq_ok, ofLibrary_ok_iff]
    exact insert_eq_none.mpr ⟨suits, rfl⟩

theorem loads_loadEmbedding : Loads (loadEmbedding json normalization tokenizer path)
    (ReadsEmbedding json tokenizer) (Takes normalization) (take normalization.scale) := by
  rintro state ⟨line, i⟩ next
  -- what follows once the builder is known
  have rest (builder : EmbeddingStoreBuilder T) (record : T × List U32) :
      (insertRecord normalization path builder record.1 record.2 (i + 1) >>= fun store =>
        (.ok (some store) : ConfigResult (Option (EmbeddingStoreBuilder T)))) = .ok next ↔
      Suits normalization builder record ∧
        next = some (put normalization.scale builder record) := by
    rw [bind_eq_ok]
    constructor
    · rintro ⟨store, inserted, last⟩
      cases last
      obtain ⟨suits, rfl⟩ := insertRecord_eq_ok.mp inserted
      exact ⟨suits, rfl⟩
    · rintro ⟨suits, rfl⟩
      exact ⟨_, insertRecord_eq_ok.mpr ⟨suits, rfl⟩, rfl⟩
  unfold loadEmbedding
  constructor
  · intro ran
    obtain ⟨text, read, ran⟩ := bind_eq_ok.mp ran
    obtain ⟨parsed, parses, ran⟩ := bind_eq_ok.mp ran
    obtain ⟨token, one, ran⟩ := bind_eq_ok.mp ran
    rw [withContext_eq_ok, raise_eq_ok, okOr_eq_ok] at read
    rw [withContext_eq_ok, ofJson_eq_ok] at parses
    rw [withContext_eq_ok, raise_eq_ok] at one
    have reads : ReadsEmbedding json tokenizer line (token, parsed.embedding) :=
      ⟨text, parsed, read, parses, one, rfl⟩
    cases state with
    | some builder =>
      obtain ⟨suits, rfl⟩ := (rest _ (token, parsed.embedding)).mp ran
      exact ⟨_, reads, ⟨builder, rfl, suits⟩, rfl⟩
    | none =>
      obtain ⟨dimension, nonzero, ran⟩ := bind_eq_ok.mp ran
      rw [orContext_eq_ok] at nonzero
      split at nonzero
      · rename_i positive
        cases nonzero
        obtain ⟨suits, rfl⟩ := (rest _ (token, parsed.embedding)).mp ran
        have opens : opened (none : Option (EmbeddingStoreBuilder T)) (token, parsed.embedding) =
            some (EmbeddingStoreBuilder.new ⟨_, positive⟩) := dif_pos positive
        refine ⟨_, reads, ⟨_, opens, suits⟩, ?_⟩
        rw [take, opens, Option.map_some]
      · cases nonzero
  · rintro ⟨⟨token, vector⟩, ⟨text, parsed, read, parses, one, same⟩, ⟨builder, opens, suits⟩, rfl⟩
    simp only at one same
    subst same
    refine bind_eq_ok.mpr ⟨text, by rw [withContext_eq_ok, raise_eq_ok, okOr_eq_ok]; exact read, ?_⟩
    refine bind_eq_ok.mpr ⟨parsed, by rw [withContext_eq_ok, ofJson_eq_ok]; exact parses, ?_⟩
    refine bind_eq_ok.mpr ⟨token, by rw [withContext_eq_ok, raise_eq_ok]; exact one, ?_⟩
    have result : take normalization.scale state (token, parsed.embedding) =
        some (put normalization.scale builder (token, parsed.embedding)) := by
      rw [take, opens, Option.map_some]
    cases state with
    | some other =>
      cases opens
      exact (rest _ (token, parsed.embedding)).mpr ⟨suits, result⟩
    | none =>
      rw [opened] at opens
      split at opens
      · rename_i positive
        cases opens
        refine bind_eq_ok.mpr ⟨⟨_, positive⟩, orContext_eq_ok.mpr (dif_pos positive), ?_⟩
        exact (rest _ (token, parsed.embedding)).mpr ⟨suits, result⟩
      · cases opens

end Steps
section Records
variable [DecidableEq T] {normalization : Normalization} {builder : EmbeddingStoreBuilder T}
  {record : T × List U32} {records : List (T × List U32)}

/-- Vectors of this dimension for different tokens, not more than there are numbers. -/
structure Rows (normalization : Normalization) (dimension : NonZero)
    (records : List (T × List U32)) : Prop where
  length : ∀ record ∈ records, record.2.length = dimension.val
  check : ∀ record ∈ records, normalization.check record.2 = .ok ⟨⟩
  distinct : (records.map Prod.fst).Nodup
  few : records.length ≤ 2 ^ 32

theorem length_div (rowed : builder.Rowed) :
    builder.embeddings.length / builder.dimension.val = builder.len := by
  rw [rowed.matrix, Nat.mul_div_cancel _ (Nat.pos_of_ne_zero builder.dimension.property)]

theorem suits_iff (rowed : builder.Rowed) : Suits normalization builder record ↔
    record.2.length = builder.dimension.val ∧ normalization.check record.2 = .ok ⟨⟩ ∧
      builder.row record.1 = none ∧ builder.len < 2 ^ 32 := by
  have fresh : builder.row record.1 = none ↔ builder.embeddingIndices.lookup record.1 = none :=
    Option.map_eq_none_iff
  rw [fresh, ← length_div rowed]
  constructor
  · rintro ⟨length, check, new, room⟩
    exact ⟨length, check, new, room⟩
  · rintro ⟨length, check, new, room⟩
    exact ⟨length, check, new, room⟩

theorem writes_put (rowed : builder.Rowed) (suits : Suits normalization builder record)
    (scale : List U32 → U32 → U32) :
    builder.Writes record.1 (record.2.map (scale record.2)) (put scale builder record) := by
  rw [put, dif_pos suits.room]
  apply rowed.appends suits.fresh (length_div rowed)
  rw [List.length_map, suits.length]

theorem len_put (rowed : builder.Rowed) (suits : Suits normalization builder record)
    (scale : List U32 → U32 → U32) : (put scale builder record).len = builder.len + 1 := by
  rw [put, dif_pos suits.room]
  exact (rowed.numbered.insert suits.fresh (length_div rowed)).count

/-- Records are put into a builder of their dimension that has none of them. -/
theorem takesAll_some (rowed : builder.Rowed) :
    TakesAll (Takes normalization) (take normalization.scale) (some builder) records ↔
      (∀ record ∈ records, record.2.length = builder.dimension.val ∧
        normalization.check record.2 = .ok ⟨⟩ ∧ builder.row record.1 = none) ∧
      (records.map Prod.fst).Nodup ∧ (records ≠ [] → builder.len + records.length ≤ 2 ^ 32) := by
  induction records generalizing builder with
  | nil => simp [TakesAll]
  | cons record records ih =>
    have first : Takes normalization (some builder) record ↔
        Suits normalization builder record := by
      constructor
      · rintro ⟨_, ⟨⟩, suits⟩
        exact suits
      · intro suits
        exact ⟨builder, rfl, suits⟩
    rw [TakesAll, first, List.forall_mem_cons, List.map_cons, List.nodup_cons, List.length_cons]
    by_cases suits : Suits normalization builder record
    · have written := writes_put rowed suits normalization.scale
      have rest := ih written.rowed
      rw [len_put rowed suits, written.dimension, written.row] at rest
      have here := (suits_iff rowed).mp suits
      have others (other : T × List U32) : Function.update builder.row record.1
          (some (record.2.map (normalization.scale record.2))) other.1 = none ↔
          other.1 ≠ record.1 ∧ builder.row other.1 = none := by
        by_cases same : other.1 = record.1
        · simp [same]
        · simp [same]
      simp only [others] at rest
      rw [and_iff_right suits]
      refine rest.trans ?_
      simp only [List.mem_map, not_exists, not_and]
      constructor
      · rintro ⟨all, distinct, room⟩
        refine ⟨⟨⟨here.1, here.2.1, here.2.2.1⟩, fun other mem => ?_⟩, ⟨?_, distinct⟩, ?_⟩
        · exact ⟨(all other mem).1, (all other mem).2.1, (all other mem).2.2.2⟩
        · exact fun other mem => (all other mem).2.2.1
        · intro _
          have bound := here.2.2.2
          cases records with
          | nil => exact bound
          | cons other more =>
            have later := room (List.cons_ne_nil other more)
            omega
      · rintro ⟨⟨_, all⟩, ⟨different, distinct⟩, room⟩
        have bound := room (List.cons_ne_nil record records)
        refine ⟨fun other mem => ?_, distinct, fun _ => by omega⟩
        obtain ⟨length, check, new⟩ := all other mem
        exact ⟨length, check, different other mem, new⟩
    · apply iff_of_false
      · exact fun both => suits both.1
      · rintro ⟨⟨⟨length, check, new⟩, _⟩, _, room⟩
        have bound := room (List.cons_ne_nil record records)
        exact suits ((suits_iff rowed).mpr ⟨length, check, new, by omega⟩)

/-- A builder that has taken the records has their rows besides its own. -/
theorem foldl_take (rowed : builder.Rowed)
    (taken : TakesAll (Takes normalization) (take normalization.scale) (some builder) records) :
    ∃ last, records.foldl (take normalization.scale) (some builder) = some last ∧ last.Rowed ∧
      last.dimension = builder.dimension ∧ last.len = builder.len + records.length ∧
      ∀ token, last.row token = ((records.lookup token).map fun vector =>
        vector.map (normalization.scale vector)).or (builder.row token) := by
  induction records generalizing builder with
  | nil => exact ⟨builder, rfl, rowed, rfl, rfl, fun token => rfl⟩
  | cons record records ih =>
    have distinct := ((takesAll_some rowed).mp taken).2.1
    rw [List.map_cons, List.nodup_cons] at distinct
    obtain ⟨⟨_, same, suits⟩, taken⟩ := taken
    cases same
    have written := writes_put rowed suits normalization.scale
    obtain ⟨last, ran, whole, dimension, len, rows⟩ := ih written.rowed taken
    refine ⟨last, ran, whole, dimension.trans written.dimension, ?_, fun token => ?_⟩
    · rw [len, len_put rowed suits, List.length_cons]
      omega
    · rw [rows, written.row, List.lookup_cons]
      by_cases same : token = record.1
      · subst same
        have absent : records.lookup record.1 = none := by
          rw [List.lookup_eq_none_iff]
          intro entry mem
          rw [bne_iff_ne]
          intro equal
          exact distinct.1 (List.mem_map.mpr ⟨entry, mem, equal.symm⟩)
        simp [absent, Function.update_self]
      · rw [Function.update_of_ne same, beq_eq_false_iff_ne.mpr same]

/-- The store has the normalized vectors of the records. -/
structure Stores (normalization : Normalization) (dimension : NonZero)
    (records : List (T × List U32)) (store : EmbeddingStore T) : Prop where
  width : store.dimension.val = dimension.val
  len : store.len = records.length
  matrix : store.embeddings.asSlice.length = records.length * dimension.val
  row : ∀ token, store.row token = (records.lookup token).map fun vector =>
    vector.map (normalization.scale vector)

theorem takesAll_none {record : T × List U32} (nonzero : record.2.length ≠ 0) :
    TakesAll (Takes normalization) (take normalization.scale) none (record :: records) ↔
      TakesAll (Takes normalization) (take normalization.scale)
        (some (EmbeddingStoreBuilder.new ⟨_, nonzero⟩)) (record :: records) := by
  simp only [TakesAll, Takes, take, opened, dif_pos nonzero]

/-- The first record decides the dimension, and the others have to be like it. -/
theorem takesAll_iff_rows (nonempty : records ≠ []) :
    TakesAll (Takes normalization) (take normalization.scale) none records ↔
      ∃ dimension, Rows normalization dimension records := by
  obtain ⟨record, records, rfl⟩ := List.exists_cons_of_ne_nil nonempty
  by_cases nonzero : record.2.length ≠ 0
  · rw [takesAll_none nonzero, takesAll_some (Rowed.new _)]
    constructor
    · rintro ⟨all, distinct, room⟩
      refine ⟨⟨_, nonzero⟩, fun other mem => (all other mem).1, fun other mem => (all other mem).2.1,
        distinct, ?_⟩
      exact (Nat.le_add_left _ _).trans (room nonempty)
    · rintro ⟨dimension, rows⟩
      have same : (⟨_, nonzero⟩ : NonZero) = dimension :=
        Subtype.ext (rows.length record List.mem_cons_self)
      rw [same]
      refine ⟨fun other mem => ⟨rows.length other mem, rows.check other mem, rfl⟩, rows.distinct, ?_⟩
      exact fun _ => (Nat.zero_add _).trans_le rows.few
  · apply iff_of_false
    · rintro ⟨⟨builder, opens, _⟩, _⟩
      rw [opened, dif_neg nonzero] at opens
      cases opens
    · rintro ⟨dimension, rows⟩
      have length := rows.length record List.mem_cons_self
      rw [not_not.mp nonzero] at length
      exact dimension.property length.symm

theorem foldl_take_none (nonempty : records ≠ []) {dimension : NonZero}
    (rows : Rows normalization dimension records) :
    ∃ last, records.foldl (take normalization.scale) none = some last ∧ last.Rowed ∧
      last.dimension.val = dimension.val ∧ last.len = records.length ∧
      ∀ token, last.row token = (records.lookup token).map fun vector =>
        vector.map (normalization.scale vector) := by
  have taken := (takesAll_iff_rows nonempty).mpr ⟨dimension, rows⟩
  obtain ⟨record, records, rfl⟩ := List.exists_cons_of_ne_nil nonempty
  have length := rows.length record List.mem_cons_self
  have nonzero : record.2.length ≠ 0 := length.trans_ne dimension.property
  obtain ⟨last, ran, whole, sized, len, found⟩ :=
    foldl_take (Rowed.new _) ((takesAll_none nonzero).mp taken)
  refine ⟨last, ?_, whole, ?_, len.trans (Nat.zero_add _), fun token => ?_⟩
  · rw [← ran, List.foldl_cons, List.foldl_cons]
    congr 1
    simp only [take, opened, dif_pos nonzero]
  · rw [sized]
    exact length
  · exact (found token).trans (Option.or_none)

theorem stores_foldl (nonempty : records ≠ []) {dimension : NonZero}
    (rows : Rows normalization dimension records) :
    ∃ last, records.foldl (take normalization.scale) none = some last ∧
      Stores normalization dimension records last.build := by
  obtain ⟨last, ran, whole, width, len, row⟩ := foldl_take_none nonempty rows
  refine ⟨last, ran, width, len, ?_, row⟩
  have size := whole.matrix
  rwa [len, width] at size

variable {json : ConfigJson} {tokenizer : Tokenizer (CliError U32) T} {path : Path}
  {files : Files} {format : DataFormat} {store : EmbeddingStore T}

/-- An embedding file is loaded when it has lines, all of them records of one dimension with
tokens of their own. -/
theorem loadEmbeddings_eq_ok :
    loadEmbeddings json normalization tokenizer path files format = .ok store ↔
      ∃ file records, files path = some file ∧
        List.Forall₂ (ReadsEmbedding json tokenizer) file.lines records ∧ records ≠ [] ∧
        (∃ dimension, Rows normalization dimension records) ∧
        (records.foldl (take normalization.scale) none).map EmbeddingStoreBuilder.build =
          some store := by
  rw [loadEmbeddings]
  simp only [bind_eq_ok, openJsonl_eq_ok, loads_loadEmbedding.foldlM_ok, orContext_eq_ok]
  constructor
  · rintro ⟨_, ⟨file, found, rfl⟩, _, ⟨records, reads, taken, rfl⟩, built⟩
    have nonempty : records ≠ [] := by
      rintro rfl
      cases built
    exact ⟨file, records, found, reads, nonempty, (takesAll_iff_rows nonempty).mp taken, built⟩
  · rintro ⟨file, records, found, reads, nonempty, rows, built⟩
    exact ⟨_, ⟨file, found, rfl⟩, _, ⟨records, reads, (takesAll_iff_rows nonempty).mpr rows, rfl⟩,
      built⟩

/-- A configuration of embedding costs with these constants and records. -/
structure Embedded (json : ConfigJson) (files : Files) (normalization : Normalization)
    (tokenizer : Tokenizer (CliError U32) T) (path : Path) (missing deletion insertion : CostBits)
    (dimension : NonZero) (records : List (T × List U32)) : Prop where
  read : ∃ file source missingValue deletionValue insertionValue recordsFile,
    files path = some file ∧
    json.config file = .ok (.embedding 1 source missingValue deletionValue insertionValue) ∧
    CostBits.new missingValue = .ok missing ∧ CostBits.new deletionValue = .ok deletion ∧
    CostBits.new insertionValue = .ok insertion ∧
    files ((path.parent.getD Path.here).join source.path) = some recordsFile ∧
    List.Forall₂ (ReadsEmbedding json tokenizer) recordsFile.lines records
  nonempty : records ≠ []
  rows : Rows normalization dimension records

theorem policy_embedding {base : Path} {version missingValue deletionValue insertionValue : U32}
    {source : DataSource} {policy : RuntimeCosts T} :
    (CostConfig.embedding version source missingValue deletionValue insertionValue).policy json
      files normalization tokenizer base = .ok policy ↔ version = 1 ∧
      ∃ store missing deletion insertion, loadEmbeddings json normalization tokenizer
          (base.join source.path) files source.format = .ok store ∧
        CostBits.new missingValue = .ok missing ∧ CostBits.new deletionValue = .ok deletion ∧
        CostBits.new insertionValue = .ok insertion ∧
        policy = .embedding ⟨store, deletion, insertion, missing⟩ := by
  rw [CostConfig.policy]
  simp only [bind_eq_ok, parseCost_eq_ok]
  constructor
  · rintro ⟨_, valid, store, loaded, missing, first, deletion, second, insertion, third, last⟩
    cases last
    exact ⟨validateVersion_eq_ok.mp valid, store, missing, deletion, insertion, loaded, first,
      second, third, rfl⟩
  · rintro ⟨valid, store, missing, deletion, insertion, loaded, first, second, third, rfl⟩
    exact ⟨⟨⟩, validateVersion_eq_ok.mpr valid, store, loaded, missing, first, deletion, second,
      insertion, third, rfl⟩

theorem policy_custom_ne {base : Path} {version : U32} {defaults : CustomDefaults}
    {source : DataSource} {costs : CosineEmbeddingCosts T} :
    (CostConfig.custom version defaults source).policy json files normalization tokenizer base ≠
      .ok (.embedding costs) := by
  intro loaded
  obtain ⟨_, _, _, same⟩ := policy_custom.mp loaded
  cases same

/-- A configuration of embedding costs is loaded exactly when its constants are valid and the
lines of its file are records of one dimension about different tokens, and then every token has
the normalized vector of its record. -/
theorem load_embedding (json : ConfigJson) (files : Files) (normalization : Normalization)
    (tokenizer : Tokenizer (CliError U32) T) (path : Path) :
    (∀ costs, load json files normalization tokenizer path = .ok (.embedding costs) →
      ∃ missing deletion insertion dimension records,
        Embedded json files normalization tokenizer path missing deletion insertion dimension
          records) ∧
    ∀ missing deletion insertion dimension records,
      Embedded json files normalization tokenizer path missing deletion insertion dimension
        records →
      ∃ store, load json files normalization tokenizer path =
          .ok (.embedding ⟨store, deletion, insertion, missing⟩) ∧
        Stores normalization dimension records store := by
  simp only [load_eq_ok]
  constructor
  · rintro costs ⟨file, config, found, parsed, loaded⟩
    cases config with
    | custom version defaults source => exact absurd loaded policy_custom_ne
    | embedding version source missingValue deletionValue insertionValue =>
      obtain ⟨rfl, store, missing, deletion, insertion, loaded, first, second, third, _⟩ :=
        policy_embedding.mp loaded
      obtain ⟨opened, records, here, reads, nonempty, ⟨dimension, rows⟩, _⟩ :=
        loadEmbeddings_eq_ok.mp loaded
      exact ⟨missing, deletion, insertion, dimension, records, ⟨file, source, _, _, _, opened,
        found, parsed, first, second, third, here, reads⟩, nonempty, rows⟩
  · rintro missing deletion insertion dimension records ⟨⟨file, source, _, _, _, opened, found,
      parsed, first, second, third, here, reads⟩, nonempty, rows⟩
    obtain ⟨last, ran, stores⟩ := stores_foldl nonempty rows
    refine ⟨last.build, ⟨file, _, found, parsed, policy_embedding.mpr ⟨rfl, last.build, missing,
      deletion, insertion, ?_, first, second, third, rfl⟩⟩, stores⟩
    exact loadEmbeddings_eq_ok.mpr ⟨opened, records, here, reads, nonempty, ⟨dimension, rows⟩,
      by rw [ran, Option.map_some]⟩

end Records
end Yurine.CostConfig
