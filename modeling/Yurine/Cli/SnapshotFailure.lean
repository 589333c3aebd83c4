import Yurine.Cli.CostSnapshot
import Yurine.Costs.Reopened

/-! Failures of a snapshot that replaces a previous one. The costs are renamed into place first,
then the store, and the metadata last. Until its own rename the old metadata stands beside the
new costs, and only an embedding policy opens from costs and a store of two runs. -/
namespace Yurine.CostSnapshot
open Outcome Disk

/-- What a save makes of a policy: its kind, its costs and the store of an embedding policy. -/
structure Contents where
  kind : CostKind
  costs : List UInt8
  store : Option (List UInt8)

def snapshotFiles : List String := [metadataFile, costsFile, storeFile]

section Calls
variable {T : Type} [DecidableEq T] {json : Json Metadata} {random : String → String}
  {validate : RowCheck} {orders : Orders T} {costs : RuntimeCosts T} {tokenizer : TokenizerKind}
  {codec : TokenCodec U32 T} {made : Contents} {metadata : List UInt8} {files : Directory String}

def contents (validate : RowCheck) (orders : Orders T) (costs : RuntimeCosts T)
    (codec : TokenCodec U32 T) : CliResult U32 Contents :=
  match costs with
  | .levenshtein => do
    let bytes ← ofLibrary LevenshteinCosts.save
    return ⟨.levenshtein, bytes, none⟩
  | .embedding costs => do
    let store ← ofLibrary (costs.embeddings.saveWith validate orders.embeddings codec)
    let bytes ← ofLibrary costs.save
    return ⟨.embedding, bytes, some store⟩
  | .custom costs => do
    let bytes ← ofLibrary (costs.saveWith orders.rules codec)
    return ⟨.custom, bytes, none⟩

def metadataBytes (json : Json Metadata) (kind : CostKind) (tokenizer : TokenizerKind) :
    List UInt8 :=
  utf8 (json.toStringPretty ⟨formatVersion, kind, tokenizer⟩ ++ "\n")

/-- The calls that write a file of the library under its temporary name. -/
def fileCalls (random name : String) (bytes : List UInt8) : List (Call String) :=
  [.create (scratch random), .write (scratch random) bytes, .flush (scratch random),
    .flush (scratch random), .rename (scratch random) (temporary name), .directory]

/-- The calls before the first file is renamed into place. -/
def preparation (random : String → String) (made : Contents) : List (Call String) :=
  (match made.store with
    | some store => fileCalls (random storeFile) storeFile store
    | none => []) ++
  fileCalls (random costsFile) costsFile made.costs

def publication (made : Contents) (metadata : List UInt8) : List (Call String) :=
  [.rename (temporary costsFile) costsFile,
    match made.store with
    | some _ => .rename (temporary storeFile) storeFile
    | none => .remove storeFile,
    .create (temporary metadataFile), .write (temporary metadataFile) metadata,
    .rename (temporary metadataFile) metadataFile]

/-- The calls change no file of a snapshot. -/
def Preliminary (calls : List (Call String)) : Prop :=
  ∀ name ∈ snapshotFiles, ∀ call ∈ calls, name ∉ call.names

theorem saveFile_error {random name : String} {bytes : Result U32 (List UInt8)}
    {failure : Failure (CliError U32)} (failed : ofLibrary bytes = .error failure) :
    saveFile random name bytes = ⟨[], .error failure⟩ := by
  unfold saveFile
  rw [failed]
  rfl

/-- A policy of which all files can be made is prepared and published. -/
theorem save_ok (all : contents validate orders costs codec = .ok made) :
    save json random validate orders costs tokenizer codec =
      ⟨preparation random made ++ publication made (metadataBytes json made.kind tokenizer),
        .ok ⟨⟩⟩ := by
  cases costs with
  | levenshtein =>
    obtain ⟨bytes, saved, last⟩ := bind_eq_ok.mp all
    cases last
    unfold save saveCosts
    rw [ofLibrary_ok_iff.mp saved]
    rfl
  | embedding costs =>
    obtain ⟨store, stored, all⟩ := bind_eq_ok.mp all
    obtain ⟨bytes, saved, last⟩ := bind_eq_ok.mp all
    cases last
    unfold save saveCosts
    simp only [ofLibrary_ok_iff.mp stored, ofLibrary_ok_iff.mp saved]
    rfl
  | custom costs =>
    obtain ⟨bytes, saved, last⟩ := bind_eq_ok.mp all
    cases last
    unfold save saveCosts
    simp only [ofLibrary_ok_iff.mp saved]
    rfl

theorem preliminary_fileCalls (random : String) {name : String}
    (other : temporary name ∉ snapshotFiles) (bytes : List UInt8) :
    Preliminary (fileCalls random name bytes) := by
  intro file mem
  have own : file ≠ scratch random := by
    apply Ne.symm
    apply scratch_ne
    simp only [snapshotFiles, List.mem_cons, List.not_mem_nil, or_false] at mem
    rcases mem with rfl | rfl | rfl <;> decide
  have different : file ≠ temporary name := ne_of_mem_of_not_mem mem other
  simp [fileCalls, Call.names, own, different]

theorem preliminary_preparation : Preliminary (preparation random made) := by
  have costs := preliminary_fileCalls (random costsFile) (show temporary costsFile ∉ snapshotFiles
    by decide) made.costs
  unfold preparation
  cases made.store with
  | none => exact costs
  | some store =>
    intro name mem call listed
    rcases List.mem_append.mp listed with listed | listed
    · exact preliminary_fileCalls _ (by decide) store name mem call listed
    · exact costs name mem call listed

/-- A policy of which some file cannot be made changes no file of a snapshot. -/
theorem save_error {failure : Failure (CliError U32)}
    (failed : contents validate orders costs codec = .error failure) :
    Preliminary (save json random validate orders costs tokenizer codec).calls := by
  have nothing : Preliminary [] := fun _ _ _ impossible => absurd impossible List.not_mem_nil
  cases costs with
  | levenshtein =>
    cases saved : ofLibrary (R := U32) LevenshteinCosts.save with
    | ok bytes =>
      simp only [contents, saved] at failed
      cases failed
    | error reason =>
      unfold save saveCosts
      rw [saveFile_error saved]
      exact nothing
  | custom costs =>
    cases saved : ofLibrary (costs.saveWith orders.rules codec) with
    | ok bytes =>
      simp only [contents, saved] at failed
      cases failed
    | error reason =>
      unfold save saveCosts
      simp only [saveFile_error saved]
      exact nothing
  | embedding costs =>
    cases stored : ofLibrary (costs.embeddings.saveWith validate orders.embeddings codec) with
    | error reason =>
      unfold save saveCosts
      simp only [saveFile_error stored]
      exact nothing
    | ok store =>
      cases saved : ofLibrary costs.save with
      | ok bytes =>
        simp only [contents, stored, saved] at failed
        cases failed
      | error reason =>
        unfold save saveCosts
        simp only [ofLibrary_ok_iff.mp stored, saveFile_error saved]
        exact preliminary_fileCalls (random storeFile) (by decide) store

theorem performAll_fileCalls {random name : String} (own : scratch random ≠ temporary name)
    (bytes : List UInt8) (files : Directory String) :
    performAll (fileCalls random name bytes) files (temporary name) = some bytes := by
  simp [performAll, fileCalls, Call.perform, own.symm]

theorem performAll_preparation (random : String → String) (made : Contents)
    (files : Directory String) :
    performAll (preparation random made) files (temporary costsFile) = some made.costs ∧
      ∀ store, made.store = some store →
        performAll (preparation random made) files (temporary storeFile) = some store := by
  have costs : scratch (random costsFile) ≠ temporary costsFile := scratch_ne (by decide)
  have first : scratch (random storeFile) ≠ temporary storeFile := scratch_ne (by decide)
  have other : temporary storeFile ≠ scratch (random costsFile) := (scratch_ne (by decide)).symm
  have different : temporary storeFile ≠ temporary costsFile := by decide
  unfold preparation
  rw [performAll_append]
  constructor
  · exact performAll_fileCalls costs made.costs _
  · intro store stored
    rw [performAll_other (by simp [fileCalls, Call.names, other, different]), stored]
    exact performAll_fileCalls first store files

/-- The files of the snapshot after a run that ends in its publication or completes it. -/
theorem leave_publication (metadata : List UInt8)
    (costs : files (temporary costsFile) = some made.costs)
    (stored : ∀ store, made.store = some store → files (temporary storeFile) = some store)
    (stop part : Nat) :
    leave (publication made metadata) stop part files costsFile =
        (if 0 < stop then some made.costs else files costsFile) ∧
      leave (publication made metadata) stop part files storeFile =
        (if 1 < stop then made.store else files storeFile) ∧
      leave (publication made metadata) stop part files metadataFile =
        (if 4 < stop then some metadata else files metadataFile) := by
  obtain ⟨kind, bytes, store⟩ := made
  have ready : files "costs.yurine.tmp" = some bytes := by
    simpa [costsFile, temporary, temporarySuffix] using costs
  cases store with
  | none =>
    match stop with
    | 0 | 1 | 2 | 3 | 4 | stop + 5 =>
      simp [leave, publication, Call.perform, Call.cut, costsFile, storeFile, metadataFile,
        temporary, temporarySuffix, ready]
  | some store =>
    have found : files "store.yurine.tmp" = some store := by
      simpa [storeFile, temporary, temporarySuffix] using stored store rfl
    match stop with
    | 0 | 1 | 2 | 3 | 4 | stop + 5 =>
      simp [leave, publication, Call.perform, Call.cut, costsFile, storeFile, metadataFile,
        temporary, temporarySuffix, ready, found]

theorem leave_saved (random : String → String) (made : Contents) (metadata : List UInt8)
    (files : Directory String) (stop part : Nat) :
    leave (preparation random made ++ publication made metadata) stop part files costsFile =
        (if (preparation random made).length < stop then some made.costs else files costsFile) ∧
      leave (preparation random made ++ publication made metadata) stop part files storeFile =
        (if (preparation random made).length + 1 < stop then made.store else files storeFile) ∧
      leave (preparation random made ++ publication made metadata) stop part files metadataFile =
        (if (preparation random made).length + 4 < stop then some metadata
          else files metadataFile) := by
  by_cases early : stop < (preparation random made).length
  · rw [leave_append_left early, if_neg (by omega), if_neg (by omega), if_neg (by omega)]
    refine ⟨?_, ?_, ?_⟩
    · exact leave_other (preliminary_preparation _ (by simp [snapshotFiles]))
    · exact leave_other (preliminary_preparation _ (by simp [snapshotFiles]))
    · exact leave_other (preliminary_preparation _ (by simp [snapshotFiles]))
  · obtain ⟨costs, stored⟩ := performAll_preparation random made files
    have kept {name : String} (mem : name ∈ snapshotFiles) :
        performAll (preparation random made) files name = files name :=
      performAll_other (preliminary_preparation name mem)
    obtain ⟨first, second, last⟩ := leave_publication metadata costs stored
      (stop - (preparation random made).length) part
    rw [kept (by simp [snapshotFiles])] at first second last
    rw [leave_append_right (not_lt.mp early), first, second, last]
    refine ⟨?_, ?_, ?_⟩
    · exact if_congr (by omega) rfl rfl
    · exact if_congr (by omega) rfl rfl
    · exact if_congr (by omega) rfl rfl

end Calls
section Opening
variable {T T' : Type} [DecidableEq T] {validate : RowCheck} {orders : Orders T}
  {costs : RuntimeCosts T} {codec : TokenCodec U32 T} {other : TokenCodec U32 T'}
  {made : Contents} {expected : FileKind} {file : PersistedFile}

def CostKind.fileKind : CostKind → FileKind
  | levenshtein => .levenshteinCosts
  | embedding => .cosineEmbeddingCosts
  | custom => .customCosts

/-- The costs of a save open as a file of their own kind only. -/
theorem contents_costs (all : contents validate orders costs codec = .ok made)
    (opened : PersistedFile.openFile made.costs expected other = .ok file) :
    made.kind.fileKind = expected ∧ (made.kind = .custom → codec.id = other.id) := by
  cases costs with
  | levenshtein =>
    obtain ⟨bytes, saved, last⟩ := bind_eq_ok.mp all
    cases last
    exact ⟨(openFile_identity (by simp) (ofLibrary_ok_iff.mp saved) opened).1, by rintro ⟨⟩⟩
  | embedding costs =>
    obtain ⟨store, _, all⟩ := bind_eq_ok.mp all
    obtain ⟨bytes, saved, last⟩ := bind_eq_ok.mp all
    cases last
    exact ⟨(openFile_identity (by simp) (ofLibrary_ok_iff.mp saved) opened).1, by rintro ⟨⟩⟩
  | custom costs =>
    obtain ⟨bytes, saved, last⟩ := bind_eq_ok.mp all
    cases last
    obtain ⟨metadata, _, written⟩ := bind_eq_ok.mp (ofLibrary_ok_iff.mp saved)
    obtain ⟨same, identifier⟩ := openFile_identity (by simp) written opened
    exact ⟨same, fun _ => identifier⟩

theorem contents_embedding {new : CosineEmbeddingCosts T} {store : List UInt8}
    (stored : new.embeddings.saveWith validate orders.embeddings codec = .ok store) :
    ∃ bytes, contents validate orders (.embedding new) codec =
        .ok ⟨.embedding, bytes, some store⟩ ∧
      ∀ {T' : Type} (embeddings : EmbeddingStore T'), CosineEmbeddingCosts.openFile bytes
        embeddings = .ok ⟨embeddings, new.deletion, new.insertion, new.missingSubstitution⟩ := by
  obtain ⟨bytes, written, constants⟩ := new.save_openFile
  refine ⟨bytes, ?_, constants⟩
  simp only [contents, stored, written]
  rfl

theorem contents_kind (all : contents validate orders costs codec = .ok made)
    (embedding : made.kind = .embedding) : ∃ new store, costs = .embedding new ∧
      new.embeddings.saveWith validate orders.embeddings codec = .ok store := by
  cases costs with
  | levenshtein =>
    obtain ⟨_, _, last⟩ := bind_eq_ok.mp all
    cases last
    cases embedding
  | custom costs =>
    obtain ⟨_, _, last⟩ := bind_eq_ok.mp all
    cases last
    cases embedding
  | embedding new =>
    obtain ⟨store, stored, _⟩ := bind_eq_ok.mp all
    exact ⟨new, store, rfl, ofLibrary_ok_iff.mp stored⟩

/-- A store opens only for the codec it was saved with. -/
theorem store_identity [DecidableEq T'] {store : EmbeddingStore T} {again : EmbeddingStore T'}
    {order : List (T × U32)} {bytes : List UInt8}
    (saved : store.saveWith validate order codec = .ok bytes)
    (opened : EmbeddingStore.openWith other bytes = .ok again) : codec.id = other.id := by
  obtain ⟨_, _, saved⟩ := bind_eq_ok.mp saved
  obtain ⟨rows, _, saved⟩ := bind_eq_ok.mp saved
  obtain ⟨_, found, _⟩ := bind_eq_ok.mp opened
  simp only at saved
  split at saved
  · cases saved
  · exact (openFile_identity (by simp) saved found).2

theorem openPolicy_congr {kind : CostKind} {first second : Directory String}
    (costs : first costsFile = second costsFile)
    (store : kind = .embedding → first storeFile = second storeFile) :
    openPolicy kind codec first = openPolicy kind codec second := by
  cases kind with
  | levenshtein => simp only [openPolicy, costs]
  | custom => simp only [openPolicy, costs]
  | embedding => simp only [openPolicy, costs, store rfl]

theorem openPolicy_levenshtein {files : Directory String} {policy : RuntimeCosts T}
    (opened : openPolicy .levenshtein codec files = .ok policy) : policy = .levenshtein := by
  obtain ⟨bytes, _, opened⟩ := bind_eq_ok.mp opened
  obtain ⟨_, _, last⟩ := bind_eq_ok.mp opened
  cases last
  rfl

theorem exists_embedding {files : Directory String} {policy : RuntimeCosts T}
    (opened : openPolicy .embedding codec files = .ok policy) :
    ∃ costs, policy = .embedding costs := by
  obtain ⟨_, _, opened⟩ := bind_eq_ok.mp opened
  obtain ⟨_, _, opened⟩ := bind_eq_ok.mp opened
  obtain ⟨_, _, opened⟩ := bind_eq_ok.mp opened
  obtain ⟨costs, _, last⟩ := bind_eq_ok.mp opened
  cases last
  exact ⟨costs, rfl⟩

/-- An embedding policy opens from a store and from constants that go with any store. -/
theorem openPolicy_embedding {kind : CostKind} {files : Directory String}
    {costs : CosineEmbeddingCosts T} :
    openPolicy kind codec files = .ok (.embedding costs) ↔ kind = .embedding ∧
      ∃ store bytes, files storeFile = some store ∧
        EmbeddingStore.openWith codec store = .ok costs.embeddings ∧
        files costsFile = some bytes ∧
        CosineEmbeddingCosts.openFile bytes costs.embeddings = .ok costs := by
  constructor
  · intro opened
    cases kind with
    | levenshtein => cases openPolicy_levenshtein opened
    | custom =>
      obtain ⟨bytes, _, opened⟩ := bind_eq_ok.mp opened
      obtain ⟨_, _, last⟩ := bind_eq_ok.mp opened
      cases last
    | embedding =>
      obtain ⟨store, stored, opened⟩ := bind_eq_ok.mp opened
      obtain ⟨embeddings, read, opened⟩ := bind_eq_ok.mp opened
      obtain ⟨bytes, saved, opened⟩ := bind_eq_ok.mp opened
      obtain ⟨_, combined, last⟩ := bind_eq_ok.mp opened
      cases last
      have same : costs.embeddings = embeddings := by
        obtain ⟨_, _, parsed⟩ := bind_eq_ok.mp (ofLibrary_ok_iff.mp combined)
        obtain ⟨_, _, parsed⟩ := bind_eq_ok.mp parsed
        obtain ⟨_, _, parsed⟩ := bind_eq_ok.mp parsed
        cases parsed
        rfl
      rw [same]
      exact ⟨rfl, store, bytes, okOr_eq_ok.mp stored, ofLibrary_ok_iff.mp read, okOr_eq_ok.mp saved,
        ofLibrary_ok_iff.mp combined⟩
  · rintro ⟨rfl, store, bytes, stored, read, saved, combined⟩
    simp only [openPolicy, stored, saved, okOr_some, bind_ok, read, combined, ofLibrary]
    rfl

end Opening
section Runs
variable {json : Json Metadata} {directory : String} {random : String → String}
  {validate : RowCheck} {previous tokenizer : TokenizerKind} {orders : Orders tokenizer.Token}
  {costs : RuntimeCosts tokenizer.Token} {old : RuntimeCosts previous.Token}
  {files other : Directory String} {kind : CostKind} {made : Contents} {stop part : Nat}

theorem codec_id (same : tokenizer.codec.id = previous.codec.id) : tokenizer = previous := by
  cases tokenizer with
  | character =>
    cases previous with
    | character => rfl
    | whitespace => exact absurd same (by decide)
  | whitespace =>
    cases previous with
    | character => exact absurd same (by decide)
    | whitespace => rfl

/-- The policy that a search of an index with this tokenizer opens. -/
def openFor (json : Json Metadata) (directory : String) (later : TokenizerKind)
    (files : Directory String) : CliResult U32 (RuntimeCosts later.Token) :=
  openIn json directory later later.codec files

theorem openFor_eq_ok : openFor json directory previous files = .ok old ↔
    ∃ kind, readMetadata json directory files = .ok ⟨formatVersion, kind, previous⟩ ∧
      openPolicy kind previous.codec files = .ok old := by
  unfold openFor openIn
  constructor
  · intro opened
    obtain ⟨⟨version, kind, named⟩, read, opened⟩ := bind_eq_ok.mp opened
    simp only at opened
    split at opened
    · cases opened
    · have supported : version = formatVersion := by
        obtain ⟨_, _, parsed⟩ := bind_eq_ok.mp read
        obtain ⟨_, _, parsed⟩ := bind_eq_ok.mp parsed
        obtain ⟨_, _, parsed⟩ := bind_eq_ok.mp parsed
        simp only at parsed
        split at parsed
        · cases parsed
        · cases parsed
          exact not_not.mp ‹_›
      obtain rfl : named = previous := not_not.mp ‹_›
      exact ⟨kind, supported ▸ read, opened⟩
  · rintro ⟨kind, read, opened⟩
    rw [read, bind_ok]
    simpa using opened

theorem readMetadata_congr (same : files metadataFile = other metadataFile) :
    readMetadata json directory files = readMetadata json directory other := by
  unfold readMetadata
  rw [same]

theorem openFor_congr (same : ∀ name ∈ snapshotFiles, files name = other name)
    (later : TokenizerKind) :
    openFor json directory later files = openFor json directory later other := by
  unfold openFor openIn
  rw [readMetadata_congr (same _ (by simp [snapshotFiles]))]
  congr 1
  funext metadata
  rw [openPolicy_congr (same _ (by simp [snapshotFiles])) fun _ => same _ (by simp [snapshotFiles])]

structure Saved (json : Json Metadata) (tokenizer : TokenizerKind) (made : Contents)
    (files : Directory String) : Prop where
  costs : files costsFile = some made.costs
  store : files storeFile = made.store
  metadata : files metadataFile = some (metadataBytes json made.kind tokenizer)

theorem Saved.readMetadata (saved : Saved json tokenizer made files)
    (parses : ∀ kind, json.fromStr (json.toStringPretty ⟨formatVersion, kind, tokenizer⟩ ++ "\n") =
      some ⟨formatVersion, kind, tokenizer⟩) :
    readMetadata json directory files = .ok ⟨formatVersion, made.kind, tokenizer⟩ := by
  unfold CostSnapshot.readMetadata
  rw [saved.metadata, okOr_some, bind_ok, metadataBytes, fromUtf8_utf8, okOr_some, bind_ok,
    parses made.kind, okOr_some, bind_ok, if_neg (not_not.mpr rfl)]
  rfl

/-- New costs, read under any metadata together with a store of their own, are those of the new
policy, unless the metadata says that there is nothing to be read from them. -/
theorem openPolicy_new {policy : RuntimeCosts previous.Token}
    (all : contents validate orders costs tokenizer.codec = .ok made)
    (found : files costsFile = some made.costs)
    (store : kind = .embedding → made.kind = .embedding → files storeFile = made.store)
    (opened : openPolicy kind previous.codec files = .ok policy) :
    kind = .levenshtein ∨ kind = made.kind ∧ tokenizer = previous := by
  cases kind with
  | levenshtein => exact .inl rfl
  | custom =>
    right
    obtain ⟨bytes, saved, opened⟩ := bind_eq_ok.mp opened
    obtain ⟨_, read, _⟩ := bind_eq_ok.mp opened
    obtain ⟨file, checked, _⟩ := bind_eq_ok.mp (ofLibrary_ok_iff.mp read)
    rw [found, okOr_some] at saved
    cases saved
    obtain ⟨same, identifier⟩ := contents_costs all checked
    have custom : made.kind = .custom := by
      cases named : made.kind <;> simp_all [CostKind.fileKind]
    exact ⟨custom.symm, codec_id (identifier custom)⟩
  | embedding =>
    right
    obtain ⟨bytes, stored, opened⟩ := bind_eq_ok.mp opened
    obtain ⟨_, read, opened⟩ := bind_eq_ok.mp opened
    obtain ⟨_, saved, opened⟩ := bind_eq_ok.mp opened
    obtain ⟨_, combined, _⟩ := bind_eq_ok.mp opened
    rw [found, okOr_some] at saved
    cases saved
    obtain ⟨_, constants, _⟩ := bind_eq_ok.mp (ofLibrary_ok_iff.mp combined)
    obtain ⟨same, _⟩ := contents_costs all constants
    have embedding : made.kind = .embedding := by
      cases named : made.kind <;> simp_all [CostKind.fileKind]
    obtain ⟨new, kept, rfl, written⟩ := contents_kind all embedding
    obtain ⟨_, contents, _⟩ := contents_embedding written
    cases all.symm.trans contents
    rw [store rfl embedding] at stored
    cases stored
    exact ⟨rfl, codec_id (store_identity written (ofLibrary_ok_iff.mp read))⟩

/-- What a search opens afterwards is the previous policy or that of the completed run. -/
def Unmixed (json : Json Metadata) (directory : String) (files completed left : Directory String) :
    Prop :=
  ∀ later policy, openFor json directory later left = .ok policy →
    openFor json directory later files = .ok policy ∨
      openFor json directory later completed = .ok policy

/-- An embedding policy with other constants and another store replaces an embedding policy, and
the run ends with the rename of the store: six calls for each of the two files and the rename of
the costs are done. -/
def Mixes (validate : RowCheck) (orders : Orders tokenizer.Token)
    (costs : RuntimeCosts tokenizer.Token) (old : RuntimeCosts previous.Token) (stop : Nat) :
    Prop :=
  stop = 13 ∧ ∃ new before store, costs = .embedding new ∧ old = .embedding before ∧
    new.embeddings.saveWith validate orders.embeddings tokenizer.codec = .ok store ∧
    EmbeddingStore.openWith previous.codec store ≠ .ok before.embeddings ∧
    (new.deletion, new.insertion, new.missingSubstitution) ≠
      (before.deletion, before.insertion, before.missingSubstitution)

section Between
variable {completed left : Directory String}
  (read : readMetadata json directory files = .ok ⟨formatVersion, kind, previous⟩)
  (complete : openPolicy kind previous.codec files = .ok old)
  (all : contents validate orders costs tokenizer.codec = .ok made)
  (parses : ∀ kind, json.fromStr (json.toStringPretty ⟨formatVersion, kind, tokenizer⟩ ++ "\n") =
    some ⟨formatVersion, kind, tokenizer⟩)
  (saved : Saved json tokenizer made completed)
  (metadata : left metadataFile = files metadataFile) (found : left costsFile = some made.costs)
include read complete all metadata found

include parses saved in
/-- Under the previous metadata, the new costs open as one of the two policies if no store is
read, or the new one. -/
theorem unmixed_between
    (store : kind = .embedding → made.kind = .embedding → left storeFile = made.store) :
    Unmixed json directory files completed left := by
  intro later policy opened
  obtain ⟨_, named, opened⟩ := openFor_eq_ok.mp opened
  rw [readMetadata_congr metadata, read] at named
  cases named
  rcases openPolicy_new all found store opened with rfl | ⟨rfl, rfl⟩
  · left
    rw [openPolicy_levenshtein opened, ← openPolicy_levenshtein complete]
    exact openFor_eq_ok.mpr ⟨.levenshtein, read, complete⟩
  · right
    apply openFor_eq_ok.mpr ⟨made.kind, saved.readMetadata parses, _⟩
    rw [← opened]
    apply openPolicy_congr (saved.costs.trans found.symm)
    exact fun embedding => saved.store.trans (store embedding embedding).symm

/-- Under the metadata of an embedding policy, the new costs open with the previous store. -/
theorem openFor_mixture {new : CosineEmbeddingCosts tokenizer.Token}
    {before : CosineEmbeddingCosts previous.Token} {store : List UInt8}
    (embedding : costs = .embedding new) (replaced : old = .embedding before)
    (stored : new.embeddings.saveWith validate orders.embeddings tokenizer.codec = .ok store)
    (kept : left storeFile = files storeFile) :
    openFor json directory previous left = .ok (.embedding
      ⟨before.embeddings, new.deletion, new.insertion, new.missingSubstitution⟩) := by
  subst embedding replaced
  obtain ⟨bytes, contents, constants⟩ := contents_embedding stored
  cases all.symm.trans contents
  obtain ⟨rfl, previousStore, _, there, opens, _, _⟩ := openPolicy_embedding.mp complete
  apply openFor_eq_ok.mpr ⟨.embedding, (readMetadata_congr metadata).trans read, _⟩
  apply openPolicy_embedding.mpr
  exact ⟨rfl, previousStore, bytes, kept.trans there, opens, found, constants before.embeddings⟩

include parses saved in
/-- The mixture is one of the two policies only if the constants or the stores do not differ. -/
theorem unmixed_stores {new : CosineEmbeddingCosts tokenizer.Token}
    {before : CosineEmbeddingCosts previous.Token} {store : List UInt8}
    (embedding : costs = .embedding new) (replaced : old = .embedding before)
    (stored : new.embeddings.saveWith validate orders.embeddings tokenizer.codec = .ok store)
    (kept : left storeFile = files storeFile) :
    Unmixed json directory files completed left ↔
      ¬ (EmbeddingStore.openWith previous.codec store ≠ .ok before.embeddings ∧
        (new.deletion, new.insertion, new.missingSubstitution) ≠
          (before.deletion, before.insertion, before.missingSubstitution)) := by
  have mixture := openFor_mixture read complete all metadata found embedding replaced stored kept
  subst embedding replaced
  obtain ⟨bytes, contents, constants⟩ := contents_embedding stored
  cases all.symm.trans contents
  obtain ⟨rfl, _⟩ := openPolicy_embedding.mp complete
  constructor
  · rintro unmixed ⟨different, other⟩
    rcases unmixed previous _ mixture with opened | opened
    · obtain ⟨_, named, opened⟩ := openFor_eq_ok.mp opened
      rw [read] at named
      cases named
      have same := complete.symm.trans opened
      simp only [Except.ok.injEq, RuntimeCosts.embedding.injEq] at same
      apply other
      rw [same]
    · obtain ⟨_, named, opened⟩ := openFor_eq_ok.mp opened
      obtain ⟨_, newStore, _, there, opens, _, _⟩ := openPolicy_embedding.mp opened
      rw [saved.store] at there
      cases there
      exact different opens
  · intro same later policy opened
    obtain ⟨_, named, opened⟩ := openFor_eq_ok.mp opened
    rw [readMetadata_congr metadata, read] at named
    cases named
    have mixed : policy = .embedding
        ⟨before.embeddings, new.deletion, new.insertion, new.missingSubstitution⟩ := by
      rw [openFor_eq_ok.mpr ⟨.embedding, (readMetadata_congr metadata).trans read, opened⟩]
        at mixture
      cases mixture
      rfl
    by_cases equal : (new.deletion, new.insertion, new.missingSubstitution) =
        (before.deletion, before.insertion, before.missingSubstitution)
    · left
      simp only [Prod.mk.injEq] at equal
      obtain ⟨deletion, insertion, missing⟩ := equal
      rw [mixed, deletion, insertion, missing]
      exact openFor_eq_ok.mpr ⟨.embedding, read, complete⟩
    · right
      have opens := not_not.mp fun different => same ⟨different, equal⟩
      obtain rfl := codec_id (store_identity stored opens)
      rw [mixed]
      apply openFor_eq_ok.mpr ⟨.embedding, saved.readMetadata parses, _⟩
      apply openPolicy_embedding.mpr
      exact ⟨rfl, store, bytes, saved.store, opens, saved.costs, constants before.embeddings⟩

end Between

/-- The call renames a file into place. -/
def publishes : Call String → Bool
  | .rename _ target => target ∈ snapshotFiles
  | _ => false

/-- No file has been renamed into place before the call at this position. -/
abbrev BeforePublication (calls : List (Call String)) (stop : Nat) : Prop :=
  ∀ call ∈ calls.take stop, publishes call = false

/-- The policies have different tokenizers, or their vectors differ. -/
def OtherVectors (new : EmbeddingStore tokenizer.Token) (before : EmbeddingStore previous.Token) :
    Prop :=
  ∀ same : tokenizer = previous,
    ¬ (new.dimension = before.dimension ∧ ∀ token, new.row token = before.row (same ▸ token))

/-- The store of a run opens as that of a previous one only if their vectors agree. -/
theorem openWith_ne_iff {orders' : Orders previous.Token} {new : EmbeddingStore tokenizer.Token}
    {before opened : EmbeddingStore previous.Token} {store store' : List UInt8}
    (wf : new.WellFormed) (wf' : before.WellFormed)
    (lists : Lists orders.embeddings fun token => new.embeddingIndices.lookup token)
    (lists' : Lists orders'.embeddings fun token => before.embeddingIndices.lookup token)
    (stored : new.saveWith validate orders.embeddings tokenizer.codec = .ok store)
    (stored' : before.saveWith validate orders'.embeddings previous.codec = .ok store')
    (opens : EmbeddingStore.openWith previous.codec store' = .ok opened) :
    EmbeddingStore.openWith previous.codec store ≠ .ok opened ↔ OtherVectors new before := by
  constructor
  · rintro different rfl
    exact fun alike => different ((EmbeddingStore.openWith_eq_iff tokenizer.codec_roundTrips wf wf'
      lists lists' stored stored' opens).mpr alike)
  · intro differ again
    obtain rfl := codec_id (store_identity stored again)
    exact differ rfl ((EmbeddingStore.openWith_eq_iff tokenizer.codec_roundTrips wf wf' lists
      lists' stored stored' opens).mp again)

/-- The snapshot of an embedding policy opens with the constants of the policy and its store. -/
theorem Saved.openPolicy_embedding {orders' : Orders previous.Token}
    {before : CosineEmbeddingCosts previous.Token} {made' : Contents}
    (saved : Saved json previous made' files)
    (all' : contents validate orders' (.embedding before) previous.codec = .ok made')
    (complete : openPolicy .embedding previous.codec files = .ok old) :
    ∃ store embeddings,
      before.embeddings.saveWith validate orders'.embeddings previous.codec = .ok store ∧
      EmbeddingStore.openWith previous.codec store = .ok embeddings ∧ old = .embedding
        ⟨embeddings, before.deletion, before.insertion, before.missingSubstitution⟩ := by
  obtain ⟨opened, rfl⟩ := exists_embedding complete
  obtain ⟨store, stored, _⟩ := bind_eq_ok.mp all'
  have stored := ofLibrary_ok_iff.mp stored
  obtain ⟨bytes, contents, constants⟩ := contents_embedding stored
  cases all'.symm.trans contents
  obtain ⟨_, there, _, here, opens, read, combined⟩ :=
    CostSnapshot.openPolicy_embedding.mp complete
  cases saved.store.symm.trans here
  cases saved.costs.symm.trans read
  exact ⟨store, opened.embeddings, stored, opens,
    congrArg RuntimeCosts.embedding (Except.ok.inj (combined.symm.trans (constants _)))⟩

/-- Over the snapshot of a policy that was saved, a run mixes two policies exactly when it ends
with the rename of the store, the constants differ and the vectors do. -/
theorem mixes_iff {orders' : Orders previous.Token} {new : CosineEmbeddingCosts tokenizer.Token}
    {before : CosineEmbeddingCosts previous.Token} {made' : Contents}
    (wf : new.embeddings.WellFormed) (wf' : before.embeddings.WellFormed)
    (lists : Lists orders.embeddings fun token => new.embeddings.embeddingIndices.lookup token)
    (lists' : Lists orders'.embeddings fun token =>
      before.embeddings.embeddingIndices.lookup token)
    (all : contents validate orders (.embedding new) tokenizer.codec = .ok made)
    (all' : contents validate orders' (.embedding before) previous.codec = .ok made')
    (saved : Saved json previous made' files)
    (complete : openPolicy .embedding previous.codec files = .ok old) :
    Mixes validate orders (.embedding new) old stop ↔ stop = 13 ∧
      OtherVectors new.embeddings before.embeddings ∧
      (new.deletion, new.insertion, new.missingSubstitution) ≠
        (before.deletion, before.insertion, before.missingSubstitution) := by
  obtain ⟨_, opened, stored', opens, rfl⟩ := saved.openPolicy_embedding all' complete
  obtain ⟨store, stored, _⟩ := bind_eq_ok.mp all
  have stored := ofLibrary_ok_iff.mp stored
  rw [← openWith_ne_iff wf wf' lists lists' stored stored' opens]
  constructor
  · rintro ⟨rfl, _, _, _, ⟨⟩, ⟨⟩, again, different, constants⟩
    obtain rfl := Except.ok.inj (stored.symm.trans again)
    exact ⟨rfl, different, constants⟩
  · rintro ⟨rfl, different, constants⟩
    exact ⟨rfl, new, _, store, rfl, rfl, stored, different, constants⟩

theorem Mixes.between (mixes : Mixes validate orders costs old stop)
    (all : contents validate orders costs tokenizer.codec = .ok made) :
    stop = (preparation random made).length + 1 := by
  obtain ⟨rfl, new, _, store, rfl, _, stored, _⟩ := mixes
  obtain ⟨bytes, made', _⟩ := contents_embedding stored
  rw [made'] at all
  cases all
  rfl

theorem BeforePublication.le {metadata : List UInt8} (before : BeforePublication
    (preparation random made ++ publication made metadata) stop) :
    stop ≤ (preparation random made).length := by
  by_contra late
  obtain ⟨more, rfl⟩ := Nat.exists_eq_add_of_lt (not_le.mp late)
  have listed : Call.rename (temporary costsFile) costsFile ∈
      (preparation random made ++ publication made metadata).take
        ((preparation random made).length + more + 1) := by
    rw [Nat.add_assoc, List.take_length_add_append, List.mem_append]
    exact .inr (by simp [publication])
  exact absurd (before _ listed) (by decide)

theorem saved_performAll (json : Json Metadata) (tokenizer : TokenizerKind)
    (random : String → String) (made : Contents) (files : Directory String) :
    Saved json tokenizer made (performAll (preparation random made ++
      publication made (metadataBytes json made.kind tokenizer)) files) := by
  have whole : leave (preparation random made ++
      publication made (metadataBytes json made.kind tokenizer))
        ((preparation random made).length + 5) 0 files = performAll (preparation random made ++
      publication made (metadataBytes json made.kind tokenizer)) files :=
    leave_complete List.length_append.le
  rw [← whole]
  obtain ⟨costs, store, metadata⟩ := leave_saved random made
    (metadataBytes json made.kind tokenizer) files ((preparation random made).length + 5) 0
  constructor
  · rw [costs, if_pos (by omega)]
  · rw [store, if_pos (by omega)]
  · rw [metadata, if_pos (by omega)]

/-- A save that ends in any of its calls never leaves a policy other than the previous or the
new one, unless it ends between the renames of an embedding policy over another one; before the
first rename into place everything opens as it did. -/
theorem save_failure (json : Json Metadata) (directory : String) (random : String → String)
    (validate : RowCheck) (previous tokenizer : TokenizerKind) (orders : Orders tokenizer.Token)
    (costs : RuntimeCosts tokenizer.Token) (old : RuntimeCosts previous.Token)
    (files : Directory String) (stop part : Nat)
    (parses : ∀ kind, json.fromStr (json.toStringPretty ⟨formatVersion, kind, tokenizer⟩ ++ "\n") =
      some ⟨formatVersion, kind, tokenizer⟩)
    (complete : openFor json directory previous files = .ok old) :
    let calls := (save json random validate orders costs tokenizer tokenizer.codec).calls
    (Unmixed json directory files (performAll calls files) (leave calls stop part files) ↔
      ¬ Mixes validate orders costs old stop) ∧
    (BeforePublication calls stop → ∀ later,
      openFor json directory later (leave calls stop part files) =
        openFor json directory later files) := by
  have kept {left : Directory String} (same : ∀ name ∈ snapshotFiles, left name = files name)
      (completed : Directory String) : Unmixed json directory files completed left := by
    intro later policy opened
    left
    rw [← opened]
    exact (openFor_congr same later).symm
  intro calls
  cases all : contents validate orders costs tokenizer.codec with
  | error failure =>
    have same : ∀ name ∈ snapshotFiles, leave calls stop part files name = files name :=
      fun name mem => leave_other (save_error all name mem)
    constructor
    · apply iff_of_true (kept same _)
      rintro ⟨_, new, _, store, rfl, _, stored, _⟩
      obtain ⟨bytes, made, _⟩ := contents_embedding stored
      rw [made] at all
      cases all
    · intro _ later
      exact openFor_congr same later
  | ok made =>
    obtain ⟨kind, read, opened⟩ := openFor_eq_ok.mp complete
    have ran : calls = preparation random made ++
        publication made (metadataBytes json made.kind tokenizer) :=
      congrArg Script.calls (save_ok all)
    obtain ⟨first, second, last⟩ := leave_saved random made
      (metadataBytes json made.kind tokenizer) files stop part
    have saved := saved_performAll json tokenizer random made files
    rw [← ran] at first second last saved
    have early (before : stop ≤ (preparation random made).length) :
        ∀ name ∈ snapshotFiles, leave calls stop part files name = files name := by
      rw [if_neg (by omega)] at first second last
      simp [snapshotFiles, first, second, last]
    constructor
    · by_cases between : stop = (preparation random made).length + 1
      · rw [if_pos (by omega)] at first
        rw [if_neg (by omega)] at second last
        by_cases both : kind = .embedding ∧ made.kind = .embedding
        · obtain ⟨rfl, embedding⟩ := both
          obtain ⟨before, rfl⟩ := exists_embedding opened
          obtain ⟨new, store, rfl, stored⟩ := contents_kind all embedding
          rw [unmixed_stores read opened all parses saved last first rfl rfl stored second]
          obtain ⟨bytes, made', _⟩ := contents_embedding stored
          rw [all] at made'
          cases made'
          apply not_congr
          constructor
          · rintro ⟨different, constants⟩
            exact ⟨between, new, before, store, rfl, rfl, stored, different, constants⟩
          · rintro ⟨_, _, _, _, ⟨⟩, ⟨⟩, again, different, constants⟩
            rw [stored] at again
            cases again
            exact ⟨different, constants⟩
        · apply iff_of_true
          · exact unmixed_between read opened all parses saved last first
              fun previous new => absurd ⟨previous, new⟩ both
          · rintro ⟨_, new, before, store, rfl, rfl, stored, _⟩
            obtain ⟨bytes, made', _⟩ := contents_embedding stored
            rw [all] at made'
            cases made'
            exact both ⟨(openPolicy_embedding.mp opened).1, rfl⟩
      · apply iff_of_true _ fun mixes => between (mixes.between all)
        rcases Nat.lt_or_ge (preparation random made).length stop with late | before
        · rw [if_pos (by omega)] at first second
          by_cases done : (preparation random made).length + 4 < stop
          · rw [if_pos done] at last
            intro later policy opens
            right
            rw [← opens]
            apply openFor_congr
            simp [snapshotFiles, first, second, last, saved.costs, saved.store, saved.metadata]
          · rw [if_neg done] at last
            exact unmixed_between read opened all parses saved last first fun _ _ => second
        · exact kept (early before) _
    · intro before later
      rw [ran] at before
      exact openFor_congr (early before.le) later

/-- The document that `serde_json` writes for the metadata. -/
def metadataDocument (metadata : Metadata) : String :=
  let kind := match metadata.kind with
    | .levenshtein => "levenshtein"
    | .embedding => "embedding"
    | .custom => "custom"
  "\x7b\n  \"version\": " ++ toString metadata.version ++ ",\n  \"kind\": \"" ++ kind ++
    "\",\n  \"tokenizer\": \"" ++ metadata.tokenizer.display ++ "\"\n\x7d"

/-- These documents, read for the current version. -/
def currentJson : Json Metadata where
  toStringPretty := metadataDocument
  fromStr text := [CostKind.levenshtein, .embedding, .custom].findSome? fun kind =>
    [TokenizerKind.character, .whitespace].findSome? fun tokenizer =>
      let metadata := ⟨formatVersion, kind, tokenizer⟩
      if text = metadataDocument metadata ++ "\n" then some metadata else none

/-- An embedding policy of one character with a vector of one element, which is 1. -/
def oneToken (token : Char) (constants : CostBits) : RuntimeCosts Char :=
  .embedding ⟨⟨⟨1, one_ne_zero⟩, (∅ : RuleMap Char U32).insert token 0, .owned [CostBits.one.bits],
    none⟩, constants, constants, constants⟩

def saveCharacters (costs : RuntimeCosts Char) (token : Char) : CliScript U32 PUnit :=
  save currentJson id (fun _ => .ok ⟨⟩) ⟨⟨[], [], []⟩, [(token, 0)]⟩ costs .character charCodec

def mappedToken (token : Char) : EmbeddingStore Char :=
  ⟨⟨1, one_ne_zero⟩, (∅ : RuleMap Char U32).insert token 0, .mapped [CostBits.one.bits], some 1⟩

/-- When the store of a new embedding policy is not renamed after its costs, the directory opens
as a policy of neither run: the constants are new and the vectors are old. -/
theorem save_mixes_stores : ∃ files : Directory String,
    files = performAll (saveCharacters (oneToken 'a' .one) 'a').calls (fun _ => none) ∧
    (saveCharacters (oneToken 'b' .zero) 'b').outcome 13 .io = fail .io ∧
    openFor currentJson "costs" .character files =
      .ok (.embedding ⟨mappedToken 'a', .one, .one, .one⟩) ∧
    openFor currentJson "costs" .character
        (performAll (saveCharacters (oneToken 'b' .zero) 'b').calls files) =
      .ok (.embedding ⟨mappedToken 'b', .zero, .zero, .zero⟩) ∧
    openFor currentJson "costs" .character
        (leave (saveCharacters (oneToken 'b' .zero) 'b').calls 13 0 files) =
      .ok (.embedding ⟨mappedToken 'a', .zero, .zero, .zero⟩) ∧
    ¬ Unmixed currentJson "costs" files
      (performAll (saveCharacters (oneToken 'b' .zero) 'b').calls files)
      (leave (saveCharacters (oneToken 'b' .zero) 'b').calls 13 0 files) := by
  have previous : openFor currentJson "costs" .character
      (performAll (saveCharacters (oneToken 'a' .one) 'a').calls (fun _ => none)) =
        .ok (.embedding ⟨mappedToken 'a', .one, .one, .one⟩) := by decide +kernel
  have completed : openFor currentJson "costs" .character
      (performAll (saveCharacters (oneToken 'b' .zero) 'b').calls
        (performAll (saveCharacters (oneToken 'a' .one) 'a').calls (fun _ => none))) =
          .ok (.embedding ⟨mappedToken 'b', .zero, .zero, .zero⟩) := by decide +kernel
  have mixture : openFor currentJson "costs" .character
      (leave (saveCharacters (oneToken 'b' .zero) 'b').calls 13 0
        (performAll (saveCharacters (oneToken 'a' .one) 'a').calls (fun _ => none))) =
          .ok (.embedding ⟨mappedToken 'a', .zero, .zero, .zero⟩) := by decide +kernel
  refine ⟨_, rfl, by decide +kernel, previous, completed, mixture, fun unmixed => ?_⟩
  rcases unmixed .character _ mixture with opened | opened
  · rw [previous] at opened
    revert opened
    decide +kernel
  · rw [completed] at opened
    revert opened
    decide +kernel

/-- An embedding policy that replaces a policy of unit costs is not mixed with it. -/
theorem save_failure_levenshtein : ∃ files : Directory String,
    files = performAll (saveCharacters .levenshtein 'a').calls (fun _ => none) ∧
    Unmixed currentJson "costs" files
      (performAll (saveCharacters (oneToken 'a' .one) 'a').calls files)
      (leave (saveCharacters (oneToken 'a' .one) 'a').calls 13 0 files) ∧
    openFor currentJson "costs" .character
      (leave (saveCharacters (oneToken 'a' .one) 'a').calls 12 0 files) = .ok .levenshtein := by
  have parses : ∀ kind, currentJson.fromStr
      (currentJson.toStringPretty ⟨formatVersion, kind, .character⟩ ++ "\n") =
        some ⟨formatVersion, kind, .character⟩ := by
    intro kind
    cases kind <;> decide +kernel
  have complete : openFor currentJson "costs" .character
      (performAll (saveCharacters .levenshtein 'a').calls (fun _ => none)) = .ok .levenshtein := by
    decide +kernel
  have failure := save_failure currentJson "costs" id (fun _ => .ok ⟨⟩) .character .character
    ⟨⟨[], [], []⟩, [('a', 0)]⟩ (oneToken 'a' .one) .levenshtein
    (performAll (saveCharacters .levenshtein 'a').calls (fun _ => none))
  refine ⟨_, rfl, (failure 13 0 parses complete).1.mpr ?_, ?_⟩
  · rintro ⟨_, _, _, _, _, impossible, _⟩
    cases impossible
  · have before : BeforePublication (saveCharacters (oneToken 'a' .one) 'a').calls 12 := by
      decide +kernel
    exact ((failure 12 0 parses complete).2 before .character).trans complete

end Runs
end Yurine.CostSnapshot
