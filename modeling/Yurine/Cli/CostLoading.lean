import Yurine.Cli.EmbeddingRecords

/-! Files of costs as files of lines. The lines may come in any order, and a file that is not
loaded has a first line that is at fault, which the error names. -/
namespace Yurine
open Outcome CustomCosts Loading

variable {T α β : Type}

namespace CostConfig

/-- The policies charge the same. -/
inductive Alike [DecidableEq T] : RuntimeCosts T → RuntimeCosts T → Prop
  | levenshtein : Alike .levenshtein .levenshtein
  | custom {first second : CustomCosts T}
      (substitution : ∀ source target,
        first.substitution source target = second.substitution source target)
      (deletion : ∀ token, first.deletion token = second.deletion token)
      (insertion : ∀ token, first.insertion token = second.insertion token) :
      Alike (.custom first) (.custom second)
  | embedding {first second : EmbeddingStore T} {deletion insertion missing : CostBits}
      (width : first.dimension.val = second.dimension.val)
      (row : ∀ token, first.row token = second.row token) :
      Alike (.embedding ⟨first, deletion, insertion, missing⟩)
        (.embedding ⟨second, deletion, insertion, missing⟩)

/-- Every file is there with its lines in some order. -/
def Reordered (files others : Files) : Prop :=
  ∀ path file, files path = some file → ∃ other, others path = some other ∧
    file.lines.Perm other.lines

section Order
variable [DecidableEq T] {json : ConfigJson} {files others : Files} {normalization : Normalization}
  {tokenizer : Tokenizer (CliError U32) T} {path : Path} {format : DataFormat}

theorem Charges.alike {first second : CustomCosts T} {substitution deletion insertion : CostBits}
    {rules sorted : List (RuleKey T × CostBits)} (distinct : (rules.map Prod.fst).Nodup)
    (perm : rules.Perm sorted) (left : Charges first substitution deletion insertion rules)
    (right : Charges second substitution deletion insertion sorted) :
    Alike (.custom first) (.custom second) := by
  constructor
  · intro source target
    rw [left.substitution, right.substitution, lookup_perm distinct perm]
  · intro token
    rw [left.deletion, right.deletion, lookup_perm distinct perm]
  · intro token
    rw [left.insertion, right.insertion, lookup_perm distinct perm]

theorem loadCustomCosts_reordered (reordered : Reordered files others)
    {defaults : CustomDefaults} {costs : CustomCosts T}
    (loaded : loadCustomCosts json tokenizer path files format defaults = .ok costs) :
    ∃ other, loadCustomCosts json tokenizer path others format defaults = .ok other ∧
      Alike (.custom costs) (.custom other) := by
  obtain ⟨substitution, deletion, insertion, rules, file, first, second, third, found, reads,
    distinct, rfl⟩ := loadCustomCosts_eq_ok.mp loaded
  obtain ⟨other, there, lines⟩ := reordered path file found
  obtain ⟨sorted, perm, sortedReads⟩ := forall₂_perm lines reads
  have sortedDistinct := (perm.map Prod.fst).nodup_iff.mp distinct
  refine ⟨_, loadCustomCosts_eq_ok.mpr ⟨substitution, deletion, insertion, sorted, other, first,
    second, third, there, sortedReads, sortedDistinct, rfl⟩, ?_⟩
  exact (charges_ruled distinct substitution deletion insertion).alike distinct perm
    (charges_ruled sortedDistinct substitution deletion insertion)

omit [DecidableEq T] in
theorem Rows.perm {dimension : NonZero} {records sorted : List (T × List U32)}
    (rows : Rows normalization dimension records) (perm : records.Perm sorted) :
    Rows normalization dimension sorted := by
  constructor
  · exact fun record mem => rows.length record (perm.mem_iff.mpr mem)
  · exact fun record mem => rows.check record (perm.mem_iff.mpr mem)
  · exact (perm.map Prod.fst).nodup_iff.mp rows.distinct
  · exact perm.length_eq ▸ rows.few

theorem loadEmbeddings_reordered (reordered : Reordered files others) {store : EmbeddingStore T}
    (loaded : loadEmbeddings json normalization tokenizer path files format = .ok store) :
    ∃ other, loadEmbeddings json normalization tokenizer path others format = .ok other ∧
      store.dimension.val = other.dimension.val ∧ ∀ token, store.row token = other.row token := by
  obtain ⟨file, records, found, reads, nonempty, ⟨dimension, rows⟩, built⟩ :=
    loadEmbeddings_eq_ok.mp loaded
  obtain ⟨other, there, lines⟩ := reordered path file found
  obtain ⟨sorted, perm, sortedReads⟩ := forall₂_perm lines reads
  have sortedNonempty : sorted ≠ [] := by
    rintro rfl
    exact nonempty perm.eq_nil
  have sortedRows := rows.perm perm
  obtain ⟨last, ran, stores⟩ := stores_foldl nonempty rows
  obtain ⟨final, sortedRan, sortedStores⟩ := stores_foldl sortedNonempty sortedRows
  rw [ran] at built
  cases built
  refine ⟨final.build, loadEmbeddings_eq_ok.mpr ⟨other, sorted, there, sortedReads,
    sortedNonempty, ⟨dimension, sortedRows⟩, by rw [sortedRan, Option.map_some]⟩, ?_, ?_⟩
  · exact stores.width.trans sortedStores.width.symm
  · intro token
    rw [stores.row, sortedStores.row, lookup_perm rows.distinct perm]

/-- The order of the lines of a rule file or an embedding file does not matter. -/
theorem load_reordered (json : ConfigJson) (normalization : Normalization)
    (tokenizer : Tokenizer (CliError U32) T) (path : Path) {files others : Files}
    (reordered : Reordered files others) (document : others path = files path)
    {policy : RuntimeCosts T}
    (loaded : load json files normalization tokenizer path = .ok policy) :
    ∃ other, load json others normalization tokenizer path = .ok other ∧ Alike policy other := by
  obtain ⟨file, config, found, parsed, loaded⟩ := load_eq_ok.mp loaded
  have here := document.trans found
  cases config with
  | embedding version source missingValue deletionValue insertionValue =>
    obtain ⟨rfl, store, missing, deletion, insertion, stored, first, second, third, rfl⟩ :=
      policy_embedding.mp loaded
    obtain ⟨other, there, width, row⟩ := loadEmbeddings_reordered reordered stored
    exact ⟨_, load_eq_ok.mpr ⟨file, _, here, parsed, policy_embedding.mpr ⟨rfl, other, missing,
      deletion, insertion, there, first, second, third, rfl⟩⟩, .embedding width row⟩
  | custom version defaults source =>
    obtain ⟨rfl, costs, ruled, rfl⟩ := policy_custom.mp loaded
    obtain ⟨other, there, alike⟩ := loadCustomCosts_reordered reordered ruled
    exact ⟨_, load_eq_ok.mpr ⟨file, _, here, parsed, policy_custom.mpr ⟨rfl, other, there, rfl⟩⟩,
      alike⟩

/-- A reader of rules for which a line is the token of its rule. -/
def letterJson : ConfigJson where
  config _ := .ok (.custom 1 ⟨0x3F800000, 0x3F800000, 0x3F800000⟩ ⟨⟨false, ["rules"]⟩, .jsonl⟩)
  embedding _ := .error "no embeddings"
  rule text := .ok (if text = "a" then .deletion text 0x3F000000 else .insertion text 0x40000000)

def ruleFiles (bytes : List UInt8) : Files := fun path =>
  if path = ⟨false, ["costs"]⟩ then some ⟨[], false⟩
  else if path = ⟨false, ["rules"]⟩ then some ⟨bytes, false⟩
  else none

def unchecked : Normalization := ⟨fun _ => .ok ⟨⟩, fun _ value => value⟩

theorem reordered_ruleFiles {bytes others : List UInt8}
    (perm : (OpenedFile.mk bytes false).lines.Perm (OpenedFile.mk others false).lines) :
    Reordered (ruleFiles bytes) (ruleFiles others) := by
  intro path file found
  rw [ruleFiles] at found ⊢
  by_cases document : path = ⟨false, ["costs"]⟩
  · rw [if_pos document] at found ⊢
    exact ⟨file, found, .refl _⟩
  · rw [if_neg document] at found ⊢
    by_cases rules : path = ⟨false, ["rules"]⟩
    · rw [if_pos rules] at found ⊢
      cases found
      exact ⟨_, rfl, perm⟩
    · rw [if_neg rules] at found
      cases found

/-- Two rules, read in either order. -/
theorem load_reordered_letters : ∃ other, load letterJson (ruleFiles [98, 10, 97]) unchecked
      (fun text => .ok (characterTokenizer text)) ⟨false, ["costs"]⟩ = .ok other ∧
    Alike (.custom (ruled .one .one .one [(.deletion 'a', ⟨0x3F000000, by decide⟩),
      (.insertion 'b', ⟨0x40000000, by decide⟩)])) other :=
  have reordered : Reordered (ruleFiles [97, 10, 98, 10]) (ruleFiles [98, 10, 97]) :=
    reordered_ruleFiles (by decide)
  load_reordered letterJson unchecked (fun text => .ok (characterTokenizer text))
    ⟨false, ["costs"]⟩ reordered rfl rfl

end Order
section Errors
variable {context : String} {reason : ConfigError}

/-- The texts of an error, the outermost first. -/
def texts (reason : ConfigError) : List String :=
  reason.contexts ++ match reason.cause with
    | .message text => [text]
    | _ => []

/-- The first text of the error ends with the number of the line. -/
def NamesLine (lineNumber : Nat) (reason : ConfigError) : Prop :=
  ∃ what rest, texts reason = (what ++ " at line " ++ toString lineNumber) :: rest

theorem withContext_eq_error {result : ConfigResult α} :
    withContext context result = .error (.error reason) ↔ ∃ inner,
      result = .error (.error inner) ∧ reason = ⟨context :: inner.contexts, inner.cause⟩ := by
  match result with
  | .ok a =>
    simp only [withContext, reduceCtorEq, false_and, exists_false]
  | .error (.error inner) =>
    simp [withContext, fail, eq_comm]
  | .error .panic =>
    simp [withContext, Outcome.panic]

theorem raises_withContext (what : String) (path : Path) (lineNumber : Nat)
    (result : ConfigResult α) :
    Raises (NamesLine lineNumber) (withContext (inLine what path lineNumber) result) := by
  intro reason failed
  obtain ⟨inner, _, rfl⟩ := withContext_eq_error.mp failed
  exact ⟨inFile what path, _, rfl⟩

theorem raises_bail (what : String) (path : Path) (lineNumber : Nat) :
    Raises (NamesLine lineNumber)
      (raise (bail (inLine what path lineNumber)) : ConfigResult α) := by
  rintro reason ⟨⟩
  exact ⟨inFile what path, [], rfl⟩

variable [DecidableEq T] {json : ConfigJson} {files others : Files} {normalization : Normalization}
  {tokenizer : Tokenizer (CliError U32) T} {path : Path} {format : DataFormat}

theorem raises_loadRule (state : RuleState T) (entry : Option String × Nat) :
    Raises (NamesLine (entry.2 + 1)) (loadRule json tokenizer path state entry) := by
  unfold loadRule
  apply Raises.bind (raises_withContext _ _ _ _)
  intro text
  apply Raises.bind (raises_withContext _ _ _ _)
  intro rule
  cases rule with
  | substitution source target cost =>
    apply Raises.bind (raises_withContext _ _ _ _)
    intro source
    apply Raises.bind (raises_withContext _ _ _ _)
    intro target
    apply Raises.unless (raises_bail _ _ _)
    apply Raises.bind (raises_withContext _ _ _ _)
    intro cost
    exact raises_ok _
  | deletion token cost =>
    apply Raises.bind (raises_withContext _ _ _ _)
    intro token
    apply Raises.unless (raises_bail _ _ _)
    apply Raises.bind (raises_withContext _ _ _ _)
    intro cost
    exact raises_ok _
  | insertion token cost =>
    apply Raises.bind (raises_withContext _ _ _ _)
    intro token
    apply Raises.unless (raises_bail _ _ _)
    apply Raises.bind (raises_withContext _ _ _ _)
    intro cost
    exact raises_ok _

theorem raises_orContext (what : String) (lineNumber : Nat) (option : Option α) :
    Raises (NamesLine lineNumber)
      (orContext (what ++ " at line " ++ toString lineNumber) option) := by
  cases option with
  | some a => exact raises_ok a
  | none =>
    rintro reason ⟨⟩
    exact ⟨what, [], rfl⟩

theorem raises_insertRecord (builder : EmbeddingStoreBuilder T) (token : T) (embedding : List U32)
    (lineNumber : Nat) : Raises (NamesLine lineNumber)
      (insertRecord normalization path builder token embedding lineNumber) := by
  apply Raises.bind (raises_withContext _ _ _ _)
  intro inserted
  exact Raises.unless (raises_bail _ _ _) (raises_ok _)

theorem raises_loadEmbedding (state : Option (EmbeddingStoreBuilder T))
    (entry : Option String × Nat) :
    Raises (NamesLine (entry.2 + 1)) (loadEmbedding json normalization tokenizer path state entry) := by
  have emptyText : inFile "embedding file" path ++ " has an empty embedding at line " =
      inFile "embedding file" path ++ " has an empty embedding" ++ " at line " := by
    rw [String.append_assoc]
    rfl
  unfold loadEmbedding
  apply Raises.bind (raises_withContext _ _ _ _)
  intro text
  apply Raises.bind (raises_withContext _ _ _ _)
  intro record
  apply Raises.bind (raises_withContext _ _ _ _)
  intro token
  cases state with
  | some builder =>
    apply Raises.bind (raises_insertRecord _ _ _ _)
    intro store
    exact raises_ok _
  | none =>
    simp only [emptyText]
    apply Raises.bind (raises_orContext _ _ _)
    intro dimension
    apply Raises.bind (raises_insertRecord _ _ _ _)
    intro store
    exact raises_ok _

/-- The version is known and the constants are costs. -/
def Accepted : CostConfig → Prop
  | .embedding version _ missing deletion insertion => version = 1 ∧
    (∃ cost, CostBits.new missing = .ok cost) ∧ (∃ cost, CostBits.new deletion = .ok cost) ∧
      ∃ cost, CostBits.new insertion = .ok cost
  | .custom version defaults _ => version = 1 ∧
    (∃ cost, CostBits.new defaults.substitution = .ok cost) ∧
      (∃ cost, CostBits.new defaults.deletion = .ok cost) ∧
        ∃ cost, CostBits.new defaults.insertion = .ok cost

/-- The file of a configuration that is found here. -/
def dataPath (path : Path) : CostConfig → Path
  | .embedding _ embeddings _ _ _ => (path.parent.getD Path.here).join embeddings.path
  | .custom _ _ rules => (path.parent.getD Path.here).join rules.path

/-- What an empty file of embeddings is answered with. -/
def emptyFile (data : Path) : ConfigError :=
  ⟨[], .message (inFile "embedding file" data ++ " is empty")⟩

/-- A configuration that is read as a loop over the lines of its file. -/
structure RunsOver (json : ConfigJson) (normalization : Normalization)
    (tokenizer : Tokenizer (CliError U32) T) (path data : Path) (file : OpenedFile) {σ : Type}
    (step : σ → Option String × Nat → ConfigResult σ) (start : σ)
    (finish : σ → ConfigResult (RuntimeCosts T)) : Prop where
  raises : ∀ state entry, Raises (NamesLine (entry.2 + 1)) (step state entry)
  ends : ∀ lines state, lines ≠ [] → lines.zipIdx.foldlM step start = .ok state →
    ∃ policy, finish state = .ok policy
  empty : Raises (fun reason => reason = emptyFile data) (finish start)
  runs : ∀ others opened, others path = some file → others data = some opened →
    load json others normalization tokenizer path =
      withContext (inFile "invalid cost configuration" path)
        (opened.lines.zipIdx.foldlM step start >>= finish)

theorem load_of_config {file : OpenedFile} {config : CostConfig} (found : files path = some file)
    (parsed : json.config file = .ok config) :
    load json files normalization tokenizer path =
      withContext (inFile "invalid cost configuration" path)
        (config.policy json files normalization tokenizer (path.parent.getD Path.here)) := by
  have document : withContext (inFile "failed to open cost configuration" path)
      (raise (okOr .io (files path))) = .ok file := by
    rw [withContext_eq_ok, raise_eq_ok, okOr_eq_ok, found]
  have read : withContext (inFile "failed to parse cost configuration" path)
      (ofJson (json.config file)) = .ok config := by
    rw [withContext_eq_ok, ofJson_eq_ok, parsed]
  rw [load, document, bind_ok, read, bind_ok]

/-- What becomes of the builder behind the last line. -/
def finishEmbeddings (data : Path) (missing deletion insertion : CostBits)
    (state : Option (EmbeddingStoreBuilder T)) : ConfigResult (RuntimeCosts T) := do
  let store ← orContext (inFile "embedding file" data ++ " is empty")
    (state.map EmbeddingStoreBuilder.build)
  return .embedding ⟨store, deletion, insertion, missing⟩

theorem runsOver_embedding {file : OpenedFile} {source : DataSource}
    {missingValue deletionValue insertionValue : U32} {missing deletion insertion : CostBits}
    (parsed : json.config file =
      .ok (.embedding 1 source missingValue deletionValue insertionValue))
    (first : CostBits.new missingValue = .ok missing)
    (second : CostBits.new deletionValue = .ok deletion)
    (third : CostBits.new insertionValue = .ok insertion) {data : Path}
    (place : data = (path.parent.getD Path.here).join source.path) :
    RunsOver json normalization tokenizer path data file
      (loadEmbedding json normalization tokenizer data) none
      (finishEmbeddings data missing deletion insertion) := by
  subst place
  constructor
  · exact raises_loadEmbedding
  · intro lines state nonempty ran
    obtain ⟨records, reads, taken, rfl⟩ := loads_loadEmbedding.foldlM_ok.mp ran
    have filled : records ≠ [] := by
      rintro rfl
      cases reads
      exact nonempty rfl
    obtain ⟨dimension, rows⟩ := (takesAll_iff_rows filled).mp taken
    obtain ⟨last, built, _⟩ := stores_foldl filled rows
    rw [built]
    exact ⟨_, rfl⟩
  · rintro reason ⟨⟩
    rfl
  · intro others opened here there
    rw [load_of_config here parsed, CostConfig.policy, loadEmbeddings, openJsonl, there,
      parseCost_eq_ok.mpr first, parseCost_eq_ok.mpr second, parseCost_eq_ok.mpr third]
    show withContext _ ((opened.lines.zipIdx.foldlM _ none >>= fun _ => _) >>= _) = _
    rw [bind_assoc]
    rfl

theorem runsOver_custom {file : OpenedFile} {defaults : CustomDefaults} {source : DataSource}
    {substitution deletion insertion : CostBits}
    (parsed : json.config file = .ok (.custom 1 defaults source))
    (first : CostBits.new defaults.substitution = .ok substitution)
    (second : CostBits.new defaults.deletion = .ok deletion)
    (third : CostBits.new defaults.insertion = .ok insertion) {data : Path}
    (place : data = (path.parent.getD Path.here).join source.path) :
    RunsOver json normalization tokenizer path data file
      (loadRule json tokenizer data) ⟨CustomCosts.new substitution deletion insertion, [], [], []⟩
      (fun state => .ok (.custom state.costs)) := by
  subst place
  constructor
  · exact raises_loadRule
  · exact fun lines state _ _ => ⟨_, rfl⟩
  · exact raises_ok _
  · intro others opened here there
    rw [load_of_config here parsed, CostConfig.policy, loadCustomCosts, openJsonl, there,
      parseCost_eq_ok.mpr first, parseCost_eq_ok.mpr second, parseCost_eq_ok.mpr third]
    show withContext _ ((opened.lines.zipIdx.foldlM _ _ >>= fun _ => _) >>= _) = _
    rw [bind_assoc]
    rfl

theorem exists_runsOver (normalization : Normalization) (tokenizer : Tokenizer (CliError U32) T)
    (path : Path) {file : OpenedFile} {config : CostConfig}
    (parsed : json.config file = .ok config) (accepted : config.Accepted) :
    ∃ (σ : Type) (step : σ → Option String × Nat → ConfigResult σ) (start : σ)
      (finish : σ → ConfigResult (RuntimeCosts T)),
      RunsOver json normalization tokenizer path (config.dataPath path) file step start finish := by
  cases config with
  | embedding version source missingValue deletionValue insertionValue =>
    obtain ⟨rfl, ⟨missing, first⟩, ⟨deletion, second⟩, ⟨insertion, third⟩⟩ := accepted
    exact ⟨_, _, _, _, runsOver_embedding parsed first second third rfl⟩
  | custom version defaults source =>
    obtain ⟨rfl, ⟨substitution, first⟩, ⟨deletion, second⟩, ⟨insertion, third⟩⟩ := accepted
    exact ⟨_, _, _, _, runsOver_custom parsed first second third rfl⟩

/-- A configuration that is not loaded although its document is good has an empty file of
embeddings or a first line that is at fault: the lines before it load, the error has its number,
and what follows it does not matter. -/
theorem load_fault (json : ConfigJson) (normalization : Normalization)
    (tokenizer : Tokenizer (CliError U32) T) (path : Path) {files : Files}
    {file opened : OpenedFile} {config : CostConfig} {reason : ConfigError}
    (found : files path = some file) (parsed : json.config file = .ok config)
    (accepted : config.Accepted) (data : files (config.dataPath path) = some opened)
    (failed : load json files normalization tokenizer path = .error (.error reason)) :
    ∃ inner, reason =
        ⟨inFile "invalid cost configuration" path :: inner.contexts, inner.cause⟩ ∧
      (opened.lines = [] ∧ inner = emptyFile (config.dataPath path) ∨
        ∃ before line after, opened.lines = before ++ line :: after ∧
          NamesLine (before.length + 1) inner ∧
          ∀ others other, others path = some file → others (config.dataPath path) = some other →
            (before ≠ [] → other.lines = before →
              ∃ policy, load json others normalization tokenizer path = .ok policy) ∧
            ∀ rest, other.lines = before ++ line :: rest →
              load json others normalization tokenizer path = .error (.error reason)) := by
  obtain ⟨σ, step, start, finish, whole⟩ :=
    exists_runsOver normalization tokenizer path parsed accepted
  rw [whole.runs files opened found data] at failed
  obtain ⟨inner, stopped, rfl⟩ := withContext_eq_error.mp failed
  refine ⟨inner, rfl, ?_⟩
  rcases bind_eq_error.mp stopped with inLoop | ⟨state, ran, atEnd⟩
  · obtain ⟨before, line, after, same, names, ⟨t, loads⟩, ever⟩ :=
      exists_fault whole.raises inLoop
    refine .inr ⟨before, line, after, same, names, fun others other here there => ⟨?_, ?_⟩⟩
    · rintro nonempty rfl
      obtain ⟨policy, made⟩ := whole.ends _ t nonempty loads
      refine ⟨policy, ?_⟩
      rw [whole.runs others other here there, loads, bind_ok, made]
      rfl
    · intro rest lines
      rw [whole.runs others other here there, lines, ever rest]
      rfl
  · have empty : opened.lines = [] := by
      by_contra nonempty
      obtain ⟨policy, made⟩ := whole.ends _ state nonempty ran
      rw [made] at atEnd
      cases atEnd
    rw [empty] at ran
    cases ran
    exact .inl ⟨empty, whole.empty inner atEnd⟩

/-- A second rule about the same token is at fault whatever follows it. -/
theorem load_fault_duplicate : ∃ before line after,
    (OpenedFile.mk [97, 10, 97, 10, 98] false).lines = before ++ line :: after ∧
      ∀ others other, others ⟨false, ["costs"]⟩ = some ⟨[], false⟩ →
        others ⟨false, ["rules"]⟩ = some other →
        ∀ rest, other.lines = before ++ line :: rest →
          load letterJson others unchecked (fun text => .ok (characterTokenizer text))
            ⟨false, ["costs"]⟩ = .error (.error ⟨["invalid cost configuration 'costs'"],
              .message "duplicate deletion in custom cost rule file 'rules' at line 2"⟩) := by
  have found : ruleFiles [97, 10, 97, 10, 98] ⟨false, ["costs"]⟩ = some ⟨[], false⟩ := rfl
  obtain ⟨inner, _, ⟨empty, _⟩ | ⟨before, line, after, same, _, ever⟩⟩ :=
    load_fault letterJson unchecked (fun text => .ok (characterTokenizer text))
      ⟨false, ["costs"]⟩ found rfl ⟨rfl, ⟨.one, rfl⟩, ⟨.one, rfl⟩, ⟨.one, rfl⟩⟩ rfl rfl
  · exact absurd empty (by decide)
  · exact ⟨before, line, after, same, fun others other here there => (ever others other here there).2⟩

end Errors
end CostConfig
end Yurine
