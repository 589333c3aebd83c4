import Yurine.Cli.Commands
import Yurine.Cli.CostLoading
import Yurine.Cli.SnapshotFailure
import Yurine.Costs.Cosine
import Yurine.Costs.Reopened

/-! The command that compiles a cost policy, and the policies of a search. A search may read the
configuration of a policy or the snapshot that a complete compilation made of it, and charges the
same either way. -/
namespace Yurine
open Outcome Disk CustomCosts

variable {R S T : Type}

namespace RuntimeCosts
variable [DecidableEq T]

def policy : RuntimeCosts T → Policy Single T
  | levenshtein => levenshteinCosts CostBits.one.cost
  | embedding costs => costs.policy
  | custom costs => costs.policy

def verify : RuntimeCosts T → Result U32 PUnit
  | levenshtein => .ok ⟨⟩
  | embedding costs => costs.embeddings.verify validateEmbedding
  | custom costs => costs.verify

end RuntimeCosts

def CostSnapshot.Orders.Of [DecidableEq T] (orders : CostSnapshot.Orders T) :
    RuntimeCosts T → Prop
  | .levenshtein => True
  | .embedding costs =>
    Lists orders.embeddings fun token => costs.embeddings.embeddingIndices.lookup token
  | .custom costs => orders.rules.Of costs

/-- `build_costs`, which creates its directory first. -/
def buildCosts [DecidableEq T] (json : Json CostSnapshot.Metadata) (configJson : ConfigJson)
    (files : Files) (path : Path) (random : String → String)
    (orders : RuntimeCosts T → CostSnapshot.Orders T) (kind : TokenizerKind)
    (tokenizer : Tokenizer (CliError U32) T) (codec : TokenCodec U32 T) : CliScript U32 PUnit := do
  Script.call .directory
  let costs ← Script.lift (mapFailure ConfigError.cause
    (CostConfig.load configJson files normalization tokenizer path))
  CostSnapshot.save json random validateEmbedding (orders costs) costs kind codec

def runCosts (json : Json CostSnapshot.Metadata) (configJson : ConfigJson) (files : Files)
    (path : Path) (random : String → String) :
    (kind : TokenizerKind) → (RuntimeCosts kind.Token → CostSnapshot.Orders kind.Token) →
      CliScript U32 PUnit
  | .character, orders => buildCosts json configJson files path random orders .character
      (fun sourceText => .ok (characterTokenizer sourceText)) charCodec
  | .whitespace, orders => buildCosts json configJson files path random orders .whitespace
      whitespaceTokenizer stringCodec

/-- The policies that `--costs` names: a snapshot directory, a configuration, or none. -/
inductive CostSource where
  | snapshot (directory : String) (files : Directory String)
  | configuration (path : Path) (files : Files)
  | unnamed

def CostSource.load (json : Json CostSnapshot.Metadata) (configJson : ConfigJson)
    (kind : TokenizerKind) : CostSource → CliResult U32 (RuntimeCosts kind.Token)
  | snapshot directory files => CostSnapshot.openFor json directory kind files
  | configuration path files => mapFailure ConfigError.cause
      (CostConfig.load configJson files normalization kind.tokenize path)
  | unnamed => .ok .levenshtein

/-- The policy of a search, which is checked on request. -/
def loadCosts (json : Json CostSnapshot.Metadata) (configJson : ConfigJson) (verify : Bool)
    (source : CostSource) (kind : TokenizerKind) : CliResult Single (Policy Single kind.Token) :=
  mapFailure (CliError.map Single.ofBits) do
    let costs ← source.load json configJson kind
    if verify then ofLibrary costs.verify
    return costs.policy

def optionsWith (json : Json CostSnapshot.Metadata) (configJson : ConfigJson) (index : String)
    (querySourceText : String) (threshold : Cost Single) (verify : Bool) (source : CostSource) :
    SearchOptions Single :=
  ⟨index, querySourceText, threshold, verify, loadCosts json configJson verify source .character,
    loadCosts json configJson verify source .whitespace⟩

section Loaded
variable [DecidableEq T]

theorem reachable_take {state : CostConfig.RuleState T} (reachable : state.costs.Reachable)
    (rule : CostConfig.RuleKey T × CostBits) : (state.take rule).costs.Reachable := by
  obtain ⟨key, cost⟩ := rule
  cases key with
  | substitution source target => exact .setSubstitution reachable
  | deletion token => exact .setDeletion reachable
  | insertion token => exact .setInsertion reachable

theorem reachable_ruled (substitution deletion insertion : CostBits)
    (rules : List (CostConfig.RuleKey T × CostBits)) :
    (CostConfig.ruled substitution deletion insertion rules).Reachable := by
  suffices every : ∀ state : CostConfig.RuleState T, state.costs.Reachable →
      (rules.foldl CostConfig.RuleState.take state).costs.Reachable by
    exact every _ (.new substitution deletion insertion)
  intro state reachable
  induction rules generalizing state with
  | nil => exact reachable
  | cons rule rules ih => exact ih _ (reachable_take reachable rule)

/-- What holds of a policy that a configuration describes. -/
def RuntimeCosts.Built : RuntimeCosts T → Prop
  | .levenshtein => True
  | .embedding costs => Numbered costs.embeddings.embeddingIndices costs.embeddings.len ∧
    costs.embeddings.validatedRows = none ∧ 0 < costs.embeddings.len
  | .custom costs => costs.Reachable

theorem built_load {json : ConfigJson} {files : Files} {tokenizer : Tokenizer (CliError U32) T}
    {path : Path} {costs : RuntimeCosts T}
    (loaded : CostConfig.load json files normalization tokenizer path = .ok costs) :
    costs.Built := by
  obtain ⟨file, config, _, _, loaded⟩ := CostConfig.load_eq_ok.mp loaded
  cases config with
  | custom version defaults source =>
    obtain ⟨_, costs, ruled, rfl⟩ := CostConfig.policy_custom.mp loaded
    obtain ⟨substitution, deletion, insertion, rules, _, _, _, _, _, _, _, rfl⟩ :=
      CostConfig.loadCustomCosts_eq_ok.mp ruled
    exact reachable_ruled substitution deletion insertion rules
  | embedding version source missing deletion insertion =>
    obtain ⟨_, store, _, _, _, stored, _, _, _, rfl⟩ := CostConfig.policy_embedding.mp loaded
    obtain ⟨_, records, _, _, nonempty, ⟨dimension, rows⟩, built⟩ :=
      CostConfig.loadEmbeddings_eq_ok.mp stored
    obtain ⟨last, ran, whole, _, len, _⟩ := CostConfig.foldl_take_none nonempty rows
    rw [ran, Option.map_some] at built
    cases built
    exact ⟨whole.numbered, rfl, (List.length_pos_of_ne_nil nonempty).trans_eq len.symm⟩

end Loaded
namespace CostSnapshot
section Compiled
variable [DecidableEq T] {json : Json Metadata} {random : String → String} {orders : Orders T}
  {costs : RuntimeCosts T} {tokenizer : TokenizerKind} {codec : TokenCodec U32 T}
  {validate : RowCheck} {made : Contents}

theorem exists_contents
    (complete : (save json random validate orders costs tokenizer codec).result = .ok ⟨⟩) :
    ∃ made, contents validate orders costs codec = .ok made := by
  cases costs with
  | levenshtein =>
    cases saved : ofLibrary (R := U32) LevenshteinCosts.save with
    | ok bytes =>
      simp only [contents, saved]
      exact ⟨_, rfl⟩
    | error reason =>
      unfold save saveCosts at complete
      rw [saveFile_error saved] at complete
      cases complete
  | custom costs =>
    cases saved : ofLibrary (costs.saveWith orders.rules codec) with
    | ok bytes =>
      simp only [contents, saved]
      exact ⟨_, rfl⟩
    | error reason =>
      unfold save saveCosts at complete
      simp only [saveFile_error saved] at complete
      cases complete
  | embedding costs =>
    cases stored : ofLibrary (costs.embeddings.saveWith validate orders.embeddings codec) with
    | error reason =>
      unfold save saveCosts at complete
      simp only [saveFile_error stored] at complete
      cases complete
    | ok store =>
      obtain ⟨bytes, saved, _⟩ := costs.save_openFile
      simp only [contents, stored, saved]
      exact ⟨_, rfl⟩

theorem openFile_levenshtein {bytes : List UInt8} (saved : LevenshteinCosts.save = .ok bytes) :
    LevenshteinCosts.openFile bytes = .ok ⟨⟩ := by
  have opens : (LevenshteinCosts.save >>= LevenshteinCosts.openFile) = .ok ⟨⟩ := by decide +kernel
  rwa [saved, bind_ok] at opens

/-- The files of a policy open as one that charges the same. -/
theorem exists_opened {files : Directory String} (contract : ∀ token, codec.RoundTrips token)
    (built : costs.Built) (of : orders.Of costs)
    (all : contents validateEmbedding orders costs codec = .ok made)
    (first : files costsFile = some made.costs) (second : files storeFile = made.store) :
    costs.verify = .ok ⟨⟩ ∧ ∃ opened, openPolicy made.kind codec files = .ok opened ∧
      opened.verify = .ok ⟨⟩ ∧ opened.policy = costs.policy := by
  cases costs with
  | levenshtein =>
    obtain ⟨bytes, saved, last⟩ := bind_eq_ok.mp all
    cases last
    refine ⟨rfl, .levenshtein, ?_, rfl, rfl⟩
    simp only [openPolicy, first, okOr_some, bind_ok,
      openFile_levenshtein (ofLibrary_ok_iff.mp saved)]
    rfl
  | custom costs =>
    obtain ⟨bytes, saved, last⟩ := bind_eq_ok.mp all
    cases last
    obtain ⟨opened, opens, same⟩ :=
      CustomCosts.exists_opened contract built of (ofLibrary_ok_iff.mp saved)
    obtain ⟨substitution, deletion, insertion⟩ := same.costs
    refine ⟨costs.verify_eq, .custom opened, ?_, opened.verify_eq, ?_⟩
    · simp only [openPolicy, first, okOr_some, bind_ok, opens]
      rfl
    · simp only [RuntimeCosts.policy, CustomCosts.policy, substitution, deletion, insertion]
  | embedding costs =>
    obtain ⟨store, stored, all⟩ := bind_eq_ok.mp all
    obtain ⟨bytes, saved, last⟩ := bind_eq_ok.mp all
    cases last
    obtain ⟨numbered, uncached, nonempty⟩ := built
    have cached : ∀ rows, costs.embeddings.validatedRows = some rows →
        rows = costs.embeddings.len := by
      intro rows impossible
      rw [uncached] at impossible
      cases impossible
    obtain ⟨verified, embeddings, opens, checked, same⟩ := EmbeddingStore.exists_opened contract
      numbered cached nonempty of (ofLibrary_ok_iff.mp stored)
    obtain ⟨_, written, constants⟩ := costs.save_openFile
    rw [ofLibrary_ok_iff.mp saved] at written
    cases written
    refine ⟨verified, .embedding ⟨embeddings, costs.deletion, costs.insertion,
      costs.missingSubstitution⟩, ?_, checked, ?_⟩
    · exact openPolicy_embedding.mpr ⟨rfl, store, bytes, second, opens, first, constants embeddings⟩
    · simp only [RuntimeCosts.policy, CosineEmbeddingCosts.policy, same]

end Compiled
end CostSnapshot

def RuntimeCosts.orders [DecidableEq T] : RuntimeCosts T → CostSnapshot.Orders T
  | .levenshtein => ⟨⟨[], [], []⟩, []⟩
  | .embedding costs => ⟨⟨[], [], []⟩, entriesOf costs.embeddings.embeddingIndices⟩
  | .custom costs => ⟨costs.iterate, []⟩

theorem RuntimeCosts.orders_of [DecidableEq T] (costs : RuntimeCosts T) :
    costs.orders.Of costs := by
  cases costs with
  | levenshtein => trivial
  | embedding costs => exact lists_entriesOf _
  | custom costs => exact costs.iterate_of

section Runs
variable {json : Json CostSnapshot.Metadata} {configJson : ConfigJson} {files : Files}
  {path : Path} {random : String → String} {kind : TokenizerKind}
  {orders : RuntimeCosts kind.Token → CostSnapshot.Orders kind.Token} {directory : String}

theorem runCosts_eq : runCosts json configJson files path random kind orders =
    buildCosts json configJson files path random orders kind kind.tokenize kind.codec := by
  cases kind <;> rfl

def compiled (json : Json CostSnapshot.Metadata) (configJson : ConfigJson) (files : Files)
    (path : Path) (random : String → String) (kind : TokenizerKind)
    (orders : RuntimeCosts kind.Token → CostSnapshot.Orders kind.Token)
    (before : Directory String) : Directory String :=
  performAll (runCosts json configJson files path random kind orders).calls before

theorem exists_made (before : Directory String)
    (complete : (runCosts json configJson files path random kind orders).result = .ok ⟨⟩) :
    ∃ costs made, CostConfig.load configJson files normalization kind.tokenize path = .ok costs ∧
      CostSnapshot.contents validateEmbedding (orders costs) costs kind.codec = .ok made ∧
      CostSnapshot.Saved json kind made
        (compiled json configJson files path random kind orders before) := by
  unfold compiled
  rw [runCosts_eq] at complete ⊢
  cases loaded : mapFailure ConfigError.cause
      (CostConfig.load configJson files normalization kind.tokenize path) with
  | error reason =>
    unfold buildCosts at complete
    rw [loaded] at complete
    cases complete
  | ok costs =>
    have script : buildCosts json configJson files path random orders kind kind.tokenize
        kind.codec = ⟨.directory :: (CostSnapshot.save json random validateEmbedding (orders costs)
          costs kind kind.codec).calls, (CostSnapshot.save json random validateEmbedding
            (orders costs) costs kind kind.codec).result⟩ := by
      unfold buildCosts
      rw [loaded]
      rfl
    rw [script] at complete ⊢
    obtain ⟨made, all⟩ := CostSnapshot.exists_contents complete
    refine ⟨costs, made, mapFailure_eq_ok.mp loaded, all, ?_⟩
    rw [CostSnapshot.save_ok all]
    exact CostSnapshot.saved_performAll json kind random made _

theorem loadCosts_eq_ok {verify : Bool} {source : CostSource} {costs : RuntimeCosts kind.Token}
    (loaded : source.load json configJson kind = .ok costs) (valid : costs.verify = .ok ⟨⟩) :
    loadCosts json configJson verify source kind = .ok costs.policy := by
  rw [loadCosts, loaded, bind_ok, valid]
  cases verify <;> rfl

/-- An index of the other tokenizer is not searched with a snapshot. -/
theorem openFor_other {made : CostSnapshot.Contents} {after : Directory String}
    (saved : CostSnapshot.Saved json kind made after)
    (parses : ∀ policy, json.fromStr
      (json.toStringPretty ⟨CostSnapshot.formatVersion, policy, kind⟩ ++ "\n") =
        some ⟨CostSnapshot.formatVersion, policy, kind⟩)
    {other : TokenizerKind} (different : kind ≠ other) :
    CostSnapshot.openFor json directory other after = fail (.message ("cost snapshot '" ++
      directory ++ "' uses the " ++ kind.display ++ " tokenizer, but the index uses " ++
        other.display)) := by
  rw [CostSnapshot.openFor, CostSnapshot.openIn, saved.readMetadata parses, bind_ok,
    if_pos different]
  rfl

theorem optionsWith_costs {index querySourceText : String} {threshold : Cost Single} {verify : Bool}
    {source : CostSource} : (optionsWith json configJson index querySourceText threshold verify
      source).costs kind = loadCosts json configJson verify source kind := by
  cases kind <;> rfl

theorem findMatches_optionsWith {indexJson : Json Index.Metadata} {index querySourceText : String}
    {threshold : Cost Single} {verify : Bool} {first second : CostSource}
    {indexFiles : Directory String}
    (named : ∀ metadata : Index.Metadata,
      (Index.readMetadata indexJson index indexFiles : CliResult Single _) = .ok metadata →
        metadata.tokenizer = kind)
    (same : loadCosts json configJson verify first kind =
      loadCosts json configJson verify second kind) :
    findMatches indexJson
        (optionsWith json configJson index querySourceText threshold verify first) indexFiles =
      findMatches indexJson
        (optionsWith json configJson index querySourceText threshold verify second) indexFiles := by
  rw [findMatches_eq, findMatches_eq]
  show (Index.readMetadata indexJson index indexFiles >>= _) =
    (Index.readMetadata indexJson index indexFiles >>= _)
  cases read : (Index.readMetadata indexJson index indexFiles : CliResult Single _) with
  | error failure => rfl
  | ok metadata =>
    obtain rfl := named metadata read
    rw [bind_ok, bind_ok, optionsWith_costs, optionsWith_costs, same]
    rfl

/-- After a complete compilation a search that opens the snapshot is a search that loads the
configuration, with and without checks, and an index of the other tokenizer is refused. -/
theorem search_compiled (json : Json CostSnapshot.Metadata) (configJson : ConfigJson)
    (files : Files) (path : Path) (random : String → String) (kind : TokenizerKind)
    (orders : RuntimeCosts kind.Token → CostSnapshot.Orders kind.Token) (directory : String)
    (before : Directory String)
    (parses : ∀ policy, json.fromStr
      (json.toStringPretty ⟨CostSnapshot.formatVersion, policy, kind⟩ ++ "\n") =
        some ⟨CostSnapshot.formatVersion, policy, kind⟩)
    (iterates : ∀ costs, (orders costs).Of costs)
    (complete : (runCosts json configJson files path random kind orders).result = .ok ⟨⟩) :
    let snapshot := CostSource.snapshot directory
      (compiled json configJson files path random kind orders before)
    (∀ verify, ∃ policy,
      loadCosts json configJson verify (.configuration path files) kind = .ok policy ∧
        loadCosts json configJson verify snapshot kind = .ok policy) ∧
    (∀ verify other, kind ≠ other → loadCosts json configJson verify snapshot other =
      fail (.message ("cost snapshot '" ++ directory ++ "' uses the " ++ kind.display ++
        " tokenizer, but the index uses " ++ other.display))) ∧
    ∀ indexJson index indexFiles querySourceText threshold verify,
      (∀ metadata : Index.Metadata,
        (Index.readMetadata indexJson index indexFiles : CliResult Single _) = .ok metadata →
          metadata.tokenizer = kind) →
      findMatches indexJson
          (optionsWith json configJson index querySourceText threshold verify snapshot) indexFiles =
        findMatches indexJson (optionsWith json configJson index querySourceText threshold verify
          (.configuration path files)) indexFiles := by
  intro snapshot
  obtain ⟨costs, made, loaded, all, saved⟩ := exists_made before complete
  obtain ⟨valid, opened, opens, checked, same⟩ := CostSnapshot.exists_opened kind.codec_roundTrips
    (built_load loaded) (iterates costs) all saved.costs saved.store
  have plain : (CostSource.configuration path files).load json configJson kind = .ok costs :=
    mapFailure_eq_ok.mpr loaded
  have reopened : snapshot.load json configJson kind = .ok opened :=
    CostSnapshot.openFor_eq_ok.mpr ⟨made.kind, saved.readMetadata parses, opens⟩
  have policies (verify : Bool) :
      loadCosts json configJson verify (.configuration path files) kind = .ok costs.policy ∧
        loadCosts json configJson verify snapshot kind = .ok costs.policy :=
    ⟨loadCosts_eq_ok plain valid, same ▸ loadCosts_eq_ok reopened checked⟩
  refine ⟨fun verify => ⟨costs.policy, policies verify⟩, fun verify other different => ?_,
    fun indexJson index indexFiles querySourceText threshold verify named => ?_⟩
  · have refused : snapshot.load json configJson other = _ := openFor_other saved parses different
    rw [loadCosts, refused]
    rfl
  · obtain ⟨first, second⟩ := policies verify
    exact findMatches_optionsWith named (second.trans first.symm)

/-- A reader of vectors for which a line is a token, whose vector is (3, 4). -/
def vectorJson : ConfigJson where
  config _ := .ok (.embedding 1 ⟨⟨false, ["rules"]⟩, .jsonl⟩ 0x3F800000 0x3F800000 0x3F000000)
  embedding text := .ok ⟨text, [0x40400000, 0x40800000]⟩
  rule _ := .error "no rules"

/-- Vectors of two tokens, which are normalized before they are compiled. -/
theorem search_compiled_vectors : ∃ policy,
    loadCosts CostSnapshot.currentJson vectorJson true (.configuration ⟨false, ["costs"]⟩
      (CostConfig.ruleFiles [97, 10, 98])) .character = .ok policy ∧
    loadCosts CostSnapshot.currentJson vectorJson true (.snapshot "snapshot"
      (compiled CostSnapshot.currentJson vectorJson (CostConfig.ruleFiles [97, 10, 98])
        ⟨false, ["costs"]⟩ id .character RuntimeCosts.orders fun _ => none)) .character =
          .ok policy := by
  have parses : ∀ policy, CostSnapshot.currentJson.fromStr
      (CostSnapshot.currentJson.toStringPretty ⟨CostSnapshot.formatVersion, policy, .character⟩ ++
        "\n") = some ⟨CostSnapshot.formatVersion, policy, .character⟩ := by
    intro policy
    cases policy <;> decide +kernel
  exact (search_compiled CostSnapshot.currentJson vectorJson (CostConfig.ruleFiles [97, 10, 98])
    ⟨false, ["costs"]⟩ id .character RuntimeCosts.orders "snapshot" (fun _ => none) parses
    RuntimeCosts.orders_of (by decide +kernel)).1 true

end Runs
end Yurine
