import Yurine.Cli.CostSnapshot
import Yurine.Cli.WhitespaceRuns

/-! The configuration of edit costs: a document that names a policy and a file with one record on
each line. Here errors keep the contexts that are put in front of them, since these are what names
the file and the line. A path is the list of its components. -/
namespace Yurine
open Outcome CustomCosts

variable {T α : Type}

/-- An error and its contexts, the outermost first. -/
structure ConfigError where
  contexts : List String
  cause : CliError U32
deriving DecidableEq

abbrev ConfigResult (α : Type) := Outcome ConfigError α

def raise : CliResult U32 α → ConfigResult α
  | .ok a => .ok a
  | .error (.error cause) => fail ⟨[], cause⟩
  | .error .panic => panic

def withContext (context : String) : ConfigResult α → ConfigResult α
  | .ok a => .ok a
  | .error (.error reason) => fail { reason with contexts := context :: reason.contexts }
  | .error .panic => panic

/-- `with_context` on an option that is `None`. -/
def orContext (context : String) (option : Option α) : ConfigResult α :=
  raise (okOr (.message context) option)

structure Path where
  absolute : Bool
  components : List String
deriving DecidableEq, Repr

namespace Path

def display (path : Path) : String :=
  (if path.absolute then "/" else "") ++ "/".intercalate path.components

def parent (path : Path) : Option Path :=
  if path.components = [] then none
  else some { path with components := path.components.dropLast }

def join (base path : Path) : Path :=
  if path.absolute then path else { base with components := base.components ++ path.components }

/-- `Path::new(".")`. -/
def here : Path := ⟨false, ["."]⟩

end Path

section Lines

/-- The bytes of an opened file, behind which a read may fail. -/
structure OpenedFile where
  bytes : List UInt8
  fails : Bool

abbrev Files : Type := Path → Option OpenedFile

/-- The lines with their line feeds, which the last one may lack. -/
def cutLines : List UInt8 → List (List UInt8)
  | [] => []
  | byte :: rest =>
    if byte = 10 then [byte] :: cutLines rest
    else
      match cutLines rest with
      | [] => [[byte]]
      | line :: lines => (byte :: line) :: lines

/-- Without a line feed, and without the carriage return in front of it. -/
def trimLine (line : List UInt8) : List UInt8 :=
  if line.getLast? = some 10 then
    if line.dropLast.getLast? = some 13 then line.dropLast.dropLast else line.dropLast
  else line

/-- `BufRead::lines`; a line that is not read is an error, and so is one that is not UTF-8. -/
def OpenedFile.lines (file : OpenedFile) : List (Option String) :=
  if file.fails then
    ((cutLines file.bytes).filter fun line => line.getLast? = some 10).map
      (fun line => fromUtf8 (trimLine line)) ++ [none]
  else (cutLines file.bytes).map fun line => fromUtf8 (trimLine line)

end Lines

inductive DataFormat where
  | jsonl
deriving DecidableEq, Repr

structure DataSource where
  path : Path
  format : DataFormat
deriving DecidableEq, Repr

structure CustomDefaults where
  substitution : U32
  deletion : U32
  insertion : U32
deriving DecidableEq, Repr

inductive CostConfig where
  | embedding (version : U32) (embeddings : DataSource)
      (missingSubstitutionCost deletionCost insertionCost : U32)
  | custom (version : U32) (defaults : CustomDefaults) (rules : DataSource)
deriving DecidableEq, Repr

structure EmbeddingRecord where
  token : String
  embedding : List U32
deriving DecidableEq, Repr

inductive CustomRule where
  | substitution (source target : String) (cost : U32)
  | deletion (token : String) (cost : U32)
  | insertion (token : String) (cost : U32)
deriving DecidableEq, Repr

/-- `serde_json` for the documents of a configuration, or what it says against them. -/
structure ConfigJson where
  config : OpenedFile → Except String CostConfig
  embedding : String → Except String EmbeddingRecord
  rule : String → Except String CustomRule

/-- An error of `serde_json`. -/
def ofJson : Except String α → ConfigResult α
  | .ok a => .ok a
  | .error text => raise (bail text)

namespace CosineEmbeddingCosts

def new (embeddings : EmbeddingStore T) : CosineEmbeddingCosts T := ⟨embeddings, .one, .one, .one⟩

def withDeletionCost (costs : CosineEmbeddingCosts T) (cost : CostBits) : CosineEmbeddingCosts T :=
  { costs with deletion := cost }

def withInsertionCost (costs : CosineEmbeddingCosts T) (cost : CostBits) :
    CosineEmbeddingCosts T := { costs with insertion := cost }

def withMissingSubstitutionCost (costs : CosineEmbeddingCosts T) (cost : CostBits) :
    CosineEmbeddingCosts T := { costs with missingSubstitution := cost }

end CosineEmbeddingCosts

namespace CostConfig

def validateVersion (version : U32) : ConfigResult PUnit :=
  if version ≠ 1 then raise (bail ("unsupported cost configuration version " ++
    toString version.val ++ "; expected 1"))
  else .ok ⟨⟩

def parseCost (value : U32) (field : String) : ConfigResult CostBits :=
  withContext ("invalid cost configuration field '" ++ field ++ "'")
    (raise (ofLibrary (CostBits.new value)))

def inFile (what : String) (path : Path) : String := what ++ " '" ++ path.display ++ "'"

def inLine (what : String) (path : Path) (lineNumber : Nat) : String :=
  inFile what path ++ " at line " ++ toString lineNumber

def openJsonl (files : Files) (path : Path) (kind : String) :
    ConfigResult (List (Option String)) := do
  let file ← withContext (inFile ("failed to open " ++ kind ++ " file") path)
    (raise (okOr .io (files path)))
  return file.lines

variable [DecidableEq T]

section Embeddings
variable (json : ConfigJson) (normalization : Normalization) (tokenizer : Tokenizer (CliError U32) T)
  (path : Path)

def insertRecord (store : EmbeddingStoreBuilder T) (token : T) (embedding : List U32)
    (lineNumber : Nat) : ConfigResult (EmbeddingStoreBuilder T) := do
  let (previous, store) ← withContext (inLine "invalid embedding in" path lineNumber)
    (raise (ofLibrary (store.insert normalization token embedding)))
  if previous.isSome then
    raise (bail (inLine "duplicate token in embedding file" path lineNumber))
  return store

/-- One line of an embedding file, at its number from zero. -/
def loadEmbedding (store : Option (EmbeddingStoreBuilder T)) (entry : Option String × Nat) :
    ConfigResult (Option (EmbeddingStoreBuilder T)) := do
  let lineNumber := entry.2 + 1
  let line ← withContext (inLine "failed to read embedding file" path lineNumber)
    (raise (okOr .io entry.1))
  let record ← withContext (inLine "failed to parse embedding file" path lineNumber)
    (ofJson (json.embedding line))
  let token ← withContext (inLine "invalid token in embedding file" path lineNumber)
    (raise (singleToken tokenizer record.token))
  let store ← match store with
    | some store => pure store
    | none =>
      let dimension ← orContext (inFile "embedding file" path ++
          " has an empty embedding at line " ++ toString lineNumber)
        (if nonzero : record.embedding.length ≠ 0 then some ⟨_, nonzero⟩ else none)
      pure (EmbeddingStoreBuilder.new dimension)
  let store ← insertRecord normalization path store token record.embedding lineNumber
  return some store

def loadEmbeddings (files : Files) (_format : DataFormat) : ConfigResult (EmbeddingStore T) := do
  let lines ← openJsonl files path "embedding"
  let store ← lines.zipIdx.foldlM (loadEmbedding json normalization tokenizer path) none
  orContext (inFile "embedding file" path ++ " is empty") (store.map EmbeddingStoreBuilder.build)

end Embeddings

section Rules
variable (json : ConfigJson) (tokenizer : Tokenizer (CliError U32) T) (path : Path)

/-- The policy so far and the tokens that it has rules for. -/
structure RuleState (T : Type) where
  costs : CustomCosts T
  substitutions : List (T × T)
  deletions : List T
  insertions : List T

def parseRuleCost (value : U32) (lineNumber : Nat) : ConfigResult CostBits :=
  withContext (inLine "invalid cost in custom cost rule file" path lineNumber)
    (raise (ofLibrary (CostBits.new value)))

/-- The one token of a text of a rule. -/
def ruleToken (which : String) (text : String) (lineNumber : Nat) : ConfigResult T :=
  withContext (inLine ("invalid " ++ which ++ " token in custom cost rule file") path lineNumber)
    (raise (singleToken tokenizer text))

/-- One line of a rule file, at its number from zero. -/
def loadRule (state : RuleState T) (entry : Option String × Nat) : ConfigResult (RuleState T) := do
  let lineNumber := entry.2 + 1
  let line ← withContext (inLine "failed to read custom cost rule file" path lineNumber)
    (raise (okOr .io entry.1))
  let rule ← withContext (inLine "failed to parse custom cost rule file" path lineNumber)
    (ofJson (json.rule line))
  match rule with
  | .substitution source target cost =>
    let source ← ruleToken tokenizer path "'from'" source lineNumber
    let target ← ruleToken tokenizer path "'to'" target lineNumber
    if (source, target) ∈ state.substitutions then
      raise (bail (inLine "duplicate substitution in custom cost rule file" path lineNumber))
    let cost ← parseRuleCost path cost lineNumber
    return { state with
      substitutions := (source, target) :: state.substitutions
      costs := state.costs.setSubstitution source target cost }
  | .deletion token cost =>
    let token ← ruleToken tokenizer path "deletion" token lineNumber
    if token ∈ state.deletions then
      raise (bail (inLine "duplicate deletion in custom cost rule file" path lineNumber))
    let cost ← parseRuleCost path cost lineNumber
    return { state with
      deletions := token :: state.deletions
      costs := state.costs.setDeletion token cost }
  | .insertion token cost =>
    let token ← ruleToken tokenizer path "insertion" token lineNumber
    if token ∈ state.insertions then
      raise (bail (inLine "duplicate insertion in custom cost rule file" path lineNumber))
    let cost ← parseRuleCost path cost lineNumber
    return { state with
      insertions := token :: state.insertions
      costs := state.costs.setInsertion token cost }

def loadCustomCosts (files : Files) (_format : DataFormat) (defaults : CustomDefaults) :
    ConfigResult (CustomCosts T) := do
  let substitution ← parseCost defaults.substitution "defaults.substitution"
  let deletion ← parseCost defaults.deletion "defaults.deletion"
  let insertion ← parseCost defaults.insertion "defaults.insertion"
  let lines ← openJsonl files path "custom cost rule"
  let state ← lines.zipIdx.foldlM (loadRule json tokenizer path)
    ⟨CustomCosts.new substitution deletion insertion, [], [], []⟩
  return state.costs

end Rules

def policy (json : ConfigJson) (files : Files) (normalization : Normalization)
    (tokenizer : Tokenizer (CliError U32) T) (base : Path) :
    CostConfig → ConfigResult (RuntimeCosts T)
  | .embedding version embeddings missingSubstitutionCost deletionCost insertionCost => do
    validateVersion version
    let store ← loadEmbeddings json normalization tokenizer (base.join embeddings.path) files
      embeddings.format
    let missing ← parseCost missingSubstitutionCost "missing_substitution_cost"
    let deletion ← parseCost deletionCost "deletion_cost"
    let insertion ← parseCost insertionCost "insertion_cost"
    return .embedding (((CosineEmbeddingCosts.new store).withMissingSubstitutionCost
      missing).withDeletionCost deletion |>.withInsertionCost insertion)
  | .custom version defaults rules => do
    validateVersion version
    let costs ← loadCustomCosts json tokenizer (base.join rules.path) files rules.format defaults
    return .custom costs

def load (json : ConfigJson) (files : Files) (normalization : Normalization)
    (tokenizer : Tokenizer (CliError U32) T) (path : Path) : ConfigResult (RuntimeCosts T) := do
  let file ← withContext (inFile "failed to open cost configuration" path)
    (raise (okOr .io (files path)))
  let config ← withContext (inFile "failed to parse cost configuration" path)
    (ofJson (json.config file))
  withContext (inFile "invalid cost configuration" path)
    (config.policy json files normalization tokenizer (path.parent.getD Path.here))

end CostConfig
end Yurine
