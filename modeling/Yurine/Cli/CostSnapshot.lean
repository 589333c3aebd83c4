import Yurine.Cli.Index
import Yurine.Costs.Embedding

/-! The directory of a compiled cost policy: its costs, the embeddings of an embedding policy,
and the metadata that says how to read them. Nothing in the costs names the embeddings they
were compiled with. -/
namespace Yurine
open Outcome Disk CustomCosts

inductive RuntimeCosts (T : Type) where
  | levenshtein
  | embedding (costs : CosineEmbeddingCosts T)
  | custom (costs : CustomCosts T)
deriving DecidableEq

namespace TokenizerKind

def codec : (kind : TokenizerKind) → TokenCodec U32 kind.Token
  | character => charCodec
  | whitespace => stringCodec

theorem codec_roundTrips : (kind : TokenizerKind) → ∀ token, kind.codec.RoundTrips token
  | character => charCodec_roundTrips
  | whitespace => stringCodec_roundTrips

def display : TokenizerKind → String
  | character => "character"
  | whitespace => "whitespace"

end TokenizerKind

namespace CostSnapshot

def formatVersion : Nat := 1

def metadataFile : String := "metadata.json"

def costsFile : String := "costs.yurine"

def storeFile : String := "store.yurine"

inductive CostKind where
  | levenshtein
  | embedding
  | custom
deriving DecidableEq, Repr

structure Metadata where
  version : Nat
  kind : CostKind
  tokenizer : TokenizerKind
deriving DecidableEq, Repr

/-- The orders in which the hash maps of a policy are iterated. -/
structure Orders (T : Type) where
  rules : Iteration T
  embeddings : List (T × U32)

variable {T : Type} [DecidableEq T]

def writeMetadata (json : Json Metadata) (kind : CostKind) (tokenizer : TokenizerKind) :
    CliScript U32 PUnit := do
  let contents := json.toStringPretty ⟨formatVersion, kind, tokenizer⟩
  Script.call (.create (temporary metadataFile))
  Script.call (.write (temporary metadataFile) (utf8 (contents ++ "\n")))
  Script.call (.rename (temporary metadataFile) metadataFile)

/-- Writes the files of a policy under temporary names. -/
def saveCosts (random : String → String) (validate : RowCheck) (orders : Orders T)
    (costs : RuntimeCosts T) (codec : TokenCodec U32 T) :
    CliScript U32 (CostKind × List String) :=
  match costs with
  | .levenshtein => do
    saveFile (random costsFile) (temporary costsFile) LevenshteinCosts.save
    return (.levenshtein, [costsFile])
  | .embedding costs => do
    saveFile (random storeFile) (temporary storeFile)
      (costs.embeddings.saveWith validate orders.embeddings codec)
    saveFile (random costsFile) (temporary costsFile) costs.save
    return (.embedding, [costsFile, storeFile])
  | .custom costs => do
    saveFile (random costsFile) (temporary costsFile) (costs.saveWith orders.rules codec)
    return (.custom, [costsFile])

def save (json : Json Metadata) (random : String → String) (validate : RowCheck)
    (orders : Orders T) (costs : RuntimeCosts T) (tokenizer : TokenizerKind)
    (codec : TokenCodec U32 T) : CliScript U32 PUnit := do
  let (kind, files) ← saveCosts random validate orders costs codec
  files.forM fun name => Script.call (.rename (temporary name) name)
  -- A policy without embeddings never reads a store left by a previous run.
  if kind ≠ .embedding then Script.call (.remove storeFile)
  writeMetadata json kind tokenizer

def readMetadata (json : Json Metadata) (directory : String) (files : Directory String) :
    CliResult U32 Metadata := do
  let contents ← okOr .io (files metadataFile)
  let contents ← okOr .io (fromUtf8 contents)
  let metadata ← okOr (.message "failed to parse cost snapshot metadata") (json.fromStr contents)
  if metadata.version ≠ formatVersion then
    bail ("cost snapshot '" ++ directory ++ "' has unsupported format version " ++
      toString metadata.version ++ " (expected " ++ toString formatVersion ++ ")")
  return metadata

/-- The policy of a kind in the files of a directory. -/
def openPolicy (kind : CostKind) (codec : TokenCodec U32 T) (files : Directory String) :
    CliResult U32 (RuntimeCosts T) :=
  match kind with
  | .levenshtein => do
    let bytes ← okOr .io (files costsFile)
    ofLibrary (LevenshteinCosts.openFile bytes)
    return .levenshtein
  | .embedding => do
    let store ← okOr .io (files storeFile)
    let embeddings ← ofLibrary (EmbeddingStore.openWith codec store)
    let bytes ← okOr .io (files costsFile)
    let costs ← ofLibrary (CosineEmbeddingCosts.openFile bytes embeddings)
    return .embedding costs
  | .custom => do
    let bytes ← okOr .io (files costsFile)
    let costs ← ofLibrary (CustomCosts.openWith codec bytes)
    return .custom costs

def openIn (json : Json Metadata) (directory : String) (tokenizer : TokenizerKind)
    (codec : TokenCodec U32 T) (files : Directory String) : CliResult U32 (RuntimeCosts T) := do
  let metadata ← readMetadata json directory files
  if metadata.tokenizer ≠ tokenizer then
    bail ("cost snapshot '" ++ directory ++ "' uses the " ++ metadata.tokenizer.display ++
      " tokenizer, but the index uses " ++ tokenizer.display)
  openPolicy metadata.kind codec files

end CostSnapshot
end Yurine
