import Yurine.Cli.Files
import Yurine.Cli.Tokenization
import Yurine.Search.Builder
import Yurine.Search.Persistence

/-! The directory of a prebuilt index: the snapshot of an engine next to the texts it was built
from. Building writes four files; a search reads the same four and nothing else. -/
namespace Yurine
open Outcome Disk LittleEndian

variable {R T : Type}

namespace Index

def formatVersion : Nat := 1

def metadataFile : String := "metadata.json"

def engineFile : String := "engine.yurine"

def sourcesFile : String := "sources.txt"

def offsetsFile : String := "sources.idx"

structure Metadata where
  version : Nat
  tokenizer : TokenizerKind
  sequenceCount : Nat
deriving DecidableEq, Repr

end Index

/-- `serde_json` for one type. -/
structure Json (α : Type) where
  toStringPretty : α → String
  fromStr : String → Option α

namespace Index

def writeMetadata (json : Json Metadata) (tokenizer : TokenizerKind) (sequenceCount : Nat) :
    CliScript R PUnit := do
  let contents := json.toStringPretty ⟨formatVersion, tokenizer, sequenceCount⟩
  Script.call (.create metadataFile)
  Script.call (.write metadataFile (utf8 (contents ++ "\n")))

def readMetadata (json : Json Metadata) (directory : String) (files : Directory String) :
    CliResult R Metadata := do
  let contents ← okOr .io (files metadataFile)
  let contents ← okOr .io (fromUtf8 contents)
  let metadata ← okOr (.message "failed to parse index metadata") (json.fromStr contents)
  if metadata.version ≠ formatVersion then
    bail ("index '" ++ directory ++ "' has unsupported format version " ++
      toString metadata.version ++ " (expected " ++ toString formatVersion ++ ")")
  return metadata

/-- The position in the texts and the number of texts; the files themselves are on the disk. -/
structure SourceWriter where
  position : Nat
  count : Nat

namespace SourceWriter

def create : CliScript R SourceWriter := do
  Script.call (.create (temporary sourcesFile))
  Script.call (.create (temporary offsetsFile))
  Script.call (.write (temporary offsetsFile) (encode 8 0))
  return ⟨0, 0⟩

/-- One text and the start of the next one; buffering only delays these calls. -/
def push (writer : SourceWriter) (sourceText : String) : CliScript R SourceWriter := do
  Script.call (.write (temporary sourcesFile) (utf8 sourceText ++ [10]))
  let position := writer.position + (utf8 sourceText).length + 1
  Script.call (.write (temporary offsetsFile) (encode 8 position))
  return ⟨position, writer.count + 1⟩

def finish (writer : SourceWriter) : CliScript R Nat := do
  Script.call (.flush (temporary sourcesFile))
  Script.call (.flush (temporary offsetsFile))
  return writer.count

def publish : CliScript R PUnit := do
  Script.call (.rename (temporary sourcesFile) sourcesFile)
  Script.call (.rename (temporary offsetsFile) offsetsFile)

end SourceWriter

/-- The lines of a corpus; a line that is not read is an error, and so is a missing file. -/
abbrev Corpus : Type := Option (List (Option String))

def indexLine (tokenizer : Tokenizer (CliError R) T)
    (state : SourceWriter × SearchEngineBuilder T) (line : Option String) :
    CliScript R (SourceWriter × SearchEngineBuilder T) := do
  let sourceText ← Script.lift (okOr .io line)
  let sequence ← Script.lift (tokenizer sourceText)
  let added := state.2.addSequence (R := R) (sequence.map (fun token => token.value))
  let _ ← Script.lift (ofLibrary added.1)
  let sources ← state.1.push sourceText
  return (sources, added.2)

/-- `build_index` without its reports of progress and its timings. -/
def buildIndex [DecidableEq T] (json : Json Metadata) (random : String) (corpus : Corpus)
    (kind : TokenizerKind) (tokenizer : Tokenizer (CliError R) T) (codec : TokenCodec R T) :
    CliScript R PUnit := do
  Script.call .directory
  let sources ← SourceWriter.create
  let lines ← Script.lift (okOr .io corpus)
  let (sources, builder) ← lines.foldlM (indexLine tokenizer) (sources, SearchEngineBuilder.new)
  let sequenceCount ← sources.finish
  let engine ← Script.lift (ofLibrary builder.build)
  saveFile random engineFile (engine.saveWith codec)
  SourceWriter.publish
  writeMetadata json kind sequenceCount

structure SourceReader where
  texts : List UInt8
  offsets : List UInt8
  length : Nat

namespace SourceReader

def openIn (directory : String) (files : Directory String) (sequenceCount : Nat) :
    CliResult R SourceReader := do
  let texts ← okOr .io (files sourcesFile)
  let offsets ← okOr .io (files offsetsFile)
  let expected := (checkedAdd64 sequenceCount 1).bind (fun entries => checkedMul64 entries 8)
  if some offsets.length ≠ expected then
    bail ("'" ++ directory ++ "/" ++ offsetsFile ++ "' does not describe " ++
      toString sequenceCount ++ " source texts")
  return ⟨texts, offsets, texts.length⟩

/-- `seek` and `read_exact`. -/
def readExact (bytes : List UInt8) (start len : Nat) : CliResult R (List UInt8) :=
  if start + len ≤ bytes.length then return (bytes.drop start).take len else fail .io

def read (reader : SourceReader) (sequenceId : Nat) : CliResult R String := do
  let bounds ← readExact reader.offsets (sequenceId * 8) 16
  let start := decode (bounds.take 8)
  let stop := decode (bounds.drop 8)
  if stop ≤ start ∨ reader.length < stop then bail "index has invalid source offsets"
  let buffer ← readExact reader.texts start (stop - start - 1)
  okOr (.message "index has a source text that is not valid UTF-8") (fromUtf8 buffer)

end SourceReader
end Index
end Yurine
