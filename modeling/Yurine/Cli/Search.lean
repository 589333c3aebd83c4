import Yurine.Cli.Index
import Yurine.Search.RangeSearch

/-! Searching an index directory. Matches are found in the snapshot and quoted from the stored
texts, which nothing ties to the snapshot but their names. -/
namespace Yurine
open Outcome Disk Index

variable {R T : Type}

structure LocatedMatch (R : Type) where
  sequenceId : Nat
  byteRange : Nat × Nat
  distance : R
  matchedText : String
deriving DecidableEq, Repr

/-- The text of the previous match with the byte ranges of its tokens. -/
abbrev CachedText : Type := Nat × String × List (Nat × Nat)

/-- The text of a match, read unless it is that of the previous match. -/
def cachedText (tokenizer : Tokenizer (CliError R) T) (sources : SourceReader)
    (cached : Option CachedText) (sequenceId : Nat) : CliResult R CachedText :=
  match cached.filter (fun text => text.1 = sequenceId) with
  | some text => return text
  | none => do
    let sourceText ← sources.read sequenceId
    let tokens ← tokenizer sourceText
    return (sequenceId, sourceText, tokens.map (fun token => token.byteRange))

def locateMatch (tokenizer : Tokenizer (CliError R) T) (sources : SourceReader)
    (state : List (LocatedMatch R) × Option CachedText) (matched : Match R) :
    CliResult R (List (LocatedMatch R) × Option CachedText) := do
  let text ← cachedText tokenizer sources state.2 matched.sequenceId
  let last ← if 1 ≤ matched.tokenRange.2 then .ok (matched.tokenRange.2 - 1) else panic
  match text.2.2[matched.tokenRange.1]?, text.2.2[last]? with
  | some start, some stop => do
    let matchedText ← sliceText text.2.1 start.1 stop.2
    return (state.1 ++ [⟨matched.sequenceId, (start.1, stop.2), matched.distance, matchedText⟩],
      some text)
  | _, _ => bail "index does not match its stored source texts"

def locateMatches (tokenizer : Tokenizer (CliError R) T) (found : List (Match R))
    (sources : SourceReader) : CliResult R (List (LocatedMatch R)) := do
  return (← found.foldlM (locateMatch tokenizer sources) ([], none)).1

variable [Number R]

/-- The arguments of a search. The policy that `--costs` names is loaded for the tokenizer of
the index. -/
structure SearchOptions (R : Type) [Number R] where
  index : String
  querySourceText : String
  threshold : Cost R
  verify : Bool
  characterCosts : CliResult R (Policy R Char)
  whitespaceCosts : CliResult R (Policy R String)

def searchIndex [DecidableEq T] (options : SearchOptions R) (metadata : Index.Metadata)
    (tokenizer : Tokenizer (CliError R) T) (codec : TokenCodec R T)
    (loadCosts : CliResult R (Policy R T)) (files : Directory String) :
    CliResult R (List (LocatedMatch R)) := do
  let bytes ← okOr .io (files engineFile)
  let engine ← ofLibrary (SearchEngine.openWith codec bytes)
  if options.verify then ofLibrary engine.verify
  let sources ← SourceReader.openIn options.index files metadata.sequenceCount
  let costs ← loadCosts
  let querySequence ← tokenizer options.querySourceText
  let found ← ofLibrary (engine.search costs (querySequence.map (fun token => token.value))
    ⟨options.threshold.get, none⟩)
  locateMatches tokenizer found sources

def findMatches (json : Json Index.Metadata) (options : SearchOptions R)
    (files : Directory String) : CliResult R (List (LocatedMatch R)) := do
  let metadata ← readMetadata json options.index files
  match metadata.tokenizer with
  | .character =>
    searchIndex options metadata (fun text => .ok (characterTokenizer text)) charCodec
      options.characterCosts files
  | .whitespace =>
    searchIndex options metadata whitespaceTokenizer stringCodec options.whitespaceCosts files

def publishedFiles : List String := [metadataFile, engineFile, sourcesFile, offsetsFile]

/-- A search depends on these files alone. -/
theorem findMatches_congr (json : Json Index.Metadata) (options : SearchOptions R)
    {first second : Directory String} (same : ∀ name ∈ publishedFiles, first name = second name) :
    findMatches json options first = findMatches json options second := by
  have metadata := same metadataFile (by simp [publishedFiles])
  have engine := same engineFile (by simp [publishedFiles])
  have texts := same sourcesFile (by simp [publishedFiles])
  have offsets := same offsetsFile (by simp [publishedFiles])
  unfold findMatches searchIndex readMetadata SourceReader.openIn
  rw [metadata, engine, texts, offsets]

end Yurine
