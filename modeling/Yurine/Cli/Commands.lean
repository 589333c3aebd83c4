import Yurine.Cli.Quotes
import Yurine.Search.Reopen

/-! The commands that build an index and search it. A complete build publishes the texts, their
offsets, the snapshot and the metadata of one corpus, and a search of such a directory is a
search of the engine that the build made, followed by the quotation of the matches. -/
namespace Yurine
open Outcome Disk Index SearchEngineBuilder

variable {R T : Type}

namespace TokenizerKind

def indexCodec : (kind : TokenizerKind) → TokenCodec R kind.Token
  | character => charCodec
  | whitespace => stringCodec

theorem indexCodec_roundTrips : (kind : TokenizerKind) → (token : kind.Token) →
    (kind.indexCodec (R := R)).RoundTrips token
  | character => charCodec_roundTrips
  | whitespace => stringCodec_roundTrips

theorem indexCodec_short (kind : TokenizerKind) :
    (utf8 (kind.indexCodec (R := R)).id).length ≤ maxCodecIdLen := by
  cases kind <;> simp only [indexCodec, charCodec, stringCodec] <;> decide

end TokenizerKind

def runIndex (json : Json Index.Metadata) (random : String) (corpus : Corpus) :
    TokenizerKind → CliScript R PUnit
  | .character => buildIndex json random corpus .character
      (fun sourceText => .ok (characterTokenizer sourceText)) charCodec
  | .whitespace => buildIndex json random corpus .whitespace whitespaceTokenizer stringCodec

theorem runIndex_eq (json : Json Index.Metadata) (random : String) (corpus : Corpus)
    (kind : TokenizerKind) : (runIndex json random corpus kind : CliScript R PUnit) =
      buildIndex json random corpus kind kind.tokenize kind.indexCodec := by
  cases kind <;> rfl

def TokensOf (tokenizer : Tokenizer (CliError R) T) (texts : List String)
    (sequences : List (List T)) : Prop :=
  List.Forall₂ (fun sourceText sequence => ∃ tokens, tokenizer sourceText = .ok tokens ∧
    sequence = tokens.map fun token => token.value) texts sequences

theorem TokensOf.unique {tokenizer : Tokenizer (CliError R) T} {texts : List String}
    {sequences sequences' : List (List T)}
    (all : TokensOf tokenizer texts sequences) (all' : TokensOf tokenizer texts sequences') :
    sequences = sequences' := by
  induction all generalizing sequences' with
  | nil =>
    cases all'
    rfl
  | cons here rest ih =>
    cases all' with
    | cons here' rest' =>
      obtain ⟨tokens, tokenized, rfl⟩ := here
      obtain ⟨tokens', tokenized', rfl⟩ := here'
      rw [Except.ok.inj (tokenized.symm.trans tokenized'), ih rest']

section Build
variable {tokenizer : Tokenizer (CliError R) T} {builder built : SearchEngineBuilder T}
  {lines : List (Option String)} {texts : List String}

theorem readLine_ok {line : Option String} {sourceText : String}
    (read : readLine tokenizer builder line = .ok (sourceText, built)) :
    line = some sourceText ∧ ∃ tokens id, tokenizer sourceText = .ok tokens ∧
      builder.addSequence (R := R) (tokens.map fun token => token.value) = (.ok id, built) := by
  obtain ⟨text, known, read⟩ := bind_eq_ok.mp read
  obtain ⟨tokens, tokenized, read⟩ := bind_eq_ok.mp read
  obtain ⟨id, added, last⟩ := bind_eq_ok.mp read
  cases last
  exact ⟨okOr_eq_ok.mp known, tokens, id, tokenized, Prod.ext (ofLibrary_ok_iff.mp added) rfl⟩

/-- A corpus that is read adds the tokens of every line, and no addition fails. -/
theorem readLines_ok (read : readLines tokenizer builder lines = .ok (texts, built)) :
    lines = texts.map some ∧ ∃ sequences, TokensOf tokenizer texts sequences ∧
      (builder.addSequences (R := R) sequences).2 = built ∧
      accepted sequences (builder.addSequences (R := R) sequences).1 = sequences := by
  induction lines generalizing builder texts with
  | nil =>
    cases read
    exact ⟨rfl, [], .nil, rfl, rfl⟩
  | cons line rest ih =>
    obtain ⟨⟨sourceText, next⟩, first, read⟩ := bind_eq_ok.mp read
    obtain ⟨⟨others, last⟩, later, read⟩ := bind_eq_ok.mp read
    cases read
    obtain ⟨rfl, tokens, id, tokenized, added⟩ := readLine_ok first
    obtain ⟨rfl, sequences, all, ran, same⟩ := ih later
    refine ⟨rfl, _ :: sequences, .cons ⟨tokens, tokenized, rfl⟩ all, ?_, ?_⟩
    · simp only [addSequences, added, ran]
    · simp only [addSequences, added, accepted, List.zip_cons_cons] at same ⊢
      simpa [Except.toOption] using same

variable [DecidableEq T] {json : Json Index.Metadata} {random : String} {corpus : Corpus}
  {kind : TokenizerKind} {codec : TokenCodec R T}

/-- A build that returns has made an index of its corpus. -/
theorem exists_contents
    (complete : (buildIndex json random corpus kind tokenizer codec).result = .ok ⟨⟩) :
    ∃ texts bytes, indexContents corpus tokenizer codec = .ok (texts, bytes) := by
  cases corpus with
  | none => cases complete
  | some lines =>
    rw [buildIndex_eq, Script.bind_mk_ok] at complete
    cases found : readLines tokenizer SearchEngineBuilder.new lines with
    | error reason =>
      obtain ⟨stored, position, ran, _⟩ := foldlM_indexLine tokenizer ⟨0, 0⟩
        SearchEngineBuilder.new lines
      rw [ran, found] at complete
      cases complete
    | ok result =>
      obtain ⟨texts, builder⟩ := result
      obtain ⟨position, ran⟩ := foldlM_indexLine_ok found
      cases encoded : engineBytes builder codec with
      | error reason =>
        rw [ran, Script.bind_mk_ok, afterReading_error encoded] at complete
        cases complete
      | ok bytes =>
        refine ⟨texts, bytes, ?_⟩
        rw [indexContents, okOr_some, bind_ok, found, bind_ok]
        simp only [encoded]
        rfl

end Build

theorem engine_of_contents {kind : TokenizerKind} {corpus : Corpus} {texts : List String}
    {bytes : List UInt8}
    (contents : indexContents corpus (kind.tokenize (R := R)) kind.indexCodec =
      .ok (texts, bytes)) :
    corpus = some (texts.map some) ∧ ∃ sequences engine,
      TokensOf (kind.tokenize (R := R)) texts sequences ∧ sequences.length ≤ 2 ^ 32 ∧
      Indexes engine sequences ∧
      (new.addSequences (R := R) sequences).2.build (R := R) = .ok engine ∧
      engine.saveWith (R := R) kind.indexCodec = .ok bytes := by
  obtain ⟨lines, opened, contents⟩ := bind_eq_ok.mp contents
  obtain ⟨⟨read, builder⟩, found, contents⟩ := bind_eq_ok.mp contents
  obtain ⟨saved, encoded, contents⟩ := bind_eq_ok.mp contents
  cases contents
  obtain ⟨rfl, sequences, tokens, rfl, all⟩ := readLines_ok found
  obtain ⟨engine, built, snapshot⟩ := bind_eq_ok.mp encoded
  obtain ⟨count, indexes⟩ := indexes_of_built (ofLibrary_ok_iff.mp built)
  rw [all] at count indexes
  exact ⟨okOr_eq_ok.mp opened, sequences, engine, tokens, count, indexes,
    ofLibrary_ok_iff.mp built, ofLibrary_ok_iff.mp snapshot⟩

theorem exists_copy [DecidableEq T] {engine : SearchEngine T} {sequences : List (List T)}
    (count : sequences.length ≤ 2 ^ 32) (indexes : Indexes engine sequences)
    {codec : TokenCodec R T} (contract : ∀ token, codec.RoundTrips token)
    (short : (utf8 codec.id).length ≤ maxCodecIdLen) {bytes : List UInt8}
    (saved : engine.saveWith codec = .ok bytes) :
    ∃ opened, SearchEngine.openWith codec bytes = .ok opened ∧
      opened.Copies engine.vocabulary engine.index engine.store :=
  (SearchEngine.ensures_saveWith indexes.wellFormed (indexes.verified count)
    (fun token _ => contract token) short).of_ok saved

structure Published (json : Json Index.Metadata) (kind : TokenizerKind) (texts : List String)
    (bytes : List UInt8) (files : Directory String) : Prop where
  engine : files engineFile = some bytes
  sources : files sourcesFile = some (sourceBytes texts)
  offsets : files offsetsFile = some (offsetBytes texts)
  metadata : files metadataFile = some (metadataBytes json kind texts.length)

theorem published_performAll (json : Json Index.Metadata) (random : String) (kind : TokenizerKind)
    (texts : List String) (bytes : List UInt8) (before : Directory String) :
    Published json kind texts bytes (performAll (preparation random texts bytes ++
      publication random (metadataBytes json kind texts.length)) before) := by
  obtain ⟨stored, table, snapshot⟩ := performAll_preparation random texts bytes before
  rw [performAll_append]
  generalize performAll (preparation random texts bytes) before = files at stored table snapshot
  have first : "engine.yurine" ≠ ".tmp" ++ random := (scratch_ne (by decide)).symm
  have second : "sources.txt.tmp" ≠ ".tmp" ++ random := (scratch_ne (by decide)).symm
  have third : "sources.idx.tmp" ≠ ".tmp" ++ random := (scratch_ne (by decide)).symm
  have texts_ : files "sources.txt.tmp" = some (sourceBytes texts) := stored
  have table_ : files "sources.idx.tmp" = some (offsetBytes texts) := table
  have snapshot_ : files (".tmp" ++ random) = some bytes := snapshot
  constructor <;> simp [performAll, publication, Call.perform, engineFile, sourcesFile,
    offsetsFile, metadataFile, temporary, temporarySuffix, scratch, first, second, third, texts_,
    table_, snapshot_]

section Search
variable [Number R] {kind : TokenizerKind}

def SearchOptions.costs (options : SearchOptions R) :
    (kind : TokenizerKind) → CliResult R (Policy R kind.Token)
  | .character => options.characterCosts
  | .whitespace => options.whitespaceCosts

theorem findMatches_eq (json : Json Index.Metadata) (options : SearchOptions R)
    (files : Directory String) : findMatches json options files = (do
      let metadata ← readMetadata json options.index files
      searchIndex options metadata metadata.tokenizer.tokenize metadata.tokenizer.indexCodec
        (options.costs metadata.tokenizer) files) := by
  apply bind_congr
  rintro ⟨version, kind, count⟩
  cases kind <;> rfl

omit [Number R] in
theorem readMetadata_ok {json : Json Index.Metadata} {directory : String}
    {files : Directory String} {count : Nat}
    (parses : json.fromStr (json.toStringPretty ⟨Index.formatVersion, kind, count⟩ ++ "\n") =
      some ⟨Index.formatVersion, kind, count⟩)
    (stored : files metadataFile = some (metadataBytes json kind count)) :
    (readMetadata json directory files : CliResult R Index.Metadata) =
      .ok ⟨Index.formatVersion, kind, count⟩ := by
  rw [readMetadata, stored, okOr_some, bind_ok, metadataBytes, fromUtf8_utf8, okOr_some, bind_ok]
  exact bind_eq_ok.mpr ⟨_, okOr_eq_ok.mpr parses, rfl⟩

/-- Saving an engine and opening its snapshot gives one on which searches are the same. -/
theorem exists_opened [DecidableEq T] {engine : SearchEngine T} {sequences : List (List T)}
    (count : sequences.length ≤ 2 ^ 32) (indexes : Indexes engine sequences)
    {codec : TokenCodec R T} (contract : ∀ token, codec.RoundTrips token)
    (short : (utf8 codec.id).length ≤ maxCodecIdLen) {bytes : List UInt8}
    (saved : engine.saveWith codec = .ok bytes) :
    ∃ opened, SearchEngine.openWith codec bytes = .ok opened ∧
      opened.verify (R := R) = .ok ⟨⟩ ∧ ∀ (policy : Policy R T) querySequence params,
        opened.search policy querySequence params = engine.search policy querySequence params := by
  have wf := indexes.wellFormed
  obtain ⟨opened, reopened, copies⟩ := exists_copy count indexes contract short saved
  exact ⟨opened, reopened, copies.verify wf (indexes.verified count),
    copies.search wf (wf.readable indexes.owned)⟩

/-- A search of the files of an index, told by the engine that they were made from. -/
theorem findMatches_published {json : Json Index.Metadata} {texts : List String}
    {bytes : List UInt8} {files : Directory String}
    (published : Published json kind texts bytes files)
    (parses : json.fromStr (json.toStringPretty ⟨Index.formatVersion, kind, texts.length⟩ ++ "\n") =
      some ⟨Index.formatVersion, kind, texts.length⟩)
    (short : (texts.length + 1) * 8 < 2 ^ 64) {engine opened : SearchEngine kind.Token}
    (reopened : SearchEngine.openWith (kind.indexCodec (R := R)) bytes = .ok opened)
    (verified : opened.verify (R := R) = .ok ⟨⟩)
    (same : ∀ (policy : Policy R kind.Token) querySequence params,
      opened.search policy querySequence params = engine.search policy querySequence params)
    (options : SearchOptions R) :
    findMatches json options files = (do
      let costs ← options.costs kind
      let querySequence ← kind.tokenize options.querySourceText
      let found ← ofLibrary (engine.search costs (querySequence.map fun token => token.value)
        ⟨options.threshold.get, none⟩)
      locateMatches kind.tokenize found (storedReader texts)) := by
  rw [findMatches_eq, readMetadata_ok parses published.metadata, bind_ok, searchIndex]
  simp only [published.engine, okOr_some, bind_ok, reopened, ofLibrary, verified,
    openIn_stored options.index published.sources published.offsets short, same, ite_self]

end Search
end Yurine
