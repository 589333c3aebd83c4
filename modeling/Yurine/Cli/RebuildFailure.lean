import Yurine.Cli.Commands

/-! Which failures of a rebuild leave the previous index. The new snapshot, texts, offsets and
metadata replace the previous ones in this order, so what matters is how far the run gets and
which of them it makes of the new corpus as they were made of the previous one. -/
namespace Yurine
open Outcome Disk Index SearchEngineBuilder

variable {R T : Type}

def joinLines : List String → String
  | [] => ""
  | text :: rest => text ++ "\n" ++ joinLines rest

/-- The lines of both corpora have the same tokens, one by one. -/
def SameTokens (R : Type) (kind : TokenizerKind) (texts texts' : List String) : Prop :=
  ∃ sequences, TokensOf (kind.tokenize (R := R)) texts sequences ∧
    TokensOf (kind.tokenize (R := R)) texts' sequences

/-- A complete run made the published files of this corpus, the texts being short enough for
64-bit offsets. -/
structure HoldsIndex (R : Type) (json : Json Index.Metadata) (corpus : Corpus)
    (kind : TokenizerKind) (files : Directory String) : Prop where
  made : ∃ random before,
    (runIndex json random corpus kind : CliScript R PUnit).result = .ok ⟨⟩ ∧
    ∀ name ∈ publishedFiles,
      files name = performAll (runIndex (R := R) json random corpus kind).calls before name
  sized : ∀ bytes, files sourcesFile = some bytes → bytes.length < 2 ^ 64

/-- What a run that ends in this call has published was published by the previous one: the
snapshot by call `2 * n + 10` for `n` lines, the texts and their offsets by the calls
`2 * n + 12` and `2 * n + 13`, and the metadata by calls `2 * n + 14` and `2 * n + 15`, the last
of which may write a part of them. -/
structure Repeats (R : Type) (json : Json Index.Metadata) (kind kind' : TokenizerKind)
    (texts texts' : List String) (stop part : Nat) : Prop where
  tokens : 2 * texts'.length + 10 < stop → kind' = kind ∧ SameTokens R kind texts texts'
  lines : 2 * texts'.length + 12 < stop → joinLines texts' = joinLines texts
  texts : 2 * texts'.length + 13 < stop → texts' = texts
  metadata : 2 * texts'.length + 14 < stop →
    (metadataBytes json kind' texts'.length).length ≤ part

/-- The build is refused, or it repeats the previous one up to the failing call. -/
def LeavesPrevious (R : Type) (json : Json Index.Metadata) (random : String)
    (previous corpus : Corpus) (kind kind' : TokenizerKind) (stop part : Nat) : Prop :=
  (runIndex json random corpus kind' : CliScript R PUnit).result = .ok ⟨⟩ →
    ∃ texts texts', previous = some (texts.map some) ∧ corpus = some (texts'.map some) ∧
      Repeats R json kind kind' texts texts' stop part

theorem TokenizerKind.indexCodec_id_injective {kind kind' : TokenizerKind}
    (same : (kind'.indexCodec (R := R)).id = (kind.indexCodec (R := R)).id) : kind' = kind := by
  cases kind <;> cases kind' <;> simp_all [indexCodec, charCodec, stringCodec]

section Bytes
variable {kind kind' : TokenizerKind} {texts texts' : List String} {corpus : Corpus}
  {bytes bytes' : List UInt8}

theorem sourceBytes_eq (texts : List String) : sourceBytes texts = utf8 (joinLines texts) := by
  induction texts with
  | nil => rfl
  | cons text rest ih =>
    have line : utf8 "\n" = [10] := by decide
    rw [joinLines, utf8_append, utf8_append, ← ih, line]
    rfl

theorem sourceBytes_eq_iff : sourceBytes texts' = sourceBytes texts ↔
    joinLines texts' = joinLines texts := by
  rw [sourceBytes_eq, sourceBytes_eq]
  constructor
  · intro same
    have read := congrArg fromUtf8 same
    rw [fromUtf8_utf8, fromUtf8_utf8] at read
    exact Option.some.inj read
  · exact congrArg utf8

theorem texts_eq (sized : (sourceBytes texts).length < 2 ^ 64)
    (sources : sourceBytes texts' = sourceBytes texts)
    (offsets : offsetBytes texts' = offsetBytes texts) : texts' = texts := by
  have count := congrArg List.length offsets
  rw [length_offsetBytes, length_offsetBytes] at count
  have reader : storedReader texts' = storedReader texts := by
    unfold storedReader
    rw [sources, offsets]
  refine List.ext_getElem (by omega) fun i inside inside' => ?_
  have first := read_storedReader (R := Unit) (by rwa [sources]) inside
  have second := read_storedReader (R := Unit) sized inside'
  rw [reader] at first
  exact Except.ok.inj (first.symm.trans second)

/-- Two builds save the same bytes exactly when they have the same tokenizer and the same tokens. -/
theorem bytes_eq_iff {previous : Corpus}
    (old : indexContents previous (kind.tokenize (R := R)) kind.indexCodec = .ok (texts, bytes))
    (made : indexContents corpus (kind'.tokenize (R := R)) kind'.indexCodec =
      .ok (texts', bytes')) :
    bytes' = bytes ↔ kind' = kind ∧ SameTokens R kind texts texts' := by
  obtain ⟨_, sequences, engine, tokens, count, indexes, built, saved⟩ := engine_of_contents old
  obtain ⟨_, sequences', engine', tokens', count', indexes', built', saved'⟩ :=
    engine_of_contents made
  constructor
  · rintro rfl
    obtain ⟨opened, reopened, copies⟩ := exists_copy count indexes kind.indexCodec_roundTrips
      kind.indexCodec_short saved
    have identifier := SearchEngine.saveWith_identity saved' reopened
    obtain rfl := TokenizerKind.indexCodec_id_injective identifier
    obtain ⟨again, reopened', copies'⟩ := exists_copy count' indexes' kind'.indexCodec_roundTrips
      kind'.indexCodec_short saved'
    obtain rfl := Except.ok.inj (reopened.symm.trans reopened')
    obtain rfl := indexes.sequences_eq indexes' (copies.tokens.symm.trans copies'.tokens)
      (copies.strings.symm.trans copies'.strings)
    exact ⟨rfl, sequences, tokens, tokens'⟩
  · rintro ⟨rfl, shared, all, all'⟩
    obtain rfl := tokens.unique all
    obtain rfl := tokens'.unique all'
    obtain rfl := Except.ok.inj (built.symm.trans built')
    exact Except.ok.inj (saved'.symm.trans saved)

end Bytes

section Failure
variable {json : Json Index.Metadata} {previous corpus : Corpus} {kind kind' : TokenizerKind}
  {files : Directory String} {texts texts' : List String} {bytes bytes' : List UInt8}

theorem HoldsIndex.published (holds : HoldsIndex R json corpus kind files) :
    ∃ texts bytes, indexContents corpus (kind.tokenize (R := R)) kind.indexCodec =
        .ok (texts, bytes) ∧ Published json kind texts bytes files := by
  obtain ⟨random, before, complete, same⟩ := holds.made
  rw [runIndex_eq] at complete same
  obtain ⟨texts, bytes, contents⟩ := exists_contents complete
  refine ⟨texts, bytes, contents, ?_⟩
  rw [buildIndex_ok contents] at same
  have published := published_performAll json random kind texts bytes before
  constructor
  · rw [same engineFile (by simp [publishedFiles]), published.engine]
  · rw [same sourcesFile (by simp [publishedFiles]), published.sources]
  · rw [same offsetsFile (by simp [publishedFiles]), published.offsets]
  · rw [same metadataFile (by simp [publishedFiles]), published.metadata]

/-- What is published has the bytes of the previous files exactly when it was made of the same
tokens, lines, texts and metadata. -/
theorem republished_iff
    (old : indexContents previous (kind.tokenize (R := R)) kind.indexCodec = .ok (texts, bytes))
    (published : Published json kind texts bytes files)
    (sized : (sourceBytes texts).length < 2 ^ 64)
    (made : indexContents corpus (kind'.tokenize (R := R)) kind'.indexCodec =
      .ok (texts', bytes')) (stop part : Nat) :
    Republished files stop texts' bytes' ((metadataBytes json kind' texts'.length).take part) ↔
      Repeats R json kind kind' texts texts' stop part := by
  have engine : files engineFile = some bytes' ↔ kind' = kind ∧ SameTokens R kind texts texts' := by
    rw [published.engine, Option.some.injEq, eq_comm, bytes_eq_iff old made]
  have lines : files sourcesFile = some (sourceBytes texts') ↔
      joinLines texts' = joinLines texts := by
    rw [published.sources, Option.some.injEq, eq_comm, sourceBytes_eq_iff]
  have metadata (same : kind' = kind ∧ texts' = texts) : files metadataFile =
      some ((metadataBytes json kind' texts'.length).take part) ↔
        (metadataBytes json kind' texts'.length).length ≤ part := by
    rw [published.metadata, Option.some.injEq, same.1, same.2, eq_comm, List.take_eq_self_iff]
  constructor
  · intro same
    have repeated (late : 2 * texts'.length + 13 < stop) : texts' = texts := by
      have table := same.offsets late
      rw [published.offsets, Option.some.injEq] at table
      exact texts_eq sized (sourceBytes_eq_iff.mpr (lines.mp (same.sources (by omega)))) table.symm
    refine ⟨fun late => engine.mp (same.engine late), fun late => lines.mp (same.sources late),
      repeated, fun late => ?_⟩
    exact (metadata ⟨(engine.mp (same.engine (by omega))).1, repeated (by omega)⟩).mp
      (same.metadata late)
  · intro repeats
    refine ⟨fun late => engine.mpr (repeats.tokens late), fun late => lines.mpr (repeats.lines late),
      fun late => ?_, fun late => ?_⟩
    · rw [published.offsets, repeats.texts late]
    · exact (metadata ⟨(repeats.tokens (by omega)).1, repeats.texts (by omega)⟩).mpr
        (repeats.metadata late)

/-- A failed rebuild leaves the four files of the previous index exactly when it is refused or
has published by then no more than the previous build, and then every search finds what it found
before. -/
theorem buildIndex_failure (json : Json Index.Metadata) (random : String)
    (previous corpus : Corpus) (kind kind' : TokenizerKind) (files : Directory String)
    (holds : HoldsIndex R json previous kind files) (stop part : Nat)
    (failed : (runIndex json random corpus kind' : CliScript R PUnit).outcome stop .io ≠ .ok ⟨⟩) :
    ((∀ name ∈ publishedFiles,
        leave (runIndex (R := R) json random corpus kind').calls stop part files name =
          files name) ↔
      LeavesPrevious R json random previous corpus kind kind' stop part) ∧
    (LeavesPrevious R json random previous corpus kind kind' stop part →
      ∀ [Number R] (options : SearchOptions R), findMatches json options
        (leave (runIndex (R := R) json random corpus kind').calls stop part files) =
          findMatches json options files) := by
  suffices exactly : (∀ name ∈ publishedFiles,
      leave (runIndex (R := R) json random corpus kind').calls stop part files name =
        files name) ↔ LeavesPrevious R json random previous corpus kind kind' stop part by
    refine ⟨exactly, fun leaves _ options => ?_⟩
    exact findMatches_congr json options (exactly.mpr leaves)
  obtain ⟨texts, bytes, old, published⟩ := holds.published
  have sized := holds.sized _ published.sources
  rw [LeavesPrevious, runIndex_eq] at *
  cases contents : indexContents corpus (kind'.tokenize (R := R)) kind'.indexCodec with
  | error reason =>
    constructor
    · intro _ complete
      obtain ⟨_, _, made⟩ := exists_contents complete
      cases contents.symm.trans made
    · intro _ name mem
      exact leave_other ((buildIndex_error contents).other mem)
  | ok made =>
    obtain ⟨texts', bytes'⟩ := made
    rw [buildIndex_ok contents] at failed ⊢
    have inside : stop < (preparation random texts' bytes' ++
        publication random (metadataBytes json kind' texts'.length)).length := by
      by_contra complete
      exact failed (if_neg complete)
    rw [leave_published random files texts' bytes' _ inside part,
      republished_iff old published sized contents]
    have before := (engine_of_contents old).1
    have now := (engine_of_contents contents).1
    constructor
    · exact fun repeats _ => ⟨texts, texts', before, now, repeats⟩
    · intro leaves
      obtain ⟨first, second, known, read, repeats⟩ := leaves rfl
      obtain rfl := List.map_injective_iff.mpr (Option.some_injective _)
        (Option.some.inj (before.symm.trans known))
      obtain rfl := List.map_injective_iff.mpr (Option.some_injective _)
        (Option.some.inj (now.symm.trans read))
      exact repeats

def metadataDocument (metadata : Index.Metadata) : String :=
  let tokenizer := match metadata.tokenizer with
    | .character => "character"
    | .whitespace => "whitespace"
  "\x7b\n  \"version\": " ++ toString metadata.version ++ ",\n  \"tokenizer\": \"" ++ tokenizer ++
    "\",\n  \"sequence_count\": " ++ toString metadata.sequenceCount ++ "\n\x7d"

/-- These documents, read for an index of one line. -/
def oneLineJson : Json Index.Metadata where
  toStringPretty := metadataDocument
  fromStr text :=
    if text = metadataDocument ⟨1, .character, 1⟩ ++ "\n" then some ⟨1, .character, 1⟩ else none

def unitCosts [DecidableEq T] : Policy Int T := levenshteinCosts ⟨1, by decide, by decide⟩

def searchLetter (letter : String) : SearchOptions Int :=
  ⟨"index", letter, ⟨0, by decide, by decide⟩, false, .ok unitCosts, .ok unitCosts⟩

def linesIndex (kind : TokenizerKind) (lines : List (Option String)) : CliScript Int PUnit :=
  runIndex oneLineJson "random" (some lines) kind

/-- A line that cannot be read leaves the index of the previous run, and so does the failure to
publish a text that differs from the previous one in blanks only. -/
theorem buildIndex_failure_ban :
    (∃ files : Directory String, files = performAll (linesIndex .character [some "ban"]).calls
        (fun _ => none) ∧
      (∀ name ∈ publishedFiles, leave (linesIndex .character [some "nab", none]).calls 8 0 files
        name = files name) ∧
      findMatches oneLineJson (searchLetter "n")
        (leave (linesIndex .character [some "nab", none]).calls 8 0 files) =
          .ok [⟨0, (2, 3), 0, "n"⟩]) ∧
    ∃ files : Directory String, files = performAll (linesIndex .whitespace [some "b an"]).calls
        (fun _ => none) ∧
      ∀ name ∈ publishedFiles, leave (linesIndex .whitespace [some "b  an"]).calls 14 0 files
        name = files name := by
  have holds (kind : TokenizerKind) (line : String)
      (complete : (linesIndex kind [some line]).result = .ok ⟨⟩)
      (small : ((performAll (linesIndex kind [some line]).calls (fun _ => none) sourcesFile).all
        fun bytes => bytes.length < 2 ^ 64) = true) :
      HoldsIndex Int oneLineJson (some [some line]) kind
        (performAll (linesIndex kind [some line]).calls fun _ => none) := by
    refine ⟨⟨"random", fun _ => none, complete, fun _ _ => rfl⟩, fun bytes found => ?_⟩
    rw [found] at small
    exact of_decide_eq_true small
  constructor
  · obtain ⟨exactly, same⟩ := buildIndex_failure oneLineJson "random" (some [some "ban"])
      (some [some "nab", none]) .character .character
      (performAll (linesIndex .character [some "ban"]).calls fun _ => none)
      (holds .character "ban" (by decide +kernel) (by decide +kernel)) 8 0 (by decide +kernel)
    have refused : LeavesPrevious Int oneLineJson "random" (some [some "ban"])
        (some [some "nab", none]) .character .character 8 0 := by
      intro complete
      exact absurd complete (by decide +kernel)
    refine ⟨_, rfl, exactly.mpr refused, ?_⟩
    exact (same refused (searchLetter "n")).trans (by decide +kernel)
  · refine ⟨_, rfl, (buildIndex_failure oneLineJson "random" (some [some "b an"])
      (some [some "b  an"]) .whitespace .whitespace
      (performAll (linesIndex .whitespace [some "b an"]).calls fun _ => none)
      (holds .whitespace "b an" (by decide +kernel) (by decide +kernel)) 14 0
        (by decide +kernel)).1.mpr ?_⟩
    rintro _
    refine ⟨["b an"], ["b  an"], rfl, rfl, ?_, ?_, ?_, ?_⟩
    · exact fun _ => ⟨rfl, [["b", "an"]], .cons ⟨_, rfl, rfl⟩ .nil, .cons ⟨_, rfl, rfl⟩ .nil⟩
    all_goals
      intro late
      simp at late

/-- When the texts of a new index are not published after its snapshot, a search quotes a text
of the previous index for a match in the new one. -/
theorem buildIndex_mixes_ban : ∃ files : Directory String,
    files = performAll (linesIndex .character [some "ban"]).calls (fun _ => none) ∧
    (linesIndex .character [some "nab"]).outcome 14 .io = fail .io ∧
    leave (linesIndex .character [some "nab"]).calls 14 0 files engineFile ≠ files engineFile ∧
    findMatches oneLineJson (searchLetter "n") files = .ok [⟨0, (2, 3), 0, "n"⟩] ∧
    findMatches oneLineJson (searchLetter "n")
      (leave (linesIndex .character [some "nab"]).calls 14 0 files) = .ok [⟨0, (0, 1), 0, "b"⟩] :=
  ⟨_, rfl, by decide +kernel, by decide +kernel, by decide +kernel, by decide +kernel⟩

end Failure
end Yurine
