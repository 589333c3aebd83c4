import Yurine.Cli.Search

/-! Failures of a rebuild. All calls before the new snapshot is renamed into place touch
temporary files only; from then on the files of the two builds are mixed, and the directory is
that of the previous index only if what has been replaced was replaced by the same bytes. -/
namespace Yurine
open Outcome Disk Index LittleEndian Offsets

variable {R T : Type}

section Contents

def storedLines (texts : List String) : List (List UInt8) :=
  texts.map fun text => utf8 text ++ [10]

def sourceBytes (texts : List String) : List UInt8 := (storedLines texts).flatten

def offsetBytes (texts : List String) : List UInt8 :=
  (offsetsFrom 0 (storedLines texts)).flatMap (encode 8)

def metadataBytes (json : Json Index.Metadata) (kind : TokenizerKind) (count : Nat) : List UInt8 :=
  utf8 (json.toStringPretty ⟨formatVersion, kind, count⟩ ++ "\n")

def readLine (tokenizer : Tokenizer (CliError R) T) (builder : SearchEngineBuilder T)
    (line : Option String) : CliResult R (String × SearchEngineBuilder T) := do
  let sourceText ← okOr .io line
  let sequence ← tokenizer sourceText
  let added := builder.addSequence (R := R) (sequence.map (fun token => token.value))
  let _ ← ofLibrary added.1
  return (sourceText, added.2)

def readLines (tokenizer : Tokenizer (CliError R) T) (builder : SearchEngineBuilder T) :
    List (Option String) → CliResult R (List String × SearchEngineBuilder T)
  | [] => .ok ([], builder)
  | line :: rest => do
    let (sourceText, builder) ← readLine tokenizer builder line
    let (texts, builder) ← readLines tokenizer builder rest
    return (sourceText :: texts, builder)

def engineBytes [DecidableEq T] (builder : SearchEngineBuilder T) (codec : TokenCodec R T) :
    CliResult R (List UInt8) := do
  let engine ← ofLibrary builder.build
  ofLibrary (engine.saveWith codec)

/-- What a build makes of its inputs: the texts and the bytes of the snapshot. -/
def indexContents [DecidableEq T] (corpus : Corpus) (tokenizer : Tokenizer (CliError R) T)
    (codec : TokenCodec R T) : CliResult R (List String × List UInt8) := do
  let lines ← okOr .io corpus
  let (texts, builder) ← readLines tokenizer SearchEngineBuilder.new lines
  let bytes ← engineBytes builder codec
  return (texts, bytes)

end Contents

section Calls

def pushCalls (position : Nat) : List String → List (Call String)
  | [] => []
  | text :: rest =>
    .write (temporary sourcesFile) (utf8 text ++ [10]) ::
      .write (temporary offsetsFile) (encode 8 (position + (utf8 text).length + 1)) ::
      pushCalls (position + (utf8 text).length + 1) rest

/-- The calls before the new snapshot is renamed into place. -/
def preparation (random : String) (texts : List String) (bytes : List UInt8) :
    List (Call String) :=
  [.directory, .create (temporary sourcesFile), .create (temporary offsetsFile),
    .write (temporary offsetsFile) (encode 8 0)] ++ pushCalls 0 texts ++
  [.flush (temporary sourcesFile), .flush (temporary offsetsFile), .create (scratch random),
    .write (scratch random) bytes, .flush (scratch random), .flush (scratch random)]

def publication (random : String) (metadata : List UInt8) : List (Call String) :=
  [.rename (scratch random) engineFile, .directory, .rename (temporary sourcesFile) sourcesFile,
    .rename (temporary offsetsFile) offsetsFile, .create metadataFile,
    .write metadataFile metadata]

/-- The calls change no file but those for which the run has names of its own. -/
def Preliminary (random : String) (calls : List (Call String)) : Prop :=
  ∀ call ∈ calls, ∀ name ∈ call.names,
    name ∈ [temporary sourcesFile, temporary offsetsFile, scratch random]

theorem length_pushCalls (position : Nat) (texts : List String) :
    (pushCalls position texts).length = 2 * texts.length := by
  induction texts generalizing position with
  | nil => rfl
  | cons text rest ih =>
    rw [pushCalls, List.length_cons, List.length_cons, ih, List.length_cons]
    omega

theorem length_preparation (random : String) (texts : List String) (bytes : List UInt8) :
    (preparation random texts bytes).length = 2 * texts.length + 10 := by
  simp only [preparation, List.length_append, length_pushCalls, List.length_cons, List.length_nil]
  omega

theorem Preliminary.append {random : String} {first rest : List (Call String)}
    (before : Preliminary random first) (after : Preliminary random rest) :
    Preliminary random (first ++ rest) := by
  intro call mem
  rcases List.mem_append.mp mem with mem | mem
  · exact before call mem
  · exact after call mem

theorem preliminary_pushCalls (random : String) (position : Nat) (texts : List String) :
    Preliminary random (pushCalls position texts) := by
  induction texts generalizing position with
  | nil => exact fun _ mem => absurd mem List.not_mem_nil
  | cons text rest ih =>
    intro call mem
    rcases List.mem_cons.mp mem with rfl | mem
    · simp [Call.names]
    rcases List.mem_cons.mp mem with rfl | mem
    · simp [Call.names]
    · exact ih _ call mem

theorem preliminary_preparation (random : String) (texts : List String) (bytes : List UInt8) :
    Preliminary random (preparation random texts bytes) := by
  apply Preliminary.append
  · apply Preliminary.append
    · simp [Preliminary, Call.names]
    · exact preliminary_pushCalls random 0 texts
  · simp [Preliminary, Call.names]

theorem Preliminary.other {random : String} {calls : List (Call String)}
    (preliminary : Preliminary random calls) {name : String} (mem : name ∈ publishedFiles) :
    ∀ call ∈ calls, name ∉ call.names := by
  intro call listed named
  have own := preliminary call listed name named
  have first : name.toList.head? ≠ some '.' := by
    simp only [publishedFiles, List.mem_cons, List.not_mem_nil, or_false] at mem
    rcases mem with rfl | rfl | rfl | rfl <;> decide
  simp only [publishedFiles, List.mem_cons, List.not_mem_nil, or_false] at mem own
  rcases own with same | same | same
  · rcases mem with rfl | rfl | rfl | rfl <;> revert same <;> decide
  · rcases mem with rfl | rfl | rfl | rfl <;> revert same <;> decide
  · exact scratch_ne first same.symm

/-- Storing the texts appends the lines to one file and the starts of the next lines to the
other, which has the start of the first one. -/
theorem performAll_pushCalls (position : Nat) (texts : List String) (files : Directory String)
    (lines offsets : List UInt8) (stored : files (temporary sourcesFile) = some lines)
    (started : files (temporary offsetsFile) = some (offsets ++ encode 8 position)) :
    performAll (pushCalls position texts) files (temporary sourcesFile) =
        some (lines ++ sourceBytes texts) ∧
      performAll (pushCalls position texts) files (temporary offsetsFile) =
        some (offsets ++ (offsetsFrom position (storedLines texts)).flatMap (encode 8)) := by
  induction texts generalizing position files lines offsets with
  | nil =>
    constructor
    · simpa [pushCalls, performAll, sourceBytes, storedLines] using stored
    · simpa [pushCalls, performAll, storedLines, offsetsFrom] using started
  | cons text rest ih =>
    have different : temporary offsetsFile ≠ temporary sourcesFile := by decide
    obtain ⟨texts, table⟩ := ih (position + (utf8 text).length + 1)
      ((Call.write (temporary offsetsFile) (encode 8 (position + (utf8 text).length + 1))).perform
        ((Call.write (temporary sourcesFile) (utf8 text ++ [10])).perform files))
      (lines ++ (utf8 text ++ [10])) (offsets ++ encode 8 position)
      (by simp [Call.perform, different.symm, stored]) (by simp [Call.perform, different, started])
    constructor
    · simpa [pushCalls, performAll, sourceBytes, storedLines] using texts
    · simpa [pushCalls, performAll, storedLines, offsetsFrom, Nat.add_assoc] using table

theorem performAll_texts (texts : List String) (files : Directory String) :
    performAll (pushCalls 0 texts) (performAll [.create (temporary sourcesFile),
        .create (temporary offsetsFile), .write (temporary offsetsFile) (encode 8 0)] files)
          (temporary sourcesFile) = some (sourceBytes texts) ∧
      performAll (pushCalls 0 texts) (performAll [.create (temporary sourcesFile),
        .create (temporary offsetsFile), .write (temporary offsetsFile) (encode 8 0)] files)
          (temporary offsetsFile) = some (offsetBytes texts) := by
  have different : temporary sourcesFile ≠ temporary offsetsFile := by decide
  apply performAll_pushCalls 0 texts _ [] []
  · simp [performAll, Call.perform, different]
  · simp [performAll, Call.perform]

theorem performAll_preparation (random : String) (texts : List String) (bytes : List UInt8)
    (files : Directory String) :
    performAll (preparation random texts bytes) files (temporary sourcesFile) =
        some (sourceBytes texts) ∧
      performAll (preparation random texts bytes) files (temporary offsetsFile) =
        some (offsetBytes texts) ∧
      performAll (preparation random texts bytes) files (scratch random) = some bytes := by
  have first : temporary sourcesFile ≠ scratch random := (scratch_ne (by decide)).symm
  have second : temporary offsetsFile ≠ scratch random := (scratch_ne (by decide)).symm
  obtain ⟨stored, table⟩ := performAll_texts texts files
  rw [preparation, performAll_append, performAll_append]
  refine ⟨?_, ?_, ?_⟩
  · rw [performAll_other (by simp [Call.names, first])]
    exact stored
  · rw [performAll_other (by simp [Call.names, second])]
    exact table
  · simp [performAll, Call.perform]

theorem leave_publication (random : String) (metadata : List UInt8) (files : Directory String)
    {stop : Nat} (inside : stop < 6) (part : Nat) :
    leave (publication random metadata) stop part files engineFile =
        (if 0 < stop then files (scratch random) else files engineFile) ∧
      leave (publication random metadata) stop part files sourcesFile =
        (if 2 < stop then files (temporary sourcesFile) else files sourcesFile) ∧
      leave (publication random metadata) stop part files offsetsFile =
        (if 3 < stop then files (temporary offsetsFile) else files offsetsFile) ∧
      leave (publication random metadata) stop part files metadataFile =
        (if 4 < stop then some (metadata.take part) else files metadataFile) := by
  have first : ".tmp" ++ random ≠ "metadata.json" := scratch_ne (by decide)
  have second : ".tmp" ++ random ≠ "engine.yurine" := scratch_ne (by decide)
  have third : ".tmp" ++ random ≠ "sources.txt" := scratch_ne (by decide)
  have fourth : ".tmp" ++ random ≠ "sources.idx" := scratch_ne (by decide)
  have fifth : ".tmp" ++ random ≠ "sources.txt.tmp" := scratch_ne (by decide)
  have last : ".tmp" ++ random ≠ "sources.idx.tmp" := scratch_ne (by decide)
  match stop, inside with
  | 0, _ | 1, _ | 2, _ | 3, _ | 4, _ | 5, _ =>
    simp [leave, publication, Call.perform, Call.cut, engineFile,
      sourcesFile, offsetsFile, metadataFile, temporary, temporarySuffix, scratch, first.symm,
      second.symm, third.symm, fourth.symm, fifth.symm, last.symm]

end Calls
section Script
variable {tokenizer : Tokenizer (CliError R) T}

theorem indexLine_eq (sources : SourceWriter) (builder : SearchEngineBuilder T)
    (line : Option String) :
    indexLine tokenizer (sources, builder) line = (do
      let (sourceText, builder) ← Script.lift (readLine tokenizer builder line)
      let sources ← sources.push sourceText
      return (sources, builder)) := by
  unfold indexLine readLine
  cases line with
  | none => rfl
  | some sourceText =>
    simp only [Script.lift, okOr_some, bind_ok, Script.bind_mk_ok]
    cases tokenizer sourceText with
    | error failure => rfl
    | ok sequence =>
      simp only [Script.bind_mk_ok, bind_ok]
      cases ofLibrary (builder.addSequence (R := R) (sequence.map fun token => token.value)).1 <;> rfl

variable (tokenizer) in
/-- The loop over the lines stores the texts that it reads, up to a line that it does not. -/
theorem foldlM_indexLine (sources : SourceWriter) (builder : SearchEngineBuilder T)
    (lines : List (Option String)) : ∃ texts position,
    lines.foldlM (indexLine tokenizer) (sources, builder) = ⟨pushCalls sources.position texts, do
      let (read, built) ← readLines tokenizer builder lines
      return (⟨position, sources.count + read.length⟩, built)⟩ ∧
    ∀ result, readLines tokenizer builder lines = .ok result → result.1 = texts := by
  induction lines generalizing sources builder with
  | nil => exact ⟨[], sources.position, rfl, by rintro _ ⟨⟩; rfl⟩
  | cons line rest ih =>
    rw [List.foldlM_cons, readLines, indexLine_eq]
    cases read : readLine tokenizer builder line with
    | error failure => exact ⟨[], 0, rfl, fun _ impossible => by cases impossible⟩
    | ok added =>
      obtain ⟨sourceText, builder⟩ := added
      obtain ⟨texts, position, ran, same⟩ :=
        ih ⟨sources.position + (utf8 sourceText).length + 1, sources.count + 1⟩ builder
      refine ⟨sourceText :: texts, position, ?_, ?_⟩
      · have stored : (do
            let (sourceText, builder) ← Script.lift (.ok (sourceText, builder))
            let sources ← sources.push sourceText
            return (sources, builder) : CliScript R (SourceWriter × SearchEngineBuilder T)) =
            ⟨pushCalls sources.position [sourceText],
              .ok (⟨sources.position + (utf8 sourceText).length + 1, sources.count + 1⟩,
                builder)⟩ := rfl
        rw [stored, Script.bind_mk_ok, ran]
        simp only [bind_ok]
        cases readLines tokenizer builder rest with
        | error failure => rfl
        | ok result =>
          simp only [bind_ok, Nat.add_assoc, Nat.add_comm 1]
          rfl
      · rintro result all
        obtain ⟨_, first, all⟩ := bind_eq_ok.mp all
        cases first
        obtain ⟨found, later, last⟩ := bind_eq_ok.mp all
        cases last
        exact congrArg _ (same found later)

theorem foldlM_indexLine_ok {lines : List (Option String)} {texts : List String}
    {builder : SearchEngineBuilder T}
    (read : readLines tokenizer SearchEngineBuilder.new lines = .ok (texts, builder)) :
    ∃ position, lines.foldlM (indexLine tokenizer) (⟨0, 0⟩, SearchEngineBuilder.new) =
      ⟨pushCalls 0 texts, .ok (⟨position, texts.length⟩, builder)⟩ := by
  obtain ⟨stored, position, ran, same⟩ := foldlM_indexLine tokenizer ⟨0, 0⟩
    SearchEngineBuilder.new lines
  obtain rfl := same _ read
  refine ⟨position, ?_⟩
  rw [ran, read]
  simp only [bind_ok, Nat.zero_add]
  rfl

variable [DecidableEq T] {json : Json Index.Metadata} {random : String} {corpus : Corpus}
  {kind : TokenizerKind} {codec : TokenCodec R T}

def afterReading (json : Json Index.Metadata) (random : String) (kind : TokenizerKind)
    (codec : TokenCodec R T) (state : SourceWriter × SearchEngineBuilder T) :
    CliScript R PUnit := do
  let sequenceCount ← state.1.finish
  let engine ← Script.lift (ofLibrary state.2.build)
  saveFile random engineFile (engine.saveWith codec)
  SourceWriter.publish
  writeMetadata json kind sequenceCount

theorem buildIndex_eq (lines : List (Option String)) :
    buildIndex json random (some lines) kind tokenizer codec =
      (⟨[.directory, .create (temporary sourcesFile), .create (temporary offsetsFile),
        .write (temporary offsetsFile) (encode 8 0)], .ok ⟨0, 0⟩⟩ >>= fun sources =>
          lines.foldlM (indexLine tokenizer) (sources, SearchEngineBuilder.new) >>=
            afterReading json random kind codec) := rfl

theorem afterReading_ok {writer : SourceWriter} {builder : SearchEngineBuilder T}
    {bytes : List UInt8} (saved : engineBytes builder codec = .ok bytes) :
    afterReading json random kind codec (writer, builder) =
      ⟨[.flush (temporary sourcesFile), .flush (temporary offsetsFile), .create (scratch random),
        .write (scratch random) bytes, .flush (scratch random), .flush (scratch random)] ++
        publication random (metadataBytes json kind writer.count), .ok ⟨⟩⟩ := by
  obtain ⟨engine, built, encoded⟩ := bind_eq_ok.mp saved
  unfold afterReading saveFile
  rw [built]
  simp only [Script.lift, Script.bind_mk_ok, encoded]
  rfl

theorem afterReading_error {writer : SourceWriter} {builder : SearchEngineBuilder T}
    {failure : Failure (CliError R)} (failed : engineBytes builder codec = .error failure) :
    afterReading json random kind codec (writer, builder) =
      ⟨[.flush (temporary sourcesFile), .flush (temporary offsetsFile)], .error failure⟩ := by
  unfold engineBytes at failed
  unfold afterReading saveFile
  cases built : ofLibrary (R := R) builder.build with
  | error reason =>
    rw [built] at failed
    cases failed
    rfl
  | ok engine =>
    rw [built, bind_ok] at failed
    simp only [Script.lift, Script.bind_mk_ok, failed]
    rfl

/-- A build that makes an index of its corpus prepares it and publishes it. -/
theorem buildIndex_ok {texts : List String} {bytes : List UInt8}
    (contents : indexContents corpus tokenizer codec = .ok (texts, bytes)) :
    buildIndex json random corpus kind tokenizer codec =
      ⟨preparation random texts bytes ++
        publication random (metadataBytes json kind texts.length), .ok ⟨⟩⟩ := by
  obtain ⟨lines, opened, contents⟩ := bind_eq_ok.mp contents
  obtain ⟨⟨read, builder⟩, found, contents⟩ := bind_eq_ok.mp contents
  obtain ⟨saved, encoded, contents⟩ := bind_eq_ok.mp contents
  cases contents
  obtain ⟨position, ran⟩ := foldlM_indexLine_ok found
  rw [okOr_eq_ok.mp opened, buildIndex_eq, Script.bind_mk_ok, ran, Script.bind_mk_ok,
    afterReading_ok encoded]
  simp only [preparation, List.append_assoc]

/-- A build that makes no index of its corpus changes only the files of the run. -/
theorem buildIndex_error {failure : Failure (CliError R)}
    (contents : indexContents corpus tokenizer codec = .error failure) :
    Preliminary random (buildIndex json random corpus kind tokenizer codec).calls := by
  have started : Preliminary random [.directory, .create (temporary sourcesFile),
      .create (temporary offsetsFile), .write (temporary offsetsFile) (encode 8 0)] := by
    simp [Preliminary, Call.names]
  cases corpus with
  | none => exact started
  | some lines =>
    rw [buildIndex_eq, Script.bind_mk_ok]
    apply started.append
    cases found : readLines tokenizer SearchEngineBuilder.new lines with
    | error reason =>
      obtain ⟨stored, position, ran, _⟩ := foldlM_indexLine tokenizer ⟨0, 0⟩
        SearchEngineBuilder.new lines
      rw [ran, found]
      exact preliminary_pushCalls random 0 stored
    | ok result =>
      obtain ⟨texts, builder⟩ := result
      obtain ⟨position, ran⟩ := foldlM_indexLine_ok found
      cases encoded : engineBytes builder codec with
      | error reason =>
        rw [ran, Script.bind_mk_ok, afterReading_error encoded]
        apply (preliminary_pushCalls random 0 texts).append
        simp [Preliminary, Call.names]
      | ok bytes =>
        unfold indexContents at contents
        rw [okOr_some, bind_ok, found, bind_ok] at contents
        simp only [encoded] at contents
        cases contents

end Script
section Failure

/-- What a run has published before the call at this position has the bytes that the files
have. The snapshot is the first file to be published, the metadata the last. -/
structure Republished (files : Directory String) (stop : Nat) (texts : List String)
    (bytes metadata : List UInt8) : Prop where
  engine : 2 * texts.length + 10 < stop → files engineFile = some bytes
  sources : 2 * texts.length + 12 < stop → files sourcesFile = some (sourceBytes texts)
  offsets : 2 * texts.length + 13 < stop → files offsetsFile = some (offsetBytes texts)
  metadata : 2 * texts.length + 14 < stop → files metadataFile = some metadata

/-- The published files after a run that ends in one of its calls. -/
theorem leave_published (random : String) (files : Directory String) (texts : List String)
    (bytes metadata : List UInt8) {stop : Nat}
    (inside : stop < (preparation random texts bytes ++ publication random metadata).length)
    (part : Nat) :
    (∀ name ∈ publishedFiles, leave (preparation random texts bytes ++
        publication random metadata) stop part files name = files name) ↔
      Republished files stop texts bytes (metadata.take part) := by
  have own := preliminary_preparation random texts bytes
  have length := length_preparation random texts bytes
  rw [List.length_append, length] at inside
  by_cases early : stop < 2 * texts.length + 10
  · rw [← length] at early
    constructor
    · intro
      constructor <;> intro late <;> omega
    · intro _ name mem
      rw [leave_append_left early, leave_other (own.other mem)]
  · obtain ⟨stored, table, snapshot⟩ := performAll_preparation random texts bytes files
    have step : stop - (2 * texts.length + 10) < 6 := by
      have six : (publication random metadata).length = 6 := rfl
      omega
    obtain ⟨engine, sources, offsets, last⟩ := leave_publication random metadata
      (performAll (preparation random texts bytes) files) step part
    have kept {name : String} (mem : name ∈ publishedFiles) :
        performAll (preparation random texts bytes) files name = files name :=
      performAll_other (own.other mem)
    rw [leave_append_right (by omega), length]
    rw [snapshot, kept (by simp [publishedFiles])] at engine
    rw [stored, kept (by simp [publishedFiles])] at sources
    rw [table, kept (by simp [publishedFiles])] at offsets
    rw [kept (by simp [publishedFiles])] at last
    simp only [publishedFiles, List.forall_mem_cons, List.not_mem_nil, false_implies,
      implies_true, and_true, engine, sources, offsets, last, ite_eq_right_iff]
    constructor
    · rintro ⟨metadata, engine, sources, offsets⟩
      exact ⟨fun late => (engine (by omega)).symm, fun late => (sources (by omega)).symm,
        fun late => (offsets (by omega)).symm, fun late => (metadata (by omega)).symm⟩
    · rintro ⟨engine, sources, offsets, metadata⟩
      exact ⟨fun late => (metadata (by omega)).symm, fun late => (engine (by omega)).symm,
        fun late => (sources (by omega)).symm, fun late => (offsets (by omega)).symm⟩

end Failure
end Yurine
