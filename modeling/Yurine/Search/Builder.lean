import Yurine.Postings.Builder
import Yurine.Search.Engine

/-! Construction of an engine from token sequences. Three builders number the tokens, the
strings and the places of the corpus; the engine they make is the inverted index of the
sequences in the order they were added. -/
namespace Yurine
open Outcome Offsets

variable {T R : Type}

structure SearchEngineBuilder (T : Type) where
  sequences : List (List T)

namespace SearchEngineBuilder

def new : SearchEngineBuilder T := ⟨[]⟩

/-- The checks of a call, with the identifier it returns. -/
def nextSequenceId (builder : SearchEngineBuilder T) (sequence : List T) : Result R Nat := do
  let sequenceId := builder.sequences.length
  let _ ← SequenceId.fromUsize sequenceId
  let _ ← Position.fromUsize sequence.length
  return sequenceId

/-- The outcome of the call and the builder after it. -/
def addSequence (builder : SearchEngineBuilder T) (sequence : List T) :
    Result R Nat × SearchEngineBuilder T :=
  match builder.nextSequenceId sequence with
  | .ok sequenceId => (.ok sequenceId, ⟨builder.sequences ++ [sequence]⟩)
  | .error e => (.error e, builder)

/-- A run of calls: the outcome of each and the builder after the last. -/
def addSequences (builder : SearchEngineBuilder T) :
    List (List T) → List (Result R Nat) × SearchEngineBuilder T
  | [] => ([], builder)
  | sequence :: rest =>
    let added := builder.addSequence sequence
    let run := addSequences added.2 rest
    (added.1 :: run.1, run.2)

variable [DecidableEq T]

def countTokens (sequences : List (List T)) : VocabularyBuilder T :=
  sequences.foldl (fun builder sequence => builder.insertAll sequence) VocabularyBuilder.new

/-- The postings of one string, added position by position. -/
def addPostings (sequenceId : SequenceId) (string : List Symbol) (builder : PostingsIndexBuilder) :
    Result R PostingsIndexBuilder :=
  string.zipIdx.foldlM (fun builder entry => do
    let position ← Position.fromUsize entry.2
    let added := builder.addPosting entry.1 ⟨sequenceId, position⟩
    added.1
    return added.2) builder

def encodeSequence (vocabulary : Vocabulary T)
    (builders : PostingsIndexBuilder × CorpusStoreBuilder) (entry : List T × Nat) :
    Result R (PostingsIndexBuilder × CorpusStoreBuilder) := do
  let sequenceId ← SequenceId.fromUsize entry.2
  let string := vocabulary.encode entry.1
  let indexBuilder ← addPostings sequenceId string builders.1
  return (indexBuilder, builders.2.addString string)

def build (builder : SearchEngineBuilder T) : Result R (SearchEngine T) := do
  let vocabulary ← (countTokens builder.sequences).build
  let (indexBuilder, storeBuilder) ← builder.sequences.zipIdx.foldlM (encodeSequence vocabulary)
    (PostingsIndexBuilder.new vocabulary.len, CorpusStoreBuilder.new)
  let index ← indexBuilder.build
  SearchEngine.fromParts vocabulary index (storeBuilder.build vocabulary.len)

omit [DecidableEq T]

/-- Sequences that fit the identifiers of an index. -/
structure Valid (builder : SearchEngineBuilder T) : Prop where
  count : builder.sequences.length ≤ 2 ^ 32
  length : ∀ sequence ∈ builder.sequences, sequence.length < 2 ^ 32

theorem new_valid : (new : SearchEngineBuilder T).Valid := ⟨by simp [new], by simp [new]⟩

variable {builder : SearchEngineBuilder T}

theorem ensures_nextSequenceId (builder : SearchEngineBuilder T) (sequence : List T) :
    Ensures (fun id => id = builder.sequences.length ∧ builder.sequences.length < 2 ^ 32 ∧
        sequence.length < 2 ^ 32)
      (fun _ => ¬ (builder.sequences.length < 2 ^ 32 ∧ sequence.length < 2 ^ 32))
      (builder.nextSequenceId (R := R) sequence) := by
  refine Ensures.bind ((SequenceId.ensures_fromUsize _).mono (fun _ h => h)
    (fun _ h => by omega)) (fun id named => ?_)
  refine Ensures.bind ((Position.ensures_fromUsize _).mono (fun _ h => h)
    (fun _ h => by omega)) (fun position placed => ?_)
  exact ⟨rfl, named ▸ id.isLt, placed ▸ position.isLt⟩

/-- A call is accepted exactly when the next identifier and the length fit; a rejected call
changes nothing. -/
theorem addSequence_cases (builder : SearchEngineBuilder T) (sequence : List T) :
    (builder.sequences.length < 2 ^ 32 ∧ sequence.length < 2 ^ 32 ∧
      builder.addSequence (R := R) sequence =
        (.ok builder.sequences.length, ⟨builder.sequences ++ [sequence]⟩)) ∨
    (¬ (builder.sequences.length < 2 ^ 32 ∧ sequence.length < 2 ^ 32) ∧
      ∃ e, builder.addSequence (R := R) sequence = (fail e, builder)) := by
  have checks := ensures_nextSequenceId (R := R) builder sequence
  unfold addSequence
  match outcome : builder.nextSequenceId (R := R) sequence with
  | .ok id =>
    obtain ⟨rfl, count, length⟩ := checks.of_ok outcome
    exact .inl ⟨count, length, rfl⟩
  | .error (.error e) => exact .inr ⟨checks.of_fail outcome, e, rfl⟩
  | .error .panic => exact absurd outcome checks.ne_panic

theorem Valid.addSequence (valid : builder.Valid) (sequence : List T) :
    (builder.addSequence (R := R) sequence).2.Valid := by
  rcases addSequence_cases (R := R) builder sequence with ⟨count, length, same⟩ | ⟨_, _, same⟩
  · rw [same]
    refine ⟨by simp; omega, ?_⟩
    intro other mem
    rcases List.mem_append.mp mem with mem | mem
    · exact valid.length other mem
    · exact List.mem_singleton.mp mem ▸ length
  · rwa [same]

theorem Valid.addSequences (valid : builder.Valid) (sequences : List (List T)) :
    (builder.addSequences (R := R) sequences).2.Valid := by
  induction sequences generalizing builder with
  | nil => exact valid
  | cons sequence rest ih => exact ih (valid.addSequence sequence)

variable [DecidableEq T]

theorem mem_countTokens {sequences : List (List T)} {token : T} :
    token ∈ (countTokens sequences).tokens ↔ token ∈ sequences.flatten := by
  unfold countTokens
  suffices h : ∀ start : VocabularyBuilder T, token ∈ (sequences.foldl
      (fun builder sequence => builder.insertAll sequence) start).tokens ↔
      token ∈ sequences.flatten ∨ token ∈ start.tokens by
    simpa [VocabularyBuilder.new] using h VocabularyBuilder.new
  induction sequences with
  | nil => simp
  | cons sequence rest ih =>
    intro start
    rw [List.foldl_cons, ih, VocabularyBuilder.mem_tokens_insertAll, List.flatten_cons,
      List.mem_append]
    tauto

end SearchEngineBuilder
end Yurine
