import Yurine.Costs.EmbeddingRoundTrip
import Yurine.Library.Stateful

/-! Runs of the embedding builder. Whatever calls are made on it, it is a map in which the last
vector written for a token stands, and a call that fails has changed nothing. The builder is
changed in place, in the order of the source, and the division of an accepted vector by its norm
is a parameter. -/
namespace Yurine
open Outcome Offsets CustomCosts

variable {T : Type}

/-- `is_finite` of the number with these bits. -/
def isFinite (value : U32) : Bool := value.val / 2 ^ 23 % 2 ^ 8 ≠ 255

def isNonzero (value : U32) : Bool := value.val % 2 ^ 31 ≠ 0

/-- The checks of `insert` after that of the length. The square of a number that is not zero is
not rounded to zero in double precision, so the norm is zero when all elements are. -/
def checkEmbedding (embedding : List U32) : Result U32 PUnit := do
  embedding.zipIdx.forM fun entry =>
    if ¬ isFinite entry.1 then fail (.invalidEmbeddingValue entry.2 entry.1) else .ok ⟨⟩
  if ¬ embedding.any isNonzero then fail .zeroNormEmbedding

def normalize (scale : List U32 → U32 → U32) (embedding : List U32) : List U32 :=
  embedding.map (scale embedding)

/-- `values[start..stop].copy_from_slice(source)`. -/
def copyFromSlice (values : List U32) (start stop : Nat) (source : List U32) :
    Result U32 (List U32) :=
  if start ≤ stop ∧ stop ≤ values.length ∧ source.length = stop - start then
    .ok (values.take start ++ source ++ values.drop stop)
  else panic

def rowIndex (number : Nat) : Result U32 U32 :=
  if fits : number < 2 ^ 32 then .ok ⟨number, fits⟩ else fail .embeddingIndexOverflow

namespace EmbeddingStoreBuilder
variable [DecidableEq T]

abbrev Building (T α : Type) := Stateful (Error U32) (EmbeddingStoreBuilder T) α

/-- What `insert` does with a vector that it has checked and normalized. -/
def placeInPlace (token : T) (embedding : List U32) : Building T (Option (List U32)) := do
  let builder ← get
  let dimension := builder.dimension.val
  match builder.embeddingIndices.lookup token with
  | some index =>
    let start := index.val * dimension
    let previous ← monadLift
      (slice builder.embeddings start (start + dimension) : Result U32 (List U32))
    let embeddings ← monadLift
      (copyFromSlice builder.embeddings start (start + dimension) embedding)
    modify fun builder => { builder with embeddings }
    return some previous
  | none =>
    let index ← monadLift (rowIndex (builder.embeddings.length / dimension))
    modify fun builder =>
      { builder with embeddingIndices := builder.embeddingIndices.insert token index }
    modify fun builder => { builder with embeddings := builder.embeddings ++ embedding }
    return none

/-- `insert` with the changes that it makes to the builder. -/
def insertInPlace (scale : List U32 → U32 → U32) (token : T) (embedding : List U32) :
    Building T (Option (List U32)) := do
  let builder ← get
  let dimension := builder.dimension.val
  if embedding.length ≠ dimension then
    monadLift (fail (.invalidEmbeddingDimension dimension embedding.length) : Result U32 PUnit)
  monadLift (checkEmbedding embedding)
  placeInPlace token (normalize scale embedding)

def get (builder : EmbeddingStoreBuilder T) (token : T) : Result U32 (Option (List U32)) :=
  match builder.embeddingIndices.lookup token with
  | some index => do
    let start := index.val * builder.dimension.val
    let row ← slice builder.embeddings start (start + builder.dimension.val)
    return some row
  | none => return none

def call (scale : List U32 → U32 → U32) (builder : EmbeddingStoreBuilder T)
    (entry : T × List U32) : Result U32 (Option (List U32)) × EmbeddingStoreBuilder T :=
  (insertInPlace scale entry.1 entry.2).run.run builder

def insertAll (scale : List U32 → U32 → U32) (builder : EmbeddingStoreBuilder T) :
    List (T × List U32) → List (Result U32 (Option (List U32))) × EmbeddingStoreBuilder T
  | [] => ([], builder)
  | entry :: rest =>
    let inserted := builder.call scale entry
    let others := insertAll scale inserted.2 rest
    (inserted.1 :: others.1, others.2)

def inserted (scale : List U32 → U32 → U32) (calls : List (T × List U32))
    (outcomes : List (Result U32 (Option (List U32)))) (token : T) : List (List U32) :=
  (calls.zip outcomes).filterMap fun made =>
    match made.2 with
    | .ok _ => if made.1.1 = token then some (normalize scale made.1.2) else none
    | .error _ => none

/-- A call that has only its outcome and, if it returns, the next builder. -/
def settle (builder : EmbeddingStoreBuilder T) :
    Result U32 (Option (List U32) × EmbeddingStoreBuilder T) →
      Result U32 (Option (List U32)) × EmbeddingStoreBuilder T
  | .ok (previous, next) => (.ok previous, next)
  | .error failure => (.error failure, builder)

variable {scale : List U32 → U32 → U32} {builder : EmbeddingStoreBuilder T} {token : T}
  {embedding : List U32}

/-- The index is written after everything that can fail. -/
theorem placeInPlace_ends {vector : List U32} (fits : vector.length = builder.dimension.val)
    {y : Result U32 (Option (List U32))} {next : EmbeddingStoreBuilder T}
    (settled : builder.settle (builder.place token vector) = (y, next)) :
    Ends (placeInPlace token vector) builder y next := by
  apply Ends.get.bind
  rw [place] at settled
  cases found : builder.embeddingIndices.lookup token with
  | some index =>
    simp only [found] at settled ⊢
    cases cut : (slice builder.embeddings (index.val * builder.dimension.val)
        (index.val * builder.dimension.val + builder.dimension.val) :
          Result U32 (List U32)) with
    | error failure =>
      rw [cut] at settled
      cases settled
      exact (Ends.lift _).bind_error
    | ok previous =>
      rw [cut] at settled
      cases settled
      obtain ⟨ordered, inside, _⟩ := slice_eq_ok.mp cut
      have source : vector.length = index.val * builder.dimension.val + builder.dimension.val -
          index.val * builder.dimension.val := by
        rw [fits, Nat.add_sub_cancel_left]
      have copied : copyFromSlice builder.embeddings (index.val * builder.dimension.val)
          (index.val * builder.dimension.val + builder.dimension.val) vector = .ok _ :=
        if_pos ⟨ordered, inside, source⟩
      apply (Ends.lift _).bind
      exact (Ends.lifted copied).bind ((Ends.modify _).bind (Ends.pure _))
  | none =>
    simp only [found] at settled ⊢
    by_cases room : builder.embeddings.length / builder.dimension.val < 2 ^ 32
    · rw [dif_pos room] at settled
      cases settled
      have number : rowIndex (builder.embeddings.length / builder.dimension.val) = .ok _ :=
        dif_pos room
      exact (Ends.lifted number).bind ((Ends.modify _).bind ((Ends.modify _).bind (Ends.pure _)))
    · rw [dif_neg room] at settled
      cases settled
      have number : rowIndex (builder.embeddings.length / builder.dimension.val) = _ :=
        dif_neg room
      exact (Ends.lifted number).bind_error

theorem call_eq (scale : List U32 → U32 → U32) (builder : EmbeddingStoreBuilder T) (token : T)
    (embedding : List U32) : builder.call scale (token, embedding) =
      builder.settle (builder.insert ⟨checkEmbedding, scale⟩ token embedding) := by
  suffices ends : ∀ {y next},
      builder.settle (builder.insert ⟨checkEmbedding, scale⟩ token embedding) = (y, next) →
        Ends (insertInPlace scale token embedding) builder y next from (ends rfl).ran
  intro y next settled
  apply Ends.get.bind
  by_cases wrong : embedding.length ≠ builder.dimension.val
  · rw [insert_of_wrong wrong] at settled
    cases settled
    rw [if_pos wrong]
    exact (Ends.lift _).bind_error
  have fits := not_not.mp wrong
  rw [insert_of_length fits] at settled
  rw [if_neg wrong]
  cases checked : checkEmbedding embedding with
  | error failure =>
    simp only [checked] at settled
    cases settled
    exact (Ends.lift _).bind_error
  | ok _ =>
    simp only [checked, bind_ok] at settled
    have size : (normalize scale embedding).length = builder.dimension.val := by
      rw [normalize, List.length_map, fits]
    exact (Ends.lift _).bind (placeInPlace_ends size settled)

/-- The calls that are accepted. -/
structure Accepts (builder : EmbeddingStoreBuilder T) (token : T) (embedding : List U32) :
    Prop where
  length : embedding.length = builder.dimension.val
  finite : ∀ value ∈ embedding, isFinite value
  nonzero : ∃ value ∈ embedding, isNonzero value
  room : builder.Room token

/-- The errors of the calls that are not, each of which names what is wrong. -/
inductive Refuses (builder : EmbeddingStoreBuilder T) (token : T) (embedding : List U32) :
    Error U32 → Prop where
  | length (wrong : embedding.length ≠ builder.dimension.val) : Refuses builder token embedding
      (.invalidEmbeddingDimension builder.dimension.val embedding.length)
  | value {index : Nat} {value : U32} (there : embedding[index]? = some value)
      (infinite : ¬ isFinite value) :
      Refuses builder token embedding (.invalidEmbeddingValue index value)
  | norm (zero : ∀ value ∈ embedding, ¬ isNonzero value) :
      Refuses builder token embedding .zeroNormEmbedding
  | overflow (full : ¬ builder.Room token) :
      Refuses builder token embedding .embeddingIndexOverflow

theorem Refuses.not_accepts {reason : Error U32} (refuses : builder.Refuses token embedding reason) :
    ¬ builder.Accepts token embedding := by
  intro accepts
  cases refuses with
  | length wrong => exact wrong accepts.length
  | value there infinite => exact infinite (accepts.finite _ (List.mem_of_getElem? there))
  | norm zero =>
    obtain ⟨value, mem, nonzero⟩ := accepts.nonzero
    exact zero value mem nonzero
  | overflow full => exact full accepts.room

theorem ensures_checkEmbedding (builder : EmbeddingStoreBuilder T) (token : T)
    (embedding : List U32) :
    Ensures (fun _ => (∀ value ∈ embedding, isFinite value) ∧ ∃ value ∈ embedding, isNonzero value)
      (builder.Refuses token embedding) (checkEmbedding embedding) := by
  have values : Ensures (fun _ => ∀ entry ∈ embedding.zipIdx, isFinite entry.1)
      (builder.Refuses token embedding) (embedding.zipIdx.forM fun entry =>
        if ¬ isFinite entry.1 then fail (.invalidEmbeddingValue entry.2 entry.1) else .ok ⟨⟩) := by
    apply Ensures.mono (Decides.forM (E := builder.Refuses token embedding) _)
      (fun _ all => all) (fun _ failed => failed.2)
    intro entry mem
    by_cases finite : isFinite entry.1
    · rw [if_neg (not_not.mpr finite)]
      exact finite
    · rw [if_pos finite]
      exact ⟨finite, .value (List.mem_zipIdx_iff_getElem?.mp mem) finite⟩
  apply values.bind
  intro _ all
  by_cases nonzero : embedding.any isNonzero
  · rw [if_neg (not_not.mpr nonzero)]
    refine ⟨fun value mem => ?_, List.any_eq_true.mp nonzero⟩
    obtain ⟨index, inside, rfl⟩ := List.getElem_of_mem mem
    exact all (embedding[index], index)
      (List.mem_zipIdx_iff_getElem?.mpr (List.getElem?_eq_getElem inside))
  · rw [if_pos nonzero]
    exact .norm fun value mem some => nonzero (List.any_eq_true.mpr ⟨value, mem, some⟩)

theorem Rowed.ensures_insert (rowed : builder.Rowed) (scale : List U32 → U32 → U32) (token : T)
    (embedding : List U32) :
    Ensures (fun result => builder.Accepts token embedding ∧ result.1 = builder.row token ∧
        builder.Writes token (normalize scale embedding) result.2)
      (builder.Refuses token embedding)
      (builder.insert ⟨checkEmbedding, scale⟩ token embedding) := by
  by_cases wrong : embedding.length ≠ builder.dimension.val
  · rw [insert_of_wrong wrong]
    exact .length wrong
  have fits := not_not.mp wrong
  have size : (normalize scale embedding).length = builder.dimension.val := by
    rw [normalize, List.length_map, fits]
  rw [insert_of_length fits]
  apply (ensures_checkEmbedding builder token embedding).bind
  rintro _ ⟨finite, nonzero⟩
  apply (rowed.ensures_place token size).mono
  · rintro ⟨previous, next⟩ ⟨same, room, writes⟩
    exact ⟨⟨fits, finite, nonzero, room⟩, same, writes⟩
  · rintro reason ⟨rfl, full⟩
    exact .overflow full

theorem Rowed.get_ok (rowed : builder.Rowed) (token : T) :
    builder.get token = .ok (builder.row token) := by
  rw [get, row]
  cases found : builder.embeddingIndices.lookup token with
  | some index =>
    have inside := rowed.inside found
    rw [Nat.succ_mul] at inside
    simp only [slice_ok (Nat.le_add_right _ _) inside, Nat.add_sub_cancel_left, bind_ok]
    rfl
  | none => rfl

theorem Rowed.call_cases (rowed : builder.Rowed) (scale : List U32 → U32 → U32) (token : T)
    (embedding : List U32) :
    (∃ next, builder.call scale (token, embedding) = (.ok (builder.row token), next) ∧
      builder.Accepts token embedding ∧
        builder.Writes token (normalize scale embedding) next) ∨
    ∃ reason, builder.call scale (token, embedding) = (fail reason, builder) ∧
      builder.Refuses token embedding reason := by
  have ensures := rowed.ensures_insert scale token embedding
  rw [call_eq]
  match builder.insert ⟨checkEmbedding, scale⟩ token embedding, ensures with
  | .ok (previous, next), ⟨accepts, same, writes⟩ =>
    rw [← same]
    exact .inl ⟨next, rfl, accepts, writes⟩
  | .error (.error reason), refuses => exact .inr ⟨reason, rfl, refuses⟩

/-- The builder is a map: its tokens and the numbers of its rows correspond one to one, and
`get` reads the row of a token. -/
structure Holds (builder : EmbeddingStoreBuilder T) (dimension : NonZero)
    (vectors : T → Option (List U32)) : Prop where
  inside : ∀ token index, builder.embeddingIndices.lookup token = some index →
    index.val < builder.len
  onto : ∀ i < builder.len, ∃! token, ∃ index,
    builder.embeddingIndices.lookup token = some index ∧ index.val = i
  matrix : builder.embeddings.length = builder.len * dimension.val
  rows : ∀ token, builder.get token = .ok (vectors token)

theorem Rowed.holds (rowed : builder.Rowed) : builder.Holds builder.dimension builder.row := by
  constructor
  · exact rowed.numbered.inside
  · intro i below
    obtain ⟨token, index, found, rfl⟩ := rowed.numbered.onto below
    refine ⟨token, ⟨index, found, rfl⟩, ?_⟩
    rintro other ⟨number, there, same⟩
    rw [Fin.ext same] at there
    exact rowed.numbered.distinct other token index there found
  · exact rowed.matrix
  · exact rowed.get_ok

/-- What a call does to a builder. -/
structure Sound (scale : List U32 → U32 → U32) (builder : EmbeddingStoreBuilder T)
    (entry : T × List U32) : Prop where
  returns : (builder.call scale entry).1 ≠ panic
  accepted : (∃ previous, (builder.call scale entry).1 = .ok previous) ↔
    builder.Accepts entry.1 entry.2
  previous : ∀ previous, (builder.call scale entry).1 = .ok previous →
    builder.get entry.1 = .ok previous
  unchanged : ∀ reason, (builder.call scale entry).1 = fail reason →
    (builder.call scale entry).2 = builder
  others : ∀ other, other ≠ entry.1 →
    (builder.call scale entry).2.get other = builder.get other

theorem Rowed.sound (rowed : builder.Rowed) (scale : List U32 → U32 → U32)
    (entry : T × List U32) : builder.Sound scale entry := by
  obtain ⟨token, embedding⟩ := entry
  rcases rowed.call_cases scale token embedding with
    ⟨next, called, accepts, writes⟩ | ⟨reason, called, refuses⟩
  · constructor <;> rw [called]
    · exact nofun
    · exact ⟨fun _ => accepts, fun _ => ⟨_, rfl⟩⟩
    · rintro previous ⟨⟩
      exact rowed.get_ok token
    · exact nofun
    · intro other different
      rw [writes.rowed.get_ok, rowed.get_ok, writes.row, Function.update_of_ne different]
  · constructor <;> rw [called]
    · exact nofun
    · exact ⟨nofun, fun accepts => absurd accepts refuses.not_accepts⟩
    · exact nofun
    · exact fun _ _ => rfl
    · exact fun _ _ => rfl

theorem length_insertAll (scale : List U32 → U32 → U32) (builder : EmbeddingStoreBuilder T)
    (calls : List (T × List U32)) :
    (builder.insertAll scale calls).1.length = calls.length := by
  induction calls generalizing builder with
  | nil => rfl
  | cons entry rest ih => simp only [insertAll, List.length_cons, ih]

theorem insertAll_concat (scale : List U32 → U32 → U32) (builder : EmbeddingStoreBuilder T)
    (calls : List (T × List U32)) (entry : T × List U32) :
    let run := builder.insertAll scale calls
    builder.insertAll scale (calls ++ [entry]) =
      (run.1 ++ [(run.2.call scale entry).1], (run.2.call scale entry).2) := by
  induction calls generalizing builder with
  | nil => rfl
  | cons first rest ih => simp only [List.cons_append, insertAll, ih]

theorem inserted_concat {calls : List (T × List U32)}
    {outcomes : List (Result U32 (Option (List U32)))} (same : calls.length = outcomes.length)
    (entry : T × List U32) (outcome : Result U32 (Option (List U32))) (token : T) :
    inserted scale (calls ++ [entry]) (outcomes ++ [outcome]) token =
      inserted scale calls outcomes token ++ inserted scale [entry] [outcome] token := by
  rw [inserted, List.zip_append same, List.filterMap_append]
  rfl

theorem inserted_ok (entry : T × List U32) (previous : Option (List U32)) (token : T) :
    inserted scale [entry] [.ok previous] token =
      if entry.1 = token then [normalize scale entry.2] else [] := by
  by_cases same : entry.1 = token <;> simp [inserted, same]

theorem inserted_fail (entry : T × List U32) (reason : Error U32) (token : T) :
    inserted scale [entry] [fail reason] token = [] := rfl

/-- The rows of a run are the last vectors that it has written. -/
theorem insertAll_spec (scale : List U32 → U32 → U32) (dimension : NonZero)
    (calls : List (T × List U32)) :
    let run := (new dimension : EmbeddingStoreBuilder T).insertAll scale calls
    run.2.Rowed ∧ run.2.dimension = dimension ∧
      ∀ token, run.2.row token = (inserted scale calls run.1 token).getLast? := by
  induction calls using List.reverseRecOn with
  | nil => exact ⟨.new dimension, rfl, fun _ => rfl⟩
  | append_singleton calls entry ih =>
    obtain ⟨rowed, kept, rows⟩ := ih
    obtain ⟨token, embedding⟩ := entry
    have same := (length_insertAll scale (new dimension) calls).symm
    intro run
    have ran : run = _ := insertAll_concat scale (new dimension) calls (token, embedding)
    generalize (new dimension : EmbeddingStoreBuilder T).insertAll scale calls = before at *
    rcases rowed.call_cases scale token embedding with
      ⟨next, called, accepts, writes⟩ | ⟨reason, called, refuses⟩
    · rw [ran, called]
      refine ⟨writes.rowed, writes.dimension.trans kept, fun other => ?_⟩
      rw [inserted_concat same, writes.row, inserted_ok]
      by_cases here : other = token
      · rw [here, Function.update_self, if_pos rfl, List.getLast?_concat]
      · rw [Function.update_of_ne here, if_neg (Ne.symm here), List.append_nil, rows]
    · rw [ran, called]
      refine ⟨rowed, kept, fun other => ?_⟩
      rw [inserted_concat same, rows, inserted_fail, List.append_nil]

end EmbeddingStoreBuilder

open EmbeddingStoreBuilder

/-- The builder of embeddings is a map in which the last accepted call for a token stands. -/
theorem embeddingBuilder_runs [DecidableEq T] (scale : List U32 → U32 → U32)
    (dimension : NonZero) (calls : List (T × List U32)) :
    let run := (EmbeddingStoreBuilder.new dimension : EmbeddingStoreBuilder T).insertAll scale calls
    run.2.Holds dimension (fun token => (inserted scale calls run.1 token).getLast?) ∧
      ∀ entry, run.2.Sound scale entry := by
  intro run
  obtain ⟨rowed, kept, rows⟩ := insertAll_spec scale dimension calls
  have holds := rowed.holds
  rw [kept, funext rows] at holds
  exact ⟨holds, rowed.sound scale⟩

example : ((new ⟨2, by decide⟩ : EmbeddingStoreBuilder Nat).insertAll (fun _ value => value)
    [(7, [1, 2]), (8, [3, 4]), (7, [5, 6]), (9, [1]), (9, [0, 2 ^ 31])]).2.embeddings =
      [5, 6, 3, 4] := by decide

end Yurine
