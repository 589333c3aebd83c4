import Yurine.Costs.EmbeddingRoundTrip
import Yurine.Library.OnceCells

/-! The cached checks of an opened store, which threads fill while they share it. Whatever the
order of their steps is, every call answers as if it checked its rows itself, so the cache is left
out everywhere else. -/
namespace Yurine.EmbeddingStore
open Outcome OnceCells CustomCosts

variable {T : Type}

/-- A call of a thread that shares a store. -/
inductive Call (T : Type) where
  | get (token : T)
  | verify
deriving DecidableEq, Repr

inductive Answer where
  | vector (row : Option (List U32))
  | verified (result : Result U32 PUnit)
deriving DecidableEq

/-- The calls use the cells of `validated_rows`. -/
abbrev RowTask : Type := Task Nat Bool Answer

def isValid (validate : RowCheck) (row : List U32) : Bool := (validate row).isOk

/-- `values.get(start..stop)`. -/
def getRange (values : List U32) (start stop : Nat) : Option (List U32) :=
  if stop ≤ values.length then some ((values.drop start).take (stop - start)) else none

/-- The row of a token and its number. -/
def findRow [DecidableEq T] (store : EmbeddingStore T) (token : T) : Option (Nat × List U32) := do
  let index ← store.embeddingIndices.lookup token
  let start ← checkedMul index.val store.dimension.val
  let stop ← checkedAdd start store.dimension.val
  let row ← getRange store.embeddings.asSlice start stop
  return (index.val, row)

/-- The row if it is valid, which is checked unless that is cached. -/
def readRow (validate : RowCheck) (validatedRows : Option Nat) (index : Nat) (row : List U32) :
    RowTask :=
  match validatedRows with
  | none => .done (.vector (some row))
  | some rows =>
    if index < rows then
      .getOrInit index (isValid validate row) fun valid =>
        .done (.vector (if valid then some row else none))
    else .done (.vector none)

/-- `get` with its use of the cache. -/
def getTask [DecidableEq T] (validate : RowCheck) (store : EmbeddingStore T) (token : T) :
    RowTask :=
  match store.findRow token with
  | none => .done (.vector none)
  | some (index, row) => readRow validate store.validatedRows index row

/-- `result?` -/
def orReturn (result : Result U32 PUnit) (next : RowTask) : RowTask :=
  match result with
  | .ok _ => next
  | .error failure => .done (.verified (.error failure))

/-- `validated_rows[index].set(valid)`, if there is a cache. -/
def cacheRow (validatedRows : Option Nat) (index : Nat) (valid : Bool) (next : RowTask) :
    RowTask :=
  match validatedRows with
  | none => next
  | some rows => if rows ≤ index then .done (.verified panic) else .set index valid next

/-- The loop of `verify`, which caches each of its checks. -/
def verifyRows (validate : RowCheck) (validatedRows : Option Nat) :
    List (List U32 × Nat) → RowTask
  | [] => .done (.verified (.ok ⟨⟩))
  | entry :: rest =>
    cacheRow validatedRows entry.2 (isValid validate entry.1)
      (orReturn (validate entry.1) (verifyRows validate validatedRows rest))

def checkShape (store : EmbeddingStore T) : Result U32 PUnit := do
  let expectedLen ← okOr (.invalidFile "embedding matrix length overflows")
    (checkedMul store.len store.dimension.val)
  if store.embeddings.asSlice.length ≠ expectedLen then
    fail (.invalidFile "embedding matrix length does not match its shape")

def verifyTask (validate : RowCheck) (store : EmbeddingStore T) : RowTask :=
  match store.checkShape with
  | .error failure => .done (.verified (.error failure))
  | .ok _ => verifyRows validate store.validatedRows
      (chunksExact store.dimension.val store.embeddings.asSlice).zipIdx

namespace Call
variable [DecidableEq T]

def task (validate : RowCheck) (store : EmbeddingStore T) : Call T → RowTask
  | get token => store.getTask validate token
  | verify => store.verifyTask validate

def answer (validate : RowCheck) (store : EmbeddingStore T) : Call T → Answer
  | get token => .vector (store.get validate token)
  | verify => .verified (store.verify validate)

end Call

def rowValid (validate : RowCheck) (store : EmbeddingStore T) (index : Nat) : Bool :=
  isValid validate (rowAt store.dimension.val store.embeddings.asSlice index)

/-- A store as it is opened, with the calls of its threads. -/
def shared [DecidableEq T] {ι : Type} (validate : RowCheck) (store : EmbeddingStore T)
    (calls : ι → Call T) : System ι Nat Bool Answer :=
  ⟨fun _ => .empty, fun t => (calls t).task validate store⟩

/-- The task computes the checks of its rows, and by itself it answers this after at most so many
uses of the cells. -/
structure Answers (validate : RowCheck) (store : EmbeddingStore T) (task : RowTask)
    (answer : Answer) (uses : Nat) : Prop where
  agrees : task.Agrees (rowValid validate store)
  result : task.result (rowValid validate store) = answer
  uses : task.uses (rowValid validate store) ≤ uses

section Alone
variable {validate : RowCheck} {store : EmbeddingStore T}

theorem answers_done (answer : Answer) (uses : Nat) :
    Answers validate store (.done answer) answer uses := ⟨trivial, rfl, Nat.zero_le uses⟩

theorem Answers.mono {task : RowTask} {answer : Answer} {uses more : Nat}
    (answers : Answers validate store task answer uses) (le : uses ≤ more) :
    Answers validate store task answer more :=
  ⟨answers.agrees, answers.result, answers.uses.trans le⟩

theorem isValid_iff {row : List U32} : isValid validate row = true ↔ validate row = .ok ⟨⟩ := by
  unfold isValid
  cases validate row with
  | ok value => exact iff_of_true rfl rfl
  | error failure => exact iff_of_false nofun nofun

/-- The row of a token if it is valid, checked without a cache. -/
def admitted (validate : RowCheck) (validatedRows : Option Nat) (index : Nat) (row : List U32) :
    Option (List U32) :=
  match validatedRows with
  | some rows => if index < rows ∧ validate row = .ok ⟨⟩ then some row else none
  | none => some row

theorem get_eq_bind [DecidableEq T] (validate : RowCheck) (store : EmbeddingStore T) (token : T) :
    store.get validate token =
      (store.findRow token).bind fun found =>
        admitted validate store.validatedRows found.1 found.2 := by
  unfold get findRow
  cases store.embeddingIndices.lookup token with
  | none => rfl
  | some index =>
    simp only [Option.bind_eq_bind, Option.bind_some]
    cases checkedMul index.val store.dimension.val with
    | none => rfl
    | some start =>
      simp only [Option.bind_some]
      cases checkedAdd start store.dimension.val with
      | none => rfl
      | some stop =>
        simp only [Option.bind_some, getRange]
        split
        · rfl
        · rfl

theorem findRow_eq_some [DecidableEq T] {token : T} {index : Nat} {row : List U32}
    (found : store.findRow token = some (index, row)) :
    row = rowAt store.dimension.val store.embeddings.asSlice index := by
  obtain ⟨number, _, found⟩ := Option.bind_eq_some_iff.mp found
  obtain ⟨start, product, found⟩ := Option.bind_eq_some_iff.mp found
  obtain ⟨stop, sum, found⟩ := Option.bind_eq_some_iff.mp found
  obtain ⟨slice, inside, last⟩ := Option.bind_eq_some_iff.mp found
  cases last
  obtain rfl : number.val * store.dimension.val = start := by
    unfold checkedMul at product
    split at product <;> cases product
    rfl
  obtain rfl : number.val * store.dimension.val + store.dimension.val = stop := by
    unfold checkedAdd at sum
    split at sum <;> cases sum
    rfl
  unfold getRange at inside
  split at inside <;> cases inside
  rw [Nat.add_sub_cancel_left, rowAt]

theorem answers_readRow (validatedRows : Option Nat) (index : Nat) {row : List U32}
    (here : row = rowAt store.dimension.val store.embeddings.asSlice index) :
    Answers validate store (readRow validate validatedRows index row)
      (.vector (admitted validate validatedRows index row)) 1 := by
  cases validatedRows with
  | none => exact answers_done _ _
  | some rows =>
    unfold readRow admitted
    by_cases cached : index < rows
    · simp only [cached, true_and, if_true]
      have same : isValid validate row = rowValid validate store index := by rw [here, rowValid]
      refine ⟨⟨same, trivial⟩, ?_, Nat.le_refl 1⟩
      show Answer.vector (if rowValid validate store index then some row else none) = _
      rw [← same]
      exact congrArg Answer.vector (if_congr isValid_iff rfl rfl)
    · simp only [cached, false_and, if_false]
      exact answers_done _ _

theorem answers_getTask [DecidableEq T] (validate : RowCheck) (store : EmbeddingStore T)
    (token : T) : Answers validate store (store.getTask validate token)
      (.vector (store.get validate token)) 1 := by
  rw [get_eq_bind]
  unfold getTask
  cases found : store.findRow token with
  | none => exact answers_done _ _
  | some entry => exact answers_readRow store.validatedRows entry.1 (findRow_eq_some found)

variable {validatedRows : Option Nat}

/-- One round of the loop without a cache. -/
def checkRow (validate : RowCheck) (validatedRows : Option Nat) (entry : List U32 × Nat) :
    Result U32 PUnit := do
  if validatedRows.any (fun rows => rows ≤ entry.2) then panic
  validate entry.1

theorem verify_eq_bind (validate : RowCheck) (store : EmbeddingStore T) :
    store.verify validate = store.checkShape >>= fun _ =>
      (chunksExact store.dimension.val store.embeddings.asSlice).zipIdx.forM
        (checkRow validate store.validatedRows) := by
  rw [checkShape, bind_assoc]
  apply bind_congr
  intro expectedLen
  split
  · rfl
  · rfl

theorem answers_cacheRow {index uses : Nat} {valid : Bool} {next : RowTask}
    {result : Result U32 PUnit} (same : valid = rowValid validate store index)
    (answers : Answers validate store next (.verified result) uses) :
    Answers validate store (cacheRow validatedRows index valid next)
      (.verified (if validatedRows.any (fun rows => rows ≤ index) then panic else result))
      (uses + 1) := by
  cases validatedRows with
  | none => exact ⟨answers.agrees, answers.result, answers.uses.trans (Nat.le_succ uses)⟩
  | some rows =>
    unfold cacheRow
    by_cases beyond : rows ≤ index
    · simp only [beyond, if_true, Option.any_some, decide_true]
      exact answers_done _ _
    · simp only [beyond, if_false, Option.any_some, decide_false, Bool.false_eq_true]
      exact ⟨⟨same, answers.agrees⟩, answers.result, Nat.succ_le_succ answers.uses⟩

/-- The loop answers with the first row that is not valid. -/
theorem answers_verifyRows {entries : List (List U32 × Nat)}
    (rows : ∀ entry ∈ entries,
      entry.1 = rowAt store.dimension.val store.embeddings.asSlice entry.2) :
    Answers validate store (verifyRows validate validatedRows entries)
      (.verified (entries.forM (checkRow validate validatedRows))) entries.length := by
  induction entries with
  | nil => exact answers_done _ _
  | cons entry entries ih =>
    have rest := ih fun entry mem => rows entry (List.mem_cons_of_mem _ mem)
    have same : isValid validate entry.1 = rowValid validate store entry.2 := by
      rw [rows entry List.mem_cons_self, rowValid]
    have next : Answers validate store
        (orReturn (validate entry.1) (verifyRows validate validatedRows entries))
        (.verified (validate entry.1 >>= fun _ => entries.forM (checkRow validate validatedRows)))
        entries.length := by
      cases validate entry.1 with
      | ok value => exact rest
      | error failure => exact answers_done _ _
    have whole : (entry :: entries).forM (checkRow validate validatedRows) =
        if validatedRows.any (fun rows => rows ≤ entry.2) then panic
        else validate entry.1 >>= fun _ => entries.forM (checkRow validate validatedRows) := by
      show (checkRow validate validatedRows entry >>= fun _ => _) = _
      rw [checkRow]
      split
      · rfl
      · rfl
    rw [whole, verifyRows]
    exact answers_cacheRow same next

end Alone
section Together
variable [DecidableEq T] {ι : Type} [DecidableEq ι] {validate : RowCheck}
  {store : EmbeddingStore T}

theorem answers_task (call : Call T) : Answers validate store (call.task validate store)
    (call.answer validate store) (store.embeddings.asSlice.length / store.dimension.val + 1) := by
  cases call with
  | get token => exact (answers_getTask validate store token).mono (Nat.le_add_left 1 _)
  | verify =>
    rw [Call.answer, verify_eq_bind, Call.task, verifyTask]
    cases store.checkShape with
    | error failure => exact answers_done _ _
    | ok value =>
      apply Answers.mono _ (Nat.le_succ _)
      rw [← length_chunksExact, ← List.length_zipIdx]
      apply answers_verifyRows
      rintro ⟨row, index⟩ mem
      have here := List.mk_mem_zipIdx_iff_getElem?.mp mem
      rw [chunksExact, List.getElem?_map, Option.map_eq_some_iff] at here
      obtain ⟨i, numbered, rfl⟩ := here
      obtain ⟨_, rfl⟩ := List.getElem?_eq_some_iff.mp numbered
      rw [List.getElem_range, rowAt]

omit [DecidableEq ι] in
theorem consistent_shared (validate : RowCheck) (store : EmbeddingStore T) (calls : ι → Call T) :
    Consistent (rowValid validate store) (fun t => (calls t).answer validate store)
      (shared validate store calls) := by
  refine ⟨nofun, nofun, fun t => ?_, fun t => ?_⟩
  · exact (answers_task (calls t)).agrees
  · exact (answers_task (calls t)).result

/-- In whatever order the threads that share a store take their steps, each of their calls answers
what it answers without a cache, a cached check is that of its row, and lookups check each row at
most once. No thread waits forever: all return when they get enough turns. -/
theorem shared_answers [Fintype ι] (validate : RowCheck) (store : EmbeddingStore T)
    (calls : ι → Call T) (schedule : List ι) :
    (∀ t answer, ((run (shared validate store calls) schedule).tasks t).returned = some answer →
      answer = (calls t).answer validate store) ∧
    (∀ index valid, (run (shared validate store calls) schedule).cells index = .full valid →
      valid = rowValid validate store index) ∧
    (∀ index, countStarts index (shared validate store calls) schedule ≤ 1) ∧
    ∀ rounds : List (List ι), (∀ round ∈ rounds, ∀ t, t ∈ round) →
      Fintype.card ι * (2 * (store.embeddings.asSlice.length / store.dimension.val + 1)) ≤
        rounds.length →
      ∀ t, ((run (run (shared validate store calls) schedule) rounds.flatten).tasks t).returned =
        some ((calls t).answer validate store) := by
  have consistent := consistent_shared validate store calls
  have now := consistent.run schedule
  refine ⟨fun t answer done => now.returned done, now.full,
    fun index => countStarts_le index _ schedule, fun rounds fair enough t => ?_⟩
  apply now.returns fair _ t
  exact ((consistent.work_run_le schedule).trans
    (work_le fun t => (answers_task (calls t)).uses)).trans enough

/-- A store of two rows, of which the second is not valid. -/
def twoRows : EmbeddingStore Char :=
  ⟨⟨1, Nat.one_ne_zero⟩, ((∅ : RuleMap Char U32).insert 'a' 0).insert 'b' 1, .mapped [1, 2], some 2⟩

def twoLookups (t : Fin 3) : Call Char :=
  if t = 0 then .get 'b' else if t = 1 then .get 'a' else .verify

def oneCheck : RowCheck := fun row => if row = [1] then .ok ⟨⟩ else fail .zeroNormEmbedding

/-- A check of the store waits for a lookup that has begun one, and all of them return. -/
theorem shared_answers_pair :
    ((run (run (shared oneCheck twoRows twoLookups) [2, 0, 2])
      (List.replicate 18 [0, 1, 2]).flatten).tasks 2).returned =
        some (.verified (fail .zeroNormEmbedding)) :=
  (shared_answers oneCheck twoRows twoLookups [2, 0, 2]).2.2.2 (List.replicate 18 [0, 1, 2])
    (by decide) (by decide) 2

end Together
end Yurine.EmbeddingStore
