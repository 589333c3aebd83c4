import Yurine.Search.CandidateLists

/-! Exhaustive verification, the oracle of the tests. Candidates only name the strings to read;
every substring of these is measured, one column of distances for each start. -/
namespace Yurine.SmithWaterman
open Outcome

section Definitions
variable {R : Type} [Number R]

def pushCell (stringSymbol : Symbol) (previous : List R) (costs : EditCosts R Symbol)
    (current : List R) (entry : Symbol × Nat) : Result R (List R) := do
  let both ← index previous entry.2
  let substitution ← costs.substitution entry.1 stringSymbol
  let query ← index current entry.2
  let deletion ← costs.deletion entry.1
  let string ← index previous (entry.2 + 1)
  let insertion ← costs.insertion stringSymbol
  return current ++ [min (min (addDistance both substitution.get) (addDistance query deletion.get))
    (addDistance string insertion.get)]

/-- The two columns are swapped after every symbol, so one of them is a loop variable. -/
def visitEnd (queryString : List Symbol) (stringId : SequenceId) (bound : StrictBound R)
    (costs : EditCosts R Symbol) (symbolStart : Nat) (state : List R × List (Match R))
    (entry : Symbol × Nat) : Result R (List R × List (Match R)) := do
  let first ← index state.1 0
  let insertion ← costs.insertion entry.1
  let current ← queryString.zipIdx.foldlM (pushCell entry.1 state.1 costs)
    [addDistance first insertion.get]
  let last ← index current queryString.length
  if bound.admits last then
    let distance ← Cost.new last
    return (current,
      state.2 ++ [createMatch (substringKey stringId symbolStart (entry.2 + 1)) distance])
  else return (current, state.2)

def visitStart (queryString string : List Symbol) (stringId : SequenceId) (bound : StrictBound R)
    (costs : EditCosts R Symbol) (found : List (Match R)) (symbolStart : Nat) :
    Result R (List (Match R)) := do
  let previous ← queryString.foldlM (fun previous querySymbol => do
    let deletion ← costs.deletion querySymbol
    return previous ++ [addDistance (previous.getLast?.getD 0) deletion.get]) [0]
  let state ← (string.zipIdx.drop symbolStart).foldlM
    (visitEnd queryString stringId bound costs symbolStart) (previous, found)
  return state.2

def enumerateSubstringMatches (queryString string : List Symbol) (stringId : SequenceId)
    (bound : StrictBound R) (costs : EditCosts R Symbol) (found : List (Match R)) :
    Result R (List (Match R)) :=
  (List.range string.length).foldlM (visitStart queryString string stringId bound costs) found

/-- The identifiers of the candidates, as an ordered set. -/
def validatedCandidateStrings (queryString : List Symbol) (candidates : List Candidate)
    (corpus : CorpusStore) : Result R (Std.TreeSet SequenceId) :=
  candidates.foldlM (fun stringIds candidate => do
    let _ ← validatedCandidateString queryString candidate corpus
    return stringIds.insert candidate.stringId) ∅

def verify (queryString : List Symbol) (candidates : List Candidate) (corpus : CorpusStore)
    (bound : StrictBound R) (costs : EditCosts R Symbol) : Result R (List (Match R)) := do
  let stringIds ← validatedCandidateStrings queryString candidates corpus
  stringIds.toList.foldlM (fun found stringId => do
    let read ← corpus.string stringId
    let string ← okOr (.unknownString stringId.val) read
    enumerateSubstringMatches queryString string stringId bound costs found) []

end Definitions

section Columns
variable {R : Type} [Number R] {policy : Policy R Symbol} {costs : EditCosts R Symbol}
  {known : Symbol → Prop} {queryString string : List Symbol}

/-- The cells of a column do not depend on the order in which their minimum is taken. -/
theorem column_ok (answers : costs.Answers policy known)
    (query : ∀ symbol ∈ queryString, known symbol) {stringSymbol : Symbol}
    (symbol : known stringSymbol) {previous : List R}
    (size : previous.length = queryString.length + 1) :
    queryString.zipIdx.foldlM (pushCell stringSymbol previous costs)
        [addDistance (previous.getD 0 0) (policy.insertion stringSymbol).get] =
      .ok (stepColumn policy queryString previous stringSymbol) := by
  refine foldlM_cells _ (fun i inside current length => ?_)
  have here := query _ (List.getElem_mem inside)
  unfold pushCell
  simp only [index_getD (show i < previous.length by omega),
    index_getD (show i + 1 < previous.length by omega),
    index_getD (show i < current.length by omega), answers.substitution _ _ here symbol,
    answers.insertion _ symbol, answers.deletion _ here, bind_ok]
  rw [stepCell, min_right_comm]
  rfl

end Columns

section Runs
variable {R : Type} [MonotoneNumber R] {policy : Policy R Symbol} {costs : EditCosts R Symbol}
  {known : Symbol → Prop} {queryString string : List Symbol} {bound : StrictBound R}

/-- The last cell of the column of a substring. -/
def reached (policy : Policy R Symbol) (queryString string : List Symbol) (start stop : Nat) : R :=
  (columnOf policy queryString (segment string start stop)).getD queryString.length 0

def matchAt (policy : Policy R Symbol) (bound : StrictBound R) (queryString string : List Symbol)
    (stringId : SequenceId) (start stop : Nat) : Option (Match R) :=
  if bound.admits (reached policy queryString string start stop) then
    some ⟨stringId.val, (start, stop), reached policy queryString string start stop⟩
  else none

def matchesFrom (policy : Policy R Symbol) (bound : StrictBound R)
    (queryString string : List Symbol) (stringId : SequenceId) (start : Nat) : List (Match R) :=
  (List.range (string.length - start)).filterMap fun k =>
    matchAt policy bound queryString string stringId start (start + k + 1)

theorem segment_concat {start stop : Nat} (ordered : start ≤ stop) (inside : stop < string.length) :
    segment string start (stop + 1) = segment string start stop ++ [string[stop]] := by
  rw [segment, show stop + 1 - start = (stop - start) + 1 by omega, List.take_add_one,
    List.getElem?_drop, Nat.add_sub_cancel' ordered, List.getElem?_eq_getElem inside]
  rfl

theorem visitEnd_ok (answers : costs.Answers policy known)
    (query : ∀ symbol ∈ queryString, known symbol) (strings : ∀ symbol ∈ string, known symbol)
    (stringId : SequenceId) {start stop : Nat} (ordered : start ≤ stop)
    (inside : stop < string.length) (found : List (Match R)) :
    visitEnd queryString stringId bound costs start
        (columnOf policy queryString (segment string start stop), found) (string[stop], stop) =
      .ok (columnOf policy queryString (segment string start (stop + 1)),
        found ++ (matchAt policy bound queryString string stringId start (stop + 1)).toList) := by
  have here := strings _ (List.getElem_mem inside)
  have size : (columnOf policy queryString (segment string start stop)).length =
      queryString.length + 1 := length_columnOf _
  have next : columnOf policy queryString (segment string start stop ++ [string[stop]]) =
      stepColumn policy queryString (columnOf policy queryString (segment string start stop))
        string[stop] := columnOf_concat _ _
  rw [← segment_concat ordered inside] at next
  unfold visitEnd
  simp only [index_getD (show 0 < (columnOf policy queryString (segment string start stop)).length
    by omega), bind_ok, answers.insertion _ here, column_ok answers query here size, ← next]
  rw [index_getD (by rw [length_columnOf]; omega), bind_ok]
  unfold matchAt reached
  split
  · rename_i admitted
    have nonneg := getD_nonneg (columnOf_nonneg policy queryString
      (segment string start (stop + 1))) queryString.length
    rw [Cost.new_eq_ok.mpr (show (⟨_, nonneg, admitted.le.trans bound.cost.finite⟩ : Cost R).get =
      _ from rfl), bind_ok]
    rfl
  · rw [Option.toList_none, List.append_nil]
    rfl

theorem visitStart_ok (answers : costs.Answers policy known)
    (query : ∀ symbol ∈ queryString, known symbol) (strings : ∀ symbol ∈ string, known symbol)
    (stringId : SequenceId) (start : Nat) (found : List (Match R)) :
    visitStart queryString string stringId bound costs found start =
      .ok (found ++ matchesFrom policy bound queryString string stringId start) := by
  have loop := Ensures.foldlM (ε := Error R) (E := fun _ => False)
    (l := string.zipIdx.drop start) (f := visitEnd queryString stringId bound costs start)
    (s := (rootColumnOf policy queryString, found))
    (motive := fun visited state =>
      state = (columnOf policy queryString (segment string start (start + visited.length)),
        found ++ (List.range visited.length).filterMap fun k =>
          matchAt policy bound queryString string stringId start (start + k + 1))) ?_ ?_
  · rw [List.length_drop, List.length_zipIdx] at loop
    obtain ⟨state, ran, rfl⟩ := loop.returns
    change (rootColumn queryString costs >>= _) = _
    rw [rootColumn_ok answers query, bind_ok, ran]
    rfl
  · simp [segment, columnOf]
  · rintro before ⟨symbol, stop⟩ after state split rfl
    have place : (string.zipIdx.drop start)[before.length]? = some (symbol, stop) := by
      simp [split]
    rw [List.getElem?_drop, List.getElem?_zipIdx, Option.map_eq_some_iff] at place
    obtain ⟨here, found, same⟩ := place
    obtain ⟨inside, rfl⟩ := List.getElem?_eq_some_iff.mp found
    obtain ⟨rfl, rfl⟩ := Prod.mk.inj same
    rw [Nat.zero_add, visitEnd_ok answers query strings stringId (Nat.le_add_right _ _) inside,
      ensures_ok, List.length_append, List.length_singleton, List.range_succ,
      List.filterMap_append, List.append_assoc, ← Nat.add_assoc]
    cases last : matchAt policy bound queryString string stringId start
      (start + before.length + 1) <;> simp [last]

def substringMatches (policy : Policy R Symbol) (bound : StrictBound R)
    (queryString string : List Symbol) (stringId : SequenceId) : List (Match R) :=
  (List.range string.length).flatMap (matchesFrom policy bound queryString string stringId)

theorem enumerateSubstringMatches_ok (answers : costs.Answers policy known)
    (query : ∀ symbol ∈ queryString, known symbol) (strings : ∀ symbol ∈ string, known symbol)
    (stringId : SequenceId) (found : List (Match R)) :
    enumerateSubstringMatches queryString string stringId bound costs found =
      .ok (found ++ substringMatches policy bound queryString string stringId) := by
  unfold enumerateSubstringMatches substringMatches
  generalize List.range string.length = starts
  induction starts generalizing found with
  | nil => simp [pure, Except.pure]
  | cons start starts ih =>
    rw [List.foldlM_cons, visitStart_ok answers query strings, bind_ok, ih, List.flatMap_cons,
      List.append_assoc]

theorem mem_substringMatches {stringId : SequenceId} {m : Match R} :
    m ∈ substringMatches policy bound queryString string stringId ↔
      ∃ start stop, start < stop ∧ stop ≤ string.length ∧
        bound.admits (reached policy queryString string start stop) ∧
        m = ⟨stringId.val, (start, stop), reached policy queryString string start stop⟩ := by
  simp only [substringMatches, matchesFrom, matchAt, List.mem_flatMap, List.mem_range,
    List.mem_filterMap, Option.ite_none_right_eq_some, Option.some.injEq]
  constructor
  · rintro ⟨start, inside, k, within, admitted, rfl⟩
    exact ⟨start, start + k + 1, by omega, by omega, admitted, rfl⟩
  · rintro ⟨start, stop, ordered, inside, admitted, rfl⟩
    refine ⟨start, by omega, stop - start - 1, by omega, ?_⟩
    rw [show start + (stop - start - 1) + 1 = stop by omega]
    exact ⟨admitted, rfl⟩

/-- The matches of a string come in order of start and end. -/
theorem pairwise_substringMatches (stringId : SequenceId) :
    (substringMatches policy bound queryString string stringId).Pairwise
      (fun a b => a.key < b.key) := by
  rw [substringMatches, List.pairwise_flatMap]
  constructor
  · intro start _
    refine List.pairwise_filterMap.mpr (List.pairwise_lt_range.imp ?_)
    intro i j less a ha b hb
    simp only [matchAt, Option.ite_none_right_eq_some, Option.some.injEq] at ha hb
    obtain ⟨_, rfl⟩ := ha
    obtain ⟨_, rfl⟩ := hb
    simp [Match.key, Prod.Lex.toLex_lt_toLex, less]
  · refine List.pairwise_lt_range.imp ?_
    intro i j less a ha b hb
    simp only [matchesFrom, List.mem_filterMap, matchAt, Option.ite_none_right_eq_some,
      Option.some.injEq] at ha hb
    obtain ⟨_, _, _, rfl⟩ := ha
    obtain ⟨_, _, _, rfl⟩ := hb
    simp [Match.key, Prod.Lex.toLex_lt_toLex, less]

end Runs
end Yurine.SmithWaterman
