import Yurine.Search.Matches

/-! Verification of any list of candidates. The first candidate out of range decides the
error; otherwise the answer depends only on which candidates are listed. -/
namespace Yurine
open Outcome EditScripts

variable {R : Type}

def Candidate.rangeError (corpus : CorpusStore) (queryString : List Symbol)
    (candidate : Candidate) : Option (Error R) :=
  match corpus.strings[candidate.stringId.val]? with
  | none => some (.unknownString candidate.stringId.val)
  | some string =>
    if string.length ≤ candidate.stringPosition.val then
      some (.invalidStringPosition candidate.stringPosition.val string.length)
    else if queryString.length ≤ candidate.queryPosition.val then
      some (.invalidQueryPosition candidate.queryPosition.val queryString.length)
    else none

section Ranges
variable {corpus : CorpusStore} {queryString : List Symbol} {candidate : Candidate}

theorem anchors_of_rangeError (read : ∀ id, corpus.string (R := R) id = .ok corpus.strings[id.val]?)
    (inside : candidate.rangeError (R := R) corpus queryString = none) :
    ∃ string, corpus.strings[candidate.stringId.val]? = some string ∧
      Anchors R corpus queryString candidate string := by
  unfold Candidate.rangeError at inside
  split at inside
  · cases inside
  · rename_i string found
    split at inside
    · cases inside
    · rename_i position
      split at inside
      · cases inside
      · rename_i within
        exact ⟨string, found, by rw [read, found], not_le.mp position, not_le.mp within⟩

theorem validatedCandidateString_eq
    (read : ∀ id, corpus.string (R := R) id = .ok corpus.strings[id.val]?) :
    (do let _ ← validatedCandidateString (R := R) queryString candidate corpus) =
      (candidate.rangeError corpus queryString).elim (.ok ⟨⟩) fail := by
  unfold validatedCandidateString Candidate.rangeError
  rw [read, bind_ok]
  cases corpus.strings[candidate.stringId.val]? with
  | none => rfl
  | some string =>
    rw [okOr_some, bind_ok]
    dsimp only
    split
    · rfl
    · split <;> rfl

end Ranges

section Exact
variable [ExactNumber R] {policy : Policy R Symbol} {bound : StrictBound R}
  {queryString string : List Symbol} {corpus : CorpusStore} {candidates : List Candidate}

/-- The anchored distance is the least cost of a script that pairs the anchored positions. -/
theorem anchoredDistance_isLeast (policy : Policy R Symbol) {queryPosition position start stop : Nat}
    {a b : Symbol} (ha : queryString[queryPosition]? = some a) (hb : string[position]? = some b)
    (before : start ≤ position) (after : position < stop) :
    IsLeast { x | ∃ script, source script = queryString ∧
        target script = segment string start stop ∧
        Pairs script queryPosition (position - start) ∧ total policy.weights script = x }
      (anchoredDistance policy queryString string queryPosition position a b start stop) := by
  obtain ⟨inside, rfl⟩ := List.getElem?_eq_some_iff.mp ha
  have within := (List.getElem?_eq_some_iff.mp hb).1
  have least := paired_isLeast policy.weights (queryString.take queryPosition)
    (queryString.drop (queryPosition + 1)) queryString[queryPosition]
    (segment string start position) (segment string (position + 1) stop) b
  rwa [← segment_append_cons before after hb, ← List.drop_eq_getElem_cons inside,
    List.take_append_drop, List.length_take, Nat.min_eq_left inside.le,
    length_segment within.le] at least

/-- The costs of the scripts to a substring that pair the positions of a candidate in it. -/
def PairedTotals (policy : Policy R Symbol) (queryString string : List Symbol) (start stop : Nat)
    (candidate : Candidate) : Set R :=
  { x | start ≤ candidate.stringPosition.val ∧ candidate.stringPosition.val < stop ∧
    ∃ script, source script = queryString ∧ target script = segment string start stop ∧
      Pairs script candidate.queryPosition.val (candidate.stringPosition.val - start) ∧
      total policy.weights script = x }

theorem pairedTotals_isLeast (policy : Policy R Symbol) {candidate : Candidate}
    {start stop : Nat} {a b : Symbol} (ha : queryString[candidate.queryPosition.val]? = some a)
    (hb : string[candidate.stringPosition.val]? = some b)
    (before : start ≤ candidate.stringPosition.val) (after : candidate.stringPosition.val < stop) :
    IsLeast (PairedTotals policy queryString string start stop candidate)
      (anchoredDistance policy queryString string candidate.queryPosition.val
        candidate.stringPosition.val a b start stop) := by
  obtain ⟨attained, least⟩ := anchoredDistance_isLeast policy ha hb before after
  exact ⟨⟨before, after, attained⟩, fun x paired => least paired.2.2⟩

section Seen
variable {id : SequenceId} {start stop : Nat} {x : R}
  (read : ∀ id, corpus.string (R := R) id = .ok corpus.strings[id.val]?)
  (inside : ∀ candidate ∈ candidates, candidate.rangeError (R := R) corpus queryString = none)
  (stored : corpus.strings[id.val]? = some string)
include read inside stored

/-- What is seen through a candidate is the least cost of pairing it. -/
theorem seen_iff (within : stop ≤ string.length) :
    Seen policy bound queryString corpus candidates (substringKey id start stop) x ↔
      ∃ candidate ∈ candidates, candidate.stringId = id ∧
        IsLeast (PairedTotals policy queryString string start stop candidate) x ∧
        bound.admits x := by
  constructor
  · rintro ⟨candidate, mem, other, anchors, contributes⟩
    obtain ⟨a, b, start', stop', ha, hb, before, after, _, same, rfl, admitted⟩ :=
      contributes_iff.mp contributes
    simp only [substringKey, toLex_inj, Prod.mk.injEq] at same
    obtain ⟨rfl, rfl, rfl⟩ := same
    obtain rfl : other = string := by simpa [read, stored] using anchors.read.symm
    exact ⟨candidate, mem, rfl, pairedTotals_isLeast policy ha hb before after, admitted⟩
  · rintro ⟨candidate, mem, rfl, least, admitted⟩
    obtain ⟨before, after, _⟩ := least.1
    obtain ⟨other, found, anchors⟩ := anchors_of_rangeError read (inside candidate mem)
    obtain rfl := Option.some.inj (found.symm.trans stored)
    have ha := List.getElem?_eq_getElem anchors.queryPosition
    have hb := List.getElem?_eq_getElem anchors.stringPosition
    refine ⟨candidate, mem, other, anchors, contributes_iff.mpr ⟨_, _, start, stop, ha, hb,
      before, after, within, rfl, ?_, admitted⟩⟩
    exact least.unique (pairedTotals_isLeast policy ha hb before after)

theorem exists_least_paired {candidate : Candidate} (mem : candidate ∈ candidates)
    (named : candidate.stringId = id)
    (paired : x ∈ PairedTotals policy queryString string start stop candidate) :
    ∃ y ≤ x, IsLeast (PairedTotals policy queryString string start stop candidate) y := by
  obtain ⟨other, found, anchors⟩ := anchors_of_rangeError read (inside candidate mem)
  obtain rfl := Option.some.inj ((named ▸ found).symm.trans stored)
  have least := pairedTotals_isLeast policy (List.getElem?_eq_getElem anchors.queryPosition)
    (List.getElem?_eq_getElem anchors.stringPosition) paired.1 paired.2.1
  exact ⟨_, least.2 paired, least⟩

end Seen

/-- The listed candidates see the least cost of pairing one of them, if it is below the bound. -/
theorem isLeast_seen_iff (read : ∀ id, corpus.string (R := R) id = .ok corpus.strings[id.val]?)
    (inside : ∀ candidate ∈ candidates, candidate.rangeError (R := R) corpus queryString = none)
    {id : SequenceId} {start stop : Nat} {x : R} :
    IsLeast { x | Seen policy bound queryString corpus candidates (substringKey id start stop) x }
        x ↔
      ∃ string, corpus.strings[id.val]? = some string ∧ stop ≤ string.length ∧
        IsLeast { x | ∃ candidate ∈ candidates, candidate.stringId = id ∧
          x ∈ PairedTotals policy queryString string start stop candidate } x ∧ bound.admits x := by
  constructor
  · rintro ⟨seen, least⟩
    obtain ⟨string, found, _, within, _, admitted⟩ := Seen.sound seen
    have stored : corpus.strings[id.val]? = some string := by simpa [read] using found
    obtain ⟨candidate, mem, named, here, _⟩ := (seen_iff read inside stored within).mp seen
    refine ⟨string, stored, within, ⟨⟨candidate, mem, named, here.1⟩, ?_⟩, admitted⟩
    rintro y ⟨other, listed, same, paired⟩
    obtain ⟨z, below, minimum⟩ := exists_least_paired read inside stored listed same paired
    rcases lt_or_ge z bound.cost.get with small | large
    · have seen_other := (seen_iff read inside stored within).mpr
        ⟨other, listed, same, minimum, small⟩
      exact (least seen_other).trans below
    · exact admitted.le.trans (large.trans below)
  · rintro ⟨string, stored, within, ⟨⟨candidate, mem, named, paired⟩, least⟩, admitted⟩
    obtain ⟨z, below, minimum⟩ := exists_least_paired read inside stored mem named paired
    obtain rfl : x = z := le_antisymm (least ⟨candidate, mem, named, minimum.1⟩) below
    refine ⟨(seen_iff read inside stored within).mpr
      ⟨candidate, mem, named, minimum, admitted⟩, ?_⟩
    intro y seen
    obtain ⟨other, listed, same, here, _⟩ := (seen_iff read inside stored within).mp seen
    exact least ⟨other, listed, same, here.1⟩

section Lists
variable {costs : EditCosts R Symbol} {known : Symbol → Prop}

omit [ExactNumber R] in
/-- The first candidate out of range decides the error. -/
theorem verify_fail [Number R] {bound : StrictBound R} {costs : EditCosts R Symbol}
    (read : ∀ id, corpus.string (R := R) id = .ok corpus.strings[id.val]?) {e : Error R}
    (first : candidates.findSome? (Candidate.rangeError corpus queryString) = some e) :
    verify queryString candidates corpus bound costs = fail e := by
  unfold verify
  rw [forM_eq_findSome? (fun candidate _ => validatedCandidateString_eq read), first]
  rfl

theorem verify_answers
    (read : ∀ id, corpus.string (R := R) id = .ok corpus.strings[id.val]?)
    (reads : ∀ string ∈ corpus.strings, ∀ symbol ∈ string, known symbol)
    (answers : costs.Answers policy known) (query : ∀ symbol ∈ queryString, known symbol)
    (bound : StrictBound R)
    (inside : candidates.findSome? (Candidate.rangeError (R := R) corpus queryString) = none) :
    ∃ found, verify queryString candidates corpus bound costs = .ok found ∧
      found.Pairwise (fun a b => a.key < b.key) ∧
      ∀ id start stop x, (⟨id, (start, stop), x⟩ : Match R) ∈ found ↔
        ∃ string, corpus.strings[id]? = some string ∧ stop ≤ string.length ∧
          IsLeast { x | ∃ candidate ∈ candidates, candidate.stringId.val = id ∧
            x ∈ PairedTotals policy queryString string start stop candidate } x ∧
          x < bound.cost.get := by
  rw [List.findSome?_eq_none_iff] at inside
  obtain ⟨substrings, verified, minimal⟩ := verify_ok answers query
    (fun candidate mem => by
      obtain ⟨string, found, anchors⟩ := anchors_of_rangeError read (inside candidate mem)
      exact ⟨string, anchors, reads string (List.mem_of_getElem? found)⟩) bound
  refine ⟨_, verified, pairwise_matches substrings, fun id start stop x => ?_⟩
  rw [mem_matches minimal]
  simp only [isLeast_seen_iff read inside]
  constructor
  · rintro ⟨id, rfl, string, stored, within, least, admitted⟩
    simp only [Fin.ext_iff] at least
    exact ⟨string, stored, within, least, admitted⟩
  · rintro ⟨string, stored, within, least, admitted⟩
    obtain ⟨candidate, _, rfl, _⟩ := least.1
    refine ⟨candidate.stringId, rfl, string, stored, within, ?_, admitted⟩
    simp only [Fin.ext_iff]
    exact least

end Lists

/-- Verification of a list fails with the error of the first candidate out of range. When there
is none it answers, in order and once each, with the substrings for which the least cost of
pairing a listed candidate is below the bound, at that cost. The answer depends on the list only
through its members and that first error. -/
theorem verify_exact {costs : EditCosts R Symbol} {known : Symbol → Prop}
    (stored : corpus.WellFormed)
    (valid : ∀ symbol ∈ corpus.symbols.asSlice, symbol.val < corpus.symbolCount)
    (policy : Policy R Symbol) (answers : costs.Answers policy known)
    (vocabulary : ∀ symbol : Symbol, symbol.val < corpus.symbolCount → known symbol)
    (queryString : List Symbol) (query : ∀ symbol ∈ queryString, known symbol)
    (bound : StrictBound R) (candidates : List Candidate) :
    (∀ e, candidates.findSome? (Candidate.rangeError corpus queryString) = some e →
      verify queryString candidates corpus bound costs = fail e) ∧
    (candidates.findSome? (Candidate.rangeError (R := R) corpus queryString) = none →
      ∃ found, verify queryString candidates corpus bound costs = .ok found ∧
        found.Pairwise (fun a b => a.key < b.key) ∧
        ∀ id start stop x, (⟨id, (start, stop), x⟩ : Match R) ∈ found ↔
          ∃ string, corpus.strings[id]? = some string ∧ stop ≤ string.length ∧
            IsLeast { x | ∃ candidate ∈ candidates, candidate.stringId.val = id ∧
              x ∈ PairedTotals policy queryString string start stop candidate } x ∧
            x < bound.cost.get) ∧
    ∀ others, (∀ candidate, candidate ∈ others ↔ candidate ∈ candidates) →
      others.findSome? (Candidate.rangeError (R := R) corpus queryString) =
        candidates.findSome? (Candidate.rangeError corpus queryString) →
      verify queryString others corpus bound costs =
        verify queryString candidates corpus bound costs := by
  have read := CorpusStore.string_eq (R := R) stored valid
  have reads : ∀ string ∈ corpus.strings, ∀ symbol ∈ string, known symbol :=
    fun string hs symbol mem => vocabulary symbol
      (valid symbol ((CorpusStore.mem_symbols_iff stored).mpr ⟨string, hs, mem⟩))
  refine ⟨fun e => verify_fail read,
    fun inside => verify_answers read reads answers query bound inside, ?_⟩
  intro others same first
  cases failed : candidates.findSome? (Candidate.rangeError (R := R) corpus queryString) with
  | some e => rw [verify_fail read failed, verify_fail read (first.trans failed)]
  | none =>
    obtain ⟨found, verified, ordered, content⟩ :=
      verify_answers read reads answers query bound failed
    obtain ⟨found', verified', ordered', content'⟩ :=
      verify_answers read reads answers query bound (first.trans failed)
    rw [verified, verified', Sorting.eq_of_strict ordered' ordered (fun m => ?_)]
    rw [content, content']
    simp only [same]

end Exact

def corpusOf (strings : List (List Symbol)) (symbolCount : Nat) : CorpusStore :=
  (strings.foldl CorpusStoreBuilder.addString .new).build symbolCount

theorem corpusOf_wellFormed (strings : List (List Symbol)) {symbolCount : Nat}
    (bound : symbolCount < 2 ^ 32) :
    (corpusOf strings symbolCount).WellFormed ∧ (corpusOf strings symbolCount).strings = strings := by
  suffices h : ∀ (rest held : List (List Symbol)) (builder : CorpusStoreBuilder),
      builder.Holds held → (rest.foldl CorpusStoreBuilder.addString builder).Holds (held ++ rest) from
    (h strings [] .new CorpusStoreBuilder.new_holds).build bound
  intro rest
  induction rest with
  | nil =>
    intro held builder holds
    rwa [List.append_nil]
  | cons string rest ih =>
    intro held builder holds
    simpa using ih (held ++ [string]) _ (holds.addString string)

theorem corpusOf_valid {strings : List (List Symbol)} {symbolCount : Nat}
    (bound : symbolCount < 2 ^ 32) (below : ∀ string ∈ strings, ∀ symbol ∈ string,
      symbol.val < symbolCount) :
    ∀ symbol ∈ (corpusOf strings symbolCount).symbols.asSlice,
      symbol.val < (corpusOf strings symbolCount).symbolCount := by
  obtain ⟨stored, content⟩ := corpusOf_wellFormed strings bound
  intro symbol mem
  obtain ⟨string, hs, mem⟩ := (CorpusStore.mem_symbols_iff stored).mp mem
  exact below string (content ▸ hs) symbol mem

/-- With several candidates out of range the order of the list decides which error is
reported. -/
theorem verify_reports_first : ∃ (corpus : CorpusStore) (candidates others : List Candidate),
    corpus.WellFormed ∧
    (∀ symbol ∈ corpus.symbols.asSlice, symbol.val < corpus.symbolCount) ∧
    others.Perm candidates ∧
    verify (R := Int) [0] candidates corpus ⟨⟨1, by decide, by decide⟩⟩
        (levenshteinCosts ⟨1, by decide, by decide⟩).costs = fail (.unknownString 5) ∧
    verify (R := Int) [0] others corpus ⟨⟨1, by decide, by decide⟩⟩
        (levenshteinCosts ⟨1, by decide, by decide⟩).costs = fail (.invalidStringPosition 7 1) :=
  ⟨corpusOf [[0]] 1, [⟨5, 0, 0⟩, ⟨0, 7, 0⟩], [⟨0, 7, 0⟩, ⟨5, 0, 0⟩],
    (corpusOf_wellFormed [[0]] (by decide)).1, corpusOf_valid (by decide) (by simp),
    .swap _ _ [], by decide +kernel, by decide +kernel⟩

theorem verify_exact_repeats : ∃ found : List (Match Int),
    found = [⟨0, (0, 1), 1⟩, ⟨0, (0, 2), 0⟩, ⟨0, (1, 2), 1⟩] ∧
    ∀ id start stop x, (⟨id, (start, stop), x⟩ : Match Int) ∈ found ↔
      ∃ string, (corpusOf [[0, 0]] 1).strings[id]? = some string ∧ stop ≤ string.length ∧
        IsLeast { x | ∃ candidate ∈
            [⟨0, 0, 1⟩, ⟨0, 1, 0⟩, ⟨0, 0, 0⟩, ⟨0, 1, 1⟩, (⟨0, 0, 1⟩ : Candidate)],
          candidate.stringId.val = id ∧ x ∈ PairedTotals
            (levenshteinCosts (R := Int) ⟨1, by decide, by decide⟩) [0, 0] string start stop
            candidate } x ∧ x < 2 := by
  have stored := (corpusOf_wellFormed [[0, 0]] (show 1 < 2 ^ 32 by decide)).1
  obtain ⟨found, verified, _, content⟩ := (verify_exact (R := Int) stored
    (corpusOf_valid (by decide) (by simp))
    (levenshteinCosts ⟨1, by decide, by decide⟩) (Policy.costs_answers _ fun _ => True)
    (fun _ _ => trivial) [0, 0] (fun _ _ => trivial) ⟨⟨2, by decide, by decide⟩⟩
    [⟨0, 0, 1⟩, ⟨0, 1, 0⟩, ⟨0, 0, 0⟩, ⟨0, 1, 1⟩, ⟨0, 0, 1⟩]).2.1 (by decide +kernel)
  have evaluated : verify (R := Int) [0, 0]
      [⟨0, 0, 1⟩, ⟨0, 1, 0⟩, ⟨0, 0, 0⟩, ⟨0, 1, 1⟩, ⟨0, 0, 1⟩] (corpusOf [[0, 0]] 1)
      ⟨⟨2, by decide, by decide⟩⟩ (levenshteinCosts ⟨1, by decide, by decide⟩).costs =
      .ok [⟨0, (0, 1), 1⟩, ⟨0, (0, 2), 0⟩, ⟨0, (1, 2), 1⟩] := by decide +kernel
  exact ⟨found, Except.ok.inj (verified.symm.trans evaluated), content⟩

end Yurine
