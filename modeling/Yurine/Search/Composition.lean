import Yurine.Search.Exactness
import Mathlib.Data.List.Sort

/-! How searches compose. An answer is a part of every answer over more sequences and with a
larger threshold: what is added later changes neither the matches nor their distances. -/
namespace Yurine
open Outcome EditScripts

namespace SearchEngineBuilder
variable {T R : Type}

theorem addSequences_append (builder : SearchEngineBuilder T) (sequences later : List (List T)) :
    builder.addSequences (R := R) (sequences ++ later) =
      ((builder.addSequences sequences).1 ++
          ((builder.addSequences (R := R) sequences).2.addSequences later).1,
        ((builder.addSequences (R := R) sequences).2.addSequences (R := R) later).2) := by
  induction sequences generalizing builder with
  | nil => rfl
  | cons sequence rest ih =>
    rw [List.cons_append, addSequences, ih]
    rfl

theorem length_addSequences (builder : SearchEngineBuilder T) (sequences : List (List T)) :
    (builder.addSequences (R := R) sequences).1.length = sequences.length := by
  induction sequences generalizing builder with
  | nil => rfl
  | cons sequence rest ih => rw [addSequences, List.length_cons, ih, List.length_cons]

/-- The sequences that a longer run accepts begin with those of the shorter one. -/
theorem accepted_prefix (sequences later : List (List T)) :
    accepted sequences (new.addSequences (R := R) sequences).1 <+:
      accepted (sequences ++ later) (new.addSequences (R := R) (sequences ++ later)).1 := by
  rw [addSequences_append, accepted, accepted,
    List.zip_append (length_addSequences _ _).symm, List.filterMap_append]
  exact List.prefix_append _ _

end SearchEngineBuilder

namespace SearchEngine
open SearchEngineBuilder

variable {T R : Type} [DecidableEq T] [DiscreteNumber R]

omit [DiscreteNumber R] in
/-- Two lists of matches in order have the same matches only if they are the same. -/
theorem eq_of_mem_iff {found other : List (Match R)}
    (first : found.Pairwise fun a b => a.key < b.key)
    (second : other.Pairwise fun a b => a.key < b.key)
    (same : ∀ m, m ∈ found ↔ m ∈ other) : found = other := by
  have distinct {answer : List (Match R)} (ordered : answer.Pairwise fun a b => a.key < b.key) :
      answer.Nodup := ordered.imp fun less => ne_of_apply_ne Match.key less.ne
  apply List.Perm.eq_of_pairwise _ first second
    ((List.perm_ext_iff_of_nodup (distinct first) (distinct second)).mpr same)
  intro a b _ _ less greater
  exact absurd less greater.asymm

/-- An answer lists the matches of the sequences and within the threshold that any answer over
more sequences and with a larger threshold lists. -/
theorem search_extends (sequences later : List (List T)) (engine extended : SearchEngine T)
    (built : (new.addSequences (R := R) sequences).2.build (R := R) = .ok engine)
    (builtLater : (new.addSequences (R := R) (sequences ++ later)).2.build (R := R) =
      .ok extended)
    (policy : Policy R T) (querySequence : List T) (params wider : RangeSearchParams R)
    (below : params.threshold ≤ wider.threshold) (found more : List (Match R))
    (answered : engine.search policy querySequence params = .ok found)
    (answeredLater : extended.search policy querySequence wider = .ok more) :
    found = more.filter fun m =>
      m.sequenceId < (accepted sequences (new.addSequences (R := R) sequences).1).length ∧
        m.distance ≤ params.threshold := by
  obtain ⟨count, indexes⟩ := indexes_of_built built
  obtain ⟨countLater, indexesLater⟩ := indexes_of_built builtLater
  have answer := (ensures_search indexes.wellFormed policy querySequence params).of_ok answered
  have answerLater :=
    (ensures_search indexesLater.wellFormed policy querySequence wider).of_ok answeredLater
  obtain ⟨rest, split⟩ := accepted_prefix (R := R) sequences later
  apply eq_of_mem_iff answer.pairwise (answerLater.pairwise.filter _)
  intro m
  rw [answer.mem_iff indexes count, List.mem_filter, answerLater.mem_iff indexesLater countLater,
    ← split, decide_eq_true_iff]
  constructor
  · rintro ⟨sequence, here, ordered, inside, exact_, near⟩
    have known := (List.getElem?_eq_some_iff.mp here).1
    rw [← List.getElem?_append_left known] at here
    exact ⟨⟨sequence, here, ordered, inside, exact_, near.trans below⟩, known, near⟩
  · rintro ⟨⟨sequence, here, ordered, inside, exact_, _⟩, known, near⟩
    rw [List.getElem?_append_left known] at here
    exact ⟨sequence, here, ordered, inside, exact_, near⟩

theorem search_extends_ban : ∃ engine extended : SearchEngine Char,
    (new.addSequences (R := Int) ["ban".toList]).2.build (R := Int) = .ok engine ∧
    (new.addSequences (R := Int) (["ban".toList] ++ ["an".toList])).2.build (R := Int) =
      .ok extended ∧
    ([⟨0, (1, 3), 0⟩] : List (Match Int)) = List.filter
      (fun m => m.sequenceId < (accepted ["ban".toList] (new.addSequences (R := Int)
        ["ban".toList]).1).length ∧ m.distance ≤ 0)
      [⟨0, (0, 3), 1⟩, ⟨0, (1, 2), 1⟩, ⟨0, (1, 3), 0⟩, ⟨0, (2, 3), 1⟩, ⟨1, (0, 1), 1⟩,
        ⟨1, (0, 2), 0⟩, ⟨1, (1, 2), 1⟩] := by
  obtain ⟨engine, built, answered⟩ := bind_eq_ok.mp (show ((new.addSequences (R := Int)
      ["ban".toList]).2.build (R := Int) >>= fun engine => engine.search
        (levenshteinCosts (R := Int) ⟨1, by decide, by decide⟩) "an".toList ⟨0, none⟩) =
      .ok [⟨0, (1, 3), 0⟩] by decide +kernel)
  obtain ⟨extended, builtLater, answeredLater⟩ := bind_eq_ok.mp (show ((new.addSequences (R := Int)
      (["ban".toList] ++ ["an".toList])).2.build (R := Int) >>= fun engine => engine.search
        (levenshteinCosts (R := Int) ⟨1, by decide, by decide⟩) "an".toList ⟨1, none⟩) =
      .ok [⟨0, (0, 3), 1⟩, ⟨0, (1, 2), 1⟩, ⟨0, (1, 3), 0⟩, ⟨0, (2, 3), 1⟩, ⟨1, (0, 1), 1⟩,
        ⟨1, (0, 2), 0⟩, ⟨1, (1, 2), 1⟩] by decide +kernel)
  exact ⟨engine, extended, built, builtLater, search_extends _ _ engine extended built builtLater
    _ _ _ _ (by decide) _ _ answered answeredLater⟩

end SearchEngine
end Yurine
