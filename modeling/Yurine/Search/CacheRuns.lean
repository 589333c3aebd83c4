import Yurine.Search.Recurrence
import Yurine.Search.Trie

/-! Runs of scans through one cache. Every scan inserts the nodes of its own path and stops by its
own budget, so neither what earlier scans left in the trie nor where they stopped shows in what a
later scan returns. -/
namespace Yurine
open Outcome EditScripts

section Definitions
variable {R : Type} [Number R]

def TrieNode.descend : List Symbol → TrieNode R → Option (TrieNode R)
  | [], node => some node
  | symbol :: rest, .mk _ children => (children.lookup symbol).bind (descend rest)

/-- Scans of data strings with budgets of their own, one after another. -/
def scanAll (queryString : List Symbol) (costs : EditCosts R Symbol) :
    List (List Symbol × R) → TrieNode R → Result R (List (List R) × TrieNode R)
  | [], root => return ([], root)
  | call :: rest, root => do
    let (distances, root) ← cachedPrefixDistances queryString call.1 call.2 root costs
    let (others, root) ← scanAll queryString costs rest root
    return (distances :: others, root)

/-- What a scan returns: the distances of the prefixes of its data string, up to the first
non-empty one with no cell below its budget. -/
structure Scans (policy : Policy R Symbol) (queryString string : List Symbol) (budget : R)
    (distances : List R) : Prop where
  empty : distances ≠ []
  inside : distances.length ≤ string.length + 1
  listed : ∀ k < distances.length, ∃ column distance,
    dpColumn queryString (string.take k) policy.costs = .ok column ∧
      column[queryString.length]? = some distance ∧ distances[k]? = some distance
  hopeful : ∀ k, 0 < k → k < distances.length → ∃ column,
    dpColumn queryString (string.take k) policy.costs = .ok column ∧ columnMin column < budget
  stopped : distances.length ≤ string.length → ∃ column,
    dpColumn queryString (string.take distances.length) policy.costs = .ok column ∧
      budget ≤ columnMin column
  omitted : ∀ k, distances.length ≤ k → k ≤ string.length → ∃ column distance,
    dpColumn queryString (string.take k) policy.costs = .ok column ∧
      column[queryString.length]? = some distance ∧ budget ≤ distance

end Definitions

section Nodes
variable {R : Type} [Number R] {policy : Policy R Symbol} {queryString : List Symbol}

theorem TrieNode.Caches.descend {path : List Symbol} {node : TrieNode R}
    (caches : node.Caches policy queryString path) {rest : List Symbol} {found : TrieNode R}
    (reached : node.descend rest = some found) :
    found.Caches policy queryString (path ++ rest) := by
  induction rest generalizing path node with
  | nil =>
    obtain rfl := Option.some.inj reached
    rwa [List.append_nil]
  | cons symbol rest ih =>
    cases caches with
    | mk _ below =>
      obtain ⟨child, known, reached⟩ := Option.bind_eq_some_iff.mp reached
      have deeper := ih (below symbol child known) reached
      rwa [List.append_assoc] at deeper

theorem scanAll_ok (policy : Policy R Symbol) (queryString : List Symbol)
    (calls : List (List Symbol × R)) {root : TrieNode R}
    (caches : root.Caches policy queryString []) :
    ∃ last, scanAll queryString policy.costs calls root =
        .ok (calls.map fun call => prefixDistances policy queryString call.2 call.1, last) ∧
      last.Caches policy queryString [] := by
  induction calls generalizing root with
  | nil => exact ⟨root, rfl, caches⟩
  | cons call rest ih =>
    obtain ⟨next, scanned, after⟩ := cachedPrefixDistances_ok (policy.costs_answers fun _ => True)
      (fun _ _ => trivial) call.2 (fun symbol (_ : symbol ∈ call.1) => trivial) caches
    obtain ⟨last, others, kept⟩ := ih after
    refine ⟨last, ?_, kept⟩
    simp only [scanAll, scanned, bind_ok, others]
    rfl

theorem getElem?_columnOf_last (policy : Policy R Symbol) (queryString string : List Symbol) :
    (columnOf policy queryString string)[queryString.length]? =
      some ((columnOf policy queryString string).getD queryString.length 0) := by
  have inside : queryString.length < (columnOf policy queryString string).length := by
    rw [length_columnOf]
    exact Nat.lt_succ_self _
  rw [List.getD_eq_getElem?_getD, List.getElem?_eq_getElem inside]
  rfl

/-- The scan past a path lists the last cells of its columns until one has no cell below the
budget. -/
theorem distancesPast_cut (policy : Policy R Symbol) (queryString : List Symbol) (budget : R)
    (path symbols : List Symbol) :
    (∀ k < (distancesPast policy queryString budget path symbols).length,
      (distancesPast policy queryString budget path symbols)[k]? =
          (columnOf policy queryString (path ++ symbols.take (k + 1)))[queryString.length]? ∧
        columnMin (columnOf policy queryString (path ++ symbols.take (k + 1))) < budget) ∧
    ((distancesPast policy queryString budget path symbols).length < symbols.length →
      budget ≤ columnMin (columnOf policy queryString (path ++
        symbols.take ((distancesPast policy queryString budget path symbols).length + 1)))) := by
  induction symbols generalizing path with
  | nil => simp [distancesPast]
  | cons symbol rest ih =>
    have first : path ++ (symbol :: rest).take 1 = path ++ [symbol] := rfl
    have later (k : Nat) : path ++ (symbol :: rest).take (k + 1) =
        path ++ [symbol] ++ rest.take k := by simp
    rw [distancesPast]
    split
    · rename_i hopeless
      refine ⟨fun k inside => absurd inside (Nat.not_lt_zero k), fun _ => ?_⟩
      rw [List.length_nil, first]
      exact hopeless
    · rename_i hopeful
      obtain ⟨listed, stopped⟩ := ih (path ++ [symbol])
      constructor
      · intro k inside
        cases k with
        | zero =>
          rw [first, getElem?_columnOf_last]
          exact ⟨rfl, not_le.mp hopeful⟩
        | succ k =>
          rw [later, List.getElem?_cons_succ]
          exact listed k (Nat.lt_of_succ_lt_succ inside)
      · intro short
        rw [List.length_cons, later]
        exact stopped (Nat.lt_of_succ_lt_succ short)

end Nodes

/-- A scan without a cache lists the prefixes that its budget leaves. What it omits lies behind a
column with no cell below the budget, so its own cells are not below it either. -/
theorem prefixDistances_scans {R : Type} [MonotoneNumber R] (policy : Policy R Symbol)
    (queryString string : List Symbol) (budget : R) :
    Scans policy queryString string budget (prefixDistances policy queryString budget string) := by
  obtain ⟨listed, stopped⟩ := distancesPast_cut policy queryString budget [] string
  have short := length_distancesPast policy queryString budget [] string
  have column (k : Nat) := dpColumn_ok policy queryString (string.take k)
  have last (k : Nat) := getElem?_columnOf_last policy queryString (string.take k)
  rw [prefixDistances]
  generalize distancesPast policy queryString budget [] string = past at *
  constructor
  · exact List.cons_ne_nil _ _
  · exact Nat.succ_le_succ short
  · intro k inside
    refine ⟨_, _, column k, last k, ?_⟩
    cases k with
    | zero => rfl
    | succ k =>
      rw [List.getElem?_cons_succ, (listed k (Nat.lt_of_succ_lt_succ inside)).1]
      exact last (k + 1)
  · intro k positive inside
    obtain ⟨k, rfl⟩ := Nat.exists_eq_succ_of_ne_zero positive.ne'
    exact ⟨_, column (k + 1), (listed k (Nat.lt_of_succ_lt_succ inside)).2⟩
  · intro inside
    exact ⟨_, column _, stopped inside⟩
  · intro k outside inside
    refine ⟨_, _, column k, last k, ?_⟩
    obtain ⟨more, rfl⟩ := Nat.exists_eq_add_of_le outside
    have cut := stopped (Nat.lt_of_lt_of_le (Nat.lt_succ_self _) (outside.trans inside))
    have row : queryString.length < (columnOf policy queryString
        (string.take (past.length + 1 + more))).length := by
      rw [length_columnOf]
      exact Nat.lt_succ_self _
    calc budget ≤ columnMin (columnOf policy queryString (string.take (past.length + 1))) := cut
      _ ≤ columnMin (columnOf policy queryString (string.take (past.length + 1 + more))) := by
        rw [List.take_add (i := past.length + 1) (j := more)]
        exact columnMin_mono policy queryString _ _
      _ ≤ _ := columnMin_le_getD row

/-- Whatever was scanned before, every node holds the column of its path and every scan returns
what it returns without a cache. -/
theorem scanAll_invisible {R : Type} [MonotoneNumber R] (policy : Policy R Symbol)
    (queryString : List Symbol) (calls : List (List Symbol × R)) :
    ∃ root answers last, TrieNode.root queryString policy.costs = .ok root ∧
      scanAll queryString policy.costs calls root = .ok (answers, last) ∧
      (∀ path node, last.descend path = some node →
        dpColumn queryString path policy.costs = .ok node.column) ∧
      List.Forall₂ (fun call distances => Scans policy queryString call.1 call.2 distances)
        calls answers := by
  have query : ∀ symbol ∈ queryString, True := fun _ _ => trivial
  obtain ⟨root, caches, started⟩ := TrieNode.root_ok (policy.costs_answers fun _ => True) query
  obtain ⟨last, scanned, kept⟩ := scanAll_ok policy queryString calls caches
  refine ⟨root, _, last, started, scanned, ?_, ?_⟩
  · intro path node reached
    rw [(kept.descend reached).column]
    exact dpColumn_ok policy queryString path
  · rw [List.forall₂_map_right_iff]
    exact List.forall₂_same.mpr fun call _ => prefixDistances_scans policy queryString call.1 call.2

end Yurine
