import Yurine.Search.Columns

/-! The cache of columns. A node of the trie holds the column of the path leading to it, so
a scan through the cache returns what a scan without it returns. -/
namespace Yurine
open Outcome EditScripts

section Definitions
variable {R : Type}

/-- `children` maps a symbol to the node of its first entry. -/
inductive TrieNode (R : Type) where
  | mk (column : List R) (children : List (Symbol × TrieNode R))

def TrieNode.column : TrieNode R → List R
  | .mk column _ => column

variable [Number R]

def TrieNode.root (queryString : List Symbol) (costs : EditCosts R Symbol) :
    Result R (TrieNode R) := do
  return .mk (← rootColumn queryString costs) []

/-- `children.entry(symbol).or_insert_with(..)`. -/
def childNode (queryString : List Symbol) (costs : EditCosts R Symbol) (symbol : Symbol) :
    TrieNode R → Result R (TrieNode R)
  | .mk column children =>
    match children.lookup symbol with
    | some child => return child
    | none => do return .mk (← stepDp queryString symbol column costs) []

def TrieNode.insertChild : TrieNode R → Symbol → TrieNode R → TrieNode R
  | .mk column children, symbol, child => .mk column ((symbol, child) :: children)

/-- The distances past a node and the node with the columns computed on the way. -/
def scanChildren (queryString : List Symbol) (budget : R) (costs : EditCosts R Symbol) :
    List Symbol → TrieNode R → Result R (List R × TrieNode R)
  | [], node => return ([], node)
  | symbol :: rest, node => do
    let child ← childNode queryString costs symbol node
    if budget ≤ child.column.foldl min infinity then
      return ([], node.insertChild symbol child)
    else
      let distance ← index child.column queryString.length
      let (distances, child) ← scanChildren queryString budget costs rest child
      return (distance :: distances, node.insertChild symbol child)

def cachedPrefixDistances (queryString stringSymbols : List Symbol) (budget : R)
    (root : TrieNode R) (costs : EditCosts R Symbol) : Result R (List R × TrieNode R) := do
  let distance ← index root.column queryString.length
  let (distances, root) ← scanChildren queryString budget costs stringSymbols root
  return (distance :: distances, root)

/-- The distances of a scan without a cache, past the data string `path`. -/
def distancesPast (policy : Policy R Symbol) (queryString : List Symbol) (budget : R) :
    List Symbol → List Symbol → List R
  | _, [] => []
  | path, symbol :: rest =>
    if budget ≤ (columnOf policy queryString (path ++ [symbol])).foldl min infinity then []
    else (columnOf policy queryString (path ++ [symbol])).getD queryString.length 0 ::
      distancesPast policy queryString budget (path ++ [symbol]) rest

/-- The distances to the prefixes of a data string, up to the first hopeless one. -/
def prefixDistances (policy : Policy R Symbol) (queryString : List Symbol) (budget : R)
    (stringSymbols : List Symbol) : List R :=
  (columnOf policy queryString []).getD queryString.length 0 ::
    distancesPast policy queryString budget [] stringSymbols

/-- Every node of the trie holds the column of its path. -/
inductive TrieNode.Caches (policy : Policy R Symbol) (queryString : List Symbol) :
    List Symbol → TrieNode R → Prop where
  | mk {path column children} (here : column = columnOf policy queryString path)
      (below : ∀ symbol child, children.lookup symbol = some child →
        Caches policy queryString (path ++ [symbol]) child) :
      Caches policy queryString path (.mk column children)

end Definitions

section Cache
variable {R : Type} [Number R] {policy : Policy R Symbol} {costs : EditCosts R Symbol}
  {known : Symbol → Prop} {queryString : List Symbol} {path : List Symbol} {node : TrieNode R}

theorem TrieNode.Caches.column (caches : node.Caches policy queryString path) :
    node.column = columnOf policy queryString path := by
  cases caches with
  | mk here _ => exact here

theorem TrieNode.Caches.insertChild (caches : node.Caches policy queryString path)
    {symbol : Symbol} {child : TrieNode R}
    (below : child.Caches policy queryString (path ++ [symbol])) :
    (node.insertChild symbol child).Caches policy queryString path := by
  cases caches with
  | mk here old =>
    rw [TrieNode.insertChild]
    refine .mk here (fun other found lookup => ?_)
    rw [List.lookup_cons] at lookup
    split at lookup
    · rename_i same
      obtain rfl := Option.some.inj lookup
      rwa [beq_iff_eq.mp same]
    · exact old other found lookup

theorem TrieNode.root_ok (answers : costs.Answers policy known)
    (query : ∀ symbol ∈ queryString, known symbol) :
    ∃ root : TrieNode R, root.Caches policy queryString [] ∧
      TrieNode.root queryString costs = .ok root := by
  refine ⟨.mk (rootColumnOf policy queryString) [], .mk rfl nofun, ?_⟩
  rw [TrieNode.root, rootColumn_ok answers query, bind_ok]
  rfl

theorem childNode_ok (answers : costs.Answers policy known)
    (query : ∀ symbol ∈ queryString, known symbol)
    (caches : node.Caches policy queryString path) {symbol : Symbol} (string : known symbol) :
    ∃ child, childNode queryString costs symbol node = .ok child ∧
      child.Caches policy queryString (path ++ [symbol]) := by
  cases caches with
  | @mk _ column children here below =>
    rw [childNode]
    cases found : children.lookup symbol with
    | some child => exact ⟨child, rfl, below symbol child found⟩
    | none =>
      simp only
      rw [here, stepDp_ok answers query string (length_columnOf path), bind_ok]
      refine ⟨_, rfl, .mk (columnOf_concat path symbol).symm ?_⟩
      intro other found none_found
      cases none_found

private theorem index_column (path : List Symbol) :
    index (ε := Error R) (columnOf policy queryString path) queryString.length =
      .ok ((columnOf policy queryString path).getD queryString.length 0) := by
  have inside : queryString.length < (columnOf policy queryString path).length := by
    rw [length_columnOf]
    omega
  rw [index_ok inside, List.getD_eq_getElem?_getD, List.getElem?_eq_getElem inside]
  rfl

theorem scanChildren_ok (answers : costs.Answers policy known)
    (query : ∀ symbol ∈ queryString, known symbol) (budget : R) {symbols : List Symbol}
    (strings : ∀ symbol ∈ symbols, known symbol) (caches : node.Caches policy queryString path) :
    ∃ next, scanChildren queryString budget costs symbols node =
        .ok (distancesPast policy queryString budget path symbols, next) ∧
      next.Caches policy queryString path := by
  induction symbols generalizing path node with
  | nil => exact ⟨node, rfl, caches⟩
  | cons symbol rest ih =>
    obtain ⟨child, found, below⟩ := childNode_ok answers query caches (strings symbol (by simp))
    rw [scanChildren, distancesPast, found, bind_ok, below.column]
    split
    · exact ⟨_, rfl, caches.insertChild below⟩
    · obtain ⟨next, scanned, after⟩ := ih (fun s h => strings s (List.mem_cons_of_mem symbol h))
        below
      rw [index_column, bind_ok, scanned]
      exact ⟨_, rfl, caches.insertChild after⟩

/-- A call returns what an uncached scan returns and keeps the cache sound. -/
theorem cachedPrefixDistances_ok (answers : costs.Answers policy known)
    (query : ∀ symbol ∈ queryString, known symbol) (budget : R) {symbols : List Symbol}
    (strings : ∀ symbol ∈ symbols, known symbol) {root : TrieNode R}
    (caches : root.Caches policy queryString []) :
    ∃ next, cachedPrefixDistances queryString symbols budget root costs =
        .ok (prefixDistances policy queryString budget symbols, next) ∧
      next.Caches policy queryString [] := by
  obtain ⟨next, scanned, after⟩ := scanChildren_ok answers query budget strings caches
  refine ⟨next, ?_, after⟩
  rw [cachedPrefixDistances, caches.column, index_column, bind_ok, scanned]
  rfl

theorem length_distancesPast (policy : Policy R Symbol) (queryString : List Symbol) (budget : R)
    (path symbols : List Symbol) :
    (distancesPast policy queryString budget path symbols).length ≤ symbols.length := by
  induction symbols generalizing path with
  | nil => simp [distancesPast]
  | cons symbol rest ih =>
    rw [distancesPast]
    split
    · simp
    · simpa using ih (path ++ [symbol])

theorem length_prefixDistances (policy : Policy R Symbol) (queryString : List Symbol) (budget : R)
    (symbols : List Symbol) :
    (prefixDistances policy queryString budget symbols).length ≤ symbols.length + 1 := by
  simpa [prefixDistances] using length_distancesPast policy queryString budget [] symbols

end Cache

theorem prefixDistances_nonneg {R : Type} [MonotoneNumber R] (policy : Policy R Symbol)
    (queryString : List Symbol) (budget : R) (symbols : List Symbol) :
    ∀ x ∈ prefixDistances policy queryString budget symbols, 0 ≤ x := by
  have past (path : List Symbol) : ∀ x ∈ distancesPast policy queryString budget path symbols,
      0 ≤ x := by
    induction symbols generalizing path with
    | nil => simp [distancesPast]
    | cons symbol rest ih =>
      rw [distancesPast]
      split
      · simp
      · exact List.forall_mem_cons.mpr
          ⟨getD_nonneg (columnOf_nonneg policy queryString _) _, ih _⟩
  exact List.forall_mem_cons.mpr ⟨getD_nonneg (columnOf_nonneg policy queryString _) _, past []⟩

section Exact
variable {R : Type} [ExactNumber R] {policy : Policy R Symbol} {queryString : List Symbol}
  {budget : R}

private theorem le_of_le_foldl_min {cells : List R} {least : R}
    (h : budget ≤ cells.foldl min least) : budget ≤ least ∧ ∀ cell ∈ cells, budget ≤ cell := by
  induction cells generalizing least with
  | nil => exact ⟨h, by simp⟩
  | cons cell cells ih =>
    obtain ⟨both, rest⟩ := ih h
    obtain ⟨first, here⟩ := le_min_iff.mp both
    exact ⟨first, List.forall_mem_cons.mpr ⟨here, rest⟩⟩

/-- A hopeless column bounds the distance to every longer data string. -/
theorem budget_le_distance {string : List Symbol} (rest : List Symbol) (small : budget ≤ largest)
    (hopeless : budget ≤ (columnOf policy queryString string).foldl min infinity) :
    budget ≤ distance policy.weights queryString (string ++ rest) := by
  obtain ⟨n, inside, less⟩ := exists_prefix_le policy.nonneg queryString string rest
  rw [columnOf_eq] at hopeless
  have cell := (le_of_le_foldl_min hopeless).2
    (capped (distance policy.weights (queryString.take n) string))
    (List.mem_map.mpr ⟨n, List.mem_range.mpr (by omega), rfl⟩)
  rw [← not_lt, capped_lt_iff small, not_lt] at cell
  exact cell.trans less

theorem last_cell (string : List Symbol) :
    (columnOf policy queryString string).getD queryString.length 0 =
      capped (distance policy.weights queryString string) := by
  rw [columnOf_eq, getD_prefixColumn (le_refl _), List.take_length]

private theorem distancesPast_spec (policy : Policy R Symbol) (queryString : List Symbol)
    (small : budget ≤ largest) (path symbols : List Symbol) {k : Nat} (inside : k < symbols.length) :
    (∀ x, (distancesPast policy queryString budget path symbols)[k]? = some x →
      x = capped (distance policy.weights queryString (path ++ symbols.take (k + 1)))) ∧
    ((distancesPast policy queryString budget path symbols)[k]? = none →
      budget ≤ distance policy.weights queryString (path ++ symbols.take (k + 1))) := by
  induction symbols generalizing path k with
  | nil => simp at inside
  | cons symbol rest ih =>
    rw [distancesPast]
    split
    · rename_i hopeless
      refine ⟨by simp, fun _ => ?_⟩
      have bounded := budget_le_distance (rest.take k) small hopeless
      rwa [List.append_assoc, List.singleton_append] at bounded
    · cases k with
      | zero =>
        refine ⟨fun x found => ?_, by simp⟩
        simp only [List.getElem?_cons_zero, Option.some.injEq] at found
        rw [← found, last_cell]
        simp
      | succ k =>
        have next := ih (path ++ [symbol]) (by simpa using inside)
        simpa [List.append_assoc] using next

/-- The scan lists the distances to the prefixes in order, and what it leaves out costs at
least the budget. -/
theorem prefixDistances_spec (policy : Policy R Symbol) (queryString : List Symbol)
    (small : budget ≤ largest) (symbols : List Symbol) {k : Nat}
    (inside : k ≤ symbols.length) :
    (∀ x, (prefixDistances policy queryString budget symbols)[k]? = some x →
      x = capped (distance policy.weights queryString (symbols.take k))) ∧
    ((prefixDistances policy queryString budget symbols)[k]? = none →
      budget ≤ distance policy.weights queryString (symbols.take k)) := by
  unfold prefixDistances
  cases k with
  | zero =>
    refine ⟨fun x found => ?_, by simp⟩
    simp only [List.getElem?_cons_zero, Option.some.injEq] at found
    rw [← found, last_cell]
    simp
  | succ k =>
    have rest : k < symbols.length := inside
    simpa using distancesPast_spec policy queryString small [] symbols rest

end Exact
end Yurine
