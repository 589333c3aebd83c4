import Yurine.Library.Outcome
import Yurine.Library.Offsets
import Mathlib.Data.List.Sort
import Mathlib.Data.List.Destutter

/-! Stable sorting by a key, removal of adjacent repetitions, and the counting loop that
turns a sorted list into the offsets of its groups. -/
namespace Sorting
open Outcome

variable {α κ : Type}

section Key
variable [LinearOrder κ]

/-- Equal keys keep their order. -/
def sortByKey (key : α → κ) (xs : List α) : List α :=
  xs.insertionSort (fun a b => key a ≤ key b)

theorem sortByKey_perm (key : α → κ) (xs : List α) : (sortByKey key xs).Perm xs :=
  List.perm_insertionSort _ _

@[simp] theorem mem_sortByKey {key : α → κ} {xs : List α} {a : α} :
    a ∈ sortByKey key xs ↔ a ∈ xs := (sortByKey_perm key xs).mem_iff

@[simp] theorem length_sortByKey (key : α → κ) (xs : List α) :
    (sortByKey key xs).length = xs.length := (sortByKey_perm key xs).length_eq

theorem sortByKey_sorted (key : α → κ) (xs : List α) :
    (sortByKey key xs).Pairwise (fun a b => key a ≤ key b) := by
  have total : Std.Total (fun a b : α => key a ≤ key b) := ⟨fun a b => le_total _ _⟩
  have trans : IsTrans α (fun a b => key a ≤ key b) := ⟨fun _ _ _ => le_trans⟩
  exact List.pairwise_insertionSort _ xs

/-- A sort by a key, which may reorder equal keys. -/
structure Sorts (key : α → κ) (sort : List α → List α) : Prop where
  perm : ∀ xs, (sort xs).Perm xs
  sorted : ∀ xs, (sort xs).Pairwise (fun a b => key a ≤ key b)

theorem sorts_sortByKey (key : α → κ) : Sorts key (sortByKey key) :=
  ⟨sortByKey_perm key, sortByKey_sorted key⟩

end Key

section Dedup
variable [DecidableEq α]

/-- Keep the first of each run of equal elements. -/
def dedupAdjacent (xs : List α) : List α := xs.destutter (· ≠ ·)

private theorem mem_destutter_ne (a b : α) (xs : List α) :
    b ∈ xs.destutter' (· ≠ ·) a ↔ b = a ∨ b ∈ xs := by
  induction xs generalizing a with
  | nil => simp
  | cons c xs ih =>
    rw [List.destutter'_cons]
    split
    · simp [ih]
    · rename_i same
      obtain rfl := not_not.mp same
      simp [ih]

@[simp] theorem mem_dedupAdjacent {xs : List α} {a : α} : a ∈ dedupAdjacent xs ↔ a ∈ xs := by
  cases xs with
  | nil => simp [dedupAdjacent]
  | cons b xs => simp [dedupAdjacent, List.destutter_cons', mem_destutter_ne]

/-- Removing adjacent repetitions of a sorted list leaves it strictly sorted. -/
theorem dedupAdjacent_strict [LinearOrder κ] {key : α → κ} (injective : Function.Injective key)
    {xs : List α} (sorted : xs.Pairwise (fun a b => key a ≤ key b)) :
    (dedupAdjacent xs).Pairwise (fun a b => key a < key b) := by
  have weak := sorted.sublist (List.destutter_sublist (· ≠ ·) xs)
  have distinct : (dedupAdjacent xs).IsChain (· ≠ ·) := List.isChain_destutter _ xs
  have trans : IsTrans α (fun a b => key a < key b) := ⟨fun _ _ _ => lt_trans⟩
  refine List.IsChain.pairwise ?_
  have both : (dedupAdjacent xs).IsChain (fun a b => key a ≤ key b) := weak.isChain
  rw [Offsets.isChain_iff_windows] at distinct both ⊢
  intro pair mem
  exact lt_of_le_of_ne (both pair mem) (fun same => distinct pair mem (injective same))

end Dedup

theorem eq_of_strict [LinearOrder κ] {key : α → κ}
    {xs ys : List α} (hx : xs.Pairwise (fun a b => key a < key b))
    (hy : ys.Pairwise (fun a b => key a < key b)) (same : ∀ a, a ∈ xs ↔ a ∈ ys) : xs = ys := by
  have nodup {zs : List α} (hz : zs.Pairwise (fun a b => key a < key b)) : zs.Nodup :=
    hz.imp (fun less equal => absurd (congrArg key equal) less.ne)
  have perm : xs.Perm ys := (List.perm_ext_iff_of_nodup (nodup hx) (nodup hy)).mpr same
  refine perm.eq_of_pairwise ?_ hx hy
  intro a b _ _ less greater
  exact absurd less greater.asymm

/-- The elements of each group, in the order of the list. -/
def groups (n : Nat) (group : α → Nat) (xs : List α) : List (List α) :=
  (List.range n).map (fun k => xs.filter (fun a => group a = k))

@[simp] theorem length_groups (n : Nat) (group : α → Nat) (xs : List α) :
    (groups n group xs).length = n := by simp [groups]

theorem getElem?_groups (n : Nat) (group : α → Nat) (xs : List α) (k : Nat) :
    (groups n group xs)[k]? = if k < n then some (xs.filter (fun a => group a = k)) else none := by
  unfold groups
  split <;> simp_all

/-- A list sorted by group is the concatenation of its groups. -/
theorem flatten_groups {n : Nat} {group : α → Nat} {xs : List α}
    (sorted : xs.Pairwise (fun a b => group a ≤ group b)) (bounded : ∀ a ∈ xs, group a < n) :
    (groups n group xs).flatten = xs := by
  induction n generalizing xs with
  | zero =>
    cases xs with
    | nil => rfl
    | cons a xs => exact absurd (bounded a (by simp)) (by omega)
  | succ n ih =>
    have split : xs = xs.filter (fun a => group a < n) ++ xs.filter (fun a => group a = n) := by
      clear ih
      induction xs with
      | nil => rfl
      | cons a xs ihx =>
        obtain ⟨least, sorted⟩ := List.pairwise_cons.mp sorted
        have rest := ihx sorted (fun b hb => bounded b (by simp [hb]))
        by_cases below : group a < n
        · rw [List.filter_cons_of_pos (by simpa), List.filter_cons_of_neg (by simp; omega),
            List.cons_append, ← rest]
        · have here : group a = n := by
            have := bounded a (by simp)
            omega
          have none_below : xs.filter (fun b => decide (group b < n)) = [] := by
            simp only [List.filter_eq_nil_iff, decide_eq_true_eq]
            intro b hb
            have := least b hb
            omega
          rw [none_below, List.nil_append] at rest
          rw [List.filter_cons_of_neg (by simpa using below),
            List.filter_cons_of_pos (by simpa using here), none_below,
            List.nil_append, ← rest]
    have earlier := ih (sorted.filter (fun a => group a < n)) (by simp)
    have same : groups n group (xs.filter (fun a => group a < n)) = groups n group xs := by
      refine List.map_congr_left ?_
      intro k hk
      rw [List.filter_filter]
      refine List.filter_congr ?_
      intro a _
      have := List.mem_range.mp hk
      rw [← Bool.decide_and]
      exact decide_eq_decide.mpr (by omega)
    rw [same] at earlier
    conv_rhs => rw [split, ← earlier]
    simp [groups, List.range_succ]

/-- Counting into shifted slots and adding up in place. -/
def countOffsets (n : Nat) (group : α → Nat) (xs : List α) : Outcome ε (List Nat) := do
  let counts ← xs.foldlM (fun offsets a => update offsets (group a + 1) (· + 1))
    (List.replicate (n + 1) 0)
  (List.range n).foldlM (fun offsets i => do
    let previous ← index offsets i
    update offsets (i + 1) (· + previous)) counts

private theorem counts_ok {n : Nat} {group : α → Nat} {xs : List α}
    (bounded : ∀ a ∈ xs, group a < n) :
    xs.foldlM (fun offsets a => update offsets (group a + 1) (· + 1)) (List.replicate (n + 1) 0) =
      (.ok ((List.range (n + 1)).map (fun k => xs.countP (fun a => group a + 1 = k))) :
        Outcome ε (List Nat)) := by
  refine ensures_eq.mp (Ensures.foldlM (motive := fun visited offsets => offsets =
    (List.range (n + 1)).map (fun k => visited.countP (fun a => group a + 1 = k))) ?_ ?_)
  · simp [List.map_const']
  · rintro before a after offsets rfl rfl
    have inside := bounded a (by simp)
    rw [update_ok (by simpa using inside), ensures_ok]
    refine List.ext_getElem (by simp) ?_
    intro k hk hk'
    simp only [List.getElem_modify, List.getElem_map, List.getElem_range, List.countP_append,
      List.countP_singleton, decide_eq_true_eq]
    split <;> rfl

private theorem sums_ok (n : Nat) (c : Nat → Nat) :
    (List.range n).foldlM (fun offsets i => do
      let previous ← index offsets i
      update offsets (i + 1) (· + previous)) ((List.range (n + 1)).map c) =
      (.ok ((List.range (n + 1)).map (fun k => ((List.range (k + 1)).map c).sum)) :
        Outcome ε (List Nat)) := by
  have loop : Ensures (fun offsets => offsets = (List.range (n + 1)).map (fun k =>
      if k ≤ n then ((List.range (k + 1)).map c).sum else c k)) (fun _ => False)
      ((List.range n).foldlM (fun offsets i => do
        let previous ← index offsets i
        update offsets (i + 1) (· + previous)) ((List.range (n + 1)).map c) :
          Outcome ε (List Nat)) := by
    have visited := Ensures.foldlM (ε := ε) (E := fun _ => False) (l := List.range n)
      (f := fun offsets i => do
        let previous ← index offsets i
        update offsets (i + 1) (· + previous))
      (s := (List.range (n + 1)).map c)
      (motive := fun visited offsets => offsets = (List.range (n + 1)).map (fun k =>
        if k ≤ visited.length then ((List.range (k + 1)).map c).sum else c k)) ?_ ?_
    · simpa only [List.length_range] using visited
    · refine List.map_congr_left ?_
      intro k _
      split
      · rename_i first
        obtain rfl : k = 0 := Nat.le_zero.mp first
        simp
      · rfl
    · rintro before i after offsets split rfl
      have size := congrArg List.length split
      simp only [List.length_range, List.length_append, List.length_cons] at size
      have here : i = before.length := by
        have := congrArg (·[before.length]?) split
        simp only [List.getElem?_append_right (le_refl _), Nat.sub_self,
          List.getElem?_cons_zero] at this
        rw [List.getElem?_range (by omega)] at this
        exact (Option.some.inj this).symm
      subst here
      rw [index_ok (by simp; omega), bind_ok, update_ok (by simp; omega), ensures_ok]
      refine List.ext_getElem (by simp) ?_
      intro k hk hk'
      simp only [List.getElem_modify, List.getElem_map, List.getElem_range,
        List.length_append, List.length_singleton]
      by_cases next : before.length + 1 = k
      · subst next
        rw [if_pos rfl, if_neg (by omega), if_pos (le_refl _), if_pos (le_refl _),
          List.range_succ (n := before.length + 1)]
        simp [Nat.add_comm]
      · rw [if_neg next]
        split <;> split <;> first | rfl | omega
  rw [ensures_eq] at loop
  rw [loop]
  congr 1
  refine List.map_congr_left ?_
  intro k hk
  rw [if_pos (by simpa [Nat.lt_succ_iff] using hk)]

theorem offsetsFrom_eq_map (start : Nat) (lists : List (List α)) :
    Offsets.offsetsFrom start lists = (List.range (lists.length + 1)).map
      (fun k => start + ((lists.take k).map List.length).sum) := by
  induction lists generalizing start with
  | nil => simp [Offsets.offsetsFrom]
  | cons xs rest ih =>
    rw [Offsets.offsetsFrom, ih, List.length_cons, List.range_succ_eq_map (n := rest.length + 1)]
    simp [Function.comp_def, Nat.add_assoc]

/-- The loop computes the offsets of the groups, whatever the order of the list. -/
theorem countOffsets_ok {n : Nat} {group : α → Nat} {xs : List α}
    (bounded : ∀ a ∈ xs, group a < n) :
    countOffsets n group xs =
      (.ok (Offsets.offsetsFrom 0 (groups n group xs)) : Outcome ε (List Nat)) := by
  rw [countOffsets, counts_ok bounded, bind_ok, sums_ok, offsetsFrom_eq_map]
  congr 1
  rw [length_groups]
  refine List.map_congr_left ?_
  intro k hk
  have inside : k ≤ n := by simpa [Nat.lt_succ_iff] using hk
  rw [List.range_succ_eq_map]
  have empty : xs.countP (fun a => decide (group a + 1 = 0)) = 0 := by simp
  rw [List.map_cons, List.sum_cons, empty]
  simp only [List.map_map, groups, ← List.map_take,
    List.take_range, Nat.min_eq_left inside, Function.comp_def, Nat.succ_eq_add_one,
    Nat.add_right_cancel_iff, List.countP_eq_length_filter]

end Sorting
