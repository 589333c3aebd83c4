import Mathlib.Algebra.Order.Ring.Int
import Mathlib.Data.List.Basic
import Mathlib.Data.List.Flatten
import Mathlib.Data.List.Chain
import Mathlib.Tactic.Common

/-! A flat list cut into pieces by an array of offsets. The offsets start at zero, end at
the length of the list and never decrease, so the pieces are a partition of it. -/
namespace Offsets

/-- The adjacent pairs of a list. -/
def windows (xs : List α) : List (α × α) := xs.zip xs.tail

@[simp] theorem windows_nil : windows ([] : List α) = [] := rfl

@[simp] theorem windows_singleton (a : α) : windows [a] = [] := rfl

@[simp] theorem windows_cons_cons (a b : α) (xs : List α) :
    windows (a :: b :: xs) = (a, b) :: windows (b :: xs) := rfl

@[simp] theorem length_windows (xs : List α) : (windows xs).length = xs.length - 1 := by
  simp [windows]

theorem getElem?_windows (xs : List α) (i : Nat) :
    (windows xs)[i]? = match xs[i]?, xs[i + 1]? with
      | some a, some b => some (a, b)
      | _, _ => none := by
  induction xs generalizing i with
  | nil => rfl
  | cons a xs ih =>
    cases xs with
    | nil => cases i <;> rfl
    | cons b xs =>
      cases i with
      | zero => rfl
      | succ i => simpa using ih i

theorem isChain_iff_windows {R : α → α → Prop} {xs : List α} :
    xs.IsChain R ↔ ∀ pair ∈ windows xs, R pair.1 pair.2 := by
  induction xs with
  | nil => simp
  | cons a xs ih =>
    cases xs with
    | nil => simp
    | cons b xs => simp [ih]

structure WellFormed (offsets : List Nat) (length : Nat) : Prop where
  first : offsets.head? = some 0
  last : offsets.getLast? = some length
  ordered : offsets.IsChain (· ≤ ·)

/-- The piece of the list between two offsets. -/
def piece (xs : List α) (bounds : Nat × Nat) : List α :=
  (xs.drop bounds.1).take (bounds.2 - bounds.1)

def pieces (offsets : List Nat) (xs : List α) : List (List α) :=
  (windows offsets).map (piece xs)

@[simp] theorem length_pieces (offsets : List Nat) (xs : List α) :
    (pieces offsets xs).length = offsets.length - 1 := by
  simp [pieces]

theorem getElem?_pieces (offsets : List Nat) (xs : List α) (i : Nat) :
    (pieces offsets xs)[i]? = match offsets[i]?, offsets[i + 1]? with
      | some a, some b => some (piece xs (a, b))
      | _, _ => none := by
  simp only [pieces, List.getElem?_map, getElem?_windows]
  cases offsets[i]? <;> cases offsets[i + 1]? <;> rfl

namespace WellFormed
variable {offsets : List Nat} {length : Nat}

theorem nonempty (wf : WellFormed offsets length) : offsets ≠ [] := by
  rintro rfl
  simpa using wf.first

theorem sorted (wf : WellFormed offsets length) : offsets.Pairwise (· ≤ ·) :=
  wf.ordered.pairwise

theorem le_length (wf : WellFormed offsets length) {a : Nat} (mem : a ∈ offsets) : a ≤ length := by
  obtain ⟨init, same⟩ := List.getLast?_eq_some_iff.mp wf.last
  have sorted := wf.sorted
  rw [same, List.pairwise_append] at sorted
  rw [same, List.mem_append, List.mem_singleton] at mem
  rcases mem with mem | rfl
  · exact sorted.2.2 a mem length (by simp)
  · exact le_refl _

theorem window (wf : WellFormed offsets length) {bounds : Nat × Nat}
    (mem : bounds ∈ windows offsets) : bounds.1 ≤ bounds.2 ∧ bounds.2 ≤ length := by
  refine ⟨isChain_iff_windows.mp wf.ordered bounds mem, wf.le_length ?_⟩
  exact List.mem_of_mem_tail (List.of_mem_zip (a := bounds.1) (b := bounds.2) mem).2

theorem bounds (wf : WellFormed offsets length) {i a b : Nat} (left : offsets[i]? = some a)
    (right : offsets[i + 1]? = some b) : a ≤ b ∧ b ≤ length := by
  have mem : (a, b) ∈ windows offsets := by
    refine List.mem_of_getElem? (i := i) ?_
    rw [getElem?_windows, left, right]
  exact wf.window mem

private theorem flatten_from (xs : List α) (a : Nat) (rest : List Nat)
    (ordered : (a :: rest).IsChain (· ≤ ·)) :
    (pieces (a :: rest) xs).flatten = piece xs (a, (a :: rest).getLast (by simp)) := by
  induction rest generalizing a with
  | nil => simp [pieces, piece]
  | cons b rest ih =>
    rw [List.isChain_cons_cons] at ordered
    have upper : b ≤ (b :: rest).getLast (by simp) := by
      have pairwise := ordered.2.pairwise
      rcases List.mem_cons.mp (List.getLast_mem (l := b :: rest) (by simp)) with h | h
      · exact h.ge
      · exact List.rel_of_pairwise_cons pairwise h
    rw [List.getLast_cons (by simp)]
    simp only [pieces, windows_cons_cons, List.map_cons, List.flatten_cons] at ih ⊢
    rw [ih b ordered.2]
    simp only [piece]
    generalize (b :: rest).getLast (by simp) = c at upper
    obtain ⟨n, rfl⟩ := Nat.exists_eq_add_of_le ordered.1
    obtain ⟨m, rfl⟩ := Nat.exists_eq_add_of_le upper
    rw [← List.drop_drop, show a + n + m - a = n + m by omega,
      show a + n - a = n by omega, show a + n + m - (a + n) = m by omega, List.take_add]

/-- The pieces are a partition of the list. -/
theorem flatten {xs : List α} (wf : WellFormed offsets xs.length) :
    (pieces offsets xs).flatten = xs := by
  match offsets, wf with
  | a :: rest, wf =>
    rw [flatten_from xs a rest wf.ordered]
    have first : a = 0 := by simpa using wf.first
    have last : (a :: rest).getLast (by simp) = xs.length := by
      simpa [List.getLast?_eq_some_getLast] using wf.last
    subst first
    simp [piece, last]
  | [], wf => exact absurd rfl wf.nonempty

end WellFormed

/-- The offsets of consecutive lists, starting at `from`. -/
def offsetsFrom (start : Nat) : List (List α) → List Nat
  | [] => [start]
  | xs :: rest => start :: offsetsFrom (start + xs.length) rest

theorem offsetsFrom_head (start : Nat) (lists : List (List α)) :
    (offsetsFrom start lists).head? = some start := by
  cases lists <;> rfl

theorem offsetsFrom_ne_nil (start : Nat) (lists : List (List α)) :
    offsetsFrom start lists ≠ [] := by
  cases lists <;> simp [offsetsFrom]

@[simp] theorem length_offsetsFrom (start : Nat) (lists : List (List α)) :
    (offsetsFrom start lists).length = lists.length + 1 := by
  induction lists generalizing start with
  | nil => rfl
  | cons xs rest ih => simp [offsetsFrom, ih]

theorem offsetsFrom_getLast (start : Nat) (lists : List (List α)) :
    (offsetsFrom start lists).getLast? = some (start + lists.flatten.length) := by
  induction lists generalizing start with
  | nil => simp [offsetsFrom]
  | cons xs rest ih =>
    rw [offsetsFrom, List.getLast?_cons, ih]
    simp [Nat.add_assoc]

theorem offsetsFrom_map (f : α → β) (start : Nat) (lists : List (List α)) :
    offsetsFrom start (lists.map (List.map f)) = offsetsFrom start lists := by
  induction lists generalizing start with
  | nil => rfl
  | cons xs rest ih => simp [offsetsFrom, ih]

theorem offsetsFrom_concat (start : Nat) (lists : List (List α)) (xs : List α) :
    offsetsFrom start (lists ++ [xs]) =
      offsetsFrom start lists ++ [start + (lists.flatten.length + xs.length)] := by
  induction lists generalizing start with
  | nil => simp [offsetsFrom]
  | cons ys rest ih => simp [offsetsFrom, ih, Nat.add_assoc]

theorem offsetsFrom_ordered (start : Nat) (lists : List (List α)) :
    (offsetsFrom start lists).IsChain (· ≤ ·) := by
  induction lists generalizing start with
  | nil => simp [offsetsFrom]
  | cons xs rest ih =>
    rw [offsetsFrom, List.isChain_cons]
    refine ⟨?_, ih _⟩
    intro b hb
    rw [offsetsFrom_head] at hb
    obtain rfl := Option.some.inj hb
    omega

theorem wellFormed_offsetsFrom (lists : List (List α)) :
    WellFormed (offsetsFrom 0 lists) lists.flatten.length :=
  ⟨offsetsFrom_head 0 lists, by simp [offsetsFrom_getLast], offsetsFrom_ordered 0 lists⟩

private theorem pieces_offsetsFrom_drop (before : List α) (lists : List (List α)) :
    pieces (offsetsFrom before.length lists) (before ++ lists.flatten) = lists := by
  induction lists generalizing before with
  | nil => simp [offsetsFrom, pieces]
  | cons xs rest ih =>
    have next := ih (before ++ xs)
    rw [List.length_append] at next
    obtain ⟨b, tail, split⟩ := List.exists_cons_of_ne_nil
      (offsetsFrom_ne_nil (before.length + xs.length) rest)
    have head := offsetsFrom_head (before.length + xs.length) rest
    rw [split, List.head?_cons, Option.some.injEq] at head
    rw [offsetsFrom, split, List.flatten_cons, ← List.append_assoc]
    rw [split] at next
    simp only [pieces, windows_cons_cons, List.map_cons] at next ⊢
    rw [next, head]
    simp [piece]

/-- Cutting a concatenation at its own offsets returns the lists. -/
theorem pieces_offsetsFrom (lists : List (List α)) :
    pieces (offsetsFrom 0 lists) lists.flatten = lists := by
  simpa using pieces_offsetsFrom_drop [] lists

end Offsets
