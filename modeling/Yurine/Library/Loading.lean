import Yurine.Library.Outcome
import Mathlib.Data.List.Forall2
import Mathlib.Data.List.Perm.Basic

/-! Loops over the numbered lines of a file. A line is read as a record, whatever has been read
before, and the state takes the record or refuses it. A loop that returns has read all lines, and
a loop that fails has a first line at which it does. -/
namespace Loading
open Outcome

variable {ε σ α ρ κ : Type}

def TakesAll (Takes : σ → ρ → Prop) (take : σ → ρ → σ) : σ → List ρ → Prop
  | _, [] => True
  | s, r :: rs => Takes s r ∧ TakesAll Takes take (take s r) rs

/-- What one step does when it returns. -/
def Loads (step : σ → α × Nat → Outcome ε σ) (Reads : α → ρ → Prop) (Takes : σ → ρ → Prop)
    (take : σ → ρ → σ) : Prop :=
  ∀ s entry next, step s entry = .ok next ↔ ∃ r, Reads entry.1 r ∧ Takes s r ∧ next = take s r

section Runs
variable {step : σ → α × Nat → Outcome ε σ} {Reads : α → ρ → Prop} {Takes : σ → ρ → Prop}
  {take : σ → ρ → σ} {s t : σ} {xs before after : List α} {n : Nat}

/-- A loop returns when it reads every line as a record and takes all of them. -/
theorem Loads.foldlM_ok (loads : Loads step Reads Takes take) :
    (xs.zipIdx n).foldlM step s = .ok t ↔
      ∃ rs, List.Forall₂ Reads xs rs ∧ TakesAll Takes take s rs ∧ t = rs.foldl take s := by
  induction xs generalizing s n with
  | nil =>
    constructor
    · rintro ⟨⟩
      exact ⟨[], .nil, trivial, rfl⟩
    · rintro ⟨_, ⟨⟩, _, rfl⟩
      rfl
  | cons x xs ih =>
    rw [List.zipIdx_cons, List.foldlM_cons, bind_eq_ok]
    constructor
    · rintro ⟨next, first, rest⟩
      obtain ⟨r, read, taken, rfl⟩ := (loads _ _ _).mp first
      obtain ⟨rs, reads, all, rfl⟩ := ih.mp rest
      exact ⟨r :: rs, .cons read reads, ⟨taken, all⟩, rfl⟩
    · rintro ⟨_, _ | ⟨read, reads⟩, all, rfl⟩
      exact ⟨_, (loads _ _ _).mpr ⟨_, read, all.1, rfl⟩, ih.mpr ⟨_, reads, all.2, rfl⟩⟩

theorem exists_first {failure : Failure ε} (failed : (xs.zipIdx n).foldlM step s = .error failure) :
    ∃ before x after t, xs = before ++ x :: after ∧ (before.zipIdx n).foldlM step s = .ok t ∧
      step t (x, n + before.length) = .error failure := by
  induction xs generalizing s n with
  | nil => cases failed
  | cons x xs ih =>
    rw [List.zipIdx_cons, List.foldlM_cons] at failed
    cases first : step s (x, n) with
    | error reason =>
      rw [first] at failed
      cases failed
      exact ⟨[], x, xs, s, rfl, rfl, first⟩
    | ok next =>
      rw [first] at failed
      obtain ⟨before, y, after, t, rfl, ran, stopped⟩ := ih failed
      refine ⟨x :: before, y, after, t, rfl, ?_, ?_⟩
      · rw [List.zipIdx_cons, List.foldlM_cons, first]
        exact ran
      · rw [List.length_cons, ← stopped]
        congr 2
        omega

theorem foldlM_stops {x : α} {failure : Failure ε}
    (ran : (before.zipIdx n).foldlM step s = .ok t)
    (stopped : step t (x, n + before.length) = .error failure) :
    ((before ++ x :: after).zipIdx n).foldlM step s = .error failure := by
  rw [List.zipIdx_append, List.foldlM_append, ran, bind_ok, List.zipIdx_cons, List.foldlM_cons,
    stopped]
  rfl

end Runs

section Errors
variable {β : Type} {E : ε → Prop} {x : Outcome ε α} {y : Outcome ε β}

/-- Every error of the computation is one of these; it may also panic. -/
def Raises (E : ε → Prop) (x : Outcome ε α) : Prop :=
  ∀ reason, x = .error (.error reason) → E reason

theorem raises_ok (a : α) : Raises E (.ok a : Outcome ε α) := by
  rintro reason ⟨⟩

theorem Raises.bind {f : α → Outcome ε β} (first : Raises E x) (rest : ∀ a, Raises E (f a)) :
    Raises E (x >>= f) := by
  intro reason failed
  cases ran : x with
  | ok a =>
    rw [ran] at failed
    exact rest a reason failed
  | error failure =>
    rw [ran] at failed
    cases failed
    exact first reason ran

theorem Raises.unless {p : Prop} [Decidable p] (check : Raises E x) (rest : Raises E y) :
    Raises E (if p then x >>= fun _ => y else y) := by
  split
  · exact check.bind fun _ => rest
  · exact rest

/-- A loop whose errors are about the line in hand fails with one about the first line that it
does not get behind, whatever follows it. -/
theorem exists_fault {step : σ → α × Nat → Outcome ε σ} {E : Nat → ε → Prop} {xs : List α} {s : σ}
    {reason : ε} (raises : ∀ state entry, Raises (E (entry.2 + 1)) (step state entry))
    (failed : xs.zipIdx.foldlM step s = .error (.error reason)) :
    ∃ before x after, xs = before ++ x :: after ∧ E (before.length + 1) reason ∧
      (∃ t, before.zipIdx.foldlM step s = .ok t) ∧
      ∀ rest, (before ++ x :: rest).zipIdx.foldlM step s = .error (.error reason) := by
  obtain ⟨before, x, after, t, same, ran, stopped⟩ := exists_first failed
  refine ⟨before, x, after, same, ?_, ⟨t, ran⟩, fun rest => foldlM_stops ran stopped⟩
  rw [Nat.zero_add] at stopped
  exact raises t (x, before.length) reason stopped

end Errors

section Keys
variable {Takes : σ → ρ → Prop} {take : σ → ρ → σ} {key : ρ → κ} {seen : σ → κ → Prop}

theorem takesAll_iff_nodup (fresh : ∀ s r, Takes s r ↔ ¬ seen s (key r))
    (adds : ∀ s r k, seen (take s r) k ↔ k = key r ∨ seen s k) (s : σ) (rs : List ρ) :
    TakesAll Takes take s rs ↔ (rs.map key).Nodup ∧ ∀ r ∈ rs, ¬ seen s (key r) := by
  induction rs generalizing s with
  | nil => simp [TakesAll]
  | cons r rs ih =>
    rw [TakesAll, fresh, ih, List.map_cons, List.nodup_cons, List.forall_mem_cons]
    simp only [adds, not_or, List.mem_map, not_exists, not_and]
    constructor
    · rintro ⟨new, distinct, others⟩
      exact ⟨⟨fun other mem => (others other mem).1, distinct⟩, new,
        fun other mem => (others other mem).2⟩
    · rintro ⟨⟨different, distinct⟩, new, others⟩
      exact ⟨new, distinct, fun other mem => ⟨different other mem, others other mem⟩⟩

end Keys

section Lookup
variable [DecidableEq κ] {α : Type} {entries others : List (κ × α)} {k : κ} {a : α}

theorem lookup_eq_some_iff (distinct : (entries.map Prod.fst).Nodup) :
    entries.lookup k = some a ↔ (k, a) ∈ entries := by
  induction entries with
  | nil => simp
  | cons entry entries ih =>
    obtain ⟨first, value⟩ := entry
    rw [List.map_cons, List.nodup_cons] at distinct
    rw [List.lookup_cons, List.mem_cons, Prod.mk.injEq]
    by_cases same : k = first
    · subst same
      have absent : (k, a) ∉ entries := fun mem => distinct.1 (List.mem_map.mpr ⟨_, mem, rfl⟩)
      simp [absent, eq_comm]
    · rw [beq_eq_false_iff_ne.mpr same, ih distinct.2]
      simp [same]

/-- The order of entries with distinct keys does not matter. -/
theorem lookup_perm (distinct : (entries.map Prod.fst).Nodup) (perm : entries.Perm others) :
    entries.lookup k = others.lookup k := by
  apply Option.ext
  intro a
  rw [lookup_eq_some_iff distinct,
    lookup_eq_some_iff ((perm.map Prod.fst).nodup_iff.mp distinct), perm.mem_iff]

end Lookup

theorem forall₂_perm {Reads : α → ρ → Prop} {xs ys : List α} {rs : List ρ} (perm : xs.Perm ys)
    (reads : List.Forall₂ Reads xs rs) : ∃ others, rs.Perm others ∧ List.Forall₂ Reads ys others :=
  (List.perm_comp_forall₂ perm.symm reads).imp fun _ both => ⟨both.2.symm, both.1⟩

end Loading
