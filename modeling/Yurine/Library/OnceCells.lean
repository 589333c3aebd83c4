import Mathlib.Algebra.Order.BigOperators.Group.Finset
import Mathlib.Data.Fintype.Defs
import Mathlib.Tactic.Common

/-! Cells that are written once and shared by threads. A thread that finds a cell empty computes
its value, and while it does so the others wait for it. Threads that agree on the value of every
cell do not notice one another, whatever the order of their steps. -/
namespace OnceCells

inductive Cell (ι β : Type) where
  | empty
  /-- This thread computes the value. -/
  | running (thread : ι)
  | full (value : β)
deriving DecidableEq

/-- What a thread does with the cells until it returns. -/
inductive Task (κ β α : Type) where
  | done (result : α)
  /-- Reads a cell, which gets the value that the thread computes if it is empty. -/
  | getOrInit (cell : κ) (value : β) (next : β → Task κ β α)
  /-- Writes a cell unless it is full. -/
  | set (cell : κ) (value : β) (next : Task κ β α)

structure System (ι κ β α : Type) where
  cells : κ → Cell ι β
  tasks : ι → Task κ β α

variable {ι κ β α : Type} [DecidableEq ι] [DecidableEq κ]

namespace System

def setCell (s : System ι κ β α) (cell : κ) (content : Cell ι β) : System ι κ β α :=
  { s with cells := Function.update s.cells cell content }

def goOn (s : System ι κ β α) (t : ι) (next : Task κ β α) : System ι κ β α :=
  { s with tasks := Function.update s.tasks t next }

variable (s : System ι κ β α) (cell other : κ) (content : Cell ι β) (t thread : ι)
  (next : Task κ β α)

omit [DecidableEq ι] in
@[simp] theorem tasks_setCell : (s.setCell cell content).tasks = s.tasks := rfl

omit [DecidableEq κ] in
@[simp] theorem cells_goOn : (s.goOn t next).cells = s.cells := rfl

omit [DecidableEq ι] in
theorem cells_setCell :
    (s.setCell cell content).cells other = if other = cell then content else s.cells other :=
  Function.update_apply _ _ _ _

omit [DecidableEq κ] in
theorem tasks_goOn : (s.goOn t next).tasks thread = if thread = t then next else s.tasks thread :=
  Function.update_apply _ _ _ _

end System

/-- One step of a thread; if it has returned or waits for another one, none. -/
def step (s : System ι κ β α) (t : ι) : Option (System ι κ β α) :=
  match s.tasks t with
  | .done _ => none
  | .getOrInit cell value next =>
    match s.cells cell with
    | .empty => some (s.setCell cell (.running t))
    | .running thread =>
      if thread = t then some ((s.setCell cell (.full value)).goOn t (next value)) else none
    | .full found => some (s.goOn t (next found))
  | .set cell value next =>
    match s.cells cell with
    | .empty => some ((s.setCell cell (.full value)).goOn t next)
    | .running _ => none
    | .full _ => some (s.goOn t next)

/-- The turn of a thread, which is idle if the thread cannot go on. -/
def turn (s : System ι κ β α) (t : ι) : System ι κ β α := (step s t).getD s

/-- The threads take turns in this order. -/
def run (s : System ι κ β α) (schedule : List ι) : System ι κ β α := schedule.foldl turn s

/-- What a step can do. -/
inductive Step (s : System ι κ β α) (t : ι) : System ι κ β α → Prop
  | start {cell : κ} {value : β} {next : β → Task κ β α}
      (reads : s.tasks t = .getOrInit cell value next) (empty : s.cells cell = .empty) :
      Step s t (s.setCell cell (.running t))
  | finish {cell : κ} {value : β} {next : β → Task κ β α}
      (reads : s.tasks t = .getOrInit cell value next) (running : s.cells cell = .running t) :
      Step s t ((s.setCell cell (.full value)).goOn t (next value))
  | find {cell : κ} {value found : β} {next : β → Task κ β α}
      (reads : s.tasks t = .getOrInit cell value next) (full : s.cells cell = .full found) :
      Step s t (s.goOn t (next found))
  | write {cell : κ} {value : β} {next : Task κ β α} (writes : s.tasks t = .set cell value next)
      (empty : s.cells cell = .empty) :
      Step s t ((s.setCell cell (.full value)).goOn t next)
  | keep {cell : κ} {value found : β} {next : Task κ β α}
      (writes : s.tasks t = .set cell value next) (full : s.cells cell = .full found) :
      Step s t (s.goOn t next)

variable {s s' : System ι κ β α} {t : ι}

theorem step_cases (stepped : step s t = some s') : Step s t s' := by
  unfold step at stepped
  cases task : s.tasks t with
  | done result =>
    simp only [task] at stepped
    cases stepped
  | getOrInit cell value next =>
    simp only [task] at stepped
    cases content : s.cells cell with
    | empty =>
      simp only [content] at stepped
      cases stepped
      exact .start task content
    | running thread =>
      simp only [content] at stepped
      split at stepped
      · rename_i same
        cases stepped
        exact .finish task (same ▸ content)
      · cases stepped
    | full found =>
      simp only [content] at stepped
      cases stepped
      exact .find task content
  | set cell value next =>
    simp only [task] at stepped
    cases content : s.cells cell with
    | empty =>
      simp only [content] at stepped
      cases stepped
      exact .write task content
    | running thread =>
      simp only [content] at stepped
      cases stepped
    | full found =>
      simp only [content] at stepped
      cases stepped
      exact .keep task content

namespace Task

/-- The thread computes these values for the cells that it uses. -/
def Agrees (values : κ → β) : Task κ β α → Prop
  | done _ => True
  | getOrInit cell value next => value = values cell ∧ (next (values cell)).Agrees values
  | set cell value next => value = values cell ∧ next.Agrees values

def result (values : κ → β) : Task κ β α → α
  | done result => result
  | getOrInit cell _ next => (next (values cell)).result values
  | set _ _ next => next.result values

def uses (values : κ → β) : Task κ β α → Nat
  | done _ => 0
  | getOrInit cell _ next => (next (values cell)).uses values + 1
  | set _ _ next => next.uses values + 1

def returned : Task κ β α → Option α
  | done result => some result
  | _ => none

end Task

/-- The full cells have their values, a cell is computed by a thread that reads it, and the
threads will return these results. -/
structure Consistent (values : κ → β) (results : ι → α) (s : System ι κ β α) : Prop where
  full : ∀ cell found, s.cells cell = .full found → found = values cell
  running : ∀ cell t, s.cells cell = .running t →
    ∃ value next, s.tasks t = .getOrInit cell value next
  agrees : ∀ t, (s.tasks t).Agrees values
  result : ∀ t, (s.tasks t).result values = results t

section Safety
variable {values : κ → β} {results : ι → α} {cell : κ} {value : β} {next : Task κ β α}

namespace Consistent

omit [DecidableEq ι] in
theorem fill (consistent : Consistent values results s) (same : value = values cell) :
    Consistent values results (s.setCell cell (.full value)) := by
  refine ⟨fun other found full => ?_, fun other thread running => ?_, consistent.agrees,
    consistent.result⟩
  · rw [s.cells_setCell] at full
    split at full
    · rename_i here
      cases full
      rw [same, here]
    · exact consistent.full other found full
  · rw [s.cells_setCell] at running
    split at running
    · cases running
    · exact consistent.running other thread running

omit [DecidableEq ι] in
theorem claim (consistent : Consistent values results s) {rest : β → Task κ β α}
    (reads : s.tasks t = .getOrInit cell value rest) :
    Consistent values results (s.setCell cell (.running t)) := by
  refine ⟨fun other found full => ?_, fun other thread running => ?_, consistent.agrees,
    consistent.result⟩
  · rw [s.cells_setCell] at full
    split at full
    · cases full
    · exact consistent.full other found full
  · rw [s.cells_setCell] at running
    split at running
    · rename_i here
      cases running
      exact ⟨value, rest, here ▸ reads⟩
    · exact consistent.running other thread running

omit [DecidableEq κ] in
theorem goOn (consistent : Consistent values results s)
    (idle : ∀ cell, s.cells cell ≠ .running t) (agrees : next.Agrees values)
    (result : next.result values = results t) : Consistent values results (s.goOn t next) := by
  refine ⟨consistent.full, fun other thread running => ?_, fun thread => ?_, fun thread => ?_⟩
  · have different : thread ≠ t := by
      rintro rfl
      exact idle other running
    rw [s.tasks_goOn, if_neg different]
    exact consistent.running other thread running
  · rw [s.tasks_goOn]
    split
    · exact agrees
    · exact consistent.agrees thread
  · rw [s.tasks_goOn]
    split
    · rename_i same
      rw [same, result]
    · exact consistent.result thread

omit [DecidableEq ι] [DecidableEq κ] in
theorem idle_of_set (consistent : Consistent values results s)
    (writes : s.tasks t = .set cell value next) (other : κ) : s.cells other ≠ .running t := by
  intro running
  obtain ⟨_, _, reads⟩ := consistent.running other t running
  rw [writes] at reads
  cases reads

omit [DecidableEq ι] [DecidableEq κ] in
theorem running_eq (consistent : Consistent values results s) {rest : β → Task κ β α}
    (reads : s.tasks t = .getOrInit cell value rest) {other : κ}
    (running : s.cells other = .running t) : other = cell := by
  obtain ⟨_, _, here⟩ := consistent.running other t running
  rw [reads] at here
  cases here
  rfl

theorem step (consistent : Consistent values results s) (stepped : Step s t s') :
    Consistent values results s' := by
  have agrees := consistent.agrees t
  have result := consistent.result t
  cases stepped with
  | start reads empty => exact consistent.claim reads
  | @finish cell value rest reads running =>
    rw [reads] at agrees result
    obtain ⟨rfl, agrees⟩ := agrees
    apply (consistent.fill rfl).goOn _ agrees result
    intro other here
    rw [s.cells_setCell] at here
    split at here
    · cases here
    · rename_i different
      exact different (consistent.running_eq reads here)
  | @find cell value found rest reads full =>
    rw [reads] at agrees result
    obtain rfl := consistent.full cell found full
    apply consistent.goOn _ agrees.2 result
    intro other here
    obtain rfl := consistent.running_eq reads here
    rw [full] at here
    cases here
  | @write cell value rest writes empty =>
    rw [writes] at agrees result
    obtain ⟨rfl, agrees⟩ := agrees
    exact (consistent.fill rfl).goOn ((consistent.fill rfl).idle_of_set writes) agrees result
  | @keep cell value found rest writes full =>
    rw [writes] at agrees result
    exact consistent.goOn (consistent.idle_of_set writes) agrees.2 result

theorem turn (consistent : Consistent values results s) (t : ι) :
    Consistent values results (turn s t) := by
  unfold OnceCells.turn
  cases stepped : OnceCells.step s t with
  | none => exact consistent
  | some s' => exact consistent.step (step_cases stepped)

theorem run (consistent : Consistent values results s) (schedule : List ι) :
    Consistent values results (run s schedule) := by
  induction schedule generalizing s with
  | nil => exact consistent
  | cons t schedule ih => exact ih (consistent.turn t)

omit [DecidableEq ι] [DecidableEq κ] in
theorem returned (consistent : Consistent values results s) {a : α}
    (done : (s.tasks t).returned = some a) : a = results t := by
  have result := consistent.result t
  cases task : s.tasks t with
  | done b =>
    rw [task] at done result
    cases done
    exact result
  | getOrInit cell value next =>
    rw [task] at done
    cases done
  | set cell value next =>
    rw [task] at done
    cases done

end Consistent
end Safety
section Progress
variable {values : κ → β} {results : ι → α}

def Computes (s : System ι κ β α) (t : ι) : Prop := ∃ cell, s.cells cell = .running t

open Classical in
/-- The number of steps before the thread returns: two for a cell that it computes. -/
noncomputable def remaining (values : κ → β) (s : System ι κ β α) (t : ι) : Nat :=
  2 * (s.tasks t).uses values - if Computes s t then 1 else 0

omit [DecidableEq ι] in
theorem computes_setCell {cell : κ} {content : Cell ι β} {other : ι}
    (before : s.cells cell ≠ .running other) (after : content ≠ .running other) :
    Computes (s.setCell cell content) other ↔ Computes s other := by
  constructor
  · rintro ⟨here, running⟩
    rw [s.cells_setCell] at running
    split at running
    · exact absurd running after
    · exact ⟨here, running⟩
  · rintro ⟨here, running⟩
    refine ⟨here, ?_⟩
    rw [s.cells_setCell, if_neg]
    · exact running
    · rintro rfl
      exact before running

omit [DecidableEq ι] [DecidableEq κ] in
theorem remaining_congr (task : s'.tasks t = s.tasks t) (same : Computes s' t ↔ Computes s t) :
    remaining values s' t = remaining values s t := by
  by_cases computes : Computes s t
  · rw [remaining, remaining, task, if_pos computes, if_pos (same.mpr computes)]
  · rw [remaining, remaining, task, if_neg computes, if_neg (mt same.mp computes)]

omit [DecidableEq ι] in
theorem remaining_setCell {cell : κ} {content : Cell ι β} {other : ι}
    (before : s.cells cell ≠ .running other) (after : content ≠ .running other) :
    remaining values (s.setCell cell content) other = remaining values s other :=
  remaining_congr rfl (computes_setCell before after)

omit [DecidableEq ι] [DecidableEq κ] in
theorem remaining_le (s : System ι κ β α) (t : ι) :
    remaining values s t ≤ 2 * (s.tasks t).uses values := Nat.sub_le _ _

omit [DecidableEq ι] [DecidableEq κ] in
theorem remaining_of_idle (idle : ¬ Computes s t) :
    remaining values s t = 2 * (s.tasks t).uses values := by
  rw [remaining, if_neg idle, Nat.sub_zero]

omit [DecidableEq ι] [DecidableEq κ] in
theorem remaining_of_computes (computes : Computes s t) :
    remaining values s t = 2 * (s.tasks t).uses values - 1 := by
  rw [remaining, if_pos computes]

omit [DecidableEq ι] [DecidableEq κ] in
theorem le_remaining (s : System ι κ β α) (t : ι) :
    2 * (s.tasks t).uses values - 1 ≤ remaining values s t := by
  by_cases computes : Computes s t
  · exact (remaining_of_computes computes).ge
  · rw [remaining_of_idle computes]
    exact Nat.sub_le _ _

omit [DecidableEq κ] in
theorem remaining_goOn {next : Task κ β α} (uses : (s.tasks t).uses values = next.uses values + 1)
    (s' : System ι κ β α) : remaining values (s'.goOn t next) t < remaining values s t := by
  have after : remaining values (s'.goOn t next) t ≤ 2 * ((s'.goOn t next).tasks t).uses values :=
    remaining_le _ t
  have before : 2 * (s.tasks t).uses values - 1 ≤ remaining values s t := le_remaining s t
  rw [s'.tasks_goOn, if_pos rfl] at after
  omega

/-- A step of a thread brings it closer to its end and leaves the others where they are. -/
theorem Consistent.remaining_step (consistent : Consistent values results s)
    (stepped : Step s t s') : remaining values s' t < remaining values s t ∧
      ∀ other ≠ t, remaining values s' other = remaining values s other := by
  have moved {next : Task κ β α} {other : ι} (different : other ≠ t) (s' : System ι κ β α) :
      remaining values (s'.goOn t next) other = remaining values s' other :=
    remaining_congr (by rw [s'.tasks_goOn, if_neg different]) Iff.rfl
  cases stepped with
  | @start cell value rest reads empty =>
    have idle : ¬ Computes s t := by
      rintro ⟨other, running⟩
      obtain rfl := consistent.running_eq reads running
      rw [empty] at running
      cases running
    have computes : Computes (s.setCell cell (.running t)) t :=
      ⟨cell, by rw [s.cells_setCell, if_pos rfl]⟩
    refine ⟨?_, fun other different => remaining_setCell ?_ ?_⟩
    · rw [remaining_of_idle idle, remaining_of_computes computes, s.tasks_setCell, reads, Task.uses]
      omega
    · rw [empty]
      nofun
    · rintro ⟨⟩
      exact different rfl
  | @finish cell value rest reads running =>
    obtain ⟨rfl, _⟩ : value = values cell ∧ _ := reads ▸ consistent.agrees t
    refine ⟨remaining_goOn (by rw [reads, Task.uses]) _, fun other different => ?_⟩
    rw [moved different]
    apply remaining_setCell
    · rw [running]
      rintro ⟨⟩
      exact different rfl
    · nofun
  | @find cell value found rest reads full =>
    obtain rfl := consistent.full cell found full
    exact ⟨remaining_goOn (by rw [reads, Task.uses]) _, fun other different => moved different s⟩
  | @write cell value rest writes empty =>
    refine ⟨remaining_goOn (by rw [writes, Task.uses]) _, fun other different => ?_⟩
    rw [moved different]
    apply remaining_setCell
    · rw [empty]
      nofun
    · nofun
  | @keep cell value found rest writes full =>
    exact ⟨remaining_goOn (by rw [writes, Task.uses]) _, fun other different => moved different s⟩

/-- While a thread has not returned, some thread can go on. -/
theorem Consistent.progress (consistent : Consistent values results s)
    (waits : (s.tasks t).returned = none) : ∃ thread, (OnceCells.step s thread).isSome := by
  cases task : s.tasks t with
  | done a =>
    rw [task] at waits
    cases waits
  | getOrInit cell value next =>
    cases content : s.cells cell with
    | empty => exact ⟨t, by simp [OnceCells.step, task, content]⟩
    | full found => exact ⟨t, by simp [OnceCells.step, task, content]⟩
    | running thread =>
      obtain ⟨own, rest, reads⟩ := consistent.running cell thread content
      exact ⟨thread, by simp [OnceCells.step, reads, content]⟩
  | set cell value next =>
    cases content : s.cells cell with
    | empty => exact ⟨t, by simp [OnceCells.step, task, content]⟩
    | full found => exact ⟨t, by simp [OnceCells.step, task, content]⟩
    | running thread =>
      obtain ⟨own, rest, reads⟩ := consistent.running cell thread content
      exact ⟨thread, by simp [OnceCells.step, reads, content]⟩

variable [Fintype ι]

/-- The number of steps before all threads return. -/
noncomputable def work (values : κ → β) (s : System ι κ β α) : Nat := ∑ t, remaining values s t

theorem Consistent.work_step (consistent : Consistent values results s) (stepped : Step s t s') :
    work values s' < work values s := by
  obtain ⟨less, same⟩ := consistent.remaining_step stepped
  apply Finset.sum_lt_sum
  · intro other _
    by_cases here : other = t
    · rw [here]
      exact less.le
    · exact (same other here).le
  · exact ⟨t, Finset.mem_univ t, less⟩

/-- A round of turns either brings the threads closer to their end or changes nothing, and then
no thread in it can go on. -/
theorem Consistent.work_run (consistent : Consistent values results s) (round : List ι) :
    OnceCells.run s round = s ∧ (∀ t ∈ round, OnceCells.step s t = none) ∨
      work values (OnceCells.run s round) < work values s := by
  induction round generalizing s with
  | nil => exact .inl ⟨rfl, nofun⟩
  | cons t round ih =>
    cases stepped : OnceCells.step s t with
    | none =>
      have idle : OnceCells.turn s t = s := by
        rw [OnceCells.turn, stepped]
        rfl
      have first : OnceCells.run s (t :: round) = OnceCells.run s round := by
        rw [OnceCells.run, List.foldl_cons, idle]
        rfl
      rw [first]
      rcases ih consistent with ⟨same, blocked⟩ | less
      · refine .inl ⟨same, fun other mem => ?_⟩
        rcases List.mem_cons.mp mem with rfl | mem
        · exact stepped
        · exact blocked other mem
      · exact .inr less
    | some s' =>
      have moved : OnceCells.turn s t = s' := by
        rw [OnceCells.turn, stepped]
        rfl
      have first : OnceCells.run s (t :: round) = OnceCells.run s' round := by
        rw [OnceCells.run, List.foldl_cons, moved]
        rfl
      have step := step_cases stepped
      have less := consistent.work_step step
      rw [first]
      rcases ih (consistent.step step) with ⟨same, _⟩ | rest
      · exact .inr (same.symm ▸ less)
      · exact .inr (rest.trans less)

theorem Consistent.work_run_le (consistent : Consistent values results s) (schedule : List ι) :
    work values (OnceCells.run s schedule) ≤ work values s := by
  rcases consistent.work_run schedule with ⟨same, _⟩ | less
  · rw [same]
  · exact less.le

omit [DecidableEq ι] [DecidableEq κ] in
theorem work_le {n : Nat} (few : ∀ t, (s.tasks t).uses values ≤ n) :
    work values s ≤ Fintype.card ι * (2 * n) := by
  apply Finset.sum_le_card_nsmul
  intro t _
  exact (remaining_le s t).trans (Nat.mul_le_mul_left 2 (few t))

omit [Fintype ι] in
theorem run_blocked (blocked : ∀ t, step s t = none) (schedule : List ι) : run s schedule = s := by
  induction schedule with
  | nil => rfl
  | cons t schedule ih =>
    have idle : turn s t = s := by
      rw [turn, blocked]
      rfl
    rw [run, List.foldl_cons, idle]
    exact ih

omit [Fintype ι] in
/-- Threads are never blocked by each other: if none can go on, all have returned. -/
theorem Consistent.returned_of_blocked (consistent : Consistent values results s)
    (blocked : ∀ t, OnceCells.step s t = none) (t : ι) : (s.tasks t).returned ≠ none := by
  intro waits
  obtain ⟨thread, steps⟩ := consistent.progress waits
  rw [blocked] at steps
  cases steps

theorem Consistent.returned_run (consistent : Consistent values results s) {rounds : List (List ι)}
    (fair : ∀ round ∈ rounds, ∀ t, t ∈ round) (enough : work values s ≤ rounds.length) (t : ι) :
    ((OnceCells.run s rounds.flatten).tasks t).returned ≠ none := by
  induction rounds generalizing s with
  | nil =>
    apply consistent.returned_of_blocked
    intro thread
    cases stepped : OnceCells.step s thread with
    | none => rfl
    | some s' =>
      have less := consistent.work_step (step_cases stepped)
      exact absurd (less.trans_le enough) (Nat.not_lt_zero _)
  | cons round rounds ih =>
    have split : OnceCells.run s (round :: rounds).flatten =
        OnceCells.run (OnceCells.run s round) rounds.flatten := by
      rw [OnceCells.run, List.flatten_cons, List.foldl_append]
      rfl
    rw [split]
    rcases consistent.work_run round with ⟨same, blocked⟩ | less
    · have all (thread : ι) : OnceCells.step s thread = none :=
        blocked thread (fair round List.mem_cons_self thread)
      rw [same, run_blocked all]
      exact consistent.returned_of_blocked all t
    · apply ih (consistent.run round) fun other mem => fair other (List.mem_cons_of_mem round mem)
      rw [List.length_cons] at enough
      omega

/-- Threads that all get turns in as many rounds as there are steps have returned what they
return by themselves. -/
theorem Consistent.returns (consistent : Consistent values results s) {rounds : List (List ι)}
    (fair : ∀ round ∈ rounds, ∀ t, t ∈ round) (enough : work values s ≤ rounds.length) (t : ι) :
    ((OnceCells.run s rounds.flatten).tasks t).returned = some (results t) := by
  obtain ⟨a, done⟩ := Option.ne_none_iff_exists'.mp (consistent.returned_run fair enough t)
  rw [done, (consistent.run rounds.flatten).returned done]

end Progress
section Once

/-- The turn of the thread starts the computation of the cell. -/
def starts (cell : κ) (s : System ι κ β α) (t : ι) : Bool :=
  match s.tasks t with
  | .getOrInit own _ _ =>
    match s.cells own with
    | .empty => own = cell
    | _ => false
  | _ => false

/-- How often the computation of a cell is started. -/
def countStarts (cell : κ) (s : System ι κ β α) : List ι → Nat
  | [] => 0
  | t :: schedule => (starts cell s t).toNat + countStarts cell (turn s t) schedule

omit [DecidableEq ι] in
theorem starts_eq_true {cell : κ} (begins : starts cell s t = true) :
    (∃ value next, s.tasks t = .getOrInit cell value next) ∧ s.cells cell = .empty := by
  unfold starts at begins
  split at begins
  · rename_i own value next reads
    split at begins
    · rename_i empty
      obtain rfl := of_decide_eq_true begins
      exact ⟨⟨value, next, reads⟩, empty⟩
    · cases begins
  · cases begins

omit [DecidableEq ι] in
theorem used_setCell {cell own : κ} {content : Cell ι β} (full : content ≠ .empty)
    (used : s.cells cell ≠ .empty) : (s.setCell own content).cells cell ≠ .empty := by
  rw [s.cells_setCell]
  split
  · exact full
  · exact used

theorem used_turn {cell : κ} (used : s.cells cell ≠ .empty) (t : ι) :
    (turn s t).cells cell ≠ .empty := by
  unfold turn
  cases stepped : step s t with
  | none => exact used
  | some s' =>
    cases step_cases stepped with
    | start reads empty => exact used_setCell nofun used
    | finish reads running => exact used_setCell nofun used
    | find reads full => exact used
    | write writes empty => exact used_setCell nofun used
    | keep writes full => exact used

theorem used_of_starts {cell : κ} (begins : starts cell s t = true) :
    (turn s t).cells cell ≠ .empty := by
  obtain ⟨⟨value, next, reads⟩, empty⟩ := starts_eq_true begins
  have stepped : step s t = some (s.setCell cell (.running t)) := by
    simp only [step, reads, empty]
  rw [turn, stepped, Option.getD_some, s.cells_setCell, if_pos rfl]
  nofun

theorem countStarts_used {cell : κ} (used : s.cells cell ≠ .empty) (schedule : List ι) :
    countStarts cell s schedule = 0 := by
  induction schedule generalizing s with
  | nil => rfl
  | cons t schedule ih =>
    have never : starts cell s t = false := by
      by_contra begins
      exact used (starts_eq_true (Bool.not_eq_false _ ▸ begins)).2
    rw [countStarts, never, ih (used_turn used t)]
    rfl

/-- The value of a cell is computed at most once, whatever happens. -/
theorem countStarts_le (cell : κ) (s : System ι κ β α) (schedule : List ι) :
    countStarts cell s schedule ≤ 1 := by
  induction schedule generalizing s with
  | nil => exact Nat.zero_le 1
  | cons t schedule ih =>
    cases begins : starts cell s t with
    | false =>
      rw [countStarts, begins]
      exact (Nat.zero_add _).trans_le (ih (turn s t))
    | true => rw [countStarts, begins, countStarts_used (used_of_starts begins), Bool.toNat_true]

end Once
end OnceCells
