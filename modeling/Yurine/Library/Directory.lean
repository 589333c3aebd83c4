import Yurine.Library.Outcome
import Mathlib.Logic.Function.Basic

/-! Programs that change the files of one directory call by call. A run ends early when a call
fails or the process dies in it: it leaves the work of the calls before, and a part of the call
it ended in. -/
namespace Disk
open Outcome

/-- The files of a directory by their names. -/
abbrev Directory (N : Type) := N → Option (List UInt8)

inductive Call (N : Type) where
  /-- A call on the directory itself, which is there: its creation or its synchronization. -/
  | directory
  | create (name : N)
  | write (name : N) (bytes : List UInt8)
  | flush (name : N)
  | rename (source target : N)
  | remove (name : N)
deriving DecidableEq

variable {N ε α β : Type} [DecidableEq N]

namespace Call

def perform : Call N → Directory N → Directory N
  | .directory, files => files
  | .create name, files => Function.update files name (some [])
  | .write name bytes, files => Function.update files name ((files name).map (· ++ bytes))
  | .flush _, files => files
  | .rename source target, files =>
    Function.update (Function.update files target (files source)) source none
  | .remove name, files => Function.update files name none

/-- What a call in which the run ends has done: of a write, this many bytes. -/
def cut (part : Nat) : Call N → Directory N → Directory N
  | .write name bytes, files => (write name (bytes.take part)).perform files
  | _, files => files

def names : Call N → List N
  | .directory | .flush _ => []
  | .create name | .write name _ | .remove name => [name]
  | .rename source target => [source, target]

variable {call : Call N} {name : N}

theorem perform_other (outside : name ∉ call.names) (files : Directory N) :
    call.perform files name = files name := by
  cases call <;> simp_all [names, perform]

theorem cut_other (outside : name ∉ call.names) (part : Nat) (files : Directory N) :
    call.cut part files name = files name := by
  cases call with
  | write target bytes =>
    have other : name ∉ (write target (bytes.take part)).names := outside
    exact perform_other other files
  | _ => rfl

end Call

section Runs
variable {first rest calls : List (Call N)} {files : Directory N} {stop part : Nat} {name : N}

def performAll (calls : List (Call N)) (files : Directory N) : Directory N :=
  calls.foldl (fun files call => call.perform files) files

/-- The directory left by a run that ends in the call at this position, or that is complete. -/
def leave (calls : List (Call N)) (stop part : Nat) (files : Directory N) : Directory N :=
  match calls, stop with
  | [], _ => files
  | call :: _, 0 => call.cut part files
  | call :: calls, stop + 1 => leave calls stop part (call.perform files)

theorem performAll_append :
    performAll (first ++ rest) files = performAll rest (performAll first files) :=
  List.foldl_append

theorem leave_complete (complete : calls.length ≤ stop) :
    leave calls stop part files = performAll calls files := by
  induction calls generalizing stop files with
  | nil => rfl
  | cons call calls ih =>
    cases stop with
    | zero => cases complete
    | succ stop => exact ih (Nat.le_of_succ_le_succ complete)

theorem leave_append_left (early : stop < first.length) :
    leave (first ++ rest) stop part files = leave first stop part files := by
  induction first generalizing stop files with
  | nil => cases early
  | cons call first ih =>
    cases stop with
    | zero => rfl
    | succ stop => exact ih (Nat.lt_of_succ_lt_succ early)

theorem leave_append_right (late : first.length ≤ stop) :
    leave (first ++ rest) stop part files =
      leave rest (stop - first.length) part (performAll first files) := by
  induction first generalizing stop files with
  | nil => rfl
  | cons call first ih =>
    cases stop with
    | zero => cases late
    | succ stop =>
      rw [List.length_cons, Nat.add_sub_add_right]
      exact ih (Nat.le_of_succ_le_succ late)

/-- A run changes no file that none of its calls names. -/
theorem leave_other (outside : ∀ call ∈ calls, name ∉ call.names) :
    leave calls stop part files name = files name := by
  induction calls generalizing stop files with
  | nil => rfl
  | cons call calls ih =>
    have here := outside call (List.mem_cons_self ..)
    cases stop with
    | zero => exact Call.cut_other here part files
    | succ stop =>
      have later (moved : Directory N) : leave calls stop part moved name = moved name :=
        ih fun other mem => outside other (List.mem_cons_of_mem _ mem)
      exact (later (call.perform files)).trans (Call.perform_other here files)

theorem performAll_other (outside : ∀ call ∈ calls, name ∉ call.names) :
    performAll calls files name = files name := by
  have whole : leave calls calls.length 0 files = performAll calls files := leave_complete Nat.le.refl
  rw [← whole]
  exact leave_other outside

end Runs

/-- The calls that a program makes until it ends, and what it returns if none of them fails. -/
structure Script (N ε α : Type) where
  calls : List (Call N)
  result : Outcome ε α

namespace Script

omit [DecidableEq N]

instance : Monad (Script N ε) where
  pure a := ⟨[], .ok a⟩
  bind script next :=
    match script.result with
    | .ok a => ⟨script.calls ++ (next a).calls, (next a).result⟩
    | .error failure => ⟨script.calls, .error failure⟩

def call (call : Call N) : Script N ε PUnit := ⟨[call], .ok ⟨⟩⟩

def lift (result : Outcome ε α) : Script N ε α := ⟨[], result⟩

/-- What a run returns when the call at this position fails with an error. -/
def outcome (script : Script N ε α) (stop : Nat) (error : ε) : Outcome ε α :=
  if stop < script.calls.length then fail error else script.result

theorem bind_mk_ok (calls : List (Call N)) (a : α) (next : α → Script N ε β) :
    (⟨calls, .ok a⟩ >>= next : Script N ε β) = ⟨calls ++ (next a).calls, (next a).result⟩ := rfl

end Script
end Disk
