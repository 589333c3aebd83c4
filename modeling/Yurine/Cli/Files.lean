import Yurine.Library.Directory
import Yurine.Persistence.Format

/-! Files of the command line. A snapshot of the library is written under a name of its own and
renamed into place; the other files are written under a temporary name. The contexts that the
command line puts in front of its errors are left out. -/
namespace Yurine
open Outcome Disk

inductive CliError (R : Type) where
  /-- A disk call failed. -/
  | io
  | library (error : Error R)
  | message (text : String)
deriving DecidableEq, Repr

def CliError.map {R S : Type} (f : R → S) : CliError R → CliError S
  | .io => .io
  | .library error => .library (error.map f)
  | .message text => .message text

abbrev CliResult (R α : Type) := Outcome (CliError R) α

abbrev CliScript (R α : Type) := Script String (CliError R) α

variable {R α : Type}

/-- A call of the library under `?`. -/
def ofLibrary : Result R α → CliResult R α
  | .ok a => .ok a
  | .error (.error reason) => fail (.library reason)
  | .error .panic => panic

def bail (text : String) : CliResult R α := fail (.message text)

def temporarySuffix : String := ".tmp"

def temporary (name : String) : String := name ++ temporarySuffix

/-- The name of a `NamedTempFile`: this prefix and characters drawn at random. -/
def scratch (random : String) : String := ".tmp" ++ random

/-- The disk calls of `write_file`, after the bytes of the file are known. -/
def saveFile (random name : String) (bytes : Result R (List UInt8)) : CliScript R PUnit := do
  let bytes ← Script.lift (ofLibrary bytes)
  Script.call (.create (scratch random))
  Script.call (.write (scratch random) bytes)
  Script.call (.flush (scratch random))
  -- `sync_all`
  Script.call (.flush (scratch random))
  Script.call (.rename (scratch random) name)
  -- `sync_parent`
  Script.call .directory

theorem ofLibrary_ok_iff {result : Result R α} {a : α} : ofLibrary result = .ok a ↔ result = .ok a := by
  match result with
  | .ok b => simp only [ofLibrary, Except.ok.injEq]
  | .error (.error _) => simp only [ofLibrary, fail, reduceCtorEq]
  | .error .panic => simp only [ofLibrary, Outcome.panic, reduceCtorEq]

theorem scratch_ne {random name : String} (other : name.toList.head? ≠ some '.') :
    scratch random ≠ name := by
  rintro rfl
  apply other
  simp [scratch]

end Yurine
