import Yurine.Library.Outcome

/-! The errors of the library, for numbers of type `R`. Only the constructors that a
modelled function returns are kept; the host is a 64-bit little-endian one. -/
namespace Yurine

inductive Error (R : Type) where
  | invalidFile (reason : String)
  | unsupportedFormatVersion (version : Nat)
  | endiannessMismatch
  | codecMismatch (expected actual : String)
  | codecVersionMismatch (expected actual : Nat)
  | codecIdTooLong (length max : Nat)
  | invalidTokenEncoding (reason : String)
  | sequenceIdOverflow
  | positionOverflow
  | symbolOverflow
  | embeddingIndexOverflow
  | unknownStringSymbol (symbol : Nat)
  | invalidCost (value : R)
  | invalidEmbeddingDimension (expected actual : Nat)
  | invalidEmbeddingValue (index : Nat) (value : R)
  | zeroNormEmbedding
  | invalidThreshold (value : R)
  | duplicateAlphabetSymbol
  | invalidQueryPosition (position queryLen : Nat)
  | invalidStringPosition (position stringLen : Nat)
  | unknownString (stringId : Nat)
  | thresholdSubsequenceUnavailable
  | searchTooExpensive (candidates limit : Nat)
deriving DecidableEq, Repr

namespace Error

def map {S : Type} (f : R → S) : Error R → Error S
  | invalidFile reason => invalidFile reason
  | unsupportedFormatVersion version => unsupportedFormatVersion version
  | endiannessMismatch => endiannessMismatch
  | codecMismatch expected actual => codecMismatch expected actual
  | codecVersionMismatch expected actual => codecVersionMismatch expected actual
  | codecIdTooLong length max => codecIdTooLong length max
  | invalidTokenEncoding reason => invalidTokenEncoding reason
  | sequenceIdOverflow => sequenceIdOverflow
  | positionOverflow => positionOverflow
  | symbolOverflow => symbolOverflow
  | embeddingIndexOverflow => embeddingIndexOverflow
  | unknownStringSymbol symbol => unknownStringSymbol symbol
  | invalidCost value => invalidCost (f value)
  | invalidEmbeddingDimension expected actual => invalidEmbeddingDimension expected actual
  | invalidEmbeddingValue index value => invalidEmbeddingValue index (f value)
  | zeroNormEmbedding => zeroNormEmbedding
  | invalidThreshold value => invalidThreshold (f value)
  | duplicateAlphabetSymbol => duplicateAlphabetSymbol
  | invalidQueryPosition position queryLen => invalidQueryPosition position queryLen
  | invalidStringPosition position stringLen => invalidStringPosition position stringLen
  | unknownString stringId => unknownString stringId
  | thresholdSubsequenceUnavailable => thresholdSubsequenceUnavailable
  | searchTooExpensive candidates limit => searchTooExpensive candidates limit

end Error

/-- A library call: `Ok`, `Err` or a panic. -/
abbrev Result (R α : Type) := Outcome (Error R) α

/-- The number of values of the `usize` of the host. -/
abbrev usizeRange : Nat := 2 ^ 64

/-- `a.checked_add(b)` for `usize`. -/
def checkedAdd (a b : Nat) : Option Nat := if a + b < usizeRange then some (a + b) else none

/-- `a.checked_mul(b)` for `usize`. -/
def checkedMul (a b : Nat) : Option Nat := if a * b < usizeRange then some (a * b) else none

/-- `a.saturating_add(b)` for `usize`. -/
def saturatingAdd (a b : Nat) : Nat := min (a + b) (usizeRange - 1)

/-- `a - b` for `usize`, which must not underflow. -/
def subtract (a b : Nat) : Result R Nat := if b ≤ a then .ok (a - b) else Outcome.panic

end Yurine
