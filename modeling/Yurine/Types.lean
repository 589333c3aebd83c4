import Yurine.Errors

/-! The fixed-width identifiers of an index. All three wrap a `u32`; the largest symbol is
reserved for tokens absent from a vocabulary. -/
namespace Yurine
open Outcome

abbrev U32 := Fin (2 ^ 32)

instance U32.nonzero : NeZero (2 ^ 32) := ⟨by decide⟩

abbrev SequenceId := U32

abbrev Position := U32

abbrev Symbol := U32

def SequenceId.fromUsize (value : Nat) : Result R SequenceId :=
  if fits : value < 2 ^ 32 then .ok ⟨value, fits⟩ else fail .sequenceIdOverflow

def Position.fromUsize (value : Nat) : Result R Position :=
  if fits : value < 2 ^ 32 then .ok ⟨value, fits⟩ else fail .positionOverflow

/-- A posting in the corpus: a string identifier and a symbol position. -/
structure Posting where
  stringId : SequenceId
  position : Position
deriving DecidableEq, Repr

namespace Symbol

/-- `Symbol::UNKNOWN`. -/
def unknown : Symbol := ⟨2 ^ 32 - 1, by decide⟩

def isUnknown (symbol : Symbol) : Prop := symbol = unknown

instance (symbol : Symbol) : Decidable symbol.isUnknown := inferInstanceAs (Decidable (_ = _))

def fromUsize (value : Nat) : Result R Symbol :=
  if fits : value < 2 ^ 32 then
    if (⟨value, fits⟩ : Symbol) = unknown then fail .symbolOverflow else .ok ⟨value, fits⟩
  else fail .symbolOverflow

end Symbol

theorem SequenceId.ensures_fromUsize (value : Nat) :
    Ensures (fun id => id.val = value) (fun e => e = .sequenceIdOverflow ∧ 2 ^ 32 ≤ value)
      (SequenceId.fromUsize (R := R) value) := by
  unfold SequenceId.fromUsize
  split
  · rfl
  · exact ⟨rfl, by omega⟩

theorem Position.ensures_fromUsize (value : Nat) :
    Ensures (fun position => position.val = value)
      (fun e => e = .positionOverflow ∧ 2 ^ 32 ≤ value) (Position.fromUsize (R := R) value) := by
  unfold Position.fromUsize
  split
  · rfl
  · exact ⟨rfl, by omega⟩

theorem SequenceId.fromUsize_ok {value : Nat} (fits : value < 2 ^ 32) :
    SequenceId.fromUsize (R := R) value = .ok ⟨value, fits⟩ := dif_pos fits

theorem Position.fromUsize_ok {value : Nat} (fits : value < 2 ^ 32) :
    Position.fromUsize (R := R) value = .ok ⟨value, fits⟩ := dif_pos fits

theorem Symbol.isUnknown_iff {symbol : Symbol} : symbol.isUnknown ↔ symbol.val = 2 ^ 32 - 1 := by
  unfold Symbol.isUnknown Symbol.unknown
  exact Fin.ext_iff

theorem Symbol.fromUsize_eq_ok {value : Nat} {symbol : Symbol} :
    Symbol.fromUsize (R := R) value = .ok symbol ↔
      symbol.val = value ∧ value < 2 ^ 32 - 1 := by
  unfold Symbol.fromUsize
  split
  · simp only [Symbol.unknown, Fin.ext_iff]
    split
    · simp [fail]
      omega
    · simp [Fin.ext_iff, eq_comm]
      omega
  · simp [fail]
    omega

theorem Symbol.ensures_fromUsize (value : Nat) :
    Ensures (fun symbol => symbol.val = value ∧ value < 2 ^ 32 - 1)
      (fun e => e = .symbolOverflow ∧ 2 ^ 32 ≤ value + 1)
      (Symbol.fromUsize (R := R) value) := by
  by_cases fits : value < 2 ^ 32 - 1
  · have named : Symbol.fromUsize (R := R) value = .ok ⟨value, by omega⟩ :=
      Symbol.fromUsize_eq_ok.mpr ⟨rfl, fits⟩
    rw [named]
    exact ⟨rfl, fits⟩
  · unfold Symbol.fromUsize
    split
    · rename_i small
      rw [if_pos (Fin.ext (show value = 2 ^ 32 - 1 by omega))]
      exact ⟨rfl, by omega⟩
    · exact ⟨rfl, by omega⟩

end Yurine
