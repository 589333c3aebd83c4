import Mathlib.Algebra.BigOperators.Group.List.Basic
import Mathlib.Algebra.Order.Ring.Nat
import Mathlib.Tactic.Ring

/-! Little-endian numbers of a fixed width, records of such numbers and arrays of records of
one size. Reading is total: it never looks at more bytes than there are. -/
namespace LittleEndian

/-- The `width` low bytes of a number. -/
def encode : Nat → Nat → List UInt8
  | 0, _ => []
  | width + 1, n => UInt8.ofNat n :: encode width (n / 256)

def decode : List UInt8 → Nat
  | [] => 0
  | byte :: bytes => byte.toNat + 256 * decode bytes

@[simp] theorem length_encode (width n : Nat) : (encode width n).length = width := by
  induction width generalizing n with
  | zero => rfl
  | succ width ih => rw [encode, List.length_cons, ih]

theorem decode_encode {width n : Nat} (fits : n < 256 ^ width) : decode (encode width n) = n := by
  induction width generalizing n with
  | zero =>
    have : n = 0 := by simpa using fits
    rw [encode, decode, this]
  | succ width ih =>
    have rest : n / 256 < 256 ^ width := by
      rw [Nat.div_lt_iff_lt_mul (by decide)]
      rwa [pow_succ] at fits
    rw [encode, decode, ih rest, UInt8.toNat_ofNat']
    omega

theorem encode_decode (bytes : List UInt8) : encode bytes.length (decode bytes) = bytes := by
  induction bytes with
  | nil => rfl
  | cons byte bytes ih =>
    have small := byte.toNat_lt
    rw [List.length_cons, decode, encode, show (byte.toNat + 256 * decode bytes) / 256 =
      decode bytes by omega, ih]
    congr 1
    apply UInt8.toNat_inj.mp
    rw [UInt8.toNat_ofNat']
    omega

theorem decode_lt (bytes : List UInt8) : decode bytes < 256 ^ bytes.length := by
  induction bytes with
  | nil => simp [decode]
  | cons byte bytes ih =>
    have := byte.toNat_lt
    rw [decode, List.length_cons, pow_succ]
    omega

theorem decode_take_lt (width : Nat) (bytes : List UInt8) :
    decode (bytes.take width) < 256 ^ width := by
  refine (decode_lt _).trans_le (Nat.pow_le_pow_right (by decide) ?_)
  rw [List.length_take]
  exact Nat.min_le_left _ _

/-- A record of numbers of the given widths. -/
def encodeFields : List Nat → List Nat → List UInt8
  | width :: widths, n :: ns => encode width n ++ encodeFields widths ns
  | _, _ => []

def decodeFields : List Nat → List UInt8 → List Nat
  | [], _ => []
  | width :: widths, bytes =>
    decode (bytes.take width) :: decodeFields widths (bytes.drop width)

theorem length_encodeFields {widths ns : List Nat} (fits : widths.length = ns.length) :
    (encodeFields widths ns).length = widths.sum := by
  induction widths generalizing ns with
  | nil => rfl
  | cons width widths ih =>
    cases ns with
    | nil => simp at fits
    | cons n ns =>
      rw [encodeFields, List.length_append, length_encode, ih (by simpa using fits),
        List.sum_cons]

theorem decodeFields_encodeFields {widths ns : List Nat}
    (fits : List.Forall₂ (fun width n => n < 256 ^ width) widths ns) (rest : List UInt8) :
    decodeFields widths (encodeFields widths ns ++ rest) = ns := by
  induction fits with
  | nil => rfl
  | @cons width n widths ns here _ ih =>
    have size : (encode width n).length = width := length_encode width n
    rw [encodeFields, decodeFields, List.append_assoc, List.take_left' size,
      List.drop_left' size, decode_encode here, ih]

/-- How the elements of an array are laid out. -/
structure Layout (α : Type) where
  size : Nat
  write : α → List UInt8
  read : List UInt8 → α

namespace Layout
variable {α : Type} (layout : Layout α)

def writeAll (values : List α) : List UInt8 := values.flatMap layout.write

def readAll : Nat → List UInt8 → List α
  | 0, _ => []
  | count + 1, bytes => layout.read (bytes.take layout.size) ::
      readAll count (bytes.drop layout.size)

/-- Every element takes the same room, and valid ones are read back from the bytes written. -/
structure Faithful (valid : α → Prop) : Prop where
  length_write : ∀ a, (layout.write a).length = layout.size
  read_write : ∀ a, valid a → layout.read (layout.write a) = a

variable {layout} {valid : α → Prop}

@[simp] theorem length_readAll (count : Nat) (bytes : List UInt8) :
    (layout.readAll count bytes).length = count := by
  induction count generalizing bytes with
  | zero => rfl
  | succ count ih => rw [readAll, List.length_cons, ih]

theorem Faithful.length_writeAll (faithful : layout.Faithful valid) (values : List α) :
    (layout.writeAll values).length = values.length * layout.size := by
  induction values with
  | nil => simp [writeAll]
  | cons a values ih =>
    rw [writeAll] at ih ⊢
    rw [List.flatMap_cons, List.length_append, faithful.length_write a, ih, List.length_cons]
    ring

theorem Faithful.readAll_writeAll (faithful : layout.Faithful valid) {values : List α}
    (all : ∀ a ∈ values, valid a) (rest : List UInt8) :
    layout.readAll values.length (layout.writeAll values ++ rest) = values := by
  induction values with
  | nil => rfl
  | cons a values ih =>
    have tail := ih (fun b hb => all b (List.mem_cons_of_mem a hb))
    have size := faithful.length_write a
    rw [writeAll] at tail ⊢
    rw [List.length_cons, readAll, List.flatMap_cons, List.append_assoc, List.take_left' size,
      List.drop_left' size, faithful.read_write a (all a (by simp)), tail]

theorem readAll_take (count : Nat) (bytes : List UInt8) :
    layout.readAll count (bytes.take (count * layout.size)) = layout.readAll count bytes := by
  induction count generalizing bytes with
  | zero => rfl
  | succ count ih =>
    have sizes : (count + 1) * layout.size = layout.size + count * layout.size := by ring
    rw [readAll, readAll, sizes, List.take_take, Nat.min_eq_left (Nat.le_add_right _ _),
      List.drop_take, Nat.add_sub_cancel_left, ih]

end Layout
end LittleEndian
