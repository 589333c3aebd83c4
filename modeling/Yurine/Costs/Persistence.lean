import Yurine.Persistence.Regions
import Yurine.Library.Recognizer

/-! Cost metadata: little-endian numbers and length-prefixed tokens in a row, read from a
position that moves on. Each reader recognizes the fields of its kind and stays in bounds. -/
namespace Yurine
open Outcome LittleEndian

variable {R : Type}

structure MetadataReader where
  bytes : List UInt8
  position : Nat

def pushBytes (output bytes : List UInt8) : List UInt8 :=
  output ++ encode 8 bytes.length ++ bytes

namespace MetadataReader

def new (bytes : List UInt8) : MetadataReader := ⟨bytes, 0⟩

def skip (reader : MetadataReader) (len : Nat) : MetadataReader :=
  ⟨reader.bytes, reader.position + len⟩

/-- `MetadataReader::array`, and the last part of `MetadataReader::bytes`. -/
def array (reader : MetadataReader) (len : Nat) : Result R (List UInt8 × MetadataReader) := do
  let stop ← okOr (.invalidFile "metadata range overflows") (checkedAdd reader.position len)
  let value ← okOr (.invalidFile "cost metadata is truncated")
    (if reader.position ≤ stop ∧ stop ≤ reader.bytes.length then
      some ((reader.bytes.drop reader.position).take len) else none)
  return (value, ⟨reader.bytes, stop⟩)

def u32 (reader : MetadataReader) : Result R (U32 × MetadataReader) := do
  let (value, reader) ← reader.array 4
  return (u32Layout.read value, reader)

def u64 (reader : MetadataReader) : Result R (Nat × MetadataReader) := do
  let (value, reader) ← reader.array 8
  return (decode value, reader)

def f32 (reader : MetadataReader) : Result R (U32 × MetadataReader) := reader.u32

/-- `MetadataReader::bytes`. -/
def prefixed (reader : MetadataReader) : Result R (List UInt8 × MetadataReader) := do
  let (len, reader) ← reader.u64
  reader.array len

def remaining (reader : MetadataReader) : Nat := reader.bytes.length - reader.position

def finish (reader : MetadataReader) : Result R PUnit :=
  if reader.position = reader.bytes.length then return ⟨⟩
  else fail (.invalidFile "cost metadata has trailing bytes")

/-- The bytes ahead of the reader. -/
structure At (reader : MetadataReader) (rest : List UInt8) : Prop where
  ahead : reader.bytes.drop reader.position = rest
  inside : reader.position ≤ reader.bytes.length
  small : reader.bytes.length < usizeRange

variable {reader : MetadataReader} {field rest : List UInt8}

theorem new_at {bytes : List UInt8} (small : bytes.length < usizeRange) : (new bytes).At bytes :=
  ⟨rfl, Nat.zero_le _, small⟩

theorem At.remaining (at_ : reader.At rest) : reader.remaining = rest.length := by
  rw [MetadataReader.remaining, ← at_.ahead, List.length_drop]

theorem At.fits (at_ : reader.At rest) : rest.length < usizeRange := by
  rw [← at_.remaining]
  exact lt_of_le_of_lt (Nat.sub_le _ _) at_.small

theorem At.skip (at_ : reader.At (field ++ rest)) : (reader.skip field.length).At rest := by
  have total := congrArg List.length at_.ahead
  have inside := at_.inside
  rw [List.length_drop, List.length_append] at total
  refine ⟨?_, ?_, at_.small⟩
  · rw [MetadataReader.skip, ← List.drop_drop, at_.ahead, List.drop_left]
  · show reader.position + field.length ≤ reader.bytes.length
    omega

theorem At.array (at_ : reader.At (field ++ rest)) :
    reader.array (R := R) field.length = .ok (field, reader.skip field.length) := by
  have total := congrArg List.length at_.ahead
  have small := at_.small
  have inside := at_.inside
  rw [List.length_drop, List.length_append] at total
  unfold MetadataReader.array
  rw [checkedAdd, if_pos (by omega), okOr_some, bind_ok,
    if_pos ⟨Nat.le_add_right _ _, by omega⟩, okOr_some, bind_ok, at_.ahead, List.take_left]
  rfl

section Languages
variable {safety : Prop}

theorem recognizes_array (len : Nat) :
    Recognizes safety At (fun reader => reader.array (R := R) len)
      (fun field value => field.length = len ∧ value = field) := by
  apply Recognizes.of_ensures
  · intro reader input at_
    unfold array
    refine Ensures.bind (safely_okOr _ _) (fun stop sum => ?_)
    refine Ensures.bind (safely_okOr _ _) (fun value present => ?_)
    unfold checkedAdd at sum
    split at sum <;> cases sum
    split at present <;> cases present
    rename_i inside
    have total := congrArg List.length at_.ahead
    rw [List.length_drop] at total
    have size : (input.take len).length = len := by
      rw [List.length_take]
      omega
    rw [at_.ahead]
    refine ⟨input.take len, input.drop len, (List.take_append_drop len input).symm,
      ⟨size, rfl⟩, ?_⟩
    have split : reader.At (input.take len ++ input.drop len) := by
      rwa [List.take_append_drop]
    simpa only [skip, size] using split.skip
  · rintro reader field rest _ ⟨rfl, rfl⟩ at_
    exact ⟨_, at_.array, at_.skip⟩

theorem recognizes_u32 :
    Recognizes safety At (u32 (R := R)) (fun field value => field = u32Layout.write value) := by
  refine ((recognizes_array 4).bind (fun bytes =>
    Recognizes.done (u32Layout.read bytes))).congr (fun field value => ?_)
  constructor
  · rintro ⟨_, _, bytes, rfl, ⟨size, rfl⟩, rfl, rfl⟩
    rw [List.append_nil, u32Layout_write_read size]
  · rintro rfl
    exact ⟨_, [], _, (List.append_nil _).symm, ⟨u32Layout_faithful.length_write value, rfl⟩, rfl,
      (u32Layout_faithful.read_write value trivial).symm⟩

theorem recognizes_u64 :
    Recognizes safety At (u64 (R := R))
      (fun field value => value < u64Range ∧ field = encode 8 value) := by
  refine ((recognizes_array 8).bind (fun bytes =>
    Recognizes.done (decode bytes))).congr (fun field value => ?_)
  constructor
  · rintro ⟨_, _, bytes, rfl, ⟨size, rfl⟩, rfl, rfl⟩
    refine ⟨(decode_lt bytes).trans_eq (by rw [size]; rfl), ?_⟩
    rw [List.append_nil, ← size, encode_decode]
  · rintro ⟨small, rfl⟩
    exact ⟨_, [], _, (List.append_nil _).symm, ⟨length_encode 8 value, rfl⟩, rfl,
      (decode_encode small).symm⟩

theorem recognizes_prefixed :
    Recognizes safety At (prefixed (R := R))
      (fun field bytes => bytes.length < u64Range ∧ field = pushBytes [] bytes) := by
  refine (recognizes_u64.bind recognizes_array).congr (fun field bytes => ?_)
  constructor
  · rintro ⟨_, after, _, rfl, ⟨small, rfl⟩, rfl, rfl⟩
    exact ⟨small, by simp [pushBytes]⟩
  · rintro ⟨small, rfl⟩
    exact ⟨_, bytes, _, by simp [pushBytes], ⟨small, rfl⟩, rfl, rfl⟩

theorem decides_finish {reader : MetadataReader} {input : List UInt8} (at_ : reader.At input) :
    Decides (input = []) (fun _ => True) (reader.finish (R := R)) := by
  have total := at_.remaining
  have inside := at_.inside
  unfold MetadataReader.remaining at total
  unfold finish
  rw [← List.length_eq_zero_iff]
  refine ensures_ite (fun last => ?_) (fun open_ => ?_)
  · show input.length = 0
    omega
  · exact ⟨fun empty => open_ (by omega), trivial⟩

end Languages

theorem u64_lt {value : Nat} {next : MetadataReader}
    (read : reader.u64 (R := R) = .ok (value, next)) : value < u64Range := by
  obtain ⟨⟨bytes, _⟩, taken, read⟩ := bind_eq_ok.mp read
  obtain ⟨stop, _, taken⟩ := bind_eq_ok.mp taken
  obtain ⟨found, here, taken⟩ := bind_eq_ok.mp taken
  cases taken
  cases read
  have present := okOr_eq_ok.mp here
  split at present
  · cases present
    exact decode_take_lt 8 _
  · cases present

end MetadataReader
end Yurine
