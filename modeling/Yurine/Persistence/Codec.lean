import Yurine.Types
import Yurine.Library.LittleEndian

/-! Token codecs. A codec belongs to the caller of the library: what a save or an open relies
on is stated of the codec it is given. -/
namespace Yurine
open Outcome

def utf8 (string : String) : List UInt8 := string.toByteArray.data.toList

/-- `std::str::from_utf8`. -/
def fromUtf8 (bytes : List UInt8) : Option String := String.fromUTF8? bytes.toByteArray

theorem fromUtf8_utf8 (string : String) : fromUtf8 (utf8 string) = some string := by
  have bytes : (utf8 string).toByteArray = string.toByteArray := by
    apply ByteArray.ext
    apply Array.toList_inj.mp
    rw [List.toList_data_toByteArray, utf8]
  rw [fromUtf8, bytes, String.fromUTF8?, dif_pos string.isValidUTF8]
  rfl

structure TokenCodec (R T : Type) where
  id : String
  version : U32
  /-- Appends the encoded token to the output. -/
  encode : T → List UInt8 → Result R (List UInt8)
  decode : List UInt8 → Result R T

namespace TokenCodec
variable {R T : Type}

/-- The documented contract of a codec on a token: what it appends decodes to the token. -/
def RoundTrips (codec : TokenCodec R T) (token : T) : Prop :=
  ∀ output, ∃ bytes, codec.encode token output = .ok (output ++ bytes) ∧
    codec.decode bytes = .ok token

/-- Decoding returns a token or an error, whatever the bytes are. -/
def Decodes (codec : TokenCodec R T) : Prop :=
  ∀ encoded, codec.decode encoded ≠ panic

end TokenCodec

section Utf8Error

/-- `utf8_char_width` of a byte that is not ASCII. -/
def utf8CharWidth (first : UInt8) : Nat :=
  if 0xC2 ≤ first ∧ first ≤ 0xDF then 2
  else if 0xE0 ≤ first ∧ first ≤ 0xEF then 3
  else if 0xF0 ≤ first ∧ first ≤ 0xF4 then 4
  else 0

/-- The least and the greatest second byte of a character. -/
def secondByte (first : UInt8) : UInt8 × UInt8 :=
  if first = 0xE0 then (0xA0, 0xBF)
  else if first = 0xED then (0x80, 0x9F)
  else if first = 0xF0 then (0x90, 0xBF)
  else if first = 0xF4 then (0x80, 0x8F)
  else (0x80, 0xBF)

/-- Where the bytes behind a first one leave the ranges of a character, unless they end before. -/
def scanFollowers (place : Nat) : List (UInt8 × UInt8) → List UInt8 → Option (Option Nat)
  | [], _ => none
  | _ :: _, [] => some none
  | (least, greatest) :: ranges, byte :: rest =>
    if least ≤ byte ∧ byte ≤ greatest then scanFollowers (place + 1) ranges rest
    else some (some place)

/-- `error_len` at a first byte that is not ASCII, or nothing if a character is there. -/
def scanCharacter (first : UInt8) (rest : List UInt8) : Option (Option Nat) :=
  if utf8CharWidth first = 0 then some (some 1)
  else scanFollowers 1
    (secondByte first :: List.replicate (utf8CharWidth first - 2) (0x80, 0xBF)) rest

/-- The text of the `Utf8Error`, where some bytes of a character are still to be skipped. -/
def utf8Error : Nat → Nat → List UInt8 → String
  | _, _, [] => ""
  | skip + 1, index, _ :: rest => utf8Error skip (index + 1) rest
  | 0, index, first :: rest =>
    if first < 128 then utf8Error 0 (index + 1) rest
    else match scanCharacter first rest with
    | none => utf8Error (utf8CharWidth first - 1) (index + 1) rest
    | some (some errorLen) =>
      "invalid utf-8 sequence of " ++ toString errorLen ++ " bytes from index " ++ toString index
    | some none => "incomplete utf-8 byte sequence from index " ++ toString index

end Utf8Error

/-- The standard codec for strings. -/
def stringCodec : TokenCodec R String where
  id := "yurine:string:utf8"
  version := 1
  encode token output := .ok (output ++ utf8 token)
  decode bytes := okOr (.invalidTokenEncoding (utf8Error 0 0 bytes)) (fromUtf8 bytes)

/-- The standard little-endian codec for characters. -/
def charCodec : TokenCodec R Char where
  id := "yurine:char:u32le"
  version := 1
  encode token output := .ok (output ++ LittleEndian.encode 4 token.toNat)
  decode bytes :=
    if bytes.length ≠ 4 then fail (.invalidTokenEncoding "char must contain four bytes")
    else if (LittleEndian.decode bytes).isValidChar then .ok (Char.ofNat (LittleEndian.decode bytes))
    else fail (.invalidTokenEncoding "char is not a Unicode scalar value")

theorem charCodec_roundTrips (token : Char) : (charCodec (R := R)).RoundTrips token := by
  refine fun _ => ⟨LittleEndian.encode 4 token.toNat, rfl, ?_⟩
  have small : token.toNat < 256 ^ 4 := token.val.toNat_lt
  have valid : token.toNat.isValidChar := token.valid
  simp only [charCodec, LittleEndian.length_encode, ne_eq, not_true_eq_false, if_false,
    LittleEndian.decode_encode small, if_pos valid, Char.ofNat_toNat]

theorem charCodec_decodes : (charCodec (R := R)).Decodes := by
  intro encoded
  unfold charCodec
  dsimp only
  split
  · nofun
  · split <;> nofun

theorem stringCodec_roundTrips (token : String) : (stringCodec (R := R)).RoundTrips token := by
  refine fun _ => ⟨utf8 token, rfl, ?_⟩
  show okOr _ (fromUtf8 (utf8 token)) = .ok token
  rw [fromUtf8_utf8]
  rfl

end Yurine
