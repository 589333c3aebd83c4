import Yurine.Persistence.Codec

/-! The two tokenizations of a text. A token is recorded with its range of bytes. -/
namespace Yurine
open Outcome

inductive TokenizerKind where
  | character
  | whitespace
deriving DecidableEq, Repr

namespace TokenizerKind

abbrev Token : TokenizerKind → Type
  | character => Char
  | whitespace => String

instance : (kind : TokenizerKind) → DecidableEq kind.Token
  | character => inferInstanceAs (DecidableEq Char)
  | whitespace => inferInstanceAs (DecidableEq String)

end TokenizerKind

structure Tokenized (T : Type) where
  value : T
  byteRange : Nat × Nat
deriving DecidableEq, Repr

/-- `str::char_indices`, from a position. -/
def charIndices (start : Nat) : List Char → List (Nat × Char)
  | [] => []
  | c :: rest => (start, c) :: charIndices (start + c.utf8Size) rest

def characterTokenizer (sourceText : String) : List (Tokenized Char) :=
  (charIndices 0 sourceText.toList).map fun entry =>
    ⟨entry.2, entry.1, entry.1 + entry.2.utf8Size⟩

/-- `char::is_whitespace`: the characters with the property `White_Space`. -/
def isWhitespace (c : Char) : Bool :=
  (0x9 ≤ c.toNat && c.toNat ≤ 0xD) || c.toNat = 0x20 || c.toNat = 0x85 || c.toNat = 0xA0 ||
    c.toNat = 0x1680 || (0x2000 ≤ c.toNat && c.toNat ≤ 0x200A) || c.toNat = 0x2028 ||
    c.toNat = 0x2029 || c.toNat = 0x202F || c.toNat = 0x205F || c.toNat = 0x3000

/-- `source_text[start..stop].to_owned()`, which must end on boundaries of characters. -/
def sliceText (sourceText : String) (start stop : Nat) : Outcome ε String := do
  let bytes ← slice (utf8 sourceText) start stop
  unwrap (fromUtf8 bytes)

/-- One character of the text, with the tokens so far and the start of the current one. -/
def whitespaceStep (sourceText : String) (state : List (Tokenized String) × Option Nat)
    (entry : Nat × Char) : Outcome ε (List (Tokenized String) × Option Nat) :=
  if isWhitespace entry.2 then
    match state.2 with
    | some byteStart => do
      let token ← sliceText sourceText byteStart entry.1
      return (state.1 ++ [⟨token, byteStart, entry.1⟩], none)
    | none => return state
  else return (state.1, some (state.2.getD entry.1))

def whitespaceTokenizer (sourceText : String) : Outcome ε (List (Tokenized String)) := do
  let (tokens, tokenByteStart) ←
    (charIndices 0 sourceText.toList).foldlM (whitespaceStep sourceText) ([], none)
  match tokenByteStart with
  | some byteStart =>
    let token ← sliceText sourceText byteStart (utf8 sourceText).length
    return tokens ++ [⟨token, byteStart, (utf8 sourceText).length⟩]
  | none => return tokens

abbrev Tokenizer (ε T : Type) := String → Outcome ε (List (Tokenized T))

end Yurine
