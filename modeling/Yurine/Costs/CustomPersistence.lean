import Yurine.Costs.Custom
import Yurine.Costs.Persistence
import Yurine.Persistence.RoundTrip
import Mathlib.Data.List.Lex

/-! Saving and opening custom costs. The rules are written as records in the order of their
encoded tokens, so a file depends on the rules alone, and every record is read back. -/
namespace Yurine
open Outcome Offsets Sorting LittleEndian

/-- The order of byte strings is that of their bytes. -/
def byteKey (bytes : List UInt8) : List Nat := bytes.map UInt8.toNat

theorem byteKey_injective : Function.Injective byteKey :=
  List.map_injective_iff.mpr fun _ _ same => UInt8.toNat_inj.mp same

namespace CustomCosts
variable {T : Type} [DecidableEq T]

section Definitions

def metadataVersion : U32 := 1

def encodeToken (codec : TokenCodec U32 T) (token : T) : Result U32 (List UInt8) := do
  let encoded ← codec.encode token []
  let decoded ← codec.decode encoded
  if decoded ≠ token then
    fail (.invalidTokenEncoding "token codec does not round-trip a custom-cost token")
  return encoded

def encodeRules (codec : TokenCodec U32 T) (rules : List (T × CostBits)) :
    Result U32 (List (List UInt8 × CostBits)) :=
  rules.mapM fun rule => do
    let token ← encodeToken codec rule.1
    return (token, rule.2)

def encodeSubstitutions (codec : TokenCodec U32 T)
    (substitutions : List (T × List (T × CostBits))) :
    Result U32 (List ((List UInt8 × List UInt8) × CostBits)) := do
  let rows ← substitutions.mapM fun entry => do
    let source ← encodeToken codec entry.1
    entry.2.mapM fun rule => do
      let target ← encodeToken codec rule.1
      return ((source, target), rule.2)
  return rows.flatten

def rejectDuplicateEncodings (rows : List (List UInt8 × CostBits)) : Result U32 PUnit :=
  if (windows rows).any (fun pair => pair.1.1 = pair.2.1) then
    fail (.invalidTokenEncoding "token codec maps distinct custom-cost tokens to the same bytes")
  else return ⟨⟩

def ruleRecord (row : List UInt8 × CostBits) : List UInt8 :=
  pushBytes [] row.1 ++ u32Layout.write row.2.bits

def substitutionRecord (row : (List UInt8 × List UInt8) × CostBits) : List UInt8 :=
  pushBytes (pushBytes [] row.1.1) row.1.2 ++ u32Layout.write row.2.bits

def metadata (costs : CustomCosts T) (substitutions : List ((List UInt8 × List UInt8) × CostBits))
    (deletions insertions : List (List UInt8 × CostBits)) : List UInt8 :=
  u32Layout.write metadataVersion ++ u32Layout.write costs.defaultSubstitution.bits ++
    u32Layout.write costs.defaultDeletion.bits ++ u32Layout.write costs.defaultInsertion.bits ++
    encode 8 substitutions.length ++ encode 8 deletions.length ++ encode 8 insertions.length ++
    substitutions.flatMap substitutionRecord ++ (deletions ++ insertions).flatMap ruleRecord

/-- The metadata that `save_with` hands to the writer. -/
def encodeMetadata (costs : CustomCosts T) (iteration : Iteration T) (codec : TokenCodec U32 T) :
    Result U32 (List UInt8) := do
  let substitutions ← encodeSubstitutions codec iteration.substitutions
  let substitutions := sortByKey (fun row => toLex (byteKey row.1.1, byteKey row.1.2)) substitutions
  let deletions ← encodeRules codec iteration.deletions
  let deletions := sortByKey (fun row => byteKey row.1) deletions
  let insertions ← encodeRules codec iteration.insertions
  let insertions := sortByKey (fun row => byteKey row.1) insertions
  rejectDuplicateEncodings deletions
  rejectDuplicateEncodings insertions
  if (windows substitutions).any (fun pair => pair.1.1 = pair.2.1) then
    fail (.invalidTokenEncoding
      "token codec maps distinct substitution rules to the same bytes")
  return costs.metadata substitutions deletions insertions

/-- The bytes of the file that `save_with` publishes. -/
def saveWith (costs : CustomCosts T) (iteration : Iteration T) (codec : TokenCodec U32 T) :
    Result U32 (List UInt8) := do
  let metadata ← costs.encodeMetadata iteration codec
  writeFile .customCosts codec [(.costMetadata, .bytes metadata 1)]

def validateRuleCounts (remaining substitutions deletions insertions : Nat) :
    Result U32 PUnit :=
  let minimumLen : Option Nat := do
    let len ← checkedMul substitutions 20
    let len ← checkedAdd (← checkedMul deletions 12) len
    checkedAdd (← checkedMul insertions 12) len
  if minimumLen.all (fun minimumLen => remaining < minimumLen) then
    fail (.invalidFile "custom-cost rule counts exceed metadata size")
  else return ⟨⟩

def readSubstitution (codec : TokenCodec U32 T)
    (state : RuleMap T (RuleMap T CostBits) × MetadataReader) :
    Result U32 (RuleMap T (RuleMap T CostBits) × MetadataReader) := do
  let (encoded, reader) ← state.2.prefixed
  let source ← codec.decode encoded
  let (encoded, reader) ← reader.prefixed
  let target ← codec.decode encoded
  let (value, reader) ← reader.f32
  let cost ← CostBits.new value
  if source = target then fail (.invalidFile "equal-token substitution override is not allowed")
  if (substitutionRule state.1 (source, target)).isSome then
    fail (.invalidFile "substitution rule is duplicated")
  return (insertSubstitution state.1 source target cost, reader)

/-- A deletion or an insertion, with the error of a repeated one. -/
def readRule (codec : TokenCodec U32 T) (duplicated : String)
    (state : RuleMap T CostBits × MetadataReader) :
    Result U32 (RuleMap T CostBits × MetadataReader) := do
  let (encoded, reader) ← state.2.prefixed
  let token ← codec.decode encoded
  let (value, reader) ← reader.f32
  let cost ← CostBits.new value
  if (state.1.lookup token).isSome then fail (.invalidFile duplicated)
  return (state.1.insert token cost, reader)

def readDefault (reader : MetadataReader) : Result U32 (CostBits × MetadataReader) := do
  let (value, reader) ← reader.f32
  let cost ← CostBits.new value
  return (cost, reader)

/-- `open_with` after the file has been validated. -/
def readMetadata (codec : TokenCodec U32 T) (bytes : List UInt8) :
    Result U32 (CustomCosts T) := do
  let (version, reader) ← (MetadataReader.new bytes).u32
  if version ≠ metadataVersion then
    fail (.invalidFile "unsupported custom-cost metadata version")
  let (defaultSubstitution, reader) ← readDefault reader
  let (defaultDeletion, reader) ← readDefault reader
  let (defaultInsertion, reader) ← readDefault reader
  let (substitutionCount, reader) ← reader.u64
  let (deletionCount, reader) ← reader.u64
  let (insertionCount, reader) ← reader.u64
  validateRuleCounts reader.remaining substitutionCount deletionCount insertionCount
  let (substitutions, reader) ← (List.replicate substitutionCount ()).foldlM
    (fun state _ => readSubstitution codec state) (∅, reader)
  let (deletions, reader) ← (List.replicate deletionCount ()).foldlM
    (fun state _ => readRule codec "deletion rule is duplicated" state) (∅, reader)
  let (insertions, reader) ← (List.replicate insertionCount ()).foldlM
    (fun state _ => readRule codec "insertion rule is duplicated" state) (∅, reader)
  reader.finish
  return ⟨defaultSubstitution, defaultDeletion, defaultInsertion, substitutions, deletions,
    insertions⟩

/-- `open_with` on a file with these bytes. -/
def openWith (codec : TokenCodec U32 T) (bytes : List UInt8) : Result U32 (CustomCosts T) := do
  let file ← PersistedFile.openFile bytes .customCosts codec
  let metadata ← file.blob .costMetadata
  readMetadata codec metadata

end Definitions

end CustomCosts
end Yurine
