import Yurine.Types
import Yurine.Library.Offsets
import Mathlib.Data.List.Nodup

/-! The corpus store: all data strings in one flat symbol array, cut by an offset array.
The abstract content of a well-formed store is its list of strings; every read is
specified against it. -/
namespace Yurine
open Outcome Offsets

/-- An in-memory array, or a typed view into a mapped snapshot. -/
inductive Storage (α : Type) where
  | owned (values : List α)
  | mapped (values : List α)
deriving DecidableEq

namespace Storage

def asSlice : Storage α → List α
  | .owned values => values
  | .mapped values => values

def isMapped : Storage α → Bool
  | .owned _ => false
  | .mapped _ => true

end Storage

structure CorpusStore where
  symbols : Storage Symbol
  stringOffsets : Storage Nat
  symbolCount : Nat

structure CorpusStoreBuilder where
  symbols : List Symbol
  stringOffsets : List Nat

namespace CorpusStoreBuilder

def new : CorpusStoreBuilder := ⟨[], [0]⟩

def addString (builder : CorpusStoreBuilder) (string : List Symbol) : CorpusStoreBuilder :=
  let stringEnd := builder.symbols.length + string.length
  { symbols := builder.symbols ++ string,
    stringOffsets := builder.stringOffsets ++ [stringEnd] }

def build (builder : CorpusStoreBuilder) (symbolCount : Nat) : CorpusStore where
  symbols := .owned builder.symbols
  stringOffsets := .owned builder.stringOffsets
  symbolCount := symbolCount

/-- The offsets recorded so far are those of the strings added so far. -/
structure Holds (builder : CorpusStoreBuilder) (strings : List (List Symbol)) : Prop where
  symbols : builder.symbols = strings.flatten
  stringOffsets : builder.stringOffsets = offsetsFrom 0 strings

theorem new_holds : new.Holds [] := ⟨rfl, rfl⟩

theorem Holds.addString {builder : CorpusStoreBuilder} {strings : List (List Symbol)}
    (holds : builder.Holds strings) (string : List Symbol) :
    (builder.addString string).Holds (strings ++ [string]) := by
  refine ⟨by simp [CorpusStoreBuilder.addString, holds.symbols], ?_⟩
  simp only [CorpusStoreBuilder.addString, holds.symbols, holds.stringOffsets,
    offsetsFrom_concat, Nat.zero_add]

end CorpusStoreBuilder

namespace CorpusStore

def len (store : CorpusStore) : Result R Nat :=
  if store.stringOffsets.asSlice.length = 0 then panic
  else .ok (store.stringOffsets.asSlice.length - 1)

def stringBounds (store : CorpusStore) (id : SequenceId) : Option (Nat × Nat) :=
  match store.stringOffsets.asSlice[id.val]?, store.stringOffsets.asSlice[id.val + 1]? with
  | some start, some stop => some (start, stop)
  | _, _ => none

def stringWithoutSymbolValidation (store : CorpusStore) (id : SequenceId) :
    Result R (Option (List Symbol)) :=
  match store.stringBounds id with
  | none => .ok none
  | some (start, stop) => do
    let string ← slice store.symbols.asSlice start stop
    return some string

def validateSymbols (store : CorpusStore) (string : List Symbol) : Result R PUnit :=
  match string.find? (fun symbol => symbol.isUnknown ∨ store.symbolCount ≤ symbol.val) with
  | some symbol => fail (.unknownStringSymbol symbol.val)
  | none => .ok ⟨⟩

/-- Mapped strings come from an external file, so their symbols are checked on access. -/
def string (store : CorpusStore) (id : SequenceId) : Result R (Option (List Symbol)) := do
  match ← store.stringWithoutSymbolValidation id with
  | none => return none
  | some string =>
    if store.symbols.isMapped then store.validateSymbols string
    return some string

def verify (store : CorpusStore) : Result R PUnit := do
  let count ← store.len
  (List.range count).forM fun rawId => do
    let id ← SequenceId.fromUsize rawId
    let string ← unwrap (← store.stringWithoutSymbolValidation id)
    store.validateSymbols string

def strings (store : CorpusStore) : List (List Symbol) :=
  pieces store.stringOffsets.asSlice store.symbols.asSlice

structure WellFormed (store : CorpusStore) : Prop where
  offsets : Offsets.WellFormed store.stringOffsets.asSlice store.symbols.asSlice.length
  /-- The reserved symbol is outside the vocabulary. -/
  symbolCount : store.symbolCount < 2 ^ 32

variable {store : CorpusStore} {R : Type}

def ValidString (store : CorpusStore) (string : List Symbol) : Prop :=
  ∀ symbol ∈ string, symbol.val < store.symbolCount

theorem decides_validateSymbols (bound : store.symbolCount < 2 ^ 32) (string : List Symbol) :
    Decides (store.ValidString string) (fun e => ∃ symbol, e = .unknownStringSymbol symbol)
      (store.validateSymbols (R := R) string) := by
  unfold validateSymbols ValidString
  split
  · rename_i symbol found
    have bad := List.find?_some found
    simp only [Symbol.isUnknown_iff, decide_eq_true_eq] at bad
    refine ⟨fun valid => ?_, symbol.val, rfl⟩
    have := valid symbol (List.mem_of_find?_eq_some found)
    omega
  · rename_i missing
    simp only [List.find?_eq_none, Symbol.isUnknown_iff, decide_eq_true_eq, not_or,
      not_le] at missing
    exact fun symbol mem => (missing symbol mem).2

theorem len_ok (wf : store.WellFormed) : store.len (R := R) = .ok store.strings.length := by
  have nonempty := List.length_pos_of_ne_nil wf.offsets.nonempty
  unfold len
  rw [if_neg (by omega), strings, length_pieces]

theorem stringWithoutSymbolValidation_ok (wf : store.WellFormed) (id : SequenceId) :
    store.stringWithoutSymbolValidation (R := R) id = .ok store.strings[id.val]? := by
  unfold stringWithoutSymbolValidation stringBounds strings
  rw [getElem?_pieces]
  cases left : store.stringOffsets.asSlice[id.val]? with
  | none => rfl
  | some start =>
    cases right : store.stringOffsets.asSlice[id.val + 1]? with
    | none => rfl
    | some stop =>
      obtain ⟨ordered, inside⟩ := wf.offsets.bounds left right
      simp only [slice_ok ordered inside, bind_ok]
      rfl

/-- Reading a string of an owned store, or of a mapped one after checking its symbols. -/
theorem ensures_string (wf : store.WellFormed) (id : SequenceId) :
    Ensures (fun found => found = store.strings[id.val]? ∧
        (store.symbols.isMapped = true → ∀ string, found = some string → store.ValidString string))
      (fun e => (∃ string, store.strings[id.val]? = some string ∧ ¬ store.ValidString string) ∧
        ∃ symbol, e = .unknownStringSymbol symbol) (store.string (R := R) id) := by
  unfold string
  rw [stringWithoutSymbolValidation_ok wf, bind_ok]
  cases found : store.strings[id.val]? with
  | none => exact ⟨rfl, by simp⟩
  | some string =>
    by_cases mapped : store.symbols.isMapped = true
    · simp only [mapped, if_true]
      refine Ensures.bind ((decides_validateSymbols wf.symbolCount string).mono
        (fun _ valid => valid) (fun e invalid => ⟨⟨string, rfl, invalid.1⟩, invalid.2⟩)) ?_
      intro _ valid
      refine ⟨rfl, fun _ other same => ?_⟩
      obtain rfl := Option.some.inj same
      exact valid
    · simp only [mapped, Bool.false_eq_true, if_false]
      exact ⟨rfl, fun impossible => impossible.elim⟩

/-- A valid string is read back whether the store is owned or mapped. -/
theorem string_ok (wf : store.WellFormed) {id : SequenceId}
    (valid : ∀ string, store.strings[id.val]? = some string → store.ValidString string) :
    store.string (R := R) id = .ok store.strings[id.val]? := by
  have noError := (ensures_string (R := R) wf id).mono (F := fun _ => False)
    (fun _ h => h.1) (fun e h => by
      obtain ⟨⟨string, found, invalid⟩, _⟩ := h
      exact invalid (valid string found))
  exact ensures_eq.mp noError

theorem mem_symbols_iff (wf : store.WellFormed) {symbol : Symbol} :
    symbol ∈ store.symbols.asSlice ↔ ∃ string ∈ store.strings, symbol ∈ string := by
  rw [← List.mem_flatten, strings, wf.offsets.flatten]

theorem string_eq (wf : store.WellFormed)
    (valid : ∀ symbol ∈ store.symbols.asSlice, symbol.val < store.symbolCount) (id : SequenceId) :
    store.string (R := R) id = .ok store.strings[id.val]? :=
  string_ok wf fun string same symbol mem =>
    valid symbol ((mem_symbols_iff wf).mpr ⟨string, List.mem_of_getElem? same, mem⟩)

/-- Verification scans every string, so it decides whether every stored symbol is known and
every string has an identifier. -/
theorem decides_verify (wf : store.WellFormed) :
    Decides ((∀ symbol ∈ store.symbols.asSlice, symbol.val < store.symbolCount) ∧
        store.strings.length ≤ 2 ^ 32)
      (fun _ => True) (store.verify (R := R)) := by
  unfold verify
  rw [len_ok wf, bind_ok]
  have loop : Decides (∀ i ∈ List.range store.strings.length, i < 2 ^ 32 ∧ ∀ string,
      store.strings[i]? = some string → store.ValidString string) (fun _ => True)
      ((List.range store.strings.length).forM fun rawId => do
        let id ← SequenceId.fromUsize (R := R) rawId
        let string ← unwrap (← store.stringWithoutSymbolValidation id)
        store.validateSymbols string) := by
    refine Decides.forM (fun i mem => ?_)
    have inside := List.mem_range.mp mem
    refine Ensures.bind ((SequenceId.ensures_fromUsize i).mono (fun _ named => named)
      (fun _ large => ⟨fun h => absurd h.1 (not_lt.mpr large.2), trivial⟩)) ?_
    rintro id rfl
    rw [stringWithoutSymbolValidation_ok wf, bind_ok, List.getElem?_eq_getElem inside, unwrap,
      bind_ok]
    refine ((decides_validateSymbols wf.symbolCount _).raises (fun _ _ => trivial)).congr ?_
    simp
  refine loop.congr ?_
  simp only [mem_symbols_iff wf, List.mem_range]
  constructor
  · intro valid
    constructor
    · rintro symbol ⟨string, hs, mem⟩
      obtain ⟨i, inside, rfl⟩ := List.mem_iff_getElem.mp hs
      exact (valid i inside).2 _ (List.getElem?_eq_getElem inside) symbol mem
    · by_contra many
      exact absurd (valid (2 ^ 32) (not_le.mp many)).1 (lt_irrefl _)
  · rintro ⟨valid, count⟩ i inside
    refine ⟨inside.trans_le count, fun string found symbol mem => ?_⟩
    exact valid symbol ⟨string, List.mem_of_getElem? found, mem⟩

def symbolAt (store : CorpusStore) (place : Nat × Nat) : Option Symbol :=
  store.strings[place.1]? >>= fun string => string[place.2]?

def places (store : CorpusStore) : List (Nat × Nat) :=
  store.strings.zipIdx.flatMap
    (fun entry => (List.range entry.1.length).map (fun position => (entry.2, position)))

theorem mem_places {place : Nat × Nat} :
    place ∈ store.places ↔ ∃ symbol, store.symbolAt place = some symbol := by
  obtain ⟨id, position⟩ := place
  simp only [places, List.mem_flatMap, List.mem_map, List.mem_range, Prod.mk.injEq, symbolAt,
    Option.bind_eq_bind, Option.bind_eq_some_iff]
  constructor
  · rintro ⟨⟨string, i⟩, mem, j, inside, rfl, rfl⟩
    rw [List.mk_mem_zipIdx_iff_getElem?] at mem
    exact ⟨string[j], string, mem, List.getElem?_eq_getElem inside⟩
  · rintro ⟨symbol, string, found, here⟩
    refine ⟨(string, id), List.mk_mem_zipIdx_iff_getElem?.mpr found, position, ?_, rfl, rfl⟩
    exact (List.getElem?_eq_some_iff.mp here).1

theorem nodup_places (store : CorpusStore) : store.places.Nodup := by
  rw [places, List.nodup_flatMap]
  constructor
  · rintro ⟨string, id⟩ _
    refine List.Nodup.map (fun a b same => (Prod.mk.inj same).2) List.nodup_range
  · have ids : (store.strings.zipIdx.map Prod.snd).Nodup := by
      rw [List.zipIdx_map_snd]
      exact List.nodup_range'
    refine (List.pairwise_map.mp ids).imp ?_
    rintro ⟨first, i⟩ ⟨second, j⟩ distinct
    apply List.disjoint_left.mpr
    simp only [List.mem_map, not_exists, not_and]
    rintro place ⟨position, _, rfl⟩ other _ same
    exact distinct (Prod.mk.inj same).1.symm

theorem length_places (wf : store.WellFormed) :
    store.places.length = store.symbols.asSlice.length := by
  conv_rhs => rw [← wf.offsets.flatten, ← strings]
  have lengths : (store.strings.zipIdx.map Prod.fst).map List.length =
      store.strings.map List.length := by simp
  rw [places, List.length_flatMap, List.length_flatten, ← lengths, List.map_map]
  simp [Function.comp_def]

end CorpusStore

/-- A built store is well formed and holds the strings added. -/
theorem CorpusStoreBuilder.Holds.build {builder : CorpusStoreBuilder}
    {strings : List (List Symbol)} (holds : builder.Holds strings) {symbolCount : Nat}
    (bound : symbolCount < 2 ^ 32) :
    (builder.build symbolCount).WellFormed ∧ (builder.build symbolCount).strings = strings := by
  have content : (builder.build symbolCount).strings = strings := by
    simp only [CorpusStore.strings, CorpusStoreBuilder.build, Storage.asSlice, holds.symbols,
      holds.stringOffsets, pieces_offsetsFrom]
  refine ⟨⟨?_, bound⟩, content⟩
  simpa only [CorpusStoreBuilder.build, Storage.asSlice, holds.symbols, holds.stringOffsets] using
    wellFormed_offsetsFrom strings

end Yurine
