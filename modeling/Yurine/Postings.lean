import Yurine.Store
import Yurine.Library.Sorting
import Mathlib.Data.Prod.Lex
import Mathlib.Order.Fin.Basic

/-! The postings index: for each symbol the places of the corpus it occurs at. Offsets cut
one flat posting array into the lists of the symbols. -/
namespace Yurine
open Outcome Offsets Sorting

/-- The `(SequenceId, Position)` order of postings. -/
def Posting.key (posting : Posting) : U32 ×ₗ U32 := toLex (posting.stringId, posting.position)

def Posting.place (posting : Posting) : Nat × Nat := (posting.stringId.val, posting.position.val)

theorem Posting.key_injective : Function.Injective Posting.key := by
  rintro ⟨a, b⟩ ⟨c, d⟩ same
  obtain ⟨rfl, rfl⟩ := Prod.mk.inj (toLex.injective same)
  rfl

theorem Posting.place_injective : Function.Injective Posting.place := by
  rintro ⟨a, b⟩ ⟨c, d⟩ same
  obtain ⟨first, second⟩ := Prod.mk.inj same
  obtain rfl : a = c := Fin.ext first
  obtain rfl : b = d := Fin.ext second
  rfl

structure PostingsIndex where
  postings : Storage Posting
  postingOffsets : Storage Nat

namespace PostingsIndex

def postingSlice (index : PostingsIndex) (symbol : Symbol) : Result R (List Posting) :=
  if symbol.isUnknown then .ok []
  else match index.postingOffsets.asSlice[symbol.val]?,
      index.postingOffsets.asSlice[symbol.val + 1]? with
    | some start, some stop => slice index.postings.asSlice start stop
    | _, _ => .ok []

def frequency (index : PostingsIndex) (symbol : Symbol) : Result R Nat := do
  return (← index.postingSlice symbol).length

/-- The symbols of non-empty posting lists; `Symbol::from_usize` is unwrapped. -/
def alphabet (index : PostingsIndex) : Result R (List Symbol) :=
  ((windows index.postingOffsets.asSlice).zipIdx.filter (fun entry => entry.1.1 ≠ entry.1.2)).mapM
    (fun entry => unwrapResult (Symbol.fromUsize entry.2))

def verifyPosting (corpus : CorpusStore) (symbol : Symbol) (posting : Posting) :
    Result R PUnit := do
  let found ← corpus.stringWithoutSymbolValidation posting.stringId
  let string ← okOr (.invalidFile "posting sequence id is out of range") found
  if string[posting.position.val]? ≠ some symbol then
    fail (.invalidFile "posting does not match the corpus")

def verifySymbol (index : PostingsIndex) (corpus : CorpusStore)
    (entry : (Nat × Nat) × Nat) : Result R PUnit := do
  let symbol ← Symbol.fromUsize entry.2
  let postings ← slice index.postings.asSlice entry.1.1 entry.1.2
  if (windows postings).any (fun pair => pair.2.key ≤ pair.1.key) then
    fail (.invalidFile "postings are not strictly ordered")
  postings.forM (verifyPosting corpus symbol)

def verify (index : PostingsIndex) (corpus : CorpusStore) : Result R PUnit := do
  if index.postings.asSlice.length ≠ corpus.symbols.asSlice.length then
    fail (.invalidFile "posting count does not match corpus symbol count")
  (windows index.postingOffsets.asSlice).zipIdx.forM (index.verifySymbol corpus)

def lists (index : PostingsIndex) : List (List Posting) :=
  pieces index.postingOffsets.asSlice index.postings.asSlice

def listed (index : PostingsIndex) (symbol : Symbol) : List Posting :=
  index.lists[symbol.val]?.getD []

structure WellFormed (index : PostingsIndex) : Prop where
  offsets : Offsets.WellFormed index.postingOffsets.asSlice index.postings.asSlice.length
  /-- Every list belongs to a symbol other than the reserved one. -/
  count : index.lists.length < 2 ^ 32

/-- Every non-empty list belongs to a symbol other than the reserved one. -/
structure WellListed (index : PostingsIndex) : Prop where
  offsets : Offsets.WellFormed index.postingOffsets.asSlice index.postings.asSlice.length
  named : ∀ i list, index.lists[i]? = some list → list ≠ [] → i < 2 ^ 32 - 1

variable {index : PostingsIndex} {corpus : CorpusStore} {R : Type}

theorem WellFormed.wellListed (wf : index.WellFormed) : index.WellListed where
  offsets := wf.offsets
  named i list found _ := by
    have count := wf.count
    have inside := (List.getElem?_eq_some_iff.mp found).1
    omega

theorem mem_listed {symbol : Symbol} {posting : Posting} (mem : posting ∈ index.listed symbol) :
    symbol.val < index.lists.length ∧ posting ∈ index.postings.asSlice := by
  unfold listed at mem
  cases found : index.lists[symbol.val]? with
  | none => simp [found] at mem
  | some list =>
    rw [found, Option.getD_some] at mem
    refine ⟨(List.getElem?_eq_some_iff.mp found).1, ?_⟩
    obtain ⟨bounds, _, rfl⟩ := List.mem_map.mp (List.mem_of_getElem? found)
    exact List.mem_of_mem_drop (List.mem_of_mem_take mem)

namespace WellListed

theorem postingSlice_ok (wf : index.WellListed) (symbol : Symbol) :
    index.postingSlice (R := R) symbol = .ok (index.listed symbol) := by
  unfold postingSlice listed
  split
  · rename_i unknown
    rw [Symbol.isUnknown_iff] at unknown
    cases found : index.lists[symbol.val]? with
    | none => rfl
    | some list =>
      have empty : list = [] := by
        by_contra nonempty
        have bound := wf.named symbol.val list found nonempty
        omega
      rw [empty]
      rfl
  · rw [lists, getElem?_pieces]
    cases left : index.postingOffsets.asSlice[symbol.val]? with
    | none => rfl
    | some start =>
      cases right : index.postingOffsets.asSlice[symbol.val + 1]? with
      | none => rfl
      | some stop =>
        obtain ⟨ordered, inside⟩ := wf.offsets.bounds left right
        exact slice_ok ordered inside

theorem frequency_ok (wf : index.WellListed) (symbol : Symbol) :
    index.frequency (R := R) symbol = .ok (index.listed symbol).length := by
  simp only [frequency, wf.postingSlice_ok, bind_ok]
  rfl

theorem named_window (wf : index.WellListed) {entry : (Nat × Nat) × Nat}
    (mem : entry ∈ (windows index.postingOffsets.asSlice).zipIdx) (differ : entry.1.1 ≠ entry.1.2) :
    ∃ symbol : Symbol, symbol.val = entry.2 ∧
      unwrapResult (Symbol.fromUsize (R := R) entry.2) = .ok symbol ∧
      index.listed symbol ≠ [] := by
  obtain ⟨bounds, i⟩ := entry
  obtain ⟨inside, same⟩ := List.mem_zipIdx' mem
  have size : i < index.lists.length := by simpa [lists] using inside
  have here : index.lists[i] = piece index.postings.asSlice bounds := by
    simp only [lists, pieces, List.getElem_map, same]
  have nonempty : index.lists[i] ≠ [] := by
    obtain ⟨ordered, within⟩ := wf.offsets.window (List.getElem_mem inside)
    rw [here, ne_eq, piece, List.take_eq_nil_iff, List.drop_eq_nil_iff]
    rw [← same] at ordered within
    simp only at differ
    omega
  have bound := wf.named i _ (List.getElem?_eq_getElem size) nonempty
  refine ⟨⟨i, by omega⟩, rfl, ?_, ?_⟩
  · have found : Symbol.fromUsize (R := R) i = .ok ⟨i, by omega⟩ :=
      Symbol.fromUsize_eq_ok.mpr ⟨rfl, bound⟩
    simp only [found]
    rfl
  · rw [listed, List.getElem?_eq_getElem size]
    exact nonempty

theorem window_of_listed {symbol : Symbol} (nonempty : index.listed symbol ≠ []) :
    ∃ entry ∈ (windows index.postingOffsets.asSlice).zipIdx, entry.1.1 ≠ entry.1.2 ∧
      entry.2 = symbol.val := by
  obtain ⟨posting, mem⟩ := List.exists_mem_of_ne_nil _ nonempty
  have inside : symbol.val < (windows index.postingOffsets.asSlice).length := by
    simpa [lists] using (mem_listed mem).1
  refine ⟨((windows index.postingOffsets.asSlice)[symbol.val], symbol.val),
    List.mk_mem_zipIdx_iff_getElem?.mpr (List.getElem?_eq_getElem inside), ?_, rfl⟩
  intro same
  apply nonempty
  rw [listed, lists, pieces, List.getElem?_map, List.getElem?_eq_getElem inside, Option.map_some,
    Option.getD_some, piece, same, Nat.sub_self, List.take_zero]

/-- The alphabet is the strictly increasing list of the symbols that have a posting. -/
theorem alphabet_ok (wf : index.WellListed) :
    ∃ alphabet, index.alphabet (R := R) = .ok alphabet ∧ alphabet.Pairwise (· < ·) ∧
      ∀ symbol, symbol ∈ alphabet ↔ index.listed symbol ≠ [] := by
  unfold alphabet
  generalize source : (windows index.postingOffsets.asSlice).zipIdx.filter
    (fun entry => decide (entry.1.1 ≠ entry.1.2)) = entries
  have kept {entry : (Nat × Nat) × Nat} : entry ∈ entries ↔
      entry ∈ (windows index.postingOffsets.asSlice).zipIdx ∧ entry.1.1 ≠ entry.1.2 := by
    rw [← source, List.mem_filter, decide_eq_true_eq]
  have mapped : Ensures (List.Forall₂ (fun entry (symbol : Symbol) => symbol.val = entry.2)
      entries) (fun _ => False)
      (entries.mapM (fun entry => unwrapResult (Symbol.fromUsize (R := R) entry.2))) := by
    refine Ensures.mapM ?_
    intro entry mem
    obtain ⟨symbol, same, found, _⟩ := wf.named_window (R := R) (kept.mp mem).1 (kept.mp mem).2
    rw [found]
    exact same
  obtain ⟨alphabet, returned, values⟩ := mapped.returns
  have raw : alphabet.map Fin.val = entries.map Prod.snd := by
    rw [← List.forall₂_eq_eq_eq, List.forall₂_map_left_iff, List.forall₂_map_right_iff]
    exact values.flip
  have increasing : (entries.map Prod.snd).Pairwise (· < ·) := by
    rw [← source]
    refine List.Pairwise.sublist (List.filter_sublist.map _) ?_
    rw [List.zipIdx_map_snd]
    exact List.pairwise_lt_range'
  refine ⟨alphabet, returned, ?_, ?_⟩
  · rw [← raw, List.pairwise_map] at increasing
    exact increasing
  · intro symbol
    have member : symbol ∈ alphabet ↔ symbol.val ∈ entries.map Prod.snd := by
      rw [← raw, List.mem_map]
      exact ⟨fun mem => ⟨symbol, mem, rfl⟩, fun ⟨other, mem, same⟩ => Fin.ext same ▸ mem⟩
    rw [member, List.mem_map]
    constructor
    · rintro ⟨entry, mem, same⟩
      obtain ⟨other, known, _, nonempty⟩ :=
        wf.named_window (R := R) (kept.mp mem).1 (kept.mp mem).2
      obtain rfl : symbol = other := Fin.ext (by omega)
      exact nonempty
    · intro nonempty
      obtain ⟨entry, mem, differ, same⟩ := window_of_listed nonempty
      exact ⟨entry, kept.mpr ⟨mem, differ⟩, same⟩

end WellListed

theorem postingSlice_ok (wf : index.WellFormed) (symbol : Symbol) :
    index.postingSlice (R := R) symbol = .ok (index.listed symbol) :=
  wf.wellListed.postingSlice_ok symbol

theorem frequency_ok (wf : index.WellFormed) (symbol : Symbol) :
    index.frequency (R := R) symbol = .ok (index.listed symbol).length :=
  wf.wellListed.frequency_ok symbol

theorem alphabet_ok (wf : index.WellFormed) :
    ∃ alphabet, index.alphabet (R := R) = .ok alphabet ∧ alphabet.Pairwise (· < ·) ∧
      ∀ symbol, symbol ∈ alphabet ↔ index.listed symbol ≠ [] :=
  wf.wellListed.alphabet_ok

/-- The windows of the offsets bound the lists, symbol by symbol. -/
theorem getElem_windows (wf : index.WellFormed) {i : Nat}
    (inside : i < (windows index.postingOffsets.asSlice).length) :
    ∃ symbol : Symbol, symbol.val = i ∧ i < 2 ^ 32 - 1 ∧
      slice (ε := Error R) index.postings.asSlice
        (windows index.postingOffsets.asSlice)[i].1 (windows index.postingOffsets.asSlice)[i].2 =
          .ok (index.listed symbol) := by
  have count := wf.count
  have size : i < index.lists.length := by simpa [lists] using inside
  obtain ⟨ordered, within⟩ := wf.offsets.window (List.getElem_mem inside)
  have here : index.listed ⟨i, by omega⟩ =
      piece index.postings.asSlice (windows index.postingOffsets.asSlice)[i] := by
    rw [listed, lists, pieces, List.getElem?_map, List.getElem?_eq_getElem inside]
    rfl
  refine ⟨⟨i, by omega⟩, rfl, by omega, ?_⟩
  rw [here]
  exact slice_ok ordered within

end PostingsIndex
end Yurine
