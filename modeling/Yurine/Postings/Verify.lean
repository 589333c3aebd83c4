import Yurine.Postings
import Mathlib.Data.List.Perm.Subperm

/-! What `PostingsIndex::verify` decides. It never looks for a missing posting; that none is
missing follows from the count, because listed places are distinct places of the corpus. -/
namespace Yurine.PostingsIndex
open Outcome Offsets

/-- What verification checks. -/
structure Checked (index : PostingsIndex) (corpus : CorpusStore) : Prop where
  count : index.postings.asSlice.length = corpus.symbols.asSlice.length
  ordered : ∀ symbol, (index.listed symbol).Pairwise (fun a b => a.key < b.key)
  occurs : ∀ symbol, ∀ posting ∈ index.listed symbol,
    corpus.symbolAt posting.place = some symbol

/-- The lists are the inverted index of the corpus: each is the strictly increasing list of
exactly the places its symbol occurs at. -/
structure Inverts (index : PostingsIndex) (corpus : CorpusStore) : Prop where
  ordered : ∀ symbol, (index.listed symbol).Pairwise (fun a b => a.key < b.key)
  exact : ∀ symbol place, place ∈ (index.listed symbol).map Posting.place ↔
    corpus.symbolAt place = some symbol

variable {index : PostingsIndex} {corpus : CorpusStore} {R : Type}

theorem decides_verifyPosting (wf : corpus.WellFormed) (symbol : Symbol) (posting : Posting) :
    Decides (corpus.symbolAt posting.place = some symbol) (fun e => ∃ reason, e = .invalidFile reason)
      (verifyPosting (R := R) corpus symbol posting) := by
  unfold verifyPosting CorpusStore.symbolAt Posting.place
  rw [CorpusStore.stringWithoutSymbolValidation_ok wf, bind_ok]
  cases found : corpus.strings[posting.stringId.val]? with
  | none => exact ⟨by simp, _, rfl⟩
  | some string =>
    rw [okOr_some, bind_ok]
    exact (Decides.guard_last ⟨_, rfl⟩).congr (by simp)

private theorem ordered_iff {postings : List Posting} :
    ¬ ((windows postings).any (fun pair => pair.2.key ≤ pair.1.key)) = true ↔
      postings.Pairwise (fun a b => a.key < b.key) := by
  have trans : IsTrans Posting (fun a b => a.key < b.key) := ⟨fun _ _ _ => lt_trans⟩
  rw [← List.isChain_iff_pairwise, isChain_iff_windows]
  simp

theorem decides_verifySymbol (iwf : index.WellFormed) (wf : corpus.WellFormed) {i : Nat}
    (inside : i < (windows index.postingOffsets.asSlice).length) :
    Decides (∀ symbol : Symbol, symbol.val = i →
        (index.listed symbol).Pairwise (fun a b => a.key < b.key) ∧
        ∀ posting ∈ index.listed symbol, corpus.symbolAt posting.place = some symbol)
      (fun e => ∃ reason, e = .invalidFile reason)
      (index.verifySymbol (R := R) corpus ((windows index.postingOffsets.asSlice)[i], i)) := by
  obtain ⟨symbol, position, bound, sliced⟩ := getElem_windows (R := R) iwf inside
  unfold verifySymbol
  rw [(Symbol.fromUsize_eq_ok (R := R)).mpr ⟨position, bound⟩, bind_ok, sliced, bind_ok]
  refine (Decides.guard ⟨_, rfl⟩ (fun _ => Decides.forM
    (fun posting _ => decides_verifyPosting wf symbol posting))).congr ?_
  rw [ordered_iff]
  constructor
  · rintro checked other same
    obtain rfl : other = symbol := Fin.ext (by omega)
    exact checked
  · exact fun checked => checked symbol position

/-- Verification decides its checks and nothing else. -/
theorem decides_verify (iwf : index.WellFormed) (wf : corpus.WellFormed) :
    Decides (index.Checked corpus) (fun e => ∃ reason, e = .invalidFile reason)
      (index.verify (R := R) corpus) := by
  unfold verify
  refine (Decides.guard ⟨_, rfl⟩ (fun _ => Decides.forM (P := fun entry : (Nat × Nat) × Nat =>
      ∀ symbol : Symbol, symbol.val = entry.2 →
        (index.listed symbol).Pairwise (fun a b => a.key < b.key) ∧
        ∀ posting ∈ index.listed symbol, corpus.symbolAt posting.place = some symbol) ?_)).congr ?_
  · rintro ⟨bounds, i⟩ mem
    obtain ⟨inside, bounds_eq⟩ := List.mem_zipIdx' mem
    rw [bounds_eq]
    exact decides_verifySymbol iwf wf inside
  · constructor
    · rintro ⟨count, checks⟩
      have each (symbol : Symbol) : (index.listed symbol).Pairwise (fun a b => a.key < b.key) ∧
          ∀ posting ∈ index.listed symbol, corpus.symbolAt posting.place = some symbol := by
        rcases Nat.lt_or_ge symbol.val (windows index.postingOffsets.asSlice).length with h | h
        · exact checks (_, symbol.val)
            (List.mk_mem_zipIdx_iff_getElem?.mpr (List.getElem?_eq_getElem h)) symbol rfl
        · have empty : index.listed symbol = [] := by
            rw [listed, List.getElem?_eq_none (by rw [lists, pieces, List.length_map]; exact h)]
            rfl
          simp [empty]
      exact ⟨by simpa using count, fun symbol => (each symbol).1, fun symbol => (each symbol).2⟩
    · rintro ⟨count, ordered, occurs⟩
      exact ⟨by simpa using count, fun _ _ symbol _ => ⟨ordered symbol, occurs symbol⟩⟩

theorem mem_postings (iwf : index.WellFormed) {posting : Posting} :
    posting ∈ index.postings.asSlice ↔ ∃ symbol, posting ∈ index.listed symbol := by
  constructor
  · intro mem
    rw [← iwf.offsets.flatten, ← lists, List.mem_flatten] at mem
    obtain ⟨list, hlist, mem⟩ := mem
    obtain ⟨i, inside, rfl⟩ := List.mem_iff_getElem.mp hlist
    have := iwf.count
    refine ⟨⟨i, by omega⟩, ?_⟩
    rw [listed, List.getElem?_eq_getElem inside]
    exact mem
  · rintro ⟨symbol, mem⟩
    exact (mem_listed mem).2

/-- Lists that are ordered and name occurrences of their own symbols are disjoint. -/
theorem nodup_places (iwf : index.WellFormed)
    (ordered : ∀ symbol, (index.listed symbol).Pairwise (fun a b => a.key < b.key))
    (occurs : ∀ symbol, ∀ posting ∈ index.listed symbol,
      corpus.symbolAt posting.place = some symbol) :
    (index.postings.asSlice.map Posting.place).Nodup := by
  refine List.Nodup.map Posting.place_injective ?_
  rw [← iwf.offsets.flatten, ← lists, List.nodup_flatten]
  have count := iwf.count
  have at_symbol {i : Nat} (inside : i < index.lists.length) :
      index.listed ⟨i, by omega⟩ = index.lists[i] := by
    rw [listed, List.getElem?_eq_getElem inside]
    rfl
  constructor
  · intro list mem
    obtain ⟨i, inside, rfl⟩ := List.mem_iff_getElem.mp mem
    rw [← at_symbol inside]
    exact (ordered _).imp (fun less same => (same ▸ less).ne rfl)
  · rw [List.pairwise_iff_getElem]
    intro i j hi hj less
    rw [List.disjoint_left]
    intro posting first second
    rw [← at_symbol hi] at first
    rw [← at_symbol hj] at second
    have := (occurs _ _ first).symm.trans (occurs _ _ second)
    have := congrArg Fin.val (Option.some.inj this)
    simp only at this
    omega

/-- Checked lists over a corpus of known symbols are complete: there are as many distinct
listed places as places of the corpus. -/
theorem Checked.inverts (iwf : index.WellFormed) (wf : corpus.WellFormed)
    (checked : index.Checked corpus) : index.Inverts corpus := by
  have nodup := nodup_places iwf checked.ordered checked.occurs
  have inside : index.postings.asSlice.map Posting.place ⊆ corpus.places := by
    intro place mem
    obtain ⟨posting, found, rfl⟩ := List.mem_map.mp mem
    obtain ⟨symbol, found⟩ := (mem_postings iwf).mp found
    exact CorpusStore.mem_places.mpr ⟨symbol, checked.occurs symbol posting found⟩
  have all : (index.postings.asSlice.map Posting.place).Perm corpus.places := by
    refine (List.subperm_of_subset nodup inside).perm_of_length_le ?_
    rw [List.length_map, CorpusStore.length_places wf, checked.count]
  refine ⟨checked.ordered, fun symbol place => ⟨?_, ?_⟩⟩
  · intro mem
    obtain ⟨posting, found, rfl⟩ := List.mem_map.mp mem
    exact checked.occurs symbol posting found
  · intro here
    have mem := all.mem_iff.mpr (CorpusStore.mem_places.mpr ⟨symbol, here⟩)
    obtain ⟨posting, found, rfl⟩ := List.mem_map.mp mem
    obtain ⟨other, found⟩ := (mem_postings iwf).mp found
    obtain rfl : symbol = other :=
      Option.some.inj (here.symm.trans (checked.occurs other posting found))
    exact List.mem_map.mpr ⟨posting, found, rfl⟩

theorem Inverts.checked (iwf : index.WellFormed) (wf : corpus.WellFormed)
    (inverts : index.Inverts corpus) : index.Checked corpus := by
  have occurs (symbol : Symbol) (posting : Posting) (mem : posting ∈ index.listed symbol) :
      corpus.symbolAt posting.place = some symbol :=
    (inverts.exact symbol posting.place).mp (List.mem_map.mpr ⟨posting, mem, rfl⟩)
  refine ⟨?_, inverts.ordered, occurs⟩
  have nodup := nodup_places iwf inverts.ordered occurs
  have all : (index.postings.asSlice.map Posting.place).Perm corpus.places := by
    refine (List.perm_ext_iff_of_nodup nodup corpus.nodup_places).mpr (fun place => ?_)
    rw [CorpusStore.mem_places]
    constructor
    · intro mem
      obtain ⟨posting, found, rfl⟩ := List.mem_map.mp mem
      obtain ⟨symbol, found⟩ := (mem_postings iwf).mp found
      exact ⟨symbol, occurs symbol posting found⟩
    · rintro ⟨symbol, here⟩
      obtain ⟨posting, mem, rfl⟩ := List.mem_map.mp ((inverts.exact symbol place).mpr here)
      exact List.mem_map.mpr ⟨posting, (mem_listed mem).2, rfl⟩
  rw [← CorpusStore.length_places wf, ← all.length_eq, List.length_map]

theorem checked_iff (iwf : index.WellFormed) (wf : corpus.WellFormed) :
    index.Checked corpus ↔ index.Inverts corpus :=
  ⟨Checked.inverts iwf wf, Inverts.checked iwf wf⟩

end Yurine.PostingsIndex
