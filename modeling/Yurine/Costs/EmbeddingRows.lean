import Yurine.Costs.Embedding
import Yurine.Persistence.Container
import Mathlib.Data.Fintype.Card

/-! The rows of the embedding builder. Its tokens are numbered from zero in the order in which
they came, and the row of a token begins at a multiple of the dimension, so writing the row of
one token leaves the rows of all others as they are. -/
namespace Yurine
open Outcome Offsets CustomCosts

variable {T : Type}

section Rows
variable {len : Nat} {values : List U32}

theorem mem_chunksExact {row : List U32} : row ∈ chunksExact len values ↔
    ∃ i < values.length / len, rowAt len values i = row := by
  simp [chunksExact, rowAt]

theorem length_chunksExact : (chunksExact len values).length = values.length / len := by
  simp [chunksExact]

theorem length_rowAt {i : Nat} (inside : (i + 1) * len ≤ values.length) :
    (rowAt len values i).length = len := by
  rw [Nat.succ_mul] at inside
  rw [rowAt, List.length_take, List.length_drop]
  omega

theorem rowAt_append_left {before after : List U32} {i : Nat}
    (inside : (i + 1) * len ≤ before.length) :
    rowAt len (before ++ after) i = rowAt len before i := by
  rw [Nat.succ_mul] at inside
  rw [rowAt, rowAt, List.drop_append_of_le_length (by omega), List.take_append_of_le_length]
  rw [List.length_drop]
  omega

theorem rowAt_append_right {before after : List U32} {rows : Nat}
    (size : before.length = rows * len) (i : Nat) :
    rowAt len (before ++ after) (rows + i) = rowAt len after i := by
  rw [rowAt, rowAt, Nat.add_mul, ← size, List.drop_length_add_append]

theorem rowAt_append_self {before row : List U32} {rows : Nat}
    (size : before.length = rows * len) (fits : row.length = len) (after : List U32) :
    rowAt len (before ++ (row ++ after)) rows = row := by
  have here : rowAt len (before ++ (row ++ after)) (rows + 0) = rowAt len (row ++ after) 0 :=
    rowAt_append_right size 0
  rwa [Nat.add_zero, rowAt.eq_def len (row ++ after), Nat.zero_mul, List.drop_zero,
    List.take_left' fits] at here

/-- A row of rows of one length is the row written there. -/
theorem rowAt_flatMap {α : Type} {f : α → List U32} {xs : List α}
    (uniform : ∀ x ∈ xs, (f x).length = len) {i : Nat} (inside : i < xs.length) :
    rowAt len (xs.flatMap f) i = f xs[i] := by
  induction xs generalizing i with
  | nil => cases inside
  | cons x xs ih =>
    have first := uniform x (by simp)
    cases i with
    | zero => rw [rowAt, Nat.zero_mul, List.drop_zero, List.flatMap_cons, List.take_left' first]; rfl
    | succ i =>
      have rest := ih (fun y mem => uniform y (List.mem_cons_of_mem x mem)) (i := i)
        (by simpa using inside)
      rw [rowAt] at rest ⊢
      rw [List.flatMap_cons, Nat.succ_mul, Nat.add_comm, ← List.drop_drop,
        List.drop_left' first, rest]
      rfl

/-- Overwriting a row changes no other row. -/
theorem rowAt_overwrite {row : List U32} {i : Nat} (inside : (i + 1) * len ≤ values.length)
    (fits : row.length = len) (j : Nat) :
    rowAt len (values.take (i * len) ++ row ++ values.drop (i * len + len)) j =
      if j = i then row else rowAt len values j := by
  rw [Nat.succ_mul] at inside
  have before : (values.take (i * len)).length = i * len := by
    rw [List.length_take]
    omega
  rcases Nat.lt_trichotomy j i with lower | rfl | higher
  · have size : (j + 1) * len ≤ (values.take (i * len)).length := by
      rw [before]
      exact Nat.mul_le_mul_right len lower
    have whole : rowAt len (values.take (i * len) ++ values.drop (i * len)) j = _ :=
      rowAt_append_left size
    rw [List.take_append_drop] at whole
    rw [if_neg (Nat.ne_of_lt lower), List.append_assoc, rowAt_append_left size, whole]
  · rw [if_pos rfl, List.append_assoc, rowAt_append_self before fits]
  · obtain ⟨k, rfl⟩ := Nat.exists_eq_add_of_le (Nat.succ_le_of_lt higher)
    have written : (values.take (i * len) ++ row).length = (i + 1) * len := by
      rw [List.length_append, before, fits, Nat.succ_mul]
    have kept : (values.take (i * len + len)).length = (i + 1) * len := by
      rw [List.length_take, Nat.succ_mul]
      omega
    rw [if_neg (Nat.ne_of_gt higher), rowAt_append_right written, ← rowAt_append_right kept,
      List.take_append_drop]

end Rows

/-- The tokens are numbered from zero, each with a number of its own. -/
structure Numbered (indices : RuleMap T U32) [DecidableEq T] (rows : Nat) : Prop where
  count : indices.keys.length = rows
  inside : ∀ token i, indices.lookup token = some i → i.val < rows
  distinct : ∀ first second i, indices.lookup first = some i → indices.lookup second = some i →
    first = second

variable [DecidableEq T]

theorem Numbered.empty : Numbered (∅ : RuleMap T U32) 0 := ⟨rfl, by simp, by simp⟩

theorem Numbered.insert {indices : RuleMap T U32} {rows : Nat} (numbered : Numbered indices rows)
    {token : T} {i : U32} (fresh : indices.lookup token = none) (next : i.val = rows) :
    Numbered (indices.insert token i) (rows + 1) := by
  have absent : token ∉ indices := AList.lookup_eq_none.mp fresh
  have entry {other : T} {j : U32} (found : (indices.insert token i).lookup other = some j) :
      other = token ∧ j = i ∨ indices.lookup other = some j := by
    by_cases same : other = token
    · rw [same, AList.lookup_insert, Option.some.injEq] at found
      exact .inl ⟨same, found.symm⟩
    · rw [AList.lookup_insert_ne same] at found
      exact .inr found
  constructor
  · rw [AList.keys_insert, List.length_cons, List.erase_of_not_mem absent, numbered.count]
  · intro other j found
    rcases entry found with ⟨_, rfl⟩ | old
    · omega
    · exact (numbered.inside other j old).trans (Nat.lt_succ_self rows)
  · intro first second j left right
    rcases entry left with ⟨here, rfl⟩ | before <;> rcases entry right with ⟨there, same⟩ | after
    · exact here.trans there.symm
    · exact absurd (numbered.inside second _ after) (by omega)
    · subst same
      exact absurd (numbered.inside first _ before) (by omega)
    · exact numbered.distinct first second j before after

theorem Numbered.nodup {indices : RuleMap T U32} {rows : Nat} (numbered : Numbered indices rows) :
    ((entriesOf indices).map Prod.snd).Nodup := by
  have lists := lists_entriesOf indices
  apply List.Nodup.map_on _ (List.Nodup.of_map _ lists.distinct)
  rintro ⟨first, i⟩ left ⟨second, j⟩ right (rfl : i = j)
  rw [numbered.distinct first second i ((lists.entries _ _).mp left) ((lists.entries _ _).mp right)]

theorem Numbered.length_entriesOf {indices : RuleMap T U32} {rows : Nat}
    (numbered : Numbered indices rows) : (entriesOf indices).length = rows := by
  rw [← numbered.count, entriesOf, List.length_map, AList.keys, List.keys, List.length_map]

theorem Numbered.few {indices : RuleMap T U32} {rows : Nat} (numbered : Numbered indices rows) :
    rows ≤ 2 ^ 32 := by
  have bound := numbered.nodup.length_le_card
  rwa [Fintype.card_fin, List.length_map, numbered.length_entriesOf] at bound

theorem Numbered.onto {indices : RuleMap T U32} {rows : Nat} (numbered : Numbered indices rows)
    {i : Nat} (inside : i < rows) : ∃ token index, indices.lookup token = some index ∧
      index.val = i := by
  have lists := lists_entriesOf indices
  have distinct : ((entriesOf indices).map fun entry => entry.2.val).Nodup := by
    have values := numbered.nodup.map Fin.val_injective
    rwa [List.map_map] at values
  have within : ((entriesOf indices).map fun entry => entry.2.val) ⊆ List.range rows := by
    intro number mem
    obtain ⟨⟨token, index⟩, entry, rfl⟩ := List.mem_map.mp mem
    exact List.mem_range.mpr (numbered.inside token index ((lists.entries _ _).mp entry))
  have all := (List.subperm_of_subset distinct within).perm_of_length_le
    (by rw [List.length_range, List.length_map, numbered.length_entriesOf])
  obtain ⟨⟨token, index⟩, entry, same⟩ := List.mem_map.mp (all.mem_iff.mpr (List.mem_range.mpr inside))
  exact ⟨token, index, (lists.entries _ _).mp entry, same⟩

namespace EmbeddingStoreBuilder
variable {builder : EmbeddingStoreBuilder T}

def len (builder : EmbeddingStoreBuilder T) : Nat := builder.embeddingIndices.keys.length

/-- What a builder says of a token: its row of the matrix. -/
def row (builder : EmbeddingStoreBuilder T) (token : T) : Option (List U32) :=
  (builder.embeddingIndices.lookup token).map fun index =>
    rowAt builder.dimension.val builder.embeddings index.val

/-- What `insert` does with a vector that it has checked and normalized. -/
def place (builder : EmbeddingStoreBuilder T) (token : T) (vector : List U32) :
    Result U32 (Option (List U32) × EmbeddingStoreBuilder T) :=
  let dimension := builder.dimension.val
  match builder.embeddingIndices.lookup token with
  | some index => do
    let start := index.val * dimension
    let previous ← slice builder.embeddings start (start + dimension)
    let embeddings := builder.embeddings.take start ++ vector ++
      builder.embeddings.drop (start + dimension)
    return (some previous, { builder with embeddings })
  | none =>
    if fits : builder.embeddings.length / dimension < 2 ^ 32 then
      let embeddingIndices := builder.embeddingIndices.insert token ⟨_, fits⟩
      let embeddings := builder.embeddings ++ vector
      return (none, { builder with embeddingIndices, embeddings })
    else fail .embeddingIndexOverflow

theorem insert_of_wrong {normalization : Normalization} {token : T} {embedding : List U32}
    (wrong : embedding.length ≠ builder.dimension.val) :
    builder.insert normalization token embedding =
      fail (.invalidEmbeddingDimension builder.dimension.val embedding.length) := by
  rw [insert, if_pos wrong]
  rfl

theorem insert_of_length {normalization : Normalization} {token : T} {embedding : List U32}
    (fits : embedding.length = builder.dimension.val) :
    builder.insert normalization token embedding = (normalization.check embedding >>= fun _ =>
      builder.place token (embedding.map (normalization.scale embedding))) := by
  rw [insert, if_neg (not_not.mpr fits)]
  rfl

/-- Every number is the number of a row. -/
structure Rowed (builder : EmbeddingStoreBuilder T) : Prop where
  numbered : Numbered builder.embeddingIndices builder.len
  matrix : builder.embeddings.length = builder.len * builder.dimension.val

theorem Rowed.new (dimension : NonZero) : Rowed (new dimension : EmbeddingStoreBuilder T) := by
  constructor
  · exact Numbered.empty
  · exact (Nat.zero_mul dimension.val).symm

/-- The next builder has a new row for this token and the old rows for all others. -/
structure Writes (builder : EmbeddingStoreBuilder T) (token : T) (vector : List U32)
    (next : EmbeddingStoreBuilder T) : Prop where
  rowed : next.Rowed
  dimension : next.dimension = builder.dimension
  row : next.row = Function.update builder.row token (some vector)

/-- There is a number for the token. -/
def Room (builder : EmbeddingStoreBuilder T) (token : T) : Prop :=
  builder.row token ≠ none ∨ builder.len < 2 ^ 32

theorem Rowed.inside (rowed : builder.Rowed) {token : T} {index : U32}
    (found : builder.embeddingIndices.lookup token = some index) :
    (index.val + 1) * builder.dimension.val ≤ builder.embeddings.length := by
  rw [rowed.matrix]
  exact Nat.mul_le_mul_right _ (rowed.numbered.inside token index found)

theorem Rowed.overwrites (rowed : builder.Rowed) {token : T} {index : U32} {vector : List U32}
    (found : builder.embeddingIndices.lookup token = some index)
    (fits : vector.length = builder.dimension.val) :
    builder.Writes token vector { builder with
      embeddings := builder.embeddings.take (index.val * builder.dimension.val) ++ vector ++
        builder.embeddings.drop (index.val * builder.dimension.val + builder.dimension.val) } := by
  have inside := rowed.inside found
  constructor
  · constructor
    · exact rowed.numbered
    · rw [Nat.succ_mul] at inside
      apply Eq.trans _ rowed.matrix
      rw [List.length_append, List.length_append, List.length_take, List.length_drop]
      omega
  · rfl
  · funext other
    rw [row]
    by_cases same : other = token
    · rw [same, found, Function.update_self, Option.map_some, rowAt_overwrite inside fits,
        if_pos rfl]
    · rw [Function.update_of_ne same, row]
      apply Option.map_congr
      intro i there
      have apart : i.val ≠ index.val := by
        intro equal
        rw [Fin.ext equal] at there
        exact same (rowed.numbered.distinct other token index there found)
      rw [rowAt_overwrite inside fits, if_neg apart]

theorem Rowed.appends (rowed : builder.Rowed) {token : T} {index : U32} {vector : List U32}
    (missing : builder.embeddingIndices.lookup token = none) (next : index.val = builder.len)
    (fits : vector.length = builder.dimension.val) :
    builder.Writes token vector { builder with
      embeddingIndices := builder.embeddingIndices.insert token index
      embeddings := builder.embeddings ++ vector } := by
  have more := rowed.numbered.insert missing next
  constructor
  · constructor
    · rw [len, more.count]
      exact more
    · rw [len, more.count, List.length_append, rowed.matrix, fits, Nat.succ_mul]
  · rfl
  · funext other
    rw [row]
    by_cases same : other = token
    · have appended := rowAt_append_self rowed.matrix fits []
      rw [List.append_nil, ← next] at appended
      rw [same, AList.lookup_insert, Function.update_self, Option.map_some, appended]
    · rw [AList.lookup_insert_ne same, Function.update_of_ne same, row]
      apply Option.map_congr
      intro i there
      rw [rowAt_append_left (rowed.inside there)]

theorem Rowed.ensures_place (rowed : builder.Rowed) (token : T) {vector : List U32}
    (fits : vector.length = builder.dimension.val) :
    Ensures (fun result => result.1 = builder.row token ∧ builder.Room token ∧
        builder.Writes token vector result.2)
      (fun reason => reason = .embeddingIndexOverflow ∧ ¬ builder.Room token)
      (builder.place token vector) := by
  rw [place]
  cases found : builder.embeddingIndices.lookup token with
  | some index =>
    have inside := rowed.inside found
    rw [Nat.succ_mul] at inside
    have known : builder.row token = some (rowAt builder.dimension.val builder.embeddings
        index.val) := by
      rw [row, found, Option.map_some]
    have cut : slice builder.embeddings (index.val * builder.dimension.val)
        (index.val * builder.dimension.val + builder.dimension.val) =
        (.ok (rowAt builder.dimension.val builder.embeddings index.val) :
          Result U32 (List U32)) := by
      rw [slice_ok (Nat.le_add_right _ _) inside, Nat.add_sub_cancel_left, rowAt]
    simp only [cut, bind_ok]
    apply ensures_ok.mpr
    exact ⟨known.symm, .inl (known ▸ Option.some_ne_none _), rowed.overwrites found fits⟩
  | none =>
    have unknown : builder.row token = none := by
      rw [row, found, Option.map_none]
    have positive := Nat.pos_of_ne_zero builder.dimension.property
    have number : builder.embeddings.length / builder.dimension.val = builder.len := by
      rw [rowed.matrix, Nat.mul_div_cancel _ positive]
    by_cases room : builder.embeddings.length / builder.dimension.val < 2 ^ 32
    · simp only [dif_pos room]
      apply ensures_ok.mpr
      exact ⟨unknown.symm, .inr (number ▸ room), rowed.appends found number fits⟩
    · simp only [dif_neg room]
      apply ensures_fail.mpr
      rw [number] at room
      exact ⟨rfl, fun either => either.elim (absurd unknown) room⟩

end EmbeddingStoreBuilder
end Yurine
