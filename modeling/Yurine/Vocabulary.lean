import Yurine.Types
import Yurine.Library.Sorting
import Mathlib.Data.List.AList

/-! The vocabulary: distinct tokens numbered by descending frequency. A builder and a
vocabulary carry the agreement of their two tables, so a token and its symbol determine
each other in every vocabulary there is. -/
namespace Yurine
open Outcome Sorting

variable {T R : Type} [DecidableEq T]

structure VocabularyBuilder (T : Type) [DecidableEq T] where
  tokens : List T
  frequencies : AList (fun _ : T => Nat)
  distinct : tokens.Nodup
  counted : ∀ token, token ∈ frequencies ↔ token ∈ tokens

namespace VocabularyBuilder

def new : VocabularyBuilder T := ⟨[], ∅, List.nodup_nil, by simp⟩

def insert (builder : VocabularyBuilder T) (token : T) : VocabularyBuilder T :=
  match found : builder.frequencies.lookup token with
  | some frequency =>
    { builder with
      frequencies := builder.frequencies.insert token (frequency + 1)
      counted := fun other => by
        have known : token ∈ builder.tokens :=
          (builder.counted token).mp (AList.lookup_isSome.mp (by simp [found]))
        rw [AList.mem_insert, builder.counted]
        constructor
        · rintro (rfl | mem)
          · exact known
          · exact mem
        · exact Or.inr }
  | none =>
    { tokens := builder.tokens ++ [token]
      frequencies := builder.frequencies.insert token 1
      distinct := by
        have new : token ∉ builder.tokens := fun mem =>
          AList.lookup_eq_none.mp found ((builder.counted token).mpr mem)
        exact (List.nodup_append_comm.mp (List.nodup_cons.mpr ⟨new, builder.distinct⟩))
      counted := fun other => by
        rw [AList.mem_insert, builder.counted]
        simp [or_comm] }

def insertAll (builder : VocabularyBuilder T) (tokens : List T) : VocabularyBuilder T :=
  tokens.foldl insert builder

/-- `self.frequencies[token]`. -/
def frequency (builder : VocabularyBuilder T) (token : { token // token ∈ builder.tokens }) : Nat :=
  (builder.frequencies.lookup token.1).get
    (AList.lookup_isSome.mpr ((builder.counted token.1).mpr token.2))

/-- The tokens by descending frequency; equal frequencies keep their first-seen order. -/
def byFrequency (builder : VocabularyBuilder T) : List T :=
  (sortByKey (fun token => OrderDual.toDual (builder.frequency token))
    builder.tokens.attach).map Subtype.val

@[simp] theorem mem_tokens_insert {builder : VocabularyBuilder T} {token other : T} :
    other ∈ (builder.insert token).tokens ↔ other = token ∨ other ∈ builder.tokens := by
  unfold insert
  split
  · rename_i frequency found
    have known : token ∈ builder.tokens :=
      (builder.counted token).mp (AList.lookup_isSome.mp (by simp [found]))
    exact ⟨Or.inr, fun h => h.elim (fun same => same ▸ known) id⟩
  · simp [or_comm]

@[simp] theorem mem_tokens_insertAll {builder : VocabularyBuilder T} {tokens : List T}
    {token : T} :
    token ∈ (builder.insertAll tokens).tokens ↔ token ∈ tokens ∨ token ∈ builder.tokens := by
  induction tokens generalizing builder with
  | nil => simp [insertAll]
  | cons first tokens ih =>
    change token ∈ ((builder.insert first).insertAll tokens).tokens ↔ _
    rw [ih, mem_tokens_insert, List.mem_cons]
    tauto

theorem byFrequency_perm (builder : VocabularyBuilder T) :
    builder.byFrequency.Perm builder.tokens := by
  have sorted := (sortByKey_perm (fun token => OrderDual.toDual (builder.frequency token))
    builder.tokens.attach).map Subtype.val
  rwa [List.attach_map_subtype_val] at sorted

end VocabularyBuilder

/-- `symbols` numbers the tokens of a list by their positions. -/
structure Assigns (tokens : List T) (symbols : AList (fun _ : T => Symbol)) : Prop where
  inverse : ∀ token symbol, symbols.lookup token = some symbol ↔ tokens[symbol.val]? = some token
  count : tokens.length < 2 ^ 32

theorem Assigns.nil : Assigns ([] : List T) ∅ := ⟨by simp, by simp⟩

theorem Assigns.mem {tokens : List T} {symbols : AList (fun _ : T => Symbol)}
    (assigns : Assigns tokens symbols) {token : T} : token ∈ symbols ↔ token ∈ tokens := by
  rw [← AList.lookup_isSome, Option.isSome_iff_exists]
  constructor
  · rintro ⟨symbol, found⟩
    exact List.mem_of_getElem? ((assigns.inverse token symbol).mp found)
  · intro mem
    obtain ⟨i, inside, rfl⟩ := List.mem_iff_getElem.mp mem
    have small := assigns.count
    exact ⟨⟨i, by omega⟩, (assigns.inverse _ _).mpr (List.getElem?_eq_getElem inside)⟩

theorem Assigns.nodup {tokens : List T} {symbols : AList (fun _ : T => Symbol)}
    (assigns : Assigns tokens symbols) : tokens.Nodup := by
  have small := assigns.count
  rw [List.nodup_iff_injective_getElem]
  intro i j same
  have here := (assigns.inverse tokens[i] ⟨i, by omega⟩).mpr (List.getElem?_eq_getElem i.isLt)
  have there := (assigns.inverse tokens[j] ⟨j, by omega⟩).mpr (List.getElem?_eq_getElem j.isLt)
  have equal : tokens[i] = tokens[j] := same
  rw [equal, there, Option.some.injEq, Fin.mk.injEq] at here
  exact Fin.ext here.symm

theorem Assigns.concat {tokens : List T} {symbols : AList (fun _ : T => Symbol)}
    (assigns : Assigns tokens symbols) {token : T} (new : token ∉ tokens) {symbol : Symbol}
    (position : symbol.val = tokens.length) (bound : tokens.length < 2 ^ 32 - 1) :
    Assigns (tokens ++ [token]) (symbols.insert token symbol) := by
  refine ⟨fun other found => ?_, by simp; omega⟩
  by_cases same : other = token
  · subst same
    rw [AList.lookup_insert, Option.some.injEq]
    constructor
    · rintro rfl
      simp [position]
    · intro at_found
      rcases Nat.lt_or_ge found.val tokens.length with before | after
      · rw [List.getElem?_append_left before] at at_found
        exact absurd (List.mem_of_getElem? at_found) new
      · have := (List.getElem?_eq_some_iff.mp at_found).1
        simp only [List.length_append, List.length_singleton] at this
        exact Fin.ext (by omega)
  · rw [AList.lookup_insert_ne same, assigns.inverse]
    rcases Nat.lt_or_ge found.val tokens.length with before | after
    · rw [List.getElem?_append_left before]
    · rw [List.getElem?_append_right after, List.getElem?_eq_none after]
      simp only [reduceCtorEq, false_iff]
      intro at_found
      have := List.mem_of_getElem? at_found
      exact same (List.mem_singleton.mp this)

/-- The numbering loop of `VocabularyBuilder::build`. -/
def assign (tokens : List T) : Result R (AList (fun _ : T => Symbol)) :=
  tokens.zipIdx.foldlM (fun symbols entry => do
    let symbol ← Symbol.fromUsize entry.2
    return symbols.insert entry.1 symbol) ∅

/-- The numbering loop of `Vocabulary::from_tokens`, which rejects repetitions. -/
def assignDistinct (tokens : List T) : Result R (AList (fun _ : T => Symbol)) :=
  tokens.zipIdx.foldlM (fun symbols entry => do
    let symbol ← Symbol.fromUsize entry.2
    if entry.1 ∈ symbols then
      fail (.invalidFile "decoded vocabulary contains duplicate tokens")
    return symbols.insert entry.1 symbol) ∅

theorem ensures_assign {tokens : List T} (distinct : tokens.Nodup) :
    Ensures (Assigns tokens) (fun e => e = .symbolOverflow ∧ 2 ^ 32 ≤ tokens.length)
      (assign (R := R) tokens) := by
  have loop := Ensures.foldlM_zipIdx (ε := Error R)
    (E := fun e => e = .symbolOverflow ∧ 2 ^ 32 ≤ tokens.length)
    (motive := fun k symbols => Assigns (tokens.take k) symbols) (l := tokens)
    (f := fun symbols entry => do
      let symbol ← Symbol.fromUsize entry.2
      return symbols.insert entry.1 symbol) (s := ∅) Assigns.nil ?_
  · simpa only [List.take_length, assign] using loop
  · intro i inside symbols assigns
    refine Ensures.bind ((Symbol.ensures_fromUsize i).mono (fun _ h => h)
      (fun e h => ⟨h.1, by omega⟩)) ?_
    rintro symbol ⟨position, bound⟩
    have new : tokens[i] ∉ tokens.take i := by
      rw [List.nodup_iff_injective_getElem] at distinct
      intro mem
      obtain ⟨j, hj, same⟩ := List.mem_take_iff_getElem.mp mem
      have := congrArg Fin.val (@distinct ⟨j, by omega⟩ ⟨i, inside⟩ same)
      simp only at this
      omega
    rw [ensures_pure, ← List.take_append_getElem inside]
    have size : (tokens.take i).length = i := by simp; omega
    exact assigns.concat new (by omega) (by omega)

theorem ensures_assignDistinct (tokens : List T) :
    Ensures (Assigns tokens) (fun e => (e = .symbolOverflow ∧ 2 ^ 32 ≤ tokens.length) ∨
        (e = .invalidFile "decoded vocabulary contains duplicate tokens" ∧ ¬ tokens.Nodup))
      (assignDistinct (R := R) tokens) := by
  have loop := Ensures.foldlM_zipIdx (ε := Error R)
    (E := fun e => (e = .symbolOverflow ∧ 2 ^ 32 ≤ tokens.length) ∨
        (e = .invalidFile "decoded vocabulary contains duplicate tokens" ∧ ¬ tokens.Nodup))
    (motive := fun k symbols => Assigns (tokens.take k) symbols) (l := tokens)
    (f := fun symbols entry => do
      let symbol ← Symbol.fromUsize entry.2
      if entry.1 ∈ symbols then
        fail (.invalidFile "decoded vocabulary contains duplicate tokens")
      return symbols.insert entry.1 symbol) (s := ∅) Assigns.nil ?_
  · simpa only [List.take_length, assignDistinct] using loop
  · intro i inside symbols assigns
    refine Ensures.bind ((Symbol.ensures_fromUsize i).mono (fun _ h => h)
      (fun e h => .inl ⟨h.1, by omega⟩)) ?_
    rintro symbol ⟨position, bound⟩
    have size : (tokens.take i).length = i := by simp; omega
    split
    · rename_i repeated
      refine .inr ⟨rfl, fun distinct => ?_⟩
      have whole : tokens = tokens.take i ++ tokens[i] :: tokens.drop (i + 1) := by simp
      rw [whole, List.nodup_append] at distinct
      exact distinct.2.2 _ (assigns.mem.mp repeated) _ List.mem_cons_self rfl
    · rename_i new
      rw [assigns.mem] at new
      change Assigns _ _
      rw [← List.take_append_getElem inside]
      exact assigns.concat new (by omega) (by omega)

structure Vocabulary (T : Type) [DecidableEq T] where
  tokens : List T
  symbols : AList (fun _ : T => Symbol)
  assigns : Assigns tokens symbols

def VocabularyBuilder.build (builder : VocabularyBuilder T) : Result R (Vocabulary T) := do
  let symbols ← (ensures_assign
    (builder.byFrequency_perm.nodup_iff.mpr builder.distinct)).attach
  return ⟨builder.byFrequency, symbols.1, symbols.2⟩

namespace Vocabulary

def fromTokens (tokens : List T) : Result R (Vocabulary T) := do
  let symbols ← (ensures_assignDistinct tokens).attach
  return ⟨tokens, symbols.1, symbols.2⟩

def symbol (vocabulary : Vocabulary T) (token : T) : Symbol :=
  (vocabulary.symbols.lookup token).getD Symbol.unknown

def token (vocabulary : Vocabulary T) (symbol : Symbol) : Option T :=
  if symbol.isUnknown then none else vocabulary.tokens[symbol.val]?

def encode (vocabulary : Vocabulary T) (tokens : List T) : List Symbol :=
  tokens.map vocabulary.symbol

def len (vocabulary : Vocabulary T) : Nat := vocabulary.tokens.length

variable {vocabulary : Vocabulary T}

theorem len_lt (vocabulary : Vocabulary T) : vocabulary.len < 2 ^ 32 := vocabulary.assigns.count

theorem not_isUnknown {symbol : Symbol} (known : symbol.val < vocabulary.len) :
    ¬ symbol.isUnknown := by
  have := vocabulary.len_lt
  rw [Symbol.isUnknown_iff]
  omega

theorem token_eq_getElem? (vocabulary : Vocabulary T) (symbol : Symbol) :
    vocabulary.token symbol = vocabulary.tokens[symbol.val]? := by
  unfold token
  split
  · rename_i unknown
    rw [Symbol.isUnknown_iff] at unknown
    have : vocabulary.tokens.length < 2 ^ 32 := vocabulary.assigns.count
    rw [List.getElem?_eq_none (by omega)]
  · rfl

/-- A token and a symbol of the vocabulary determine each other. -/
theorem token_eq_some {symbol : Symbol} {token : T} :
    vocabulary.token symbol = some token ↔
      vocabulary.symbol token = symbol ∧ symbol.val < vocabulary.len := by
  rw [token_eq_getElem?, ← vocabulary.assigns.inverse]
  unfold Vocabulary.symbol
  constructor
  · intro found
    refine ⟨by simp [found], ?_⟩
    exact (List.getElem?_eq_some_iff.mp ((vocabulary.assigns.inverse _ _).mp found)).1
  · rintro ⟨same, known⟩
    cases found : vocabulary.symbols.lookup token with
    | none =>
      rw [found, Option.getD_none] at same
      exact absurd (same ▸ rfl) (vocabulary.not_isUnknown known)
    | some other =>
      rw [found, Option.getD_some] at same
      rw [same]

theorem symbol_lt_iff {token : T} :
    (vocabulary.symbol token).val < vocabulary.len ↔ token ∈ vocabulary.tokens := by
  constructor
  · intro known
    have found : vocabulary.token (vocabulary.symbol token) = some token :=
      token_eq_some.mpr ⟨rfl, known⟩
    rw [token_eq_getElem?] at found
    exact List.mem_of_getElem? found
  · intro mem
    have := vocabulary.assigns.count
    obtain ⟨i, inside, rfl⟩ := List.mem_iff_getElem.mp mem
    have found : vocabulary.token ⟨i, by omega⟩ = some vocabulary.tokens[i] := by
      rw [token_eq_getElem?]
      exact List.getElem?_eq_getElem inside
    obtain ⟨same, known⟩ := token_eq_some.mp found
    rwa [same]

theorem symbol_isUnknown_iff {token : T} :
    (vocabulary.symbol token).isUnknown ↔ token ∉ vocabulary.tokens := by
  rw [← symbol_lt_iff]
  constructor
  · intro unknown known
    exact not_isUnknown known unknown
  · intro outside
    unfold symbol at outside ⊢
    cases found : vocabulary.symbols.lookup token with
    | none => rfl
    | some other =>
      rw [found, Option.getD_some] at outside
      have := (vocabulary.assigns.inverse _ _).mp found
      exact absurd (List.getElem?_eq_some_iff.mp this).1 outside

theorem token_symbol {token : T} (mem : token ∈ vocabulary.tokens) :
    vocabulary.token (vocabulary.symbol token) = some token :=
  token_eq_some.mpr ⟨rfl, symbol_lt_iff.mpr mem⟩

/-- The token table determines the symbol table. -/
theorem symbol_congr {other : Vocabulary T} (same : vocabulary.tokens = other.tokens) :
    vocabulary.symbol = other.symbol := by
  funext token
  unfold symbol
  congr 1
  ext found
  rw [vocabulary.assigns.inverse, other.assigns.inverse, same]

theorem ensures_fromTokens (tokens : List T) :
    Ensures (fun vocabulary : Vocabulary T => vocabulary.tokens = tokens)
      (fun e => (e = .symbolOverflow ∧ 2 ^ 32 ≤ tokens.length) ∨
        (e = .invalidFile "decoded vocabulary contains duplicate tokens" ∧ ¬ tokens.Nodup))
      (fromTokens (R := R) tokens) := by
  refine Ensures.bind (ensures_assignDistinct tokens).ensures_attach ?_
  intro symbols _
  rfl

/-- The tokens of a vocabulary are numbered again in the same way. -/
theorem fromTokens_ok (vocabulary : Vocabulary T) :
    ∃ other, fromTokens (R := R) vocabulary.tokens = .ok other ∧
      other.tokens = vocabulary.tokens := by
  have distinct := vocabulary.assigns.nodup
  have small := vocabulary.assigns.count
  refine ((ensures_fromTokens vocabulary.tokens).mono (fun _ h => h) ?_).returns
  rintro e (⟨_, large⟩ | ⟨_, repeated⟩)
  · exact absurd large (not_le.mpr small)
  · exact repeated distinct

end Vocabulary

theorem VocabularyBuilder.ensures_build (builder : VocabularyBuilder T) :
    Ensures (fun vocabulary : Vocabulary T => vocabulary.tokens = builder.byFrequency)
      (fun e => e = .symbolOverflow ∧ 2 ^ 32 ≤ builder.tokens.length)
      (builder.build (R := R)) := by
  refine Ensures.bind ((ensures_assign
    (builder.byFrequency_perm.nodup_iff.mpr builder.distinct)).ensures_attach.mono
    (fun _ h => h) (fun e h => ⟨h.1, ?_⟩)) ?_
  · rw [← builder.byFrequency_perm.length_eq]
    exact h.2
  · intro symbols _
    rfl

end Yurine
