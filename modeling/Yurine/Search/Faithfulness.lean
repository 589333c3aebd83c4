import Yurine.Search.Tokens

/-! Query encoding is faithful. The vocabulary and the query-only tokens make one table without
repetitions, so symbols and tokens determine each other in it and equal costs come out. -/
namespace Yurine
open Outcome EditScripts

variable {T R : Type} [DecidableEq T]

namespace EncodedQuery
variable {query : EncodedQuery T} {vocabulary : Vocabulary T}

/-- The distinct tokens of a query that are not in the vocabulary. -/
def queryOnly (vocabulary : Vocabulary T) (querySequence : List T) : List T :=
  (querySequence.filter (fun token => token ∉ vocabulary.tokens)).dedup

theorem mem_queryOnly {querySequence : List T} {token : T} :
    token ∈ queryOnly vocabulary querySequence ↔
      token ∈ querySequence ∧ token ∉ vocabulary.tokens := by
  simp [queryOnly]

/-- The temporary symbols number the query-only tokens read so far. -/
structure Numbers (vocabulary : Vocabulary T) (state : Encoding T) (read : List T) : Prop extends
    Encodes vocabulary state read where
  distinct : (vocabulary.tokens ++ state.unknownTokens).Nodup
  bound : (vocabulary.tokens ++ state.unknownTokens).length < 2 ^ 32
  content : ∀ token, token ∈ state.unknownTokens ↔ token ∈ read ∧ token ∉ vocabulary.tokens
  recorded : ∀ token ∈ state.unknownTokens, token ∈ state.unknownSymbols

theorem Numbers.nil (vocabulary : Vocabulary T) : Numbers vocabulary ⟨[], [], ∅⟩ [] := by
  refine ⟨⟨.nil, by simp⟩, ?_, ?_, by simp, by simp⟩
  · rw [List.append_nil]
    exact vocabulary.assigns.nodup
  · rw [List.append_nil]
    exact vocabulary.assigns.count

theorem Numbers.length_eq {state : Encoding T} {read : List T}
    (numbers : Numbers vocabulary state read) :
    state.unknownTokens.length = (queryOnly vocabulary read).length := by
  have unknown := (List.nodup_append.mp numbers.distinct).2.1
  have same : state.unknownTokens.Perm (queryOnly vocabulary read) := by
    apply (List.perm_ext_iff_of_nodup unknown (List.nodup_dedup _)).mpr
    intro token
    rw [numbers.content, ← mem_queryOnly, queryOnly]
  exact same.length_eq

theorem length_queryOnly_le {read querySequence : List T} (part : read ⊆ querySequence) :
    (queryOnly vocabulary read).length ≤ (queryOnly vocabulary querySequence).length := by
  apply (List.Nodup.subperm (List.nodup_dedup _) _).length_le
  intro token mem
  obtain ⟨known, missing⟩ := mem_queryOnly.mp mem
  exact mem_queryOnly.mpr ⟨part known, missing⟩

theorem Numbers.fresh {state : Encoding T} {read : List T}
    (numbers : Numbers vocabulary state read) {token : T}
    (new : state.unknownSymbols.lookup token = none) : token ∉ state.unknownTokens :=
  fun mem => AList.lookup_eq_none.mp new (numbers.recorded token mem)

theorem Numbers.step {state : Encoding T} {read : List T}
    (numbers : Numbers vocabulary state read) (token : T) :
    Ensures (fun next => Numbers vocabulary next (read ++ [token]))
      (fun e => e = .symbolOverflow ∧
        2 ^ 32 ≤ vocabulary.len + (queryOnly vocabulary (read ++ [token])).length)
      (encodeToken (R := R) vocabulary state token) := by
  have moves := (ensures_encodeToken (R := R) vocabulary state token).returned
  have encodes := numbers.toEncodes.step (R := R) token
  have keep (symbol : Symbol) (known : token ∈ vocabulary.tokens ∨ token ∈ state.unknownTokens)
      (ran : encodeToken (R := R) vocabulary state token =
        .ok { state with string := state.string ++ [symbol] }) :
      Numbers vocabulary { state with string := state.string ++ [symbol] } (read ++ [token]) := by
    refine ⟨encodes.of_ok ran, numbers.distinct, numbers.bound, fun other => ?_, numbers.recorded⟩
    rw [numbers.content, List.mem_append, List.mem_singleton]
    constructor
    · rintro ⟨mem, missing⟩
      exact ⟨.inl mem, missing⟩
    · rintro ⟨mem | rfl, missing⟩
      · exact ⟨mem, missing⟩
      · exact (numbers.content other).mp (known.resolve_left missing)
  refine moves.mono ?_ ?_
  · rintro _ ⟨ran, ⟨mem, rfl⟩ | ⟨missing, symbol, found, rfl⟩ | ⟨missing, new, symbol, position,
      small, rfl⟩⟩
    · exact keep _ (.inl mem) ran
    · refine keep symbol (.inr ?_) ran
      have named := List.mem_of_getElem? (numbers.lookup token symbol found)
      exact (List.mem_append.mp named).resolve_left missing
    · have fresh := numbers.fresh new
      refine ⟨encodes.of_ok ran, ?_, ?_, fun other => ?_, fun other mem => ?_⟩
      · rw [← List.append_assoc, List.nodup_append_comm, List.singleton_append, List.nodup_cons,
          List.mem_append]
        exact ⟨fun mem => mem.elim missing fresh, numbers.distinct⟩
      · have size : vocabulary.len = vocabulary.tokens.length := rfl
        simp only [List.length_append, List.length_singleton]
        omega
      · simp only [List.mem_append, List.mem_singleton, numbers.content]
        constructor
        · rintro (⟨mem, outside⟩ | rfl)
          · exact ⟨.inl mem, outside⟩
          · exact ⟨.inr rfl, missing⟩
        · rintro ⟨mem | rfl, outside⟩
          · exact .inl ⟨mem, outside⟩
          · exact .inr rfl
      · rw [AList.mem_insert]
        rcases List.mem_append.mp mem with old | last
        · exact .inr (numbers.recorded other old)
        · exact .inl (List.mem_singleton.mp last)
  · rintro e ⟨rfl, missing, new, large⟩
    have fresh := numbers.fresh new
    have unknown := (List.nodup_append.mp numbers.distinct).2.1
    have more : (token :: state.unknownTokens).length ≤
        (queryOnly vocabulary (read ++ [token])).length := by
      apply (List.subperm_of_subset (List.nodup_cons.mpr ⟨fresh, unknown⟩) ?_).length_le
      intro other mem
      rw [mem_queryOnly]
      rcases List.mem_cons.mp mem with rfl | old
      · simp [missing]
      · have source := (numbers.content other).mp old
        simp [source]
    rw [List.length_cons] at more
    exact ⟨rfl, by omega⟩

/-- Encoding succeeds unless the tokens of the vocabulary and the query-only tokens do not fit
below the reserved symbol. -/
theorem ensures_new_numbers (querySequence : List T) (vocabulary : Vocabulary T) :
    Ensures (fun query : EncodedQuery T => ∃ unknownSymbols, Numbers vocabulary
        ⟨query.string, query.unknownTokens, unknownSymbols⟩ querySequence)
      (fun e => e = .symbolOverflow ∧
        2 ^ 32 ≤ vocabulary.len + (queryOnly vocabulary querySequence).length)
      (new (R := R) querySequence vocabulary) := by
  refine Ensures.bind (P := fun state => Numbers vocabulary state querySequence)
    (Ensures.foldlM (motive := fun read state => Numbers vocabulary state read)
      (Numbers.nil vocabulary) ?_) ?_
  · intro before token after state split numbers
    refine (numbers.step token).mono (fun _ h => h) ?_
    rintro e ⟨rfl, large⟩
    have part : before ++ [token] ⊆ querySequence := by
      rw [split]
      simp
    exact ⟨rfl, large.trans (Nat.add_le_add_left (length_queryOnly_le part) _)⟩
  · intro state numbers
    exact ⟨state.unknownSymbols, numbers⟩

/-- The encoded query stands for the query sequence, symbol by symbol. -/
structure Faithful (R : Type) (vocabulary : Vocabulary T) (querySequence : List T)
    (query : EncodedQuery T) : Prop where
  length : query.string.length = querySequence.length
  token : ∀ (i : Nat) (symbol : Symbol) (token : T), query.string[i]? = some symbol →
    querySequence[i]? = some token → query.token (R := R) vocabulary symbol = .ok token
  /-- A symbol without a token of the vocabulary is an offset into the query-only tokens. -/
  fallback : ∀ symbol ∈ query.string, vocabulary.token symbol = none →
    vocabulary.len ≤ symbol.val ∧ symbol.val - vocabulary.len < query.unknownTokens.length
  injective : ∀ (i j : Nat) (a b : Symbol), query.string[i]? = some a → query.string[j]? = some b →
    (a = b ↔ querySequence[i]? = querySequence[j]?)
  known : ∀ (i : Nat) (symbol : Symbol) (token : T), query.string[i]? = some symbol →
    querySequence[i]? = some token →
    (symbol.val < vocabulary.len ↔ token ∈ vocabulary.tokens)
  reserved : ∀ symbol ∈ query.string, ¬ symbol.isUnknown

/-- Symbols and tokens determine each other in a table without repetitions. -/
theorem Numbers.faithful {unknownSymbols : AList (fun _ : T => Symbol)} {querySequence : List T}
    (numbers : Numbers vocabulary ⟨query.string, query.unknownTokens, unknownSymbols⟩
      querySequence) : query.Faithful R vocabulary querySequence := by
  have named {i : Nat} {symbol : Symbol} {token : T} (left : query.string[i]? = some symbol)
      (right : querySequence[i]? = some token) : query.Names vocabulary symbol token := by
    obtain ⟨here, rfl⟩ := List.getElem?_eq_some_iff.mp left
    obtain ⟨there, rfl⟩ := List.getElem?_eq_some_iff.mp right
    exact numbers.string.get here there
  have inside {symbol : Symbol} (mem : symbol ∈ query.string) :
      query.Known vocabulary symbol := known_string numbers.string symbol mem
  refine ⟨numbers.string.length_eq, ?_, ?_, ?_, ?_, ?_⟩
  · intro i symbol token left right
    rw [token_eq_index]
    exact index_eq_ok.mpr (named left right)
  · intro symbol mem absent
    rw [vocabulary.token_eq_getElem?, List.getElem?_eq_none_iff] at absent
    have bound := inside mem
    rw [Known, tokens, List.length_append] at bound
    change vocabulary.tokens.length ≤ _ ∧ _ - vocabulary.tokens.length < _
    omega
  · intro i j a b left right
    have size := numbers.string.length_eq
    have here : i < querySequence.length := size ▸ (List.getElem?_eq_some_iff.mp left).1
    have there : j < querySequence.length := size ▸ (List.getElem?_eq_some_iff.mp right).1
    have first := List.getElem?_eq_getElem here
    have second := List.getElem?_eq_getElem there
    constructor
    · rintro rfl
      rw [first, second]
      exact (named left first).symm.trans (named right second)
    · intro same
      have places : (query.tokens vocabulary)[a.val]? = (query.tokens vocabulary)[b.val]? := by
        rw [named left first, named right second, ← first, ← second, same]
      exact Fin.ext ((List.getElem?_inj (named left first).known numbers.distinct).mp places)
  · intro i symbol token left right
    have found := named left right
    constructor
    · intro below
      rw [Names, tokens, List.getElem?_append_left below] at found
      exact List.mem_of_getElem? found
    · intro mem
      by_contra above
      rw [Names, tokens, List.getElem?_append_right (not_lt.mp above)] at found
      exact ((numbers.content token).mp (List.mem_of_getElem? found)).2 mem
  · intro symbol mem
    have bound := inside mem
    have small : (query.tokens vocabulary).length < 2 ^ 32 := numbers.bound
    rw [Known] at bound
    rw [Symbol.isUnknown_iff]
    omega

/-- Encoding fails only when the vocabulary and the distinct query-only tokens do not fit below
the reserved symbol. Otherwise the symbols stand for the tokens of the query, those of the
vocabulary below its size, and the adapted costs are those of the tokens. With exact sums every
data string over the vocabulary is as far from the encoded query as its tokens from the query. -/
theorem new_faithful [Number R] (vocabulary : Vocabulary T) (querySequence : List T) :
    (vocabulary.len + (queryOnly vocabulary querySequence).length ≤ Symbol.unknown.val →
      ∃ query, new (R := R) querySequence vocabulary = .ok query) ∧
    (Symbol.unknown.val < vocabulary.len + (queryOnly vocabulary querySequence).length →
      new (R := R) querySequence vocabulary = fail .symbolOverflow) ∧
    ∀ query, new (R := R) querySequence vocabulary = .ok query →
      query.Faithful R vocabulary querySequence ∧
      (∀ policy : Policy R T,
        (query.costs vocabulary policy.costs).Answers (query.policy vocabulary policy)
          (fun symbol => symbol ∈ query.string ∨ symbol.val < vocabulary.len)) ∧
      ∀ string : List Symbol, (∀ symbol ∈ string, symbol.val < vocabulary.len) →
        ∃ tokens, string.mapM vocabulary.token = some tokens ∧
          ∀ {S : Type} [ExactNumber S] (policy : Policy S T),
            distance (query.policy vocabulary policy).weights query.string string =
              distance policy.weights querySequence tokens := by
  have encoded := ensures_new_numbers (R := R) querySequence vocabulary
  have reserved : Symbol.unknown.val = 2 ^ 32 - 1 := rfl
  refine ⟨fun fits => ?_, fun large => ?_, fun query returned => ?_⟩
  · obtain ⟨query, returned, _⟩ := (encoded.mono (F := fun _ => False) (fun _ h => h)
      (fun e h => by omega)).returns
    exact ⟨query, returned⟩
  · cases ran : new (R := R) querySequence vocabulary with
    | ok query =>
      obtain ⟨_, numbers⟩ := encoded.of_ok ran
      have small := numbers.bound
      rw [List.length_append, numbers.length_eq] at small
      change vocabulary.len + _ < _ at small
      omega
    | error failure =>
      cases failure with
      | error e => rw [(encoded.of_fail ran).1]; rfl
      | panic => exact absurd ran encoded.ne_panic
  · obtain ⟨_, numbers⟩ := encoded.of_ok returned
    refine ⟨numbers.faithful, fun policy => ?_, fun string below => ?_⟩
    · have answers : (query.costs vocabulary policy.costs).Answers
          (query.policy vocabulary policy) (query.Known vocabulary) := costs_answers policy
      have known {symbol : Symbol} (holds : symbol ∈ query.string ∨ symbol.val < vocabulary.len) :
          query.Known vocabulary symbol :=
        holds.elim (known_string numbers.string symbol) known_of_lt
      exact ⟨fun a b ha hb => answers.substitution a b (known ha) (known hb),
        fun a ha => answers.deletion a (known ha), fun b hb => answers.insertion b (known hb)⟩
    · obtain ⟨tokens, decoded⟩ := exists_mapM_token vocabulary string below
      refine ⟨tokens, decoded, fun policy => ?_⟩
      exact distance_eq policy numbers.string (names_of_mapM decoded)

end EncodedQuery
end Yurine
