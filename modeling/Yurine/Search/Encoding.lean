import Yurine.Costs
import Yurine.Vocabulary

/-! Query-local conversion between tokens and symbols. Query tokens outside the vocabulary
get temporary symbols above it, so one token table serves the symbols of both. -/
namespace Yurine
open Outcome

variable {T R : Type} [DecidableEq T]

structure EncodedQuery (T : Type) where
  string : List Symbol
  /-- `unknown_tokens[i]` is represented by the symbol `vocabulary.len() + i`. -/
  unknownTokens : List T

namespace EncodedQuery

/-- The variables of the encoding loop. -/
structure Encoding (T : Type) [DecidableEq T] where
  string : List Symbol
  unknownTokens : List T
  unknownSymbols : AList (fun _ : T => Symbol)

def encodeToken (vocabulary : Vocabulary T) (state : Encoding T) (token : T) :
    Result R (Encoding T) :=
  let symbol := vocabulary.symbol token
  if symbol.isUnknown then
    match state.unknownSymbols.lookup token with
    | some symbol => return { state with string := state.string ++ [symbol] }
    | none => do
      let index ← okOr .symbolOverflow (checkedAdd vocabulary.len state.unknownTokens.length)
      let symbol ← Symbol.fromUsize index
      return { string := state.string ++ [symbol],
               unknownTokens := state.unknownTokens ++ [token],
               unknownSymbols := state.unknownSymbols.insert token symbol }
  else return { state with string := state.string ++ [symbol] }

def new (querySequence : List T) (vocabulary : Vocabulary T) : Result R (EncodedQuery T) := do
  let state ← querySequence.foldlM (encodeToken vocabulary) ⟨[], [], ∅⟩
  return ⟨state.string, state.unknownTokens⟩

def token (query : EncodedQuery T) (vocabulary : Vocabulary T) (symbol : Symbol) : Result R T :=
  match vocabulary.token symbol with
  | some token => return token
  | none => do
    let offset ← subtract symbol.val vocabulary.len
    index query.unknownTokens offset

/-- The costs of tokens as costs of symbols. -/
def costs [Number R] (query : EncodedQuery T) (vocabulary : Vocabulary T) (costs : EditCosts R T) :
    EditCosts R Symbol where
  substitution a b := do
    costs.substitution (← query.token vocabulary a) (← query.token vocabulary b)
  deletion a := do costs.deletion (← query.token vocabulary a)
  insertion b := do costs.insertion (← query.token vocabulary b)

/-- The token table of the vocabulary and the query together. -/
def tokens (query : EncodedQuery T) (vocabulary : Vocabulary T) : List T :=
  vocabulary.tokens ++ query.unknownTokens

/-- The token that a symbol stands for. -/
def Names (query : EncodedQuery T) (vocabulary : Vocabulary T) (symbol : Symbol) (token : T) :
    Prop := (query.tokens vocabulary)[symbol.val]? = some token

variable {query : EncodedQuery T} {vocabulary : Vocabulary T}

theorem token_eq_index (query : EncodedQuery T) (vocabulary : Vocabulary T) (symbol : Symbol) :
    query.token (R := R) vocabulary symbol = index (query.tokens vocabulary) symbol.val := by
  unfold token tokens index
  rw [vocabulary.token_eq_getElem?]
  rcases Nat.lt_or_ge symbol.val vocabulary.tokens.length with inside | outside
  · rw [List.getElem?_append_left inside, List.getElem?_eq_getElem inside]
    rfl
  · rw [List.getElem?_append_right outside, List.getElem?_eq_none outside]
    have offset : subtract (R := R) symbol.val vocabulary.len =
        .ok (symbol.val - vocabulary.tokens.length) := if_pos outside
    simp only [offset, bind_ok]

/-- What the encoding loop has done to the tokens read so far. -/
structure Encodes (vocabulary : Vocabulary T) (state : Encoding T) (read : List T) : Prop where
  string : List.Forall₂ (fun (symbol : Symbol) token =>
    (vocabulary.tokens ++ state.unknownTokens)[symbol.val]? = some token) state.string read
  lookup : ∀ token symbol, state.unknownSymbols.lookup token = some symbol →
    (vocabulary.tokens ++ state.unknownTokens)[symbol.val]? = some token

/-- What one token does: a symbol of the vocabulary, an earlier temporary symbol, or the next
one, unless the reserved symbol is reached. -/
theorem ensures_encodeToken (vocabulary : Vocabulary T) (state : Encoding T) (token : T) :
    Ensures (fun next =>
        token ∈ vocabulary.tokens ∧
          next = { state with string := state.string ++ [vocabulary.symbol token] } ∨
        token ∉ vocabulary.tokens ∧ (∃ symbol, state.unknownSymbols.lookup token = some symbol ∧
          next = { state with string := state.string ++ [symbol] }) ∨
        token ∉ vocabulary.tokens ∧ state.unknownSymbols.lookup token = none ∧
          ∃ symbol : Symbol, symbol.val = vocabulary.len + state.unknownTokens.length ∧
            symbol.val < 2 ^ 32 - 1 ∧
            next = ⟨state.string ++ [symbol], state.unknownTokens ++ [token],
              state.unknownSymbols.insert token symbol⟩)
      (fun e => e = .symbolOverflow ∧ token ∉ vocabulary.tokens ∧
        state.unknownSymbols.lookup token = none ∧
        2 ^ 32 ≤ vocabulary.len + state.unknownTokens.length + 1)
      (encodeToken (R := R) vocabulary state token) := by
  refine ensures_ite (fun unknown => ?_) (fun known => ?_)
  · have missing := Vocabulary.symbol_isUnknown_iff.mp unknown
    cases found : state.unknownSymbols.lookup token with
    | some symbol => exact .inr (.inl ⟨missing, symbol, rfl, rfl⟩)
    | none =>
      dsimp only
      unfold checkedAdd
      split
      · rw [okOr_some, bind_ok]
        refine Ensures.bind ((Symbol.ensures_fromUsize _).mono (fun _ h => h)
          (fun _ h => ⟨h.1, missing, rfl, h.2⟩)) ?_
        rintro symbol ⟨position, bound⟩
        exact .inr (.inr ⟨missing, rfl, symbol, position, position ▸ bound, rfl⟩)
      · have range : usizeRange = 2 ^ 64 := rfl
        exact ⟨rfl, missing, rfl, by omega⟩
  · refine .inl ⟨?_, rfl⟩
    by_contra missing
    exact known (Vocabulary.symbol_isUnknown_iff.mpr missing)

theorem Encodes.step {state : Encoding T} {read : List T}
    (encodes : Encodes vocabulary state read) (token : T) :
    Ensures (fun next => Encodes vocabulary next (read ++ [token])) (fun e => e = .symbolOverflow)
      (encodeToken (R := R) vocabulary state token) := by
  have concat {symbol : Symbol}
      (found : (vocabulary.tokens ++ state.unknownTokens)[symbol.val]? = some token) :
      Encodes vocabulary { state with string := state.string ++ [symbol] } (read ++ [token]) :=
    ⟨List.rel_append encodes.string (.cons found .nil), encodes.lookup⟩
  refine (ensures_encodeToken vocabulary state token).mono ?_ (fun _ h => h.1)
  rintro _ (⟨mem, rfl⟩ | ⟨_, symbol, found, rfl⟩ | ⟨_, _, symbol, position, _, rfl⟩)
  · have found := Vocabulary.token_symbol mem
    rw [vocabulary.token_eq_getElem?] at found
    apply concat
    rw [List.getElem?_append_left (List.getElem?_eq_some_iff.mp found).1, found]
  · exact concat (encodes.lookup token symbol found)
  · have grow {i : Nat} {t : T} (h : (vocabulary.tokens ++ state.unknownTokens)[i]? = some t) :
        (vocabulary.tokens ++ (state.unknownTokens ++ [token]))[i]? = some t := by
      rw [← List.append_assoc, List.getElem?_append_left (List.getElem?_eq_some_iff.mp h).1, h]
    have last : (vocabulary.tokens ++ (state.unknownTokens ++ [token]))[symbol.val]? =
        some token := by
      rw [← List.append_assoc, position]
      simp [Vocabulary.len]
    refine ⟨List.rel_append (encodes.string.imp fun _ _ h => grow h) (.cons last .nil), ?_⟩
    intro other found h
    by_cases same : other = token
    · subst same
      rw [AList.lookup_insert, Option.some.injEq] at h
      exact h ▸ last
    · rw [AList.lookup_insert_ne same] at h
      exact grow (encodes.lookup other found h)

/-- Every symbol of the encoded query names its token in the joint table. -/
theorem ensures_new (querySequence : List T) (vocabulary : Vocabulary T) :
    Ensures (fun query => List.Forall₂ (query.Names vocabulary) query.string querySequence)
      (fun e => e = .symbolOverflow) (new (R := R) querySequence vocabulary) := by
  refine Ensures.bind (P := fun state => Encodes vocabulary state querySequence)
    (Ensures.foldlM (motive := fun read state => Encodes vocabulary state read)
      ⟨.nil, by simp⟩ ?_) ?_
  · intro before token after state _ encodes
    exact encodes.step token
  · intro state encodes
    exact encodes.string

def Known (query : EncodedQuery T) (vocabulary : Vocabulary T) (symbol : Symbol) : Prop :=
  symbol.val < (query.tokens vocabulary).length

theorem Names.known {symbol : Symbol} {token : T} (names : query.Names vocabulary symbol token) :
    query.Known vocabulary symbol := (List.getElem?_eq_some_iff.mp names).1

theorem known_of_lt {symbol : Symbol} (inside : symbol.val < vocabulary.len) :
    query.Known vocabulary symbol := by
  rw [Known, tokens, List.length_append]
  exact Nat.lt_add_right _ inside

variable [Number R]

/-- The costs of the tokens that symbols stand for. -/
def policy (query : EncodedQuery T) (vocabulary : Vocabulary T) (policy : Policy R T) :
    Policy R Symbol where
  substitution a b := match (query.tokens vocabulary)[a.val]?, (query.tokens vocabulary)[b.val]? with
    | some s, some t => policy.substitution s t
    | _, _ => Cost.zero
  deletion a := match (query.tokens vocabulary)[a.val]? with
    | some s => policy.deletion s
    | none => Cost.zero
  insertion b := match (query.tokens vocabulary)[b.val]? with
    | some t => policy.insertion t
    | none => Cost.zero

theorem costs_answers (policy : Policy R T) :
    (query.costs vocabulary policy.costs).Answers (query.policy vocabulary policy)
      (query.Known vocabulary) := by
  constructor
  · intro a b ha hb
    simp only [costs, EncodedQuery.policy, token_eq_index, index_ok ha, index_ok hb, bind_ok,
      List.getElem?_eq_getElem ha, List.getElem?_eq_getElem hb]
    rfl
  · intro a ha
    simp only [costs, EncodedQuery.policy, token_eq_index, index_ok ha, bind_ok,
      List.getElem?_eq_getElem ha]
    rfl
  · intro b hb
    simp only [costs, EncodedQuery.policy, token_eq_index, index_ok hb, bind_ok,
      List.getElem?_eq_getElem hb]
    rfl

end EncodedQuery
end Yurine
