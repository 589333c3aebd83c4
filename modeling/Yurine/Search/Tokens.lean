import Yurine.Search.Matches

/-! From symbols back to tokens: what a search over any engine answers, and that distances
between encoded words are distances between the tokens they stand for. -/
namespace Yurine
open Outcome EditScripts MinCandidateSelector

variable {T R : Type} [DecidableEq T]

namespace EncodedQuery
variable {query : EncodedQuery T} {vocabulary : Vocabulary T}

/-- Words of symbols are as far apart as the words of tokens they stand for. -/
theorem distance_eq [ExactNumber R] (policy : Policy R T) {a b : List Symbol} {s t : List T}
    (left : List.Forall₂ (query.Names vocabulary) a s)
    (right : List.Forall₂ (query.Names vocabulary) b t) :
    distance (query.policy vocabulary policy).weights a b = distance policy.weights s t := by
  refine distance_rel ?_ ?_ ?_ left right
  · intro symbol token symbol' token' named named'
    rw [Names] at named named'
    simp only [Policy.weights, EncodedQuery.policy, named, named']
  · intro symbol token named
    rw [Names] at named
    simp only [Policy.weights, EncodedQuery.policy, named]
  · intro symbol token named
    rw [Names] at named
    simp only [Policy.weights, EncodedQuery.policy, named]

theorem deletionCosts_eq [Number R] (policy : Policy R T) {string : List Symbol}
    {sequence : List T} (named : List.Forall₂ (query.Names vocabulary) string sequence) :
    deletionCosts (query.policy vocabulary policy) string =
      sequence.map (fun token => (policy.deletion token).get) := by
  induction named with
  | nil => rfl
  | cons here _ ih =>
    rw [Names] at here
    simp only [deletionCosts, List.map_cons, EncodedQuery.policy, here] at ih ⊢
    rw [ih]

theorem known_string {string : List Symbol} {sequence : List T}
    (named : List.Forall₂ (query.Names vocabulary) string sequence) :
    ∀ symbol ∈ string, query.Known vocabulary symbol := by
  induction named with
  | nil => simp
  | cons here _ ih => exact List.forall_mem_cons.mpr ⟨here.known, ih⟩

theorem exists_mapM_token (vocabulary : Vocabulary T) (string : List Symbol)
    (below : ∀ symbol ∈ string, symbol.val < vocabulary.len) :
    ∃ sequence, string.mapM vocabulary.token = some sequence := by
  induction string with
  | nil => exact ⟨[], rfl⟩
  | cons symbol string ih =>
    obtain ⟨rest, tail⟩ := ih (fun s mem => below s (List.mem_cons_of_mem symbol mem))
    have inside : symbol.val < vocabulary.tokens.length := below symbol (by simp)
    refine ⟨vocabulary.tokens[symbol.val] :: rest, ?_⟩
    rw [List.mapM_cons, vocabulary.token_eq_getElem?, List.getElem?_eq_getElem inside, tail]
    rfl

/-- Symbols of the vocabulary stand for its tokens in every query. -/
theorem names_of_mapM {string : List Symbol} {sequence : List T}
    (decoded : string.mapM vocabulary.token = some sequence) :
    List.Forall₂ (query.Names vocabulary) string sequence := by
  induction string generalizing sequence with
  | nil =>
    obtain rfl := Option.some.inj decoded
    exact .nil
  | cons symbol string ih =>
    rw [List.mapM_cons] at decoded
    simp only [Option.bind_eq_bind, Option.bind_eq_some_iff] at decoded
    obtain ⟨token, named, rest, tail, same⟩ := decoded
    obtain rfl := Option.some.inj same
    refine .cons ?_ (ih tail)
    rw [vocabulary.token_eq_getElem?] at named
    rw [Names, tokens, List.getElem?_append_left (List.getElem?_eq_some_iff.mp named).1, named]

end EncodedQuery

theorem segment_forall₂ {P : α → β → Prop} {s : List α} {t : List β}
    (related : List.Forall₂ P s t) (start stop : Nat) :
    List.Forall₂ P (segment s start stop) (segment t start stop) :=
  List.forall₂_take _ (List.forall₂_drop _ related)

namespace SearchEngine
variable {engine : SearchEngine T}

/-- The strings of an engine are over its vocabulary whenever they can be read. -/
theorem WellFormed.readable_lt (wf : engine.WellFormed) :
    Readable R (fun symbol => symbol.val < engine.vocabulary.len) engine.store := by
  intro id
  refine (CorpusStore.ensures_string wf.stored id).mono ?_ ?_
  · rintro found ⟨stored, checked⟩ string rfl symbol mem
    cases mapped : engine.store.symbols.isMapped with
    | true => exact wf.symbolCount ▸ checked mapped string rfl symbol mem
    | false =>
      refine wf.readable mapped symbol ((CorpusStore.mem_symbols_iff wf.stored).mpr ?_)
      exact ⟨string, List.mem_of_getElem? stored.symm, mem⟩
  · rintro _ ⟨_, symbol, rfl⟩
    exact nofun

theorem WellFormed.readable_known (wf : engine.WellFormed) (query : EncodedQuery T) :
    Readable R (query.Known engine.vocabulary) engine.store := fun id =>
  (wf.readable_lt id).post fun _ below string same symbol mem =>
    EncodedQuery.known_of_lt (below string same symbol mem)

theorem WellFormed.known_alphabet (wf : engine.WellFormed) (query : EncodedQuery T) :
    ∀ symbol ∈ engine.neighborhood.alphabet, query.Known engine.vocabulary symbol :=
  fun _ mem => EncodedQuery.known_of_lt (wf.alphabet_lt mem)

variable [MonotoneNumber R]

/-- What a search answers: the recorded distances of the candidates of a sufficient selection. -/
def Answered (engine : SearchEngine T) (policy : Policy R T) (querySequence : List T)
    (params : RangeSearchParams R) (found : List (Match R)) : Prop :=
  ∃ (threshold : Cost R) (bound : StrictBound R) (query : EncodedQuery T) (radius : Cost R)
    (selected : List SelectedPosition) (substrings : Substrings R),
    threshold.get = params.threshold ∧ StrictBound.fromInclusive threshold = .ok bound ∧
    List.Forall₂ (query.Names engine.vocabulary) query.string querySequence ∧
    Suffices engine.neighborhood (query.policy engine.vocabulary policy) bound query.string radius
      selected ∧
    found = substrings.toList.map Match.ofEntry ∧
    Minima.Minimal substrings (Seen (query.policy engine.vocabulary policy) bound query.string
      engine.store (candidates selected engine.index))

theorem Answered.pairwise {policy : Policy R T} {querySequence : List T}
    {params : RangeSearchParams R} {found : List (Match R)}
    (answered : engine.Answered policy querySequence params found) :
    found.Pairwise (fun a b => a.key < b.key) := by
  obtain ⟨_, _, _, _, _, substrings, _, _, _, _, rfl, _⟩ := answered
  exact pairwise_matches substrings

/-- Every match of an answer is a segment of a stored string over the vocabulary, no farther
from the query than reported, whatever the postings are. -/
theorem Answered.sound {R : Type} [DiscreteNumber R] {policy : Policy R T} {querySequence : List T}
    {params : RangeSearchParams R} {found : List (Match R)} (wf : engine.WellFormed)
    (answered : engine.Answered policy querySequence params found) {m : Match R} (mem : m ∈ found) :
    ∃ (id : SequenceId) (string : List Symbol) (tokens : List T), id.val = m.sequenceId ∧
      engine.store.string (R := R) id = .ok (some string) ∧
      m.tokenRange.1 < m.tokenRange.2 ∧ m.tokenRange.2 ≤ string.length ∧
      (segment string m.tokenRange.1 m.tokenRange.2).mapM engine.vocabulary.token = some tokens ∧
      distance policy.weights querySequence tokens ≤ m.distance ∧
      m.distance ≤ params.threshold := by
  obtain ⟨threshold, bound, query, radius, selected, substrings, valid, strict, named, _, rfl,
    minimal⟩ := answered
  obtain ⟨id, identified, attained, _⟩ := (mem_matches minimal).mp mem
  obtain ⟨string, read, ordered, inside, near, admitted⟩ := Seen.sound attained
  have below := ((wf.readable_lt id).of_ok read) string rfl
  obtain ⟨tokens, decoded⟩ := EncodedQuery.exists_mapM_token engine.vocabulary
    (segment string m.tokenRange.1 m.tokenRange.2)
    (fun symbol mem => below symbol (List.mem_of_mem_drop (List.mem_of_mem_take mem)))
  rw [EncodedQuery.distance_eq policy named (EncodedQuery.names_of_mapM decoded)] at near
  rw [StrictBound.admits_iff strict, valid] at admitted
  exact ⟨id, string, tokens, identified, read, ordered, inside, decoded, near, admitted⟩

omit [MonotoneNumber R] in
theorem ensures_costNew [Number R] (value : R) :
    Ensures (fun cost : Cost R => cost.get = value) (fun _ => True) (Cost.new value) := by
  unfold Cost.new
  split
  · rfl
  · trivial

/-- A search over any engine returns an answer or an error. -/
theorem ensures_search (wf : engine.WellFormed) (policy : Policy R T) (querySequence : List T)
    (params : RangeSearchParams R) :
    Ensures (Answered engine policy querySequence params) (fun _ => True)
      (engine.search policy querySequence params) := by
  have bounded (threshold : Cost R) : Ensures (fun _ : StrictBound R => True) (fun _ => True)
      (StrictBound.fromInclusive threshold) := by
    unfold StrictBound.fromInclusive okOr
    split <;> trivial
  have eta (threshold : Cost R) (length : Nat) : Ensures (fun _ : Cost R => True) (fun _ => True)
      (automaticEta threshold length) :=
    ensures_ite (fun _ => trivial) (fun _ => (ensures_costNew _).post fun _ _ => trivial)
  unfold search searchWithMetrics
  simp only [bind_assoc]
  refine Ensures.bind (ensures_costNew _) (fun threshold valid => ?_)
  refine Ensures.bind (bounded threshold).returned (fun bound strict => ?_)
  refine Ensures.bind ((EncodedQuery.ensures_new querySequence engine.vocabulary).mono
    (fun _ named => named) (fun _ _ => trivial)) (fun query named => ?_)
  refine Ensures.bind (eta threshold query.string.length) (fun eta _ => ?_)
  refine Ensures.bind ((ensures_searchQueryString wf (EncodedQuery.costs_answers policy)
    (wf.known_alphabet query) (EncodedQuery.known_string named) (wf.readable_known query)
    bound eta params.maxCandidates).mono (fun _ h => h) (fun _ _ => trivial)) ?_
  rintro ⟨found, metrics⟩ ⟨_, radius, selected, sufficient, substrings, listed, minimal⟩
  exact ⟨threshold, bound, query, radius, selected, substrings, valid, strict.1, named, sufficient,
    listed, minimal⟩

end SearchEngine
end Yurine
