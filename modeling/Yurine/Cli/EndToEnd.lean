import Yurine.Cli.RebuildFailure
import Yurine.Search.Accuracy
import Yurine.Search.Refused

/-! Building an index and searching it, from the lines of a corpus to the quotations that a search
prints. The byte range of a match is that of its tokens, so the order of the matches is also the
order of their places in the texts. -/
namespace Yurine
open Outcome Disk Index SearchEngineBuilder Piece EditScripts

variable {R T : Type}

section Order
variable {kind : TokenizerKind}

/-- Tokens are not empty and stand one behind the other. -/
theorem pairwise_located {pieces : List (Piece T)} (nonempty : ∀ piece ∈ pieces, piece.body ≠ [])
    (start : Nat) :
    (∀ token ∈ located start pieces, start ≤ token.byteRange.1 ∧
        token.byteRange.1 < token.byteRange.2) ∧
      (located start pieces).Pairwise fun first second =>
        first.byteRange.2 ≤ second.byteRange.1 := by
  induction pieces generalizing start with
  | nil => exact ⟨fun _ impossible => absurd impossible List.not_mem_nil, .nil⟩
  | cons piece rest ih =>
    obtain ⟨here, later⟩ := List.forall_mem_cons.mp nonempty
    obtain ⟨each, ordered⟩ := ih later (start + byteLength piece.chars)
    have size := byteLength_pos here
    constructor
    · intro token mem
      rcases List.mem_cons.mp mem with rfl | mem
      · simp only [Piece.token, Piece.chars, byteLength_append]
        omega
      · obtain ⟨behind, forward⟩ := each token mem
        exact ⟨(Nat.le_add_right _ _).trans behind, forward⟩
    · exact .cons (fun token mem => (each token mem).1) ordered

theorem TokenizerKind.Laid.body_ne_nil {pieces : List (Piece kind.Token)} {trailing : List Char}
    (laid : kind.Laid pieces trailing) : ∀ piece ∈ pieces, piece.body ≠ [] := by
  intro piece mem
  cases kind with
  | character =>
    rw [(LaidCharacters.each laid piece mem).2]
    exact List.cons_ne_nil _ _
  | whitespace => exact (LaidWords.words laid piece mem).nonempty

variable {sourceText : String} {tokens : List (Tokenized kind.Token)}

theorem tokenize_ordered (tokenized : kind.tokenize (R := R) sourceText = .ok tokens) :
    (∀ token ∈ tokens, token.byteRange.1 < token.byteRange.2) ∧
      tokens.Pairwise fun first second => first.byteRange.2 ≤ second.byteRange.1 := by
  obtain ⟨pieces, trailing, rfl, laid, layout⟩ := (kind.tokenize_reads (R := R)).layout sourceText
  obtain rfl : tokens = located 0 pieces := Except.ok.inj (tokenized.symm.trans layout)
  obtain ⟨each, ordered⟩ := pairwise_located laid.body_ne_nil 0
  exact ⟨fun token mem => (each token mem).2, ordered⟩

end Order

/-- The order of located matches: sequence identifier, start, end. -/
def LocatedMatch.key (located : LocatedMatch R) : Nat ×ₗ (Nat ×ₗ Nat) :=
  toLex (located.sequenceId, toLex located.byteRange)

section Places
variable {kind : TokenizerKind} {texts : List String} {matched other : Match R}

theorem Places.unique {tokenizer : Tokenizer (CliError R) T} {first second : LocatedMatch R}
    (places : Places tokenizer texts matched first)
    (again : Places tokenizer texts matched second) : first = second := by
  obtain ⟨id, range, distance, text⟩ := first
  obtain ⟨id', range', distance', text'⟩ := second
  obtain ⟨rfl, rfl, sourceText, tokens, start, stop, here, tokenized, opens, closes, range, quoted⟩ :=
    places
  obtain ⟨rfl, rfl, sourceText', tokens', start', stop', here', tokenized', opens', closes',
    range', quoted'⟩ := again
  simp only at range quoted range' quoted'
  obtain rfl := Option.some.inj (here.symm.trans here')
  obtain rfl := Except.ok.inj (tokenized.symm.trans tokenized')
  obtain rfl := Option.some.inj (opens.symm.trans opens')
  obtain rfl := Option.some.inj (closes.symm.trans closes')
  obtain rfl := range.trans range'.symm
  obtain rfl := Except.ok.inj (quoted.symm.trans quoted')
  rfl

/-- Ranges in order have their places in order. -/
theorem Places.key_lt {located after : LocatedMatch R}
    (places : Places (kind.tokenize (R := R)) texts matched located)
    (behind : Places (kind.tokenize (R := R)) texts other after)
    (nonempty : matched.tokenRange.1 < matched.tokenRange.2) (less : matched.key < other.key) :
    located.key < after.key := by
  obtain ⟨id, distance, text, tokens, first, last, here, tokenized, opens, closes, range, _⟩ :=
    places
  obtain ⟨id', distance', text', tokens', first', last', here', tokenized', opens', closes',
    range', _⟩ := behind
  rw [LocatedMatch.key, LocatedMatch.key, id, id', range, range', Prod.Lex.toLex_lt_toLex]
  rw [Match.key, Match.key, Prod.Lex.toLex_lt_toLex] at less
  refine less.imp_right ?_
  rintro ⟨same, ranges⟩
  refine ⟨same, ?_⟩
  simp only at same
  rw [same, here'] at here
  obtain rfl := Option.some.inj here
  obtain rfl := Except.ok.inj (tokenized.symm.trans tokenized')
  obtain ⟨forward, ordered⟩ := tokenize_ordered tokenized
  rw [List.pairwise_iff_getElem] at ordered
  -- tokens apart are also apart in bytes
  have apart {i j : Nat} {a b : Tokenized kind.Token} (ha : tokens[i]? = some a)
      (hb : tokens[j]? = some b) (between : i < j) : a.byteRange.2 ≤ b.byteRange.1 := by
    obtain ⟨inside, rfl⟩ := List.getElem?_eq_some_iff.mp ha
    obtain ⟨inside', rfl⟩ := List.getElem?_eq_some_iff.mp hb
    exact ordered i j inside inside' between
  rw [Prod.Lex.lt_iff] at ranges
  rw [Prod.Lex.toLex_lt_toLex]
  rcases ranges with less | ⟨equal, less⟩
  · left
    exact (forward first (List.mem_of_getElem? opens)).trans_le (apart opens opens' less)
  · right
    have same : matched.tokenRange.1 = other.tokenRange.1 := equal
    have further : matched.tokenRange.2 < other.tokenRange.2 := less
    rw [same] at opens
    obtain rfl := Option.some.inj (opens.symm.trans opens')
    refine ⟨rfl, ?_⟩
    exact (apart closes closes' (by omega)).trans_lt (forward last' (List.mem_of_getElem? closes'))

variable {found : List (Match R)} {located : List (LocatedMatch R)}

/-- Every match is located, and nothing else is. -/
theorem exists_places (all : List.Forall₂ (Places (kind.tokenize (R := R)) texts) found located) :
    (∀ matched ∈ found, ∃ m ∈ located, Places (kind.tokenize (R := R)) texts matched m) ∧
      ∀ m ∈ located, ∃ matched ∈ found, Places (kind.tokenize (R := R)) texts matched m := by
  induction all with
  | nil => exact ⟨fun _ impossible => absurd impossible List.not_mem_nil,
      fun _ impossible => absurd impossible List.not_mem_nil⟩
  | cons here rest ih =>
    obtain ⟨left, right⟩ := ih
    constructor
    · intro matched mem
      rcases List.mem_cons.mp mem with rfl | mem
      · exact ⟨_, List.mem_cons_self, here⟩
      · obtain ⟨m, listed, places⟩ := left matched mem
        exact ⟨m, List.mem_cons_of_mem _ listed, places⟩
    · intro m mem
      rcases List.mem_cons.mp mem with rfl | mem
      · exact ⟨_, List.mem_cons_self, here⟩
      · obtain ⟨matched, listed, places⟩ := right m mem
        exact ⟨matched, List.mem_cons_of_mem _ listed, places⟩

theorem pairwise_places (all : List.Forall₂ (Places (kind.tokenize (R := R)) texts) found located)
    (nonempty : ∀ matched ∈ found, matched.tokenRange.1 < matched.tokenRange.2)
    (ordered : found.Pairwise fun a b => a.key < b.key) :
    located.Pairwise fun a b => a.key < b.key := by
  induction all with
  | nil => exact .nil
  | cons here rest ih =>
    obtain ⟨first, later⟩ := List.forall_mem_cons.mp nonempty
    obtain ⟨behind, ordered⟩ := List.pairwise_cons.mp ordered
    refine .cons (fun m mem => ?_) (ih later ordered)
    obtain ⟨other, listed, places⟩ := (exists_places rest).2 m mem
    exact here.key_lt places first (behind other listed)

end Places

section Sequences
variable {tokenizer : Tokenizer (CliError R) T} {texts : List String}
  {sequences : List (List T)} {sequence : List T}

theorem TokensOf.getElem?_iff (all : TokensOf tokenizer texts sequences) (id : Nat) :
    sequences[id]? = some sequence ↔ ∃ sourceText tokens, texts[id]? = some sourceText ∧
      tokenizer sourceText = .ok tokens ∧ sequence = tokens.map fun token => token.value := by
  induction all generalizing id with
  | nil => simp
  | cons here rest ih =>
    cases id with
    | zero =>
      obtain ⟨tokens, tokenized, rfl⟩ := here
      simp only [List.getElem?_cons_zero, Option.some.injEq]
      constructor
      · rintro rfl
        exact ⟨_, tokens, rfl, tokenized, rfl⟩
      · rintro ⟨_, tokens', rfl, tokenized', rfl⟩
        rw [Except.ok.inj (tokenized.symm.trans tokenized')]
    | succ id =>
      simp only [List.getElem?_cons_succ]
      exact ih id

end Sequences

/-- What a complete build leaves: the lines of the corpus are texts, and a search is one on an
engine over their tokens. -/
theorem exists_engine [Number R] {json : Json Index.Metadata} {random : String} {corpus : Corpus}
    {kind : TokenizerKind} {before : Directory String}
    (complete : (runIndex json random corpus kind : CliScript R PUnit).result = .ok ⟨⟩)
    (parses : ∀ lines, corpus = some lines → json.fromStr (json.toStringPretty
      ⟨Index.formatVersion, kind, lines.length⟩ ++ "\n") =
        some ⟨Index.formatVersion, kind, lines.length⟩)
    (sized : ∀ name ∈ publishedFiles, ∀ bytes, performAll (runIndex (R := R) json random corpus
      kind).calls before name = some bytes → bytes.length < 2 ^ 64) :
    ∃ (texts : List String) (sequences : List (List kind.Token))
      (engine : SearchEngine kind.Token), corpus = some (texts.map some) ∧
      TokensOf (kind.tokenize (R := R)) texts sequences ∧ sequences.length ≤ 2 ^ 32 ∧
      Indexes engine sequences ∧ (sourceBytes texts).length < 2 ^ 64 ∧
      ∀ options : SearchOptions R, findMatches json options
        (performAll (runIndex (R := R) json random corpus kind).calls before) = (do
          let costs ← options.costs kind
          let querySequence ← kind.tokenize options.querySourceText
          let found ← ofLibrary (engine.search costs
            (querySequence.map fun token => token.value) ⟨options.threshold.get, none⟩)
          locateMatches kind.tokenize found (storedReader texts)) := by
  rw [runIndex_eq] at complete sized ⊢
  obtain ⟨texts, bytes, contents⟩ := exists_contents complete
  rw [buildIndex_ok contents] at sized ⊢
  have published := published_performAll json random kind texts bytes before
  obtain ⟨read, sequences, engine, tokens, count, indexes, _, saved⟩ := engine_of_contents contents
  obtain ⟨copy, reopened, verified, same⟩ := exists_opened count indexes
    kind.indexCodec_roundTrips kind.indexCodec_short saved
  have table := sized offsetsFile (by simp [publishedFiles]) _ published.offsets
  rw [length_offsetBytes] at table
  have parsed := parses _ read
  rw [List.length_map] at parsed
  exact ⟨texts, sequences, engine, read, tokens, count, indexes,
    sized sourcesFile (by simp [publishedFiles]) _ published.sources,
    findMatches_published published parsed table reopened verified same⟩

section Answers
variable {kind : TokenizerKind} {texts : List String} {sequences : List (List kind.Token)}

theorem within_of_sequence (all : TokensOf (kind.tokenize (R := R)) texts sequences)
    {matched : Match R} {sequence : List kind.Token}
    (here : sequences[matched.sequenceId]? = some sequence)
    (ordered : matched.tokenRange.1 < matched.tokenRange.2)
    (inside : matched.tokenRange.2 ≤ sequence.length) :
    Within (kind.tokenize (R := R)) texts matched := by
  obtain ⟨sourceText, tokens, text, tokenized, rfl⟩ := (all.getElem?_iff _).mp here
  rw [List.length_map] at inside
  exact ⟨⟨sourceText, tokens, text, tokenized, inside⟩, ordered⟩

theorem Places.length_le {matched : Match R} {m : LocatedMatch R} {sourceText : String}
    {tokens : List (Tokenized kind.Token)}
    (places : Places (kind.tokenize (R := R)) texts matched m)
    (text : texts[matched.sequenceId]? = some sourceText)
    (tokenized : kind.tokenize (R := R) sourceText = .ok tokens) :
    matched.tokenRange.2 ≤ tokens.length := by
  obtain ⟨_, _, sourceText', tokens', _, _, here, tokenized', _, closes, _⟩ := places
  obtain rfl := Option.some.inj (text.symm.trans here)
  obtain rfl := Except.ok.inj (tokenized.symm.trans tokenized')
  exact Nat.le_of_pred_lt (List.getElem?_eq_some_iff.mp closes).1

/-- Whatever is found in the texts is located in them. -/
theorem ensures_located {Q : List (Match R) → Prop} {E : Error R → Prop}
    {result : Result R (List (Match R))} (search : Ensures Q E result)
    (within : ∀ found, Q found → ∀ m ∈ found, Within (kind.tokenize (R := R)) texts m)
    (sized : (sourceBytes texts).length < 2 ^ 64) :
    Ensures (fun located => ∃ found, Q found ∧
        List.Forall₂ (Places (kind.tokenize (R := R)) texts) found located)
      (fun e => ∃ reason, e = .library reason ∧ E reason) (do
        let found ← ofLibrary result
        locateMatches (kind.tokenize (R := R)) found (storedReader texts)) := by
  have reads {i : Nat} {text : String} (found : texts[i]? = some text) :
      ((storedReader texts).read i : CliResult R String) = .ok text := by
    obtain ⟨inside, rfl⟩ := List.getElem?_eq_some_iff.mp found
    exact read_storedReader sized inside
  match result, search with
  | .ok found, answer =>
    obtain ⟨located, ran, all⟩ := locateMatches_ok reads found (within found answer)
    rw [ofLibrary, bind_ok, ran]
    exact ⟨found, answer, all.imp fun _ _ quotes => quotes.toPlaces⟩
  | .error (.error reason), refused => exact ⟨reason, rfl, refused⟩

end Answers

/-- The command line is exact from end to end. After a build that completes, a search of the
directory fails only of a reason to refuse it. Otherwise it prints, in order and each once, the
places of the ranges of tokens of all lines that are within the threshold, with their weighted edit
distances. -/
theorem findMatches_exact [DiscreteNumber R] [SharedNumber R] (json : Json Index.Metadata)
    (random : String) (corpus : Corpus) (kind : TokenizerKind) (before : Directory String)
    (complete : (runIndex json random corpus kind : CliScript R PUnit).result = .ok ⟨⟩)
    (parses : ∀ lines, corpus = some lines → json.fromStr (json.toStringPretty
      ⟨Index.formatVersion, kind, lines.length⟩ ++ "\n") =
        some ⟨Index.formatVersion, kind, lines.length⟩)
    (sized : ∀ name ∈ publishedFiles, ∀ bytes, performAll (runIndex (R := R) json random corpus
      kind).calls before name = some bytes → bytes.length < 2 ^ 64)
    (options : SearchOptions R) (policy : Policy R kind.Token)
    (loaded : options.costs kind = .ok policy) :
    ∃ texts sequences query, corpus = some (texts.map some) ∧
      TokensOf (kind.tokenize (R := R)) texts sequences ∧
      kind.tokenize (R := R) options.querySourceText = .ok query ∧
      Ensures (fun located =>
        Serves policy options.threshold sequences (query.map fun token => token.value) ∧
        located.Pairwise (fun a b => a.key < b.key) ∧
        ∀ m, m ∈ located ↔ ∃ matched sourceText tokens,
          Places (kind.tokenize (R := R)) texts matched m ∧
          texts[matched.sequenceId]? = some sourceText ∧
          kind.tokenize (R := R) sourceText = .ok tokens ∧
          matched.tokenRange.1 < matched.tokenRange.2 ∧
          IsLeast (totals policy.weights (query.map fun token => token.value)
            (segment (tokens.map fun token => token.value) matched.tokenRange.1
              matched.tokenRange.2)) matched.distance ∧
          matched.distance ≤ options.threshold.get)
        (fun e => ∃ reason, e = .library reason ∧ Refused policy options.threshold sequences
          (query.map fun token => token.value) reason)
        (findMatches json options
          (performAll (runIndex (R := R) json random corpus kind).calls before)) := by
  obtain ⟨texts, sequences, engine, read, all, count, indexes, short, search⟩ :=
    exists_engine complete parses sized
  obtain ⟨_, _, _, _, tokenized⟩ :=
    (kind.tokenize_reads (R := R)).layout options.querySourceText
  refine ⟨texts, sequences, _, read, all, tokenized, ?_⟩
  rw [search, loaded, bind_ok, tokenized, bind_ok]
  refine Ensures.post (ensures_located (SearchEngine.ensures_served indexes policy _ _) ?_ short) ?_
  · rintro found ⟨answer, _⟩ m mem
    obtain ⟨sequence, here, ordered, inside, _⟩ := (answer.mem_iff indexes count).mp mem
    exact within_of_sequence all here ordered inside
  · rintro located ⟨found, ⟨answer, served⟩, places⟩
    obtain ⟨left, right⟩ := exists_places places
    have ordered : ∀ m ∈ found, m.tokenRange.1 < m.tokenRange.2 := by
      intro m mem
      obtain ⟨_, _, nonempty, _⟩ := (answer.mem_iff indexes count).mp mem
      exact nonempty
    refine ⟨served, pairwise_places places ordered answer.pairwise, fun m => ?_⟩
    simp only [isLeast_totals_iff]
    constructor
    · intro mem
      obtain ⟨matched, listed, place⟩ := right m mem
      obtain ⟨sequence, here, nonempty, _, exact_, near⟩ :=
        (answer.mem_iff indexes count).mp listed
      obtain ⟨sourceText, tokens, text, again, rfl⟩ := (all.getElem?_iff _).mp here
      exact ⟨matched, sourceText, tokens, place, text, again, nonempty, exact_, near⟩
    · rintro ⟨matched, sourceText, tokens, place, text, again, nonempty, exact_, near⟩
      have inside := place.length_le text again
      have listed : matched ∈ found := (answer.mem_iff indexes count).mpr
        ⟨_, (all.getElem?_iff _).mpr ⟨sourceText, tokens, text, again, rfl⟩, nonempty,
          by rwa [List.length_map], exact_, near⟩
      obtain ⟨m', mem, place'⟩ := left matched listed
      rwa [place.unique place']

theorem findMatches_exact_ban : (runIndex oneLineJson "random" (some [some "ban"])
      .character : CliScript Int PUnit).result = .ok ⟨⟩ ∧
    findMatches oneLineJson (searchLetter "n") (performAll (runIndex (R := Int) oneLineJson
      "random" (some [some "ban"]) .character).calls fun _ => none) =
        .ok [⟨0, (2, 3), 0, "n"⟩] ∧
    ∀ m, m ∈ ([⟨0, (2, 3), 0, "n"⟩] : List (LocatedMatch Int)) ↔
      ∃ matched sourceText tokens,
        Places (TokenizerKind.character.tokenize (R := Int)) ["ban"] matched m ∧
        ["ban"][matched.sequenceId]? = some sourceText ∧
        TokenizerKind.character.tokenize (R := Int) sourceText = .ok tokens ∧
        matched.tokenRange.1 < matched.tokenRange.2 ∧
        IsLeast (totals (unitCosts (T := Char)).weights ['n']
          (segment (tokens.map fun token => token.value) matched.tokenRange.1
            matched.tokenRange.2)) matched.distance ∧
        matched.distance ≤ 0 := by
  have small : ∀ name ∈ publishedFiles, ∀ bytes, performAll (runIndex (R := Int) oneLineJson
      "random" (some [some "ban"]) .character).calls (fun _ => none) name = some bytes →
        bytes.length < 2 ^ 64 := by
    have all : ∀ name ∈ publishedFiles, ((performAll (runIndex (R := Int) oneLineJson "random"
        (some [some "ban"]) .character).calls (fun _ => none) name).all
          fun bytes => bytes.length < 2 ^ 64) = true := by decide +kernel
    intro name mem bytes found
    have within := all name mem
    rw [found] at within
    exact of_decide_eq_true within
  have parses : ∀ lines, some [some "ban"] = some lines → oneLineJson.fromStr
      (oneLineJson.toStringPretty ⟨1, .character, lines.length⟩ ++ "\n") =
        some ⟨1, .character, lines.length⟩ := by
    intro lines same
    rw [← Option.some.inj same]
    decide +kernel
  have found : findMatches oneLineJson (searchLetter "n") (performAll (runIndex (R := Int)
      oneLineJson "random" (some [some "ban"]) .character).calls fun _ => none) =
        .ok [⟨0, (2, 3), 0, "n"⟩] := by decide +kernel
  have answers := findMatches_exact (R := Int) oneLineJson "random" (some [some "ban"]) .character
    (fun _ => none) (by decide +kernel) parses small (searchLetter "n") unitCosts rfl
  refine ⟨by decide +kernel, found, ?_⟩
  generalize performAll (runIndex (R := Int) oneLineJson "random" (some [some "ban"])
    .character).calls (fun _ => none) = files at found answers
  obtain ⟨texts, _, query, read, _, tokenized, ends⟩ := answers
  obtain rfl : ["ban"] = texts := by
    apply List.map_injective_iff.mpr (Option.some_injective String)
    exact Option.some.inj read
  obtain rfl := Except.ok.inj tokenized
  exact (ends.of_ok found).2.2

/-- In single precision a search of the directory fails only of a reason to refuse it. Otherwise it
prints no place that is farther than the threshold by more than roundoff, misses none that is
nearer by more, and prints distances that are exact up to roundoff. -/
theorem findMatches_accurate (json : Json Index.Metadata) (random : String)
    (corpus : Corpus) (kind : TokenizerKind) (before : Directory String)
    (complete : (runIndex json random corpus kind : CliScript Single PUnit).result = .ok ⟨⟩)
    (parses : ∀ lines, corpus = some lines → json.fromStr (json.toStringPretty
      ⟨Index.formatVersion, kind, lines.length⟩ ++ "\n") =
        some ⟨Index.formatVersion, kind, lines.length⟩)
    (sized : ∀ name ∈ publishedFiles, ∀ bytes, performAll (runIndex (R := Single) json random
      corpus kind).calls before name = some bytes → bytes.length < 2 ^ 64)
    (options : SearchOptions Single) (policy : Policy Single kind.Token)
    (loaded : options.costs kind = .ok policy) :
    ∃ texts sequences query, corpus = some (texts.map some) ∧
      TokensOf (kind.tokenize (R := Single)) texts sequences ∧
      kind.tokenize (R := Single) options.querySourceText = .ok query ∧
      Ensures (fun located =>
        Serves policy options.threshold sequences (query.map fun token => token.value) ∧
        located.Pairwise (fun a b => a.key < b.key) ∧
        (∀ m ∈ located, ∃ matched sourceText tokens d,
          Places (kind.tokenize (R := Single)) texts matched m ∧
          texts[matched.sequenceId]? = some sourceText ∧
          kind.tokenize (R := Single) sourceText = .ok tokens ∧
          matched.tokenRange.1 < matched.tokenRange.2 ∧
          matched.distance ≤ options.threshold.get ∧
          IsLeast (totals policy.exact (query.map fun token => token.value)
            (segment (tokens.map fun token => token.value) matched.tokenRange.1
              matched.tokenRange.2)) d ∧
          d ≤ (1 + 1 / 2 ^ 24) ^ (query.length + (matched.tokenRange.2 - matched.tokenRange.1)) *
            matched.distance.value ∧
          matched.distance.value ≤ (1 + 1 / 2 ^ 24) ^
            (query.length + (matched.tokenRange.2 - matched.tokenRange.1)) * d) ∧
        ∀ id start stop sourceText tokens d, texts[id]? = some sourceText →
          kind.tokenize (R := Single) sourceText = .ok tokens → start < stop →
          stop ≤ tokens.length →
          IsLeast (totals policy.exact (query.map fun token => token.value)
            (segment (tokens.map fun token => token.value) start stop)) d →
          (1 + 1 / 2 ^ 24) ^ (query.length + (stop - start)) * d ≤
            options.threshold.get.value →
          ∃ m ∈ located, ∃ x,
            Places (kind.tokenize (R := Single)) texts ⟨id, (start, stop), x⟩ m)
        (fun e => ∃ reason, e = .library reason ∧ Refused policy options.threshold sequences
          (query.map fun token => token.value) reason)
        (findMatches json options
          (performAll (runIndex (R := Single) json random corpus kind).calls before)) := by
  obtain ⟨texts, sequences, engine, read, all, count, indexes, short, search⟩ :=
    exists_engine complete parses sized
  obtain ⟨_, _, _, _, tokenized⟩ :=
    (kind.tokenize_reads (R := Single)).layout options.querySourceText
  refine ⟨texts, sequences, _, read, all, tokenized, ?_⟩
  rw [search, loaded, bind_ok, tokenized, bind_ok]
  refine Ensures.post (ensures_located (SearchEngine.ensures_served indexes policy _ _) ?_ short) ?_
  · rintro found ⟨answer, _⟩ m mem
    obtain ⟨sequence, here, ordered, inside, _⟩ := (answer.accurate indexes count).1 m mem
    exact within_of_sequence all here ordered inside
  · rintro located ⟨found, ⟨answer, served⟩, places⟩
    obtain ⟨left, right⟩ := exists_places places
    obtain ⟨sound, finds⟩ := answer.accurate indexes count
    rw [List.length_map] at sound finds
    refine ⟨served, pairwise_places places (fun m mem => ?_) answer.pairwise, fun m mem => ?_, ?_⟩
    · obtain ⟨_, _, nonempty, _⟩ := sound m mem
      exact nonempty
    · obtain ⟨matched, listed, place⟩ := right m mem
      obtain ⟨sequence, here, nonempty, _, near, below, above⟩ := sound matched listed
      obtain ⟨sourceText, tokens, text, again, rfl⟩ := (all.getElem?_iff _).mp here
      exact ⟨matched, sourceText, tokens, _, place, text, again, nonempty, near,
        isLeast_totals_iff.mpr rfl, below, above⟩
    · intro id start stop sourceText tokens d text again nonempty inside least cheap
      rw [isLeast_totals_iff.mp least] at cheap
      obtain ⟨x, listed⟩ := finds id start stop _
        ((all.getElem?_iff _).mpr ⟨sourceText, tokens, text, again, rfl⟩) nonempty
        (by rwa [List.length_map]) cheap
      obtain ⟨m, mem, place⟩ := left _ listed
      exact ⟨m, mem, x, place⟩

theorem findMatches_accurate_ban : ∃ tenth : Cost Single,
    findMatches oneLineJson ⟨"index", "an", tenth, false, .ok (levenshteinCosts tenth),
        .ok (levenshteinCosts tenth)⟩ (performAll (runIndex (R := Single) oneLineJson "random"
          (some [some "ban"]) .character).calls fun _ => none) =
      .ok [⟨0, (0, 3), tenth.get, "ban"⟩, ⟨0, (1, 2), tenth.get, "a"⟩, ⟨0, (1, 3), 0, "an"⟩,
        ⟨0, (2, 3), tenth.get, "n"⟩] ∧
    ∀ id start stop sourceText tokens d, ["ban"][id]? = some sourceText →
      TokenizerKind.character.tokenize (R := Single) sourceText = .ok tokens → start < stop →
      stop ≤ tokens.length →
      IsLeast (totals (levenshteinCosts (T := Char) tenth).exact ['a', 'n']
        (segment (tokens.map fun token => token.value) start stop)) d →
      (1 + 1 / 2 ^ 24) ^ (2 + (stop - start)) * d ≤ tenth.get.value →
      ∃ m ∈ ([⟨0, (0, 3), tenth.get, "ban"⟩, ⟨0, (1, 2), tenth.get, "a"⟩, ⟨0, (1, 3), 0, "an"⟩,
        ⟨0, (2, 3), tenth.get, "n"⟩] : List (LocatedMatch Single)), ∃ x,
          Places (TokenizerKind.character.tokenize (R := Single)) ["ban"]
            ⟨id, (start, stop), x⟩ m := by
  have small : ∀ name ∈ publishedFiles, ∀ bytes, performAll (runIndex (R := Single) oneLineJson
      "random" (some [some "ban"]) .character).calls (fun _ => none) name = some bytes →
        bytes.length < 2 ^ 64 := by
    have all : ∀ name ∈ publishedFiles, ((performAll (runIndex (R := Single) oneLineJson "random"
        (some [some "ban"]) .character).calls (fun _ => none) name).all
          fun bytes => bytes.length < 2 ^ 64) = true := by decide +kernel
    intro name mem bytes found
    have within := all name mem
    rw [found] at within
    exact of_decide_eq_true within
  have parses : ∀ lines, some [some "ban"] = some lines → oneLineJson.fromStr
      (oneLineJson.toStringPretty ⟨1, .character, lines.length⟩ ++ "\n") =
        some ⟨1, .character, lines.length⟩ := by
    intro lines same
    rw [← Option.some.inj same]
    decide +kernel
  refine ⟨⟨⟨0x3dcccccd, by decide⟩, by decide, by decide⟩, ?_⟩
  have found : findMatches oneLineJson ⟨"index", "an",
      (⟨⟨0x3dcccccd, by decide⟩, by decide, by decide⟩ : Cost Single), false,
        .ok (levenshteinCosts ⟨⟨0x3dcccccd, by decide⟩, by decide, by decide⟩),
        .ok (levenshteinCosts ⟨⟨0x3dcccccd, by decide⟩, by decide, by decide⟩)⟩
        (performAll (runIndex (R := Single) oneLineJson "random" (some [some "ban"])
          .character).calls fun _ => none) =
      .ok [⟨0, (0, 3), ⟨0x3dcccccd, by decide⟩, "ban"⟩, ⟨0, (1, 2), ⟨0x3dcccccd, by decide⟩, "a"⟩,
        ⟨0, (1, 3), 0, "an"⟩, ⟨0, (2, 3), ⟨0x3dcccccd, by decide⟩, "n"⟩] := by decide +kernel
  have answers := findMatches_accurate oneLineJson "random" (some [some "ban"]) .character
    (fun _ => none) (by decide +kernel) parses small ⟨"index", "an",
      (⟨⟨0x3dcccccd, by decide⟩, by decide, by decide⟩ : Cost Single), false,
        .ok (levenshteinCosts ⟨⟨0x3dcccccd, by decide⟩, by decide, by decide⟩),
        .ok (levenshteinCosts ⟨⟨0x3dcccccd, by decide⟩, by decide, by decide⟩)⟩ _ rfl
  refine ⟨found, ?_⟩
  generalize performAll (runIndex (R := Single) oneLineJson "random" (some [some "ban"])
    .character).calls (fun _ => none) = files at found answers
  obtain ⟨texts, _, query, read, _, tokenized, ends⟩ := answers
  obtain rfl : ["ban"] = texts := by
    apply List.map_injective_iff.mpr (Option.some_injective String)
    exact Option.some.inj read
  obtain rfl := Except.ok.inj tokenized
  exact (ends.of_ok found).2.2.2

end Yurine
