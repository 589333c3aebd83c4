import Yurine.Cli.Sources
import Yurine.Cli.WhitespaceRuns

/-! Matches quoted from the stored texts. The quotation of a match is the part of its text from
its first token to its last, with everything between them, and tokenizing it on its own gives
the tokens of the match again. -/
namespace Yurine
open Outcome Disk Index Piece

variable {R T : Type}

namespace TokenizerKind

def tokenize : (kind : TokenizerKind) → Tokenizer (CliError R) kind.Token
  | .character => fun sourceText => .ok (characterTokenizer sourceText)
  | .whitespace => whitespaceTokenizer

def Laid : (kind : TokenizerKind) → List (Piece kind.Token) → List Char → Prop
  | .character => LaidCharacters
  | .whitespace => LaidWords

theorem tokenize_reads : (kind : TokenizerKind) → ReadsLayouts (kind.tokenize (R := R)) kind.Laid
  | .character => characterTokenizer_reads
  | .whitespace => whitespaceTokenizer_reads

end TokenizerKind

/-- The match is a range of tokens of a stored text. -/
structure Within (tokenizer : Tokenizer (CliError R) T) (texts : List String) (matched : Match R) :
    Prop where
  within : ∃ sourceText tokens, texts[matched.sequenceId]? = some sourceText ∧
    tokenizer sourceText = .ok tokens ∧ matched.tokenRange.2 ≤ tokens.length
  nonempty : matched.tokenRange.1 < matched.tokenRange.2

/-- The place and the quotation of a match: from the first byte of its first token to the last
byte of its last. -/
structure Places (tokenizer : Tokenizer (CliError R) T) (texts : List String) (matched : Match R)
    (located : LocatedMatch R) : Prop where
  sequenceId : located.sequenceId = matched.sequenceId
  distance : located.distance = matched.distance
  placed : ∃ sourceText tokens first last, texts[matched.sequenceId]? = some sourceText ∧
    tokenizer sourceText = .ok tokens ∧ tokens[matched.tokenRange.1]? = some first ∧
    tokens[matched.tokenRange.2 - 1]? = some last ∧
    located.byteRange = (first.byteRange.1, last.byteRange.2) ∧
    sliceText (ε := CliError R) sourceText located.byteRange.1 located.byteRange.2 =
      .ok located.matchedText

/-- A located match quotes the tokens of its match: its text has its place between boundaries and
has these tokens on its own. -/
structure Quotes (tokenizer : Tokenizer (CliError R) T) (texts : List String) (matched : Match R)
    (located : LocatedMatch R) : Prop extends Places tokenizer texts matched located where
  quoted : ∃ sourceText, texts[matched.sequenceId]? = some sourceText ∧
    IsBoundary sourceText located.byteRange.1 ∧ IsBoundary sourceText located.byteRange.2 ∧
    sliceText (ε := CliError R) sourceText located.byteRange.1 located.byteRange.2 =
      .ok located.matchedText ∧
    ∃ tokens again, tokenizer sourceText = .ok tokens ∧
      tokenizer located.matchedText = .ok again ∧
      again.map (fun token => token.value) = ((tokens.drop matched.tokenRange.1).take
        (matched.tokenRange.2 - matched.tokenRange.1)).map (fun token => token.value)

section Layout
variable {tokenizer : Tokenizer (CliError R) T} {Laid : List (Piece T) → List Char → Prop}
  {pieces : List (Piece T)} {trailing : List Char}

theorem exists_range {start stop : Nat} (nonempty : start < stop) (within : stop ≤ pieces.length) :
    ∃ before piece middle after, pieces = before ++ piece :: (middle ++ after) ∧
      before.length = start ∧ before.length + middle.length + 1 = stop := by
  have inside : start < pieces.length := by omega
  refine ⟨pieces.take start, pieces[start], (pieces.drop (start + 1)).take (stop - start - 1),
    (pieces.drop (start + 1)).drop (stop - start - 1), ?_, by simp; omega, by simp; omega⟩
  rw [List.take_append_drop, ← List.drop_eq_getElem_cons inside, List.take_append_drop]

/-- The slice from the first token of a range to its last is a text with these tokens. -/
theorem ReadsLayouts.quotes (reads : ReadsLayouts tokenizer Laid) (laid : Laid pieces trailing)
    {start stop : Nat} (nonempty : start < stop) (within : stop ≤ pieces.length) :
    ∃ first last matchedText again, (located 0 pieces)[start]? = some first ∧
      (located 0 pieces)[stop - 1]? = some last ∧
      IsBoundary (String.ofList (text pieces trailing)) first.byteRange.1 ∧
      IsBoundary (String.ofList (text pieces trailing)) last.byteRange.2 ∧
      sliceText (ε := CliError R) (String.ofList (text pieces trailing)) first.byteRange.1
        last.byteRange.2 = .ok matchedText ∧
      tokenizer matchedText = .ok again ∧
      again.map (fun token => token.value) =
        (((located 0 pieces).drop start).take (stop - start)).map (fun token => token.value) := by
  obtain ⟨before, piece, middle, after, rfl, rfl, rfl⟩ := exists_range nonempty within
  have split : before ++ piece :: (middle ++ after) = (before ++ piece :: middle) ++ after := by
    simp
  have taken : (before ++ piece :: (middle ++ after)).take (before.length + middle.length + 1) =
      before ++ piece :: middle := by
    rw [split, List.take_left' (by simp; omega)]
  have inside : before.length + middle.length < (before ++ piece :: (middle ++ after)).length := by
    rw [List.length_append, List.length_cons, List.length_append]
    omega
  obtain ⟨final, found⟩ : ∃ final, (before ++ piece :: (middle ++ after))[before.length +
      middle.length]? = some final := ⟨_, List.getElem?_eq_getElem inside⟩
  have opens : (located 0 (before ++ piece :: (middle ++ after)))[before.length]? =
      some (piece.token (0 + byteLength (text before []))) := by
    have next : (before ++ piece :: (middle ++ after))[before.length]? = some piece := by simp
    rw [getElem?_located 0 next, List.take_left' rfl]
  have closes := getElem?_located 0 found
  have stops := stop_located 0 found
  have whole : byteLength (text (before ++ piece :: middle) []) = byteLength (text before []) +
      byteLength piece.gap + byteLength (text ({ piece with gap := [] } :: middle) []) := by
    have parts := text_split before piece middle [] []
    rw [List.append_nil, text_nil, List.append_nil] at parts
    rw [parts, byteLength_append, byteLength_append]
  rw [taken, whole] at stops
  obtain ⟨first, last, sliced⟩ := sliceText_part (ε := CliError R) before piece middle after trailing
  have starts : (piece.token (0 + byteLength (text before []))).byteRange.1 =
      byteLength (text before []) + byteLength piece.gap := by
    rw [token, Nat.zero_add]
  refine ⟨_, _, _, _, opens, closes, ?_, ?_, ?_, reads.reads (reads.part laid), ?_⟩
  · rw [starts]
    exact first
  · rw [stops, Nat.zero_add]
    exact last
  · rw [starts, stops, Nat.zero_add]
    exact sliced
  · have count : before.length + middle.length + 1 - before.length = middle.length + 1 := by omega
    rw [List.map_take, List.map_drop, map_value_located, map_value_located, count]
    simp

end Layout

section Locate
variable {kind : TokenizerKind} {texts : List String} {sources : SourceReader}

def CacheOf (kind : TokenizerKind) (R : Type) (texts : List String) (cached : Option CachedText) :
    Prop :=
  ∀ text ∈ cached, texts[text.1]? = some text.2.1 ∧ ∃ tokens,
    kind.tokenize (R := R) text.2.1 = .ok tokens ∧
      text.2.2 = tokens.map (fun token => token.byteRange)

variable {cached : Option CachedText} {matched : Match R}

/-- Read or remembered, the text is that of the match. -/
theorem cachedText_ok (stored : ∀ {i : Nat} {text : String}, texts[i]? = some text →
      (sources.read i : CliResult R String) = .ok text)
    (valid : CacheOf kind R texts cached) {sequenceId : Nat} {sourceText : String}
    {tokens : List (Tokenized kind.Token)} (found : texts[sequenceId]? = some sourceText)
    (tokenized : kind.tokenize (R := R) sourceText = .ok tokens) :
    cachedText (kind.tokenize (R := R)) sources cached sequenceId =
      .ok (sequenceId, sourceText, tokens.map (fun token => token.byteRange)) := by
  rw [cachedText]
  cases kept : cached.filter (fun text => text.1 = sequenceId) with
  | some text =>
    obtain ⟨remembered, same⟩ := Option.filter_eq_some_iff.mp kept
    obtain ⟨id, known, ranges⟩ := text
    obtain rfl : id = sequenceId := of_decide_eq_true same
    obtain ⟨here, others, again, all⟩ := valid _ remembered
    obtain rfl : known = sourceText := Option.some.inj (here.symm.trans found)
    obtain rfl : others = tokens := Except.ok.inj (again.symm.trans tokenized)
    obtain rfl : ranges = others.map (fun token => token.byteRange) := all
    rfl
  | none =>
    apply bind_eq_ok.mpr ⟨sourceText, stored found, _⟩
    exact bind_eq_ok.mpr ⟨tokens, tokenized, rfl⟩

theorem locateMatch_ok (stored : ∀ {i : Nat} {text : String}, texts[i]? = some text →
      (sources.read i : CliResult R String) = .ok text)
    (valid : CacheOf kind R texts cached) (within : Within (kind.tokenize (R := R)) texts matched)
    (before : List (LocatedMatch R)) :
    ∃ located after, locateMatch (kind.tokenize (R := R)) sources (before, cached) matched =
        .ok (before ++ [located], after) ∧
      CacheOf kind R texts after ∧ Quotes (kind.tokenize (R := R)) texts matched located := by
  obtain ⟨⟨sourceText, tokens, found, tokenized, inside⟩, nonempty⟩ := within
  have text := cachedText_ok stored valid found tokenized
  obtain ⟨pieces, trailing, rfl, laid, layout⟩ := (kind.tokenize_reads (R := R)).layout sourceText
  obtain rfl : tokens = located 0 pieces := Except.ok.inj (tokenized.symm.trans layout)
  rw [length_located] at inside
  obtain ⟨first, last, matchedText, again, opens, closes, left, right, sliced, retokenized, same⟩ :=
    (kind.tokenize_reads (R := R)).quotes laid nonempty inside
  have positive : 1 ≤ matched.tokenRange.2 := by omega
  refine ⟨⟨matched.sequenceId, (first.byteRange.1, last.byteRange.2), matched.distance,
    matchedText⟩, some (matched.sequenceId, String.ofList (Piece.text pieces trailing),
      (located 0 pieces).map (fun token => token.byteRange)), ?_, ?_, ⟨rfl, rfl, _, _, first, last,
    found, layout, opens, closes, rfl, sliced⟩, _, found, left, right, sliced, _, again, layout,
    retokenized, same⟩
  · have start : ((located 0 pieces).map (fun token => token.byteRange))[matched.tokenRange.1]? =
        some first.byteRange := by rw [List.getElem?_map, opens, Option.map_some]
    have stop : ((located 0 pieces).map (fun token => token.byteRange))[matched.tokenRange.2 - 1]? =
        some last.byteRange := by rw [List.getElem?_map, closes, Option.map_some]
    apply bind_eq_ok.mpr ⟨_, text, _⟩
    simp only [if_pos positive, bind_ok, start, stop, sliced]
    rfl
  · rintro _ ⟨⟩
    exact ⟨found, _, layout, rfl⟩

theorem foldlM_locateMatch (stored : ∀ {i : Nat} {text : String}, texts[i]? = some text →
      (sources.read i : CliResult R String) = .ok text)
    (valid : CacheOf kind R texts cached) (found : List (Match R))
    (within : ∀ matched ∈ found, Within (kind.tokenize (R := R)) texts matched)
    (before : List (LocatedMatch R)) :
    ∃ located after, found.foldlM (locateMatch (kind.tokenize (R := R)) sources) (before, cached) =
        .ok (before ++ located, after) ∧
      List.Forall₂ (Quotes (kind.tokenize (R := R)) texts) found located := by
  induction found generalizing before cached with
  | nil => exact ⟨[], cached, by simp; rfl, .nil⟩
  | cons matched found ih =>
    obtain ⟨here, later⟩ := List.forall_mem_cons.mp within
    obtain ⟨located, after, step, valid, quotes⟩ := locateMatch_ok stored valid here before
    obtain ⟨rest, last, ran, all⟩ := ih valid later (before ++ [located])
    refine ⟨located :: rest, last, ?_, .cons quotes all⟩
    rw [List.foldlM_cons, step, bind_ok, ran, List.append_assoc]
    rfl

theorem locateMatches_ok (stored : ∀ {i : Nat} {text : String}, texts[i]? = some text →
      (sources.read i : CliResult R String) = .ok text) (found : List (Match R))
    (within : ∀ matched ∈ found, Within (kind.tokenize (R := R)) texts matched) :
    ∃ located, locateMatches (kind.tokenize (R := R)) found sources = .ok located ∧
      List.Forall₂ (Quotes (kind.tokenize (R := R)) texts) found located := by
  have empty : CacheOf kind R texts none := nofun
  obtain ⟨located, after, ran, all⟩ := foldlM_locateMatch stored empty found within []
  refine ⟨located, ?_, all⟩
  rw [locateMatches, ran]
  rfl

end Locate

/-- The matches of an index are located in its texts, in their order. -/
theorem locateMatches_quotes (kind : TokenizerKind) (directory : String) (texts : List String)
    (before : Directory String)
    (sized : ∀ name ∈ [sourcesFile, offsetsFile], ∀ bytes,
      performAll (storeSources (R := R) texts).calls before name = some bytes →
        bytes.length < 2 ^ 64)
    (found : List (Match R))
    (within : ∀ matched ∈ found, Within (kind.tokenize (R := R)) texts matched) :
    ∃ sources located, (SourceReader.openIn directory
        (performAll (storeSources (R := R) texts).calls before) texts.length :
          CliResult R SourceReader) = .ok sources ∧
      locateMatches (kind.tokenize (R := R)) found sources = .ok located ∧
      List.Forall₂ (Quotes (kind.tokenize (R := R)) texts) found located := by
  obtain ⟨stored, table, short, tableShort⟩ := files_storeSources sized
  have opened := openIn_stored (R := R) directory stored table tableShort
  have reads {i : Nat} {text : String} (found : texts[i]? = some text) :
      ((storedReader texts).read i : CliResult R String) = .ok text := by
    obtain ⟨inside, rfl⟩ := List.getElem?_eq_some_iff.mp found
    exact read_storedReader short inside
  obtain ⟨located, ran, all⟩ := locateMatches_ok reads found within
  exact ⟨storedReader texts, located, opened, ran, all⟩

/-- Two tokens of the second text with the spaces between them, then one of the first. -/
theorem locateMatches_quotes_two : ∃ sources located, (SourceReader.openIn "index"
      (performAll (storeSources (R := Int) ["a", "東  京 "]).calls fun _ => none) 2 :
        CliResult Int SourceReader) = .ok sources ∧
    locateMatches (TokenizerKind.whitespace.tokenize (R := Int)) [⟨1, (0, 2), 3⟩, ⟨0, (0, 1), 0⟩]
      sources = .ok located ∧
    List.Forall₂ (Quotes (TokenizerKind.whitespace.tokenize (R := Int)) ["a", "東  京 "])
      [⟨1, (0, 2), 3⟩, ⟨0, (0, 1), 0⟩] located := by
  refine locateMatches_quotes .whitespace "index" ["a", "東  京 "] (fun _ => none)
    (sized_storeSources (by decide) (by decide)) _ ?_
  intro matched listed
  rcases List.mem_pair.mp listed with rfl | rfl
  · exact ⟨⟨_, _, rfl, rfl, by decide⟩, by decide⟩
  · exact ⟨⟨_, _, rfl, rfl, by decide⟩, by decide⟩

end Yurine
