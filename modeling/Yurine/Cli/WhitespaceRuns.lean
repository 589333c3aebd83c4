import Yurine.Cli.Files
import Yurine.Cli.Layouts

/-! Tokenization at whitespace. The tokens of a text are its maximal runs of other characters, so
a text is a token of its own exactly when it is one such run. -/
namespace Yurine
open Outcome Piece

variable {ε R T : Type}

/-- Whitespace and a word behind it. -/
structure IsWord (piece : Piece String) : Prop where
  value : piece.value = String.ofList piece.body
  nonempty : piece.body ≠ []
  word : ∀ c ∈ piece.body, isWhitespace c = false
  gap : ∀ c ∈ piece.gap, isWhitespace c = true

/-- The layouts of a text cut at whitespace. -/
structure LaidWords (pieces : List (Piece String)) (trailing : List Char) : Prop where
  words : ∀ piece ∈ pieces, IsWord piece
  separated : ∀ piece ∈ pieces.tail, piece.gap ≠ []
  trailing : ∀ c ∈ trailing, isWhitespace c = true

/-- The end of the text closes an open token. -/
def closeToken (sourceText : String) (state : List (Tokenized String) × Option Nat) :
    Outcome ε (List (Tokenized String)) :=
  match state.2 with
  | some byteStart => do
    let token ← sliceText sourceText byteStart (utf8 sourceText).length
    return state.1 ++ [⟨token, byteStart, (utf8 sourceText).length⟩]
  | none => return state.1

/-- The rest of a scan, from a position. -/
def scan (sourceText : String) (state : List (Tokenized String) × Option Nat) (start : Nat)
    (chars : List Char) : Outcome ε (List (Tokenized String)) := do
  closeToken sourceText (← (charIndices start chars).foldlM (whitespaceStep sourceText) state)

theorem whitespaceTokenizer_eq_scan (chars : List Char) :
    (whitespaceTokenizer (String.ofList chars) : Outcome ε (List (Tokenized String))) =
      scan (String.ofList chars) ([], none) 0 chars := by
  rw [whitespaceTokenizer, String.toList_ofList]
  rfl

section Scan
variable {sourceText : String} {state next : List (Tokenized String) × Option Nat}
  {tokens : List (Tokenized String)} {start byteStart : Nat} {c : Char}

theorem step_gap (white : isWhitespace c = true) :
    whitespaceStep (ε := ε) sourceText (tokens, none) (start, c) = .ok (tokens, none) := by
  rw [whitespaceStep, if_pos white]
  rfl

theorem step_open (other : isWhitespace c = false) :
    whitespaceStep (ε := ε) sourceText (tokens, none) (start, c) = .ok (tokens, some start) := by
  rw [whitespaceStep, if_neg (by simp [other])]
  rfl

theorem step_word (other : isWhitespace c = false) :
    whitespaceStep (ε := ε) sourceText (tokens, some byteStart) (start, c) =
      .ok (tokens, some byteStart) := by
  rw [whitespaceStep, if_neg (by simp [other])]
  rfl

theorem step_close {token : String} (white : isWhitespace c = true)
    (sliced : sliceText (ε := ε) sourceText byteStart start = .ok token) :
    whitespaceStep (ε := ε) sourceText (tokens, some byteStart) (start, c) =
      .ok (tokens ++ [⟨token, byteStart, start⟩], none) := by
  simp only [whitespaceStep, if_pos white, sliced]
  rfl

theorem scan_cons (rest : List Char)
    (step : whitespaceStep (ε := ε) sourceText state (start, c) = .ok next) :
    scan (ε := ε) sourceText state start (c :: rest) =
      scan sourceText next (start + c.utf8Size) rest := by
  rw [scan, charIndices, List.foldlM_cons, step]
  rfl

theorem scan_skip {chars : List Char} (rest : List Char) (skip : ∀ c ∈ chars, ∀ start,
      whitespaceStep (ε := ε) sourceText state (start, c) = .ok state) :
    scan (ε := ε) sourceText state start (chars ++ rest) =
      scan sourceText state (start + byteLength chars) rest := by
  induction chars generalizing start with
  | nil => rfl
  | cons c chars ih =>
    have others : ∀ d ∈ chars, ∀ start,
        whitespaceStep (ε := ε) sourceText state (start, d) = .ok state :=
      fun d mem => skip d (List.mem_cons_of_mem c mem)
    rw [List.cons_append, scan_cons _ (skip c List.mem_cons_self start), ih others,
      byteLength_cons, Nat.add_assoc]

theorem scan_piece {gap body : List Char} (rest : List Char)
    (white : ∀ c ∈ gap, isWhitespace c = true) (nonempty : body ≠ [])
    (word : ∀ c ∈ body, isWhitespace c = false) :
    scan (ε := ε) sourceText (tokens, none) start (gap ++ (body ++ rest)) =
      scan sourceText (tokens, some (start + byteLength gap))
        (start + byteLength gap + byteLength body) rest := by
  obtain ⟨c, body, rfl⟩ := List.exists_cons_of_ne_nil nonempty
  obtain ⟨first, others⟩ := List.forall_mem_cons.mp word
  rw [scan_skip _ fun d mem _ => step_gap (white d mem), List.cons_append,
    scan_cons _ (step_open first), scan_skip _ fun d mem _ => step_word (others d mem),
    byteLength_cons, Nat.add_assoc _ c.utf8Size]

theorem scan_end {token : String}
    (sliced : sliceText (ε := ε) sourceText byteStart (utf8 sourceText).length = .ok token) :
    scan (ε := ε) sourceText (tokens, some byteStart) start [] =
      .ok (tokens ++ [⟨token, byteStart, (utf8 sourceText).length⟩]) :=
  bind_eq_ok.mpr ⟨(tokens, some byteStart), rfl, bind_eq_ok.mpr ⟨token, sliced, rfl⟩⟩

theorem scan_trailing {trailing : List Char} (white : ∀ c ∈ trailing, isWhitespace c = true) :
    scan (ε := ε) sourceText (tokens, none) start trailing = .ok tokens := by
  have passed : scan (ε := ε) sourceText (tokens, none) start (trailing ++ []) =
      scan sourceText (tokens, none) (start + byteLength trailing) [] :=
    scan_skip [] fun c mem _ => step_gap (white c mem)
  rw [List.append_nil] at passed
  exact passed

end Scan

namespace LaidWords
variable {piece : Piece String} {pieces : List (Piece String)} {trailing : List Char} {c : Char}

theorem tail (laid : LaidWords (piece :: pieces) trailing) : LaidWords pieces trailing where
  words other mem := laid.words other (List.mem_cons_of_mem _ mem)
  separated other mem := laid.separated other (List.mem_of_mem_tail mem)
  trailing := laid.trailing

theorem cons (word : IsWord piece) (gaps : ∀ piece ∈ pieces, piece.gap ≠ [])
    (laid : LaidWords pieces trailing) : LaidWords (piece :: pieces) trailing where
  words := List.forall_mem_cons.mpr ⟨word, laid.words⟩
  separated := gaps
  trailing := laid.trailing

/-- One more character in front of a text is laid in front of its layout. -/
theorem exists_cons (laid : LaidWords pieces trailing) (c : Char) : ∃ next trailing',
    c :: text pieces trailing = text next trailing' ∧ LaidWords next trailing' := by
  cases white : isWhitespace c with
  | true =>
    cases pieces with
    | nil =>
      refine ⟨[], c :: trailing, rfl, laid.words, laid.separated, ?_⟩
      exact List.forall_mem_cons.mpr ⟨white, laid.trailing⟩
    | cons piece rest =>
      obtain ⟨word, _⟩ := List.forall_mem_cons.mp laid.words
      refine ⟨{ piece with gap := c :: piece.gap } :: rest, trailing, by simp, ?_⟩
      exact laid.tail.cons { word with gap := List.forall_mem_cons.mpr ⟨white, word.gap⟩ }
        laid.separated
  | false =>
    have alone : IsWord ⟨[], [c], String.ofList [c]⟩ :=
      ⟨rfl, List.cons_ne_nil _ _, by simpa using white, by simp⟩
    by_cases gaps : ∀ piece ∈ pieces, piece.gap ≠ []
    · exact ⟨⟨[], [c], String.ofList [c]⟩ :: pieces, trailing, by simp, laid.cons alone gaps⟩
    · -- only the first piece may stand at the start of the text
      cases pieces with
      | nil => simp at gaps
      | cons piece rest =>
        obtain ⟨word, _⟩ := List.forall_mem_cons.mp laid.words
        have opens : piece.gap = [] := by
          by_contra nonempty
          exact gaps (List.forall_mem_cons.mpr ⟨nonempty, laid.separated⟩)
        refine ⟨⟨[], c :: piece.body, String.ofList (c :: piece.body)⟩ :: rest, trailing,
          by simp [opens], laid.tail.cons ⟨rfl, List.cons_ne_nil _ _, ?_, by simp⟩ laid.separated⟩
        exact List.forall_mem_cons.mpr ⟨white, word.word⟩

end LaidWords

/-- Behind the characters of an open token, the scan closes it and returns it with the tokens of
the pieces that follow. -/
theorem scan_pieces {sourceText : String} {pieces : List (Piece String)} {trailing : List Char}
    (laid : LaidWords pieces trailing) (gaps : ∀ piece ∈ pieces, piece.gap ≠ [])
    (before body : List Char) (tokens : List (Tokenized String))
    (whole : sourceText = String.ofList (before ++ body ++ text pieces trailing)) :
    scan (ε := ε) sourceText (tokens, some (byteLength before))
        (byteLength before + byteLength body) (text pieces trailing) =
      .ok (tokens ++ ⟨String.ofList body, byteLength before, byteLength before + byteLength body⟩ ::
        located (byteLength before + byteLength body) pieces) := by
  have sliced := sliceText_ofList (ε := ε) before body (text pieces trailing)
  rw [← whole] at sliced
  induction pieces generalizing before body tokens with
  | nil =>
    cases trailing with
    | nil =>
      have size : (utf8 sourceText).length = byteLength before + byteLength body := by
        rw [whole, text_nil, List.append_nil, length_utf8_ofList, byteLength_append]
      rw [← size] at sliced
      rw [text_nil, scan_end sliced, size]
      rfl
    | cons c trailing =>
      obtain ⟨white, rest⟩ := List.forall_mem_cons.mp laid.trailing
      rw [text_nil, scan_cons _ (step_close white sliced), scan_trailing rest]
      rfl
  | cons piece pieces ih =>
    obtain ⟨nonempty, gaps⟩ := List.forall_mem_cons.mp gaps
    obtain ⟨c, gap, opens⟩ := List.exists_cons_of_ne_nil nonempty
    have word := laid.words piece List.mem_cons_self
    have white := word.gap
    rw [opens] at white
    obtain ⟨white, others⟩ := List.forall_mem_cons.mp white
    have split : sourceText = String.ofList (before ++ body ++ piece.gap ++ piece.body ++
        text pieces trailing) := by
      rw [whole, text_cons]
      simp only [List.append_assoc]
    have next := ih laid.tail gaps (before ++ body ++ piece.gap) piece.body
      (tokens ++ [⟨String.ofList body, byteLength before, byteLength before + byteLength body⟩])
      split (by rw [split]; exact sliceText_ofList _ _ _)
    have start : byteLength (before ++ body ++ piece.gap) =
        byteLength before + byteLength body + c.utf8Size + byteLength gap := by
      rw [byteLength_append, byteLength_append, opens, byteLength_cons, Nat.add_assoc _ c.utf8Size]
    rw [text_cons, opens, List.cons_append, scan_cons _ (step_close white sliced),
      scan_piece _ others word.nonempty word.word, ← start, next]
    simp [located, token, Piece.chars, word.value, Nat.add_assoc]

theorem whitespaceTokenizer_reads :
    ReadsLayouts (ε := ε) whitespaceTokenizer LaidWords where
  reads {pieces trailing} laid := by
    rw [whitespaceTokenizer_eq_scan]
    cases pieces with
    | nil =>
      rw [text_nil, scan_trailing laid.trailing]
      rfl
    | cons piece rest =>
      have word := laid.words piece List.mem_cons_self
      have closed := scan_pieces (ε := ε) laid.tail laid.separated piece.gap piece.body [] rfl
      rw [text_cons, scan_piece _ word.gap word.nonempty word.word, Nat.zero_add,
        ← List.append_assoc, closed]
      simp [located, token, Piece.chars, word.value]
  covers chars := by
    induction chars with
    | nil => exact ⟨[], [], rfl, by constructor <;> simp⟩
    | cons c chars ih =>
      obtain ⟨pieces, trailing, rfl, laid⟩ := ih
      exact laid.exists_cons c
  part {before piece middle after trailing} laid := by
    have word := laid.words piece (by simp)
    have gaps : ∀ other ∈ middle, other.gap ≠ [] := by
      intro other mem
      apply laid.separated other
      cases before <;> simp [mem]
    constructor
    · exact List.forall_mem_cons.mpr ⟨{ word with gap := by simp }, fun other mem =>
        laid.words other (by simp [mem])⟩
    · exact gaps
    · simp

def singleToken (tokenizer : Tokenizer (CliError R) T) (sourceText : String) : CliResult R T := do
  let tokens ← tokenizer sourceText
  match tokens with
  | [token] =>
    if token.byteRange ≠ (0, (utf8 sourceText).length) then
      bail "value must contain exactly one complete token"
    return token.value
  | _ => bail "value must contain exactly one complete token"

/-- The tokens of a text are its runs of characters other than whitespace. -/
structure Runs (ε : Type) (sourceText : String) (tokens : List (Tokenized String)) : Prop where
  quoted : ∀ token ∈ tokens,
    sliceText (ε := ε) sourceText token.byteRange.1 token.byteRange.2 = .ok token.value
  nonempty : ∀ token ∈ tokens, token.byteRange.1 < token.byteRange.2
  boundaries : ∀ token ∈ tokens,
    IsBoundary sourceText token.byteRange.1 ∧ IsBoundary sourceText token.byteRange.2
  word : ∀ token ∈ tokens, ∀ c ∈ token.value.toList, isWhitespace c = false
  /-- The tokens stand in order, with whitespace between them. -/
  separated : tokens.Pairwise fun first second =>
    ∃ entry ∈ charIndices 0 sourceText.toList, isWhitespace entry.2 = true ∧
      first.byteRange.2 ≤ entry.1 ∧ entry.1 < second.byteRange.1
  outside : ∀ entry ∈ charIndices 0 sourceText.toList, isWhitespace entry.2 = true ∨
    ∃ token ∈ tokens, token.byteRange.1 ≤ entry.1 ∧ entry.1 < token.byteRange.2

namespace LaidWords
variable {pieces : List (Piece String)} {trailing : List Char}

/-- Two tokens of a text have the whitespace in front of the second between them. -/
theorem pairwise_located (laid : LaidWords pieces trailing) (start : Nat) :
    (located start pieces).Pairwise fun first second =>
      ∃ entry ∈ charIndices start (text pieces trailing), isWhitespace entry.2 = true ∧
        first.byteRange.2 ≤ entry.1 ∧ entry.1 < second.byteRange.1 := by
  induction pieces generalizing start with
  | nil => exact .nil
  | cons piece rest ih =>
    have later : charIndices (start + byteLength piece.chars) (text rest trailing) ⊆
        charIndices start (text (piece :: rest) trailing) := by
      rw [text_cons, ← List.append_assoc, charIndices_append]
      exact List.subset_append_right _ _
    refine .cons ?_ ((ih laid.tail _).imp ?_)
    · intro second mem
      obtain ⟨before, other, after, rfl, rfl⟩ := exists_of_mem_located mem
      have inside : other ∈ before ++ other :: after := by simp
      obtain ⟨c, gap, opens⟩ := List.exists_cons_of_ne_nil (laid.separated other inside)
      have white := (laid.tail.words other inside).gap c (by simp [opens])
      refine ⟨(start + byteLength piece.chars + byteLength (text before []), c),
        later (mem_charIndices.mpr ⟨text before [], gap ++ (other.body ++ text after trailing),
          ?_, rfl⟩), white, Nat.le_add_right _ _, ?_⟩
      · rw [text_append, text_cons, opens, List.cons_append]
      · have size := c.utf8Size_pos
        simp only [token, opens, byteLength_cons]
        omega
    · rintro first second ⟨entry, mem, between⟩
      exact ⟨entry, later mem, between⟩

/-- A character is whitespace or belongs to a token. -/
theorem white_or_located (laid : LaidWords pieces trailing) {start : Nat} {entry : Nat × Char}
    (mem : entry ∈ charIndices start (text pieces trailing)) : isWhitespace entry.2 = true ∨
      ∃ token ∈ located start pieces, token.byteRange.1 ≤ entry.1 ∧
        entry.1 < token.byteRange.2 := by
  induction pieces generalizing start with
  | nil =>
    obtain ⟨before, after, same, _⟩ := mem_charIndices.mp mem
    rw [text_nil] at same
    exact .inl (laid.trailing _ (by simp [same]))
  | cons piece rest ih =>
    have word := laid.words piece List.mem_cons_self
    rw [text_cons, charIndices_append, charIndices_append] at mem
    rcases List.mem_append.mp mem with gap | mem
    · obtain ⟨before, after, same, _⟩ := mem_charIndices.mp gap
      exact .inl (word.gap _ (by simp [same]))
    rcases List.mem_append.mp mem with body | mem
    · obtain ⟨before, after, same, offset⟩ := mem_charIndices.mp body
      refine .inr ⟨piece.token start, List.mem_cons_self, ?_, ?_⟩
      · simp only [token]
        omega
      · have size := entry.2.utf8Size_pos
        simp only [token, Piece.chars, same, byteLength_append, byteLength_cons]
        omega
    · have next : start + byteLength piece.gap + byteLength piece.body =
          start + byteLength piece.chars := by rw [Piece.chars, byteLength_append, Nat.add_assoc]
      rw [next] at mem
      rcases ih laid.tail mem with white | ⟨token, later, range⟩
      · exact .inl white
      · exact .inr ⟨token, List.mem_cons_of_mem _ later, range⟩

theorem runs (laid : LaidWords pieces trailing) :
    Runs ε (String.ofList (text pieces trailing)) (located 0 pieces) := by
  have found {token : Tokenized String} (mem : token ∈ located 0 pieces) :
      (IsBoundary (String.ofList (text pieces trailing)) token.byteRange.1 ∧
        IsBoundary (String.ofList (text pieces trailing)) token.byteRange.2 ∧
        sliceText (ε := ε) (String.ofList (text pieces trailing)) token.byteRange.1
          token.byteRange.2 = .ok token.value) ∧
      token.byteRange.1 < token.byteRange.2 ∧
        ∀ c ∈ token.value.toList, isWhitespace c = false := by
    obtain ⟨before, piece, after, rfl, rfl⟩ := exists_of_mem_located mem
    have word := laid.words piece (by simp)
    have part := sliceText_part (ε := ε) before piece [] after trailing
    have size := byteLength_pos word.nonempty
    refine ⟨?_, ?_, ?_⟩
    · simpa [token, Piece.chars, word.value, Nat.add_assoc] using part
    · simp only [token, Piece.chars, byteLength_append]
      omega
    · simpa only [token, word.value, String.toList_ofList] using word.word
  constructor
  · exact fun token mem => (found mem).1.2.2
  · exact fun token mem => (found mem).2.1
  · exact fun token mem => ⟨(found mem).1.1, (found mem).1.2.1⟩
  · exact fun token mem => (found mem).2.2
  · rw [String.toList_ofList]
    exact laid.pairwise_located 0
  · rw [String.toList_ofList]
    exact fun entry mem => laid.white_or_located mem

end LaidWords

theorem whitespaceTokenizer_word {sourceText : String} (nonempty : sourceText ≠ "")
    (word : ¬ sourceText.toList.any isWhitespace) :
    (whitespaceTokenizer sourceText : Outcome ε (List (Tokenized String))) =
      .ok [⟨sourceText, 0, (utf8 sourceText).length⟩] := by
  have one : IsWord ⟨[], sourceText.toList, sourceText⟩ :=
    ⟨String.ofList_toList.symm, by simpa using nonempty, by simpa using word, by simp⟩
  have laid : LaidWords [⟨[], sourceText.toList, sourceText⟩] [] := by
    constructor <;> simp [one]
  have reads := (whitespaceTokenizer_reads (ε := ε)).reads laid
  rw [text_cons, text_nil, List.append_nil, List.nil_append, String.ofList_toList] at reads
  rw [reads, length_utf8]
  simp [located, token, Piece.chars]

/-- A token that covers a text with this layout is the text. -/
theorem LaidWords.covered {piece : Piece String} {trailing : List Char}
    (laid : LaidWords [piece] trailing) (covers : (piece.token 0).byteRange =
      (0, (utf8 (String.ofList (text [piece] trailing))).length)) :
    String.ofList (text [piece] trailing) ≠ "" ∧
      ¬ (String.ofList (text [piece] trailing)).toList.any isWhitespace := by
  have word := laid.words piece List.mem_cons_self
  rw [length_utf8_ofList] at covers
  obtain ⟨left, right⟩ := Prod.mk.inj covers
  have gap : piece.gap = [] := by
    by_contra nonempty
    have size := byteLength_pos nonempty
    omega
  have rest : trailing = [] := by
    by_contra nonempty
    have size := byteLength_pos nonempty
    rw [text_cons, Piece.chars, text_nil] at right
    simp only [byteLength_append] at right
    omega
  rw [text_cons, gap, rest, text_nil, List.nil_append, List.append_nil]
  exact ⟨by simpa using word.nonempty, by simpa using word.word⟩

/-- A text is a token of its own when it is one run. -/
theorem singleToken_eq (sourceText : String) :
    (singleToken whitespaceTokenizer sourceText : CliResult R String) =
      if sourceText ≠ "" ∧ ¬ sourceText.toList.any isWhitespace then .ok sourceText
      else bail "value must contain exactly one complete token" := by
  split
  case isTrue one =>
    rw [singleToken, whitespaceTokenizer_word one.1 one.2, bind_ok]
    simp
    rfl
  case isFalse other =>
    obtain ⟨pieces, trailing, rfl, laid, tokenized⟩ :=
      (whitespaceTokenizer_reads (ε := CliError R)).layout sourceText
    rw [singleToken, tokenized, bind_ok]
    match pieces, laid, other with
    | [], _, _ => rfl
    | [piece], laid, other =>
      have differs : (piece.token 0).byteRange ≠
          (0, (utf8 (String.ofList (text [piece] trailing))).length) :=
        fun covers => other (laid.covered covers)
      simp only [located, if_pos differs]
      rfl
    | _ :: _ :: _, _, _ => rfl

/-- Whitespace tokenization returns the runs of every text, and only a text that is one run is
accepted as a single token. A corpus that contains the token produces it. -/
theorem whitespaceTokenizer_runs (sourceText : String) :
    (∃ tokens, (whitespaceTokenizer sourceText : CliResult R (List (Tokenized String))) =
        .ok tokens ∧ Runs (CliError R) sourceText tokens) ∧
      (singleToken whitespaceTokenizer sourceText : CliResult R String) =
        (if sourceText ≠ "" ∧ ¬ sourceText.toList.any isWhitespace then .ok sourceText
          else bail "value must contain exactly one complete token") ∧
      ∀ token, (singleToken whitespaceTokenizer sourceText : CliResult R String) = .ok token →
        (whitespaceTokenizer token : CliResult R (List (Tokenized String))) =
          .ok [⟨token, 0, (utf8 token).length⟩] := by
  refine ⟨?_, singleToken_eq sourceText, ?_⟩
  · obtain ⟨pieces, trailing, rfl, laid, tokenized⟩ :=
      (whitespaceTokenizer_reads (ε := CliError R)).layout sourceText
    exact ⟨_, tokenized, laid.runs⟩
  · intro token accepted
    rw [singleToken_eq] at accepted
    split at accepted
    case isTrue one =>
      cases accepted
      exact whitespaceTokenizer_word one.1 one.2
    case isFalse => cases accepted

end Yurine
