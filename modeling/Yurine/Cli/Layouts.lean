import Yurine.Cli.Tokenization

/-! Layouts of tokenized texts: the characters between the tokens and the characters of each
token. A tokenizer that reads every text as one of its layouts is described by them, and the
layouts say where tokens stand in bytes and what a part of the text is tokenized to. -/
namespace Yurine
open Outcome

variable {ε T : Type}

def byteLength (chars : List Char) : Nat := (chars.map Char.utf8Size).sum

@[simp] theorem byteLength_nil : byteLength [] = 0 := rfl

@[simp] theorem byteLength_cons (c : Char) (chars : List Char) :
    byteLength (c :: chars) = c.utf8Size + byteLength chars := by
  simp [byteLength]

@[simp] theorem byteLength_append (left right : List Char) :
    byteLength (left ++ right) = byteLength left + byteLength right := by
  simp [byteLength]

theorem byteLength_pos {chars : List Char} (nonempty : chars ≠ []) : 0 < byteLength chars := by
  cases chars with
  | nil => exact absurd rfl nonempty
  | cons c chars =>
    rw [byteLength_cons]
    exact Nat.add_pos_left c.utf8Size_pos _

/-- The offset lies between two characters of the text. -/
def IsBoundary (text : String) (offset : Nat) : Prop :=
  ∃ before after, text.toList = before ++ after ∧ offset = byteLength before

theorem isBoundary_ofList (before after : List Char) :
    IsBoundary (String.ofList (before ++ after)) (byteLength before) :=
  ⟨before, after, String.toList_ofList, rfl⟩

theorem utf8_append (left right : String) : utf8 (left ++ right) = utf8 left ++ utf8 right := by
  simp [utf8, String.toByteArray_append]

@[simp] theorem length_utf8_ofList (chars : List Char) :
    (utf8 (String.ofList chars)).length = byteLength chars := by
  induction chars with
  | nil => rfl
  | cons c chars ih =>
    have first : (utf8 (String.singleton c)).length = c.utf8Size :=
      String.utf8ByteSize_singleton
    rw [← List.singleton_append, String.ofList_append, utf8_append, List.length_append, ih,
      ← String.singleton_eq_ofList, first, byteLength_append]
    simp

theorem length_utf8 (text : String) : (utf8 text).length = byteLength text.toList := by
  rw [← length_utf8_ofList, String.ofList_toList]

/-- A slice between two boundaries is the text of the characters between them. -/
theorem sliceText_ofList (before middle after : List Char) :
    sliceText (ε := ε) (String.ofList (before ++ middle ++ after)) (byteLength before)
      (byteLength before + byteLength middle) = .ok (String.ofList middle) := by
  have bytes : utf8 (String.ofList (before ++ middle ++ after)) =
      utf8 (String.ofList before) ++ utf8 (String.ofList middle) ++
        utf8 (String.ofList after) := by
    simp only [String.ofList_append, utf8_append]
  have inside : slice (utf8 (String.ofList (before ++ middle ++ after))) (byteLength before)
      (byteLength before + byteLength middle) =
        (.ok (utf8 (String.ofList middle)) : Outcome ε (List UInt8)) := by
    have size : byteLength before + byteLength middle ≤
        (utf8 (String.ofList (before ++ middle ++ after))).length := by
      rw [length_utf8_ofList, byteLength_append, byteLength_append]
      exact Nat.le_add_right _ _
    rw [slice_ok (Nat.le_add_right _ _) size, bytes, Nat.add_sub_cancel_left, List.append_assoc,
      List.drop_left' (length_utf8_ofList before), List.take_left' (length_utf8_ofList middle)]
  rw [sliceText, inside, bind_ok, fromUtf8_utf8]
  rfl

theorem charIndices_append (start : Nat) (left right : List Char) :
    charIndices start (left ++ right) =
      charIndices start left ++ charIndices (start + byteLength left) right := by
  induction left generalizing start with
  | nil => simp [charIndices]
  | cons c left ih => simp [charIndices, ih, Nat.add_assoc]

theorem mem_charIndices {start : Nat} {chars : List Char} {entry : Nat × Char} :
    entry ∈ charIndices start chars ↔ ∃ before after,
      chars = before ++ entry.2 :: after ∧ entry.1 = start + byteLength before := by
  constructor
  · intro mem
    induction chars generalizing start with
    | nil => simp [charIndices] at mem
    | cons c chars ih =>
      rcases List.mem_cons.mp mem with rfl | mem
      · exact ⟨[], chars, rfl, rfl⟩
      · obtain ⟨before, after, rfl, offset⟩ := ih mem
        exact ⟨c :: before, after, rfl, by rw [offset, byteLength_cons, Nat.add_assoc]⟩
  · rintro ⟨before, after, rfl, offset⟩
    rw [charIndices_append, charIndices, ← offset]
    exact List.mem_append_right _ List.mem_cons_self

/-- The characters in front of a token, and those of the token. -/
structure Piece (T : Type) where
  gap : List Char
  body : List Char
  value : T

namespace Piece

def chars (piece : Piece T) : List Char := piece.gap ++ piece.body

def text (pieces : List (Piece T)) (trailing : List Char) : List Char :=
  pieces.flatMap chars ++ trailing

@[simp] theorem text_nil (trailing : List Char) :
    text ([] : List (Piece T)) trailing = trailing := rfl

@[simp] theorem text_cons (piece : Piece T) (rest : List (Piece T)) (trailing : List Char) :
    text (piece :: rest) trailing = piece.gap ++ (piece.body ++ text rest trailing) := by
  simp [text, chars]

theorem text_append (before after : List (Piece T)) (trailing : List Char) :
    text (before ++ after) trailing = text before [] ++ text after trailing := by
  simp [text]

/-- A part of a text, from the first character of a token to the last of another. -/
theorem text_split (before : List (Piece T)) (piece : Piece T) (middle after : List (Piece T))
    (trailing : List Char) : text (before ++ piece :: (middle ++ after)) trailing =
      text before [] ++ piece.gap ++ text ({ piece with gap := [] } :: middle) [] ++
        text after trailing := by
  rw [text_append, text_cons, text_append, text_cons]
  simp only [List.append_assoc, List.nil_append]

/-- Such a part lies between boundaries and is quoted by its slice. -/
theorem sliceText_part (before : List (Piece T)) (piece : Piece T) (middle after : List (Piece T))
    (trailing : List Char) :
    let sourceText := String.ofList (text (before ++ piece :: (middle ++ after)) trailing)
    let start := byteLength (text before []) + byteLength piece.gap
    let stop := start + byteLength (text ({ piece with gap := [] } :: middle) [])
    IsBoundary sourceText start ∧ IsBoundary sourceText stop ∧
      sliceText (ε := ε) sourceText start stop =
        .ok (String.ofList (text ({ piece with gap := [] } :: middle) [])) := by
  intro sourceText start stop
  have split : sourceText = String.ofList (text before [] ++ piece.gap ++
      text ({ piece with gap := [] } :: middle) [] ++ text after trailing) :=
    congrArg String.ofList (text_split before piece middle after trailing)
  have first : start = byteLength (text before [] ++ piece.gap) := (byteLength_append _ _).symm
  have last : stop = byteLength (text before [] ++ piece.gap) +
      byteLength (text ({ piece with gap := [] } :: middle) []) := congrArg (· + _) first
  refine ⟨?_, ?_, ?_⟩
  · rw [split, first, List.append_assoc]
    exact isBoundary_ofList _ _
  · rw [split, last, ← byteLength_append]
    exact isBoundary_ofList _ _
  · rw [split, first, last]
    exact sliceText_ofList _ _ _

def token (piece : Piece T) (start : Nat) : Tokenized T :=
  ⟨piece.value, start + byteLength piece.gap, start + byteLength piece.chars⟩

def located (start : Nat) : List (Piece T) → List (Tokenized T)
  | [] => []
  | piece :: rest => piece.token start :: located (start + byteLength piece.chars) rest

/-- A token stands behind the pieces before its own. -/
theorem getElem?_located {pieces : List (Piece T)} {i : Nat} {piece : Piece T} (start : Nat)
    (found : pieces[i]? = some piece) : (located start pieces)[i]? =
      some (piece.token (start + byteLength (text (pieces.take i) []))) := by
  induction pieces generalizing start i with
  | nil => simp at found
  | cons first rest ih =>
    cases i with
    | zero =>
      obtain rfl := Option.some.inj found
      simp [located]
    | succ i =>
      have next := ih (start + byteLength first.chars) found
      simpa [located, chars, Nat.add_assoc] using next

theorem stop_located {pieces : List (Piece T)} {i : Nat} {piece : Piece T} (start : Nat)
    (found : pieces[i]? = some piece) :
    (piece.token (start + byteLength (text (pieces.take i) []))).byteRange.2 =
      start + byteLength (text (pieces.take (i + 1)) []) := by
  rw [List.take_add_one, found, text_append, byteLength_append]
  simp [token, chars, Nat.add_assoc]

@[simp] theorem length_located (start : Nat) (pieces : List (Piece T)) :
    (located start pieces).length = pieces.length := by
  induction pieces generalizing start with
  | nil => rfl
  | cons piece rest ih => simp [located, ih]

@[simp] theorem map_value_located (start : Nat) (pieces : List (Piece T)) :
    (located start pieces).map (fun token => token.value) = pieces.map value := by
  induction pieces generalizing start with
  | nil => rfl
  | cons piece rest ih => simp [located, token, ih]

theorem exists_of_mem_located {start : Nat} {pieces : List (Piece T)} {found : Tokenized T}
    (mem : found ∈ located start pieces) : ∃ before piece after,
      pieces = before ++ piece :: after ∧
        found = piece.token (start + byteLength (text before [])) := by
  induction pieces generalizing start with
  | nil => simp [located] at mem
  | cons piece rest ih =>
    rcases List.mem_cons.mp mem with rfl | mem
    · exact ⟨[], piece, rest, rfl, by simp⟩
    · obtain ⟨before, other, after, rfl, rfl⟩ := ih mem
      refine ⟨piece :: before, other, after, rfl, ?_⟩
      simp [chars, Nat.add_assoc]

end Piece

open Piece

/-- Every text has one of these layouts, the tokenizer returns the tokens of each, and a part of
a layout from the first character of one token to the last of another is a layout of its own. -/
structure ReadsLayouts (tokenizer : Tokenizer ε T) (Laid : List (Piece T) → List Char → Prop) :
    Prop where
  reads : ∀ {pieces trailing}, Laid pieces trailing →
    tokenizer (String.ofList (text pieces trailing)) = .ok (located 0 pieces)
  covers : ∀ chars, ∃ pieces trailing, chars = text pieces trailing ∧ Laid pieces trailing
  part : ∀ {before piece middle after trailing},
    Laid (before ++ piece :: (middle ++ after)) trailing →
      Laid ({ piece with gap := [] } :: middle) []

/-- Every text is tokenized as one of its layouts. -/
theorem ReadsLayouts.layout {tokenizer : Tokenizer ε T}
    {Laid : List (Piece T) → List Char → Prop} (reads : ReadsLayouts tokenizer Laid)
    (sourceText : String) : ∃ pieces trailing,
      sourceText = String.ofList (text pieces trailing) ∧ Laid pieces trailing ∧
        tokenizer sourceText = .ok (located 0 pieces) := by
  obtain ⟨pieces, trailing, same, laid⟩ := reads.covers sourceText.toList
  have whole : sourceText = String.ofList (text pieces trailing) := by
    rw [← same, String.ofList_toList]
  exact ⟨pieces, trailing, whole, laid, by rw [whole]; exact reads.reads laid⟩

/-- The layouts of a text of which every character is a token. -/
structure LaidCharacters (pieces : List (Piece Char)) (trailing : List Char) : Prop where
  each : ∀ piece ∈ pieces, piece.gap = [] ∧ piece.body = [piece.value]
  trailing : trailing = []

namespace LaidCharacters

theorem text_eq {pieces : List (Piece Char)} {trailing : List Char}
    (laid : LaidCharacters pieces trailing) : text pieces trailing = pieces.map value := by
  obtain ⟨each, rfl⟩ := laid
  induction pieces with
  | nil => rfl
  | cons piece rest ih =>
    obtain ⟨gap, body⟩ := each piece List.mem_cons_self
    rw [text_cons, gap, body, ih fun other mem => each other (List.mem_cons_of_mem _ mem)]
    rfl

theorem located_eq {pieces : List (Piece Char)} (start : Nat)
    (each : ∀ piece ∈ pieces, piece.gap = [] ∧ piece.body = [piece.value]) :
    (charIndices start (pieces.map value)).map
        (fun entry => ⟨entry.2, entry.1, entry.1 + entry.2.utf8Size⟩) =
      located start pieces := by
  induction pieces generalizing start with
  | nil => rfl
  | cons piece rest ih =>
    obtain ⟨gap, body⟩ := each piece List.mem_cons_self
    have next := ih (start + piece.value.utf8Size) fun other mem =>
      each other (List.mem_cons_of_mem _ mem)
    simp [charIndices, located, token, chars, gap, body, next]

end LaidCharacters

theorem characterTokenizer_reads : ReadsLayouts (ε := ε)
    (fun text => .ok (characterTokenizer text)) LaidCharacters where
  reads laid := by
    rw [laid.text_eq, characterTokenizer, String.toList_ofList,
      LaidCharacters.located_eq 0 laid.each]
  covers chars := by
    refine ⟨chars.map fun c => ⟨[], [c], c⟩, [], ?_, ?_, rfl⟩
    · simp [text, Piece.chars, List.flatMap_map]
    · simp
  part {before piece middle after trailing} laid := by
    constructor
    · intro other mem
      rcases List.mem_cons.mp mem with rfl | mem
      · exact ⟨rfl, (laid.each piece (by simp)).2⟩
      · exact laid.each other (by simp [mem])
    · rfl

end Yurine
