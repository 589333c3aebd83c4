import Yurine.Cli.Rebuild
import Yurine.Library.Stateful

/-! The stored texts of an index. The table of offsets has an entry for every text and one for
their end, so the files say how many texts there are, and a text is read back from two adjacent
entries in whatever order the texts are asked for. Whatever the files contain, no part of the
text file is asked for that it does not have. -/
namespace Yurine
open Outcome Disk Index LittleEndian Offsets

variable {R : Type}

/-- The calls of a build on its writer of texts. -/
def storeSources (texts : List String) : CliScript R PUnit := do
  let writer ← SourceWriter.create
  let writer ← texts.foldlM SourceWriter.push writer
  let _ ← writer.finish
  SourceWriter.publish

namespace Index.SourceReader

/-- The positions of the two open files, and the parts of the text file, as a start and a
length, for which a buffer has been made. -/
structure Cursors where
  texts : Nat
  offsets : Nat
  requested : List (Nat × Nat)

abbrev Reading (R α : Type) := Stateful (CliError R) Cursors α

/-- `a - b` of machine words. -/
def difference (a b : Nat) : CliResult R Nat := if b ≤ a then .ok (a - b) else panic

/-- `read_exact` at a position. -/
def readExactAt (bytes : List UInt8) (len : Nat) (position : Cursors → Nat)
    (advance : Nat → Cursors → Cursors) : Reading R (List UInt8) := do
  let cursors ← get
  let buffer ← monadLift (readExact bytes (position cursors) len : CliResult R (List UInt8))
  modify (advance (position cursors + len))
  return buffer

/-- `read` with the positions that it moves, in arithmetic that panics outside machine words. -/
def readAt (reader : SourceReader) (sequenceId : Nat) : Reading R String := do
  let entry ← monadLift (unwrap (checkedMul64 sequenceId 8) : CliResult R Nat)
  modify fun cursors => { cursors with offsets := entry }
  let bounds ← readExactAt reader.offsets 16 Cursors.offsets
    fun position cursors => { cursors with offsets := position }
  let start := decode (bounds.take 8)
  let stop := decode (bounds.drop 8)
  if stop ≤ start ∨ reader.length < stop then
    monadLift (bail "index has invalid source offsets" : CliResult R PUnit)
  let line ← monadLift (difference stop start : CliResult R Nat)
  let len ← monadLift (difference line 1 : CliResult R Nat)
  modify fun cursors => { cursors with requested := cursors.requested ++ [(start, len)] }
  modify fun cursors => { cursors with texts := start }
  let buffer ← readExactAt reader.texts len Cursors.texts
    fun position cursors => { cursors with texts := position }
  monadLift (okOr (.message "index has a source text that is not valid UTF-8")
    (fromUtf8 buffer) : CliResult R String)

end Index.SourceReader

section Stored
open SourceReader

theorem foldlM_push (texts : List String) (writer : SourceWriter) : ∃ position,
    texts.foldlM SourceWriter.push writer =
      (⟨pushCalls writer.position texts, .ok ⟨position, writer.count + texts.length⟩⟩ :
        CliScript R SourceWriter) := by
  induction texts generalizing writer with
  | nil => exact ⟨writer.position, rfl⟩
  | cons text rest ih =>
    obtain ⟨position, ran⟩ := ih ⟨writer.position + (utf8 text).length + 1, writer.count + 1⟩
    refine ⟨position, ?_⟩
    have pushed : (writer.push text : CliScript R SourceWriter) =
        ⟨pushCalls writer.position [text],
          .ok ⟨writer.position + (utf8 text).length + 1, writer.count + 1⟩⟩ := rfl
    have count : writer.count + (rest.length + 1) = writer.count + 1 + rest.length := by omega
    rw [List.foldlM_cons, pushed, Script.bind_mk_ok, ran, List.length_cons, count]
    rfl

theorem storeSources_eq (texts : List String) :
    (storeSources texts : CliScript R PUnit) =
      ⟨[.create (temporary sourcesFile), .create (temporary offsetsFile),
        .write (temporary offsetsFile) (encode 8 0)] ++ (pushCalls 0 texts ++
        [.flush (temporary sourcesFile), .flush (temporary offsetsFile),
          .rename (temporary sourcesFile) sourcesFile,
          .rename (temporary offsetsFile) offsetsFile]), .ok ⟨⟩⟩ := by
  obtain ⟨position, ran⟩ := foldlM_push (R := R) texts ⟨0, 0⟩
  have created : (SourceWriter.create : CliScript R SourceWriter) =
      ⟨[.create (temporary sourcesFile), .create (temporary offsetsFile),
        .write (temporary offsetsFile) (encode 8 0)], .ok ⟨0, 0⟩⟩ := rfl
  rw [storeSources, created, Script.bind_mk_ok, ran, Script.bind_mk_ok]
  rfl

theorem performAll_storeSources (texts : List String) (files : Directory String) :
    performAll (storeSources (R := R) texts).calls files sourcesFile = some (sourceBytes texts) ∧
      performAll (storeSources (R := R) texts).calls files offsetsFile =
        some (offsetBytes texts) := by
  have different : temporary offsetsFile ≠ temporary sourcesFile := by decide
  obtain ⟨stored, table⟩ := performAll_texts texts files
  rw [storeSources_eq, performAll_append, performAll_append]
  generalize performAll (pushCalls 0 texts) _ = written at stored table ⊢
  have sources : sourcesFile ≠ temporary sourcesFile ∧ sourcesFile ≠ temporary offsetsFile ∧
      sourcesFile ≠ offsetsFile := by decide
  have offsets : offsetsFile ≠ temporary offsetsFile ∧ temporary offsetsFile ≠ sourcesFile := by
    decide
  constructor
  · simpa [performAll, Call.perform, Function.update_of_ne, sources] using stored
  · simpa [performAll, Call.perform, Function.update_of_ne, offsets, different] using table

theorem drop_flatMap_encode (values : List Nat) (i : Nat) :
    (values.flatMap (encode 8)).drop (i * 8) = (values.drop i).flatMap (encode 8) := by
  induction values generalizing i with
  | nil => simp
  | cons value values ih =>
    cases i with
    | zero => rfl
    | succ i =>
      rw [List.flatMap_cons, Nat.succ_mul, Nat.add_comm, ← List.drop_drop,
        List.drop_left' (length_encode 8 value), ih, List.drop_succ_cons]

theorem length_offsetBytes (texts : List String) :
    (offsetBytes texts).length = (texts.length + 1) * 8 := by
  simp [offsetBytes, storedLines, List.length_flatMap]

theorem readExact_ok {bytes : List UInt8} {start len : Nat} (inside : start + len ≤ bytes.length) :
    (readExact bytes start len : CliResult R (List UInt8)) = .ok ((bytes.drop start).take len) :=
  if_pos inside

theorem readExact_fail {bytes : List UInt8} {start len : Nat}
    (outside : bytes.length < start + len) :
    (readExact bytes start len : CliResult R (List UInt8)) = fail .io :=
  if_neg (Nat.not_le.mpr outside)

/-- The reader of the files that these texts are stored in. -/
def storedReader (texts : List String) : SourceReader :=
  ⟨sourceBytes texts, offsetBytes texts, (sourceBytes texts).length⟩

theorem readExact_offsetBytes {texts : List String} {i start stop : Nat}
    (left : (offsetsFrom 0 (storedLines texts))[i]? = some start)
    (right : (offsetsFrom 0 (storedLines texts))[i + 1]? = some stop) :
    (readExact (offsetBytes texts) (i * 8) 16 : CliResult R (List UInt8)) =
      .ok (encode 8 start ++ encode 8 stop) := by
  obtain ⟨before, first⟩ := List.getElem?_eq_some_iff.mp left
  obtain ⟨inside, second⟩ := List.getElem?_eq_some_iff.mp right
  have count : (offsetsFrom 0 (storedLines texts)).length = texts.length + 1 := by
    simp [storedLines]
  have size : (encode 8 start ++ encode 8 stop).length = 16 := by simp
  rw [readExact_ok (by rw [length_offsetBytes]; omega), offsetBytes, drop_flatMap_encode,
    List.drop_eq_getElem_cons before, List.drop_eq_getElem_cons inside, first, second,
    List.flatMap_cons, List.flatMap_cons, ← List.append_assoc, List.take_left' size]

/-- Two adjacent entries of the table bound a text and its line feed. -/
theorem read_storedReader {texts : List String} (sized : (sourceBytes texts).length < 2 ^ 64)
    {i : Nat} (inside : i < texts.length) :
    ((storedReader texts).read i : CliResult R String) = .ok texts[i] := by
  have count : (offsetsFrom 0 (storedLines texts)).length = texts.length + 1 := by
    simp [storedLines]
  obtain ⟨start, left⟩ : ∃ start, (offsetsFrom 0 (storedLines texts))[i]? = some start :=
    ⟨_, List.getElem?_eq_getElem (by omega)⟩
  obtain ⟨stop, right⟩ : ∃ stop, (offsetsFrom 0 (storedLines texts))[i + 1]? = some stop :=
    ⟨_, List.getElem?_eq_getElem (by omega)⟩
  obtain ⟨ordered, last⟩ := (wellFormed_offsetsFrom (storedLines texts)).bounds left right
  have line : piece (sourceBytes texts) (start, stop) = utf8 texts[i] ++ [10] := by
    have cut := congrArg (fun lines => lines[i]?) (pieces_offsetsFrom (storedLines texts))
    simp only [getElem?_pieces, left, right] at cut
    simpa [storedLines, inside, sourceBytes] using cut
  have size : stop - start = (utf8 texts[i]).length + 1 := by
    have lengths := congrArg List.length line
    rw [piece, List.length_take, List.length_drop, List.length_append] at lengths
    have whole : (sourceBytes texts).length = (storedLines texts).flatten.length := rfl
    simp only [List.length_singleton] at lengths
    omega
  have text : ((sourceBytes texts).drop start).take (stop - start - 1) = utf8 texts[i] := by
    have shorter := congrArg (List.take (stop - start - 1)) line
    rwa [piece, List.take_take, Nat.min_eq_left (Nat.sub_le _ _), size, Nat.add_sub_cancel,
      List.take_left' rfl, ← Nat.add_sub_cancel (utf8 texts[i]).length 1, ← size] at shorter
  have valid : ¬ (stop ≤ start ∨ (storedReader texts).length < stop) := by
    have whole : (storedReader texts).length = (storedLines texts).flatten.length := rfl
    omega
  have whole : (sourceBytes texts).length = (storedLines texts).flatten.length := rfl
  have first : decode (encode 8 start) = start := decode_encode (by omega)
  have second : decode (encode 8 stop) = stop := decode_encode (by omega)
  apply bind_eq_ok.mpr ⟨_, readExact_offsetBytes left right, _⟩
  rw [List.take_left' (length_encode 8 start), List.drop_left' (length_encode 8 start), first,
    second, if_neg valid]
  apply bind_eq_ok.mpr ⟨_, readExact_ok (by show _ ≤ (sourceBytes texts).length; omega), _⟩
  show okOr _ (fromUtf8 (((sourceBytes texts).drop start).take (stop - start - 1))) = _
  rw [text, fromUtf8_utf8, okOr_some]

theorem read_storedReader_fail {texts : List String} {i : Nat} (outside : texts.length ≤ i) :
    ((storedReader texts).read i : CliResult R String) = fail .io := by
  have past : (offsetBytes texts).length < i * 8 + 16 := by
    rw [length_offsetBytes]
    omega
  rw [SourceReader.read, storedReader, readExact_fail past]
  rfl

end Stored

section Reading
open SourceReader
variable {reader : SourceReader} {sequenceId : Nat}

theorem readExactAt_ends (bytes : List UInt8) (len : Nat) (position : Cursors → Nat)
    (advance : Nat → Cursors → Cursors) (cursors : Cursors)
    (kept : ∀ stop cursors, (advance stop cursors).requested = cursors.requested)
    {start : Nat} (seeked : position cursors = start) : ∃ after,
      Ends (readExactAt bytes len position advance) cursors
        (readExact bytes start len : CliResult R (List UInt8)) after ∧
      after.requested = cursors.requested := by
  subst seeked
  cases found : (readExact bytes (position cursors) len : CliResult R (List UInt8)) with
  | ok buffer =>
    refine ⟨advance (position cursors + len) cursors, ?_, kept _ _⟩
    exact Ends.get.bind ((Ends.lifted found).bind ((Ends.modify _).bind (Ends.pure _)))
  | error failure => exact ⟨cursors, Ends.get.bind (Ends.lifted found).bind_error, rfl⟩

/-- The parts of the text file that a run asks for lie inside it. -/
def Inside (reader : SourceReader) (before after : Cursors) : Prop :=
  ∃ parts, after.requested = before.requested ++ parts ∧
    ∀ part ∈ parts, part.1 + part.2 ≤ reader.texts.length

/-- Wherever the files were left by earlier reads, a read returns what the files have at the
entries of its sequence. -/
theorem readAt_ends (reader : SourceReader) (measured : reader.length = reader.texts.length)
    (word : sequenceId * 8 < 2 ^ 64) (cursors : Cursors) :
    ∃ after, Ends (reader.readAt sequenceId) cursors (reader.read sequenceId : CliResult R String)
      after ∧ Inside reader cursors after := by
  have entry : (unwrap (checkedMul64 sequenceId 8) : CliResult R Nat) = .ok (sequenceId * 8) := by
    rw [checkedMul64, if_pos word]
    rfl
  obtain ⟨first, table, kept⟩ := readExactAt_ends (R := R) reader.offsets 16 Cursors.offsets
    (fun position cursors => { cursors with offsets := position })
    { cursors with offsets := sequenceId * 8 } (fun _ _ => rfl) rfl
  rw [SourceReader.read]
  cases found : (readExact reader.offsets (sequenceId * 8) 16 : CliResult R (List UInt8)) with
  | error failure =>
    rw [found] at table
    refine ⟨first, ?_, [], by simp [kept], by simp⟩
    exact (Ends.lifted entry).bind ((Ends.modify _).bind table.bind_error)
  | ok bounds =>
    rw [found] at table
    by_cases invalid : decode (bounds.drop 8) ≤ decode (bounds.take 8) ∨
        reader.length < decode (bounds.drop 8)
    · refine ⟨first, ?_, [], by simp [kept], by simp⟩
      refine (Ends.lifted entry).bind ((Ends.modify _).bind (table.bind ?_))
      rw [bind_ok, if_pos invalid, if_pos invalid]
      exact (Ends.lift _).bind_error
    · have line : (difference (decode (bounds.drop 8)) (decode (bounds.take 8)) : CliResult R Nat) =
          .ok (decode (bounds.drop 8) - decode (bounds.take 8)) := if_pos (by omega)
      have len : (difference (decode (bounds.drop 8) - decode (bounds.take 8)) 1 :
          CliResult R Nat) = .ok (decode (bounds.drop 8) - decode (bounds.take 8) - 1) :=
        if_pos (by omega)
      obtain ⟨second, buffer, same⟩ := readExactAt_ends (R := R) reader.texts
        (decode (bounds.drop 8) - decode (bounds.take 8) - 1) Cursors.texts
        (fun position cursors => { cursors with texts := position })
        { first with
          requested := first.requested ++
            [(decode (bounds.take 8), decode (bounds.drop 8) - decode (bounds.take 8) - 1)],
          texts := decode (bounds.take 8) } (fun _ _ => rfl) rfl
      refine ⟨second, ?_, [(decode (bounds.take 8),
        decode (bounds.drop 8) - decode (bounds.take 8) - 1)], by simp [same, kept], ?_⟩
      · refine (Ends.lifted entry).bind ((Ends.modify _).bind (table.bind ?_))
        rw [bind_ok, if_neg invalid, if_neg invalid]
        refine (Ends.lifted line).bind ((Ends.lifted len).bind ((Ends.modify _).bind
          ((Ends.modify _).bind ?_)))
        cases filled : (readExact reader.texts (decode (bounds.take 8))
          (decode (bounds.drop 8) - decode (bounds.take 8) - 1) : CliResult R (List UInt8)) with
        | error failure =>
          rw [filled] at buffer
          exact buffer.bind_error
        | ok bytes =>
          rw [filled] at buffer
          exact buffer.bind (Ends.lift _)
      · simp
        omega

theorem some_eq_expected {count length : Nat} :
    some length = (checkedAdd64 count 1).bind (fun entries => checkedMul64 entries 8) ↔
      (count + 1) * 8 < 2 ^ 64 ∧ length = (count + 1) * 8 := by
  by_cases word : (count + 1) * 8 < 2 ^ 64
  · have entries : checkedAdd64 count 1 = some (count + 1) := if_pos (by rw [u64Range]; omega)
    have bytes : checkedMul64 (count + 1) 8 = some ((count + 1) * 8) := if_pos word
    rw [entries, Option.bind_some, bytes, Option.some.injEq]
    exact ⟨fun same => ⟨word, same⟩, fun both => both.2⟩
  · have none : (checkedAdd64 count 1).bind (fun entries => checkedMul64 entries 8) = none := by
      apply Option.bind_eq_none_iff.mpr
      intro entries added
      obtain rfl := (Option.ite_some_none_eq_some.mp added).2
      exact if_neg word
    rw [none]
    exact ⟨nofun, fun both => absurd both.1 word⟩

/-- What opening relies on, and what it makes of the files. -/
theorem openIn_eq_ok {directory : String} {files : Directory String} {count : Nat} :
    (openIn directory files count : CliResult R SourceReader) = .ok reader ↔
      files sourcesFile = some reader.texts ∧ files offsetsFile = some reader.offsets ∧
        reader.length = reader.texts.length ∧ (count + 1) * 8 < 2 ^ 64 ∧
          reader.offsets.length = (count + 1) * 8 := by
  constructor
  · intro opened
    obtain ⟨texts, found, opened⟩ := bind_eq_ok.mp opened
    obtain ⟨offsets, table, opened⟩ := bind_eq_ok.mp opened
    by_cases described : some offsets.length =
        (checkedAdd64 count 1).bind (fun entries => checkedMul64 entries 8)
    · simp only [if_neg (not_not.mpr described)] at opened
      cases opened
      exact ⟨okOr_eq_ok.mp found, okOr_eq_ok.mp table, rfl, some_eq_expected.mp described⟩
    · simp only [if_pos described] at opened
      cases opened
  · rintro ⟨found, table, measured, described⟩
    apply bind_eq_ok.mpr ⟨reader.texts, okOr_eq_ok.mpr found, _⟩
    apply bind_eq_ok.mpr ⟨reader.offsets, okOr_eq_ok.mpr table, _⟩
    simp only [if_neg (not_not.mpr (some_eq_expected.mpr described)), ← measured]
    rfl

theorem openIn_ne_panic (directory : String) (files : Directory String) (count : Nat) :
    (openIn directory files count : CliResult R SourceReader) ≠ panic := by
  apply bind_ne_panic
  · cases files sourcesFile <;> nofun
  intro texts _
  apply bind_ne_panic
  · cases files offsetsFile <;> nofun
  intro offsets _
  dsimp only
  split <;> nofun

theorem readExact_ne_panic (bytes : List UInt8) (start len : Nat) :
    (readExact bytes start len : CliResult R (List UInt8)) ≠ panic := by
  unfold readExact
  split <;> nofun

theorem read_ne_panic (reader : SourceReader) (sequenceId : Nat) :
    (reader.read sequenceId : CliResult R String) ≠ panic := by
  apply bind_ne_panic (readExact_ne_panic _ _ _)
  intro bounds _
  dsimp only
  split
  · nofun
  · apply bind_ne_panic (readExact_ne_panic _ _ _)
    intro buffer _
    cases fromUtf8 buffer <;> nofun

end Reading

/-- The files hold these texts and no others, for a reader in whatever state it is left by
earlier reads. -/
structure Holds (R : Type) (directory : String) (files : Directory String) (texts : List String) :
    Prop where
  opens : ∀ count, (∃ reader, (SourceReader.openIn directory files count :
    CliResult R SourceReader) = .ok reader) ↔ count = texts.length
  reads : ∀ reader count, (SourceReader.openIn directory files count :
    CliResult R SourceReader) = .ok reader → ∀ (ids : List (Fin texts.length)) cursors, ∃ after,
      Ends (ids.mapM fun id : Fin texts.length => reader.readAt (R := R) id.val) cursors
        (.ok (ids.map fun id => texts[id])) after
  rejects : ∀ reader count, (SourceReader.openIn directory files count :
    CliResult R SourceReader) = .ok reader → ∀ id cursors, texts.length ≤ id → id < 2 ^ 32 →
      ∃ reason after, Ends (reader.readAt (R := R) id) cursors (fail reason) after

/-- No call on the files panics, and a part of the text file for which a buffer is made lies
inside it. -/
structure Contained (R : Type) (directory : String) (files : Directory String) : Prop where
  opens : ∀ count, (SourceReader.openIn directory files count : CliResult R SourceReader) ≠ panic
  reads : ∀ reader count, (SourceReader.openIn directory files count :
    CliResult R SourceReader) = .ok reader → ∀ id cursors, id < 2 ^ 32 → ∃ result after,
      Ends (reader.readAt (R := R) id) cursors result after ∧ result ≠ panic ∧
        files sourcesFile = some reader.texts ∧ Inside reader cursors after

theorem openIn_stored (directory : String) {texts : List String} {files : Directory String}
    (stored : files sourcesFile = some (sourceBytes texts))
    (table : files offsetsFile = some (offsetBytes texts))
    (tableShort : (texts.length + 1) * 8 < 2 ^ 64) :
    (SourceReader.openIn directory files texts.length : CliResult R SourceReader) =
      .ok (storedReader texts) :=
  openIn_eq_ok.mpr ⟨stored, table, rfl, tableShort, length_offsetBytes texts⟩

theorem holds (directory : String) {texts : List String} {files : Directory String}
    (stored : files sourcesFile = some (sourceBytes texts))
    (table : files offsetsFile = some (offsetBytes texts))
    (short : (sourceBytes texts).length < 2 ^ 64) (tableShort : (texts.length + 1) * 8 < 2 ^ 64) :
    Holds R directory files texts := by
  have same {reader : SourceReader} {count : Nat} (opened : (SourceReader.openIn directory files
      count : CliResult R SourceReader) = .ok reader) : reader = storedReader texts := by
    obtain ⟨found, entries, measured, _⟩ := openIn_eq_ok.mp opened
    obtain ⟨texts', offsets, length⟩ := reader
    obtain rfl := Option.some.inj (stored.symm.trans found)
    obtain rfl := Option.some.inj (table.symm.trans entries)
    obtain rfl : length = (sourceBytes texts).length := measured
    rfl
  constructor
  · intro count
    constructor
    · rintro ⟨reader, opened⟩
      obtain ⟨_, entries, _, _, size⟩ := openIn_eq_ok.mp opened
      rw [same opened] at size
      have counted : (texts.length + 1) * 8 = (count + 1) * 8 :=
        (length_offsetBytes texts).symm.trans size
      omega
    · rintro rfl
      exact ⟨storedReader texts, openIn_stored directory stored table tableShort⟩
  · intro reader count opened ids cursors
    obtain rfl := same opened
    apply Ends.mapM
    intro id cursors
    have word : id.val * 8 < 2 ^ 64 := by omega
    obtain ⟨after, ended, _⟩ := readAt_ends (R := R) (storedReader texts) rfl word cursors
    rw [read_storedReader short id.isLt] at ended
    exact ⟨after, ended⟩
  · intro reader count opened id cursors outside small
    obtain rfl := same opened
    have word : id * 8 < 2 ^ 64 := by omega
    obtain ⟨after, ended, _⟩ := readAt_ends (R := R) (storedReader texts) rfl word cursors
    rw [read_storedReader_fail outside] at ended
    exact ⟨.io, after, ended⟩

theorem sized_storeSources {texts : List String} {before : Directory String}
    (short : (sourceBytes texts).length < 2 ^ 64) (tableShort : (offsetBytes texts).length < 2 ^ 64) :
    ∀ name ∈ [sourcesFile, offsetsFile], ∀ bytes,
      performAll (storeSources (R := R) texts).calls before name = some bytes →
        bytes.length < 2 ^ 64 := by
  obtain ⟨stored, table⟩ := performAll_storeSources (R := R) texts before
  intro name listed bytes found
  rcases List.mem_pair.mp listed with rfl | rfl
  · obtain rfl := Option.some.inj (stored.symm.trans found)
    exact short
  · obtain rfl := Option.some.inj (table.symm.trans found)
    exact tableShort

theorem files_storeSources {texts : List String} {before : Directory String}
    (sized : ∀ name ∈ [sourcesFile, offsetsFile], ∀ bytes,
      performAll (storeSources (R := R) texts).calls before name = some bytes →
        bytes.length < 2 ^ 64) :
    performAll (storeSources (R := R) texts).calls before sourcesFile = some (sourceBytes texts) ∧
      performAll (storeSources (R := R) texts).calls before offsetsFile =
        some (offsetBytes texts) ∧
      (sourceBytes texts).length < 2 ^ 64 ∧ (texts.length + 1) * 8 < 2 ^ 64 := by
  obtain ⟨stored, table⟩ := performAll_storeSources (R := R) texts before
  have tableShort := sized offsetsFile (by simp) _ table
  rw [length_offsetBytes] at tableShort
  exact ⟨stored, table, sized sourcesFile (by simp) _ stored, tableShort⟩

/-- Published texts are read back by their sequences, and nothing else is. The length of a file
is a machine word. Other contents of the two files are errors at worst. -/
theorem sources_roundTrip (directory : String) (texts : List String) (before : Directory String)
    (sized : ∀ name ∈ [sourcesFile, offsetsFile], ∀ bytes,
      performAll (storeSources (R := R) texts).calls before name = some bytes →
        bytes.length < 2 ^ 64) :
    (storeSources (R := R) texts).result = .ok ⟨⟩ ∧
      Holds R directory (performAll (storeSources (R := R) texts).calls before) texts ∧
      ∀ files, Contained R directory files := by
  obtain ⟨stored, table, short, tableShort⟩ := files_storeSources sized
  refine ⟨by rw [storeSources_eq], ?_, fun files => ?_⟩
  · generalize performAll (storeSources (R := R) texts).calls before = files at stored table ⊢
    exact holds directory stored table short tableShort
  · constructor
    · exact fun count => openIn_ne_panic directory files count
    · intro reader count opened id cursors small
      obtain ⟨found, _, measured, _⟩ := openIn_eq_ok.mp opened
      have word : id * 8 < 2 ^ 64 := by omega
      obtain ⟨after, ended, inside⟩ := readAt_ends (R := R) reader measured word cursors
      exact ⟨_, after, ended, read_ne_panic reader id, found, inside⟩

/-- Two texts, of which one is empty. -/
theorem sources_roundTrip_two : Holds Int "index"
    (performAll (storeSources (R := Int) ["東京都", ""]).calls fun _ => none) ["東京都", ""] :=
  (sources_roundTrip "index" ["東京都", ""] (fun _ => none)
    (sized_storeSources (by decide) (by decide))).2.1

end Yurine
