import Yurine.Library.Outcome
import Mathlib.Data.List.Forall2

/-! Parsers that recognize a language. A parser consumes a field of its language and returns
the value of the field, or it reports an error; it consumes every field of the language,
whatever follows. Both directions compose, so the language of a parser is read off its code. -/
namespace Outcome

variable {ε β σ α γ δ : Type} {safety : Prop} {ahead : σ → List β → Prop}

/-- `ahead state input` says that the parser in `state` has `input` left, and `safety` that the
calls it makes do not panic. -/
structure Recognizes (safety : Prop) (ahead : σ → List β → Prop) (parse : σ → Outcome ε (α × σ))
    (language : List β → α → Prop) : Prop where
  sound : ∀ state input result, ahead state input → parse state = .ok result →
    ∃ field rest, input = field ++ rest ∧ language field result.1 ∧ ahead result.2 rest
  complete : ∀ state field rest value, language field value → ahead state (field ++ rest) →
    ∃ next, parse state = .ok (value, next) ∧ ahead next rest
  safe : safety → ∀ state input, ahead state input → parse state ≠ panic

/-- A parser of the whole input. -/
structure Accepts (safety : Prop) (ahead : σ → List β → Prop) (parse : σ → Outcome ε α)
    (language : List β → α → Prop) : Prop where
  sound : ∀ state input value, ahead state input → parse state = .ok value → language input value
  complete : ∀ state input value, language input value → ahead state input →
    parse state = .ok value
  safe : safety → ∀ state input, ahead state input → parse state ≠ panic

namespace Recognizes
variable {parse : σ → Outcome ε (α × σ)} {language other : List β → α → Prop}

theorem congr (recognizes : Recognizes safety ahead parse language)
    (same : ∀ field value, language field value ↔ other field value) :
    Recognizes safety ahead parse other := by
  rwa [← funext₂ fun field value => propext (same field value)]

theorem of_ensures
    (sound : ∀ state input, ahead state input → Ensures (fun result => ∃ field rest,
      input = field ++ rest ∧ language field result.1 ∧ ahead result.2 rest) (fun _ => True)
      (parse state))
    (complete : ∀ state field rest value, language field value → ahead state (field ++ rest) →
      ∃ next, parse state = .ok (value, next) ∧ ahead next rest) :
    Recognizes safety ahead parse language :=
  ⟨fun state input _ at_ returned => (sound state input at_).of_ok returned, complete,
    fun _ state input at_ => (sound state input at_).ne_panic⟩

theorem done (value : α) :
    Recognizes safety ahead (fun state => (.ok (value, state) : Outcome ε (α × σ)))
      (fun field found => field = [] ∧ found = value) where
  sound := by
    rintro state input _ at_ ⟨⟩
    exact ⟨[], input, rfl, ⟨rfl, rfl⟩, at_⟩
  complete := by
    rintro state _ rest _ ⟨rfl, rfl⟩ at_
    exact ⟨state, rfl, at_⟩
  safe := nofun

theorem bind {next : α → σ → Outcome ε (γ × σ)} {following : α → List β → γ → Prop}
    (first : Recognizes safety ahead parse language)
    (second : ∀ value, Recognizes safety ahead (next value) (following value)) :
    Recognizes safety ahead (fun state => do
        let (value, state) ← parse state
        next value state)
      (fun field found => ∃ before after value, field = before ++ after ∧ language before value ∧
        following value after found) where
  sound := by
    intro state input result at_ returned
    obtain ⟨⟨value, middle⟩, parsed, then_⟩ := bind_eq_ok.mp returned
    obtain ⟨before, left, rfl, read, between⟩ := first.sound state input _ at_ parsed
    obtain ⟨after, rest, rfl, also, behind⟩ := (second value).sound middle left _ between then_
    exact ⟨before ++ after, rest, (List.append_assoc ..).symm,
      ⟨before, after, value, rfl, read, also⟩, behind⟩
  complete := by
    rintro state _ rest found ⟨before, after, value, rfl, read, also⟩ at_
    rw [List.append_assoc] at at_
    obtain ⟨middle, parsed, between⟩ := first.complete state before _ value read at_
    obtain ⟨last, then_, behind⟩ := (second value).complete middle after rest found also between
    exact ⟨last, bind_eq_ok.mpr ⟨_, parsed, then_⟩, behind⟩
  safe := by
    intro calls state input at_
    refine bind_ne_panic (first.safe calls state input at_) ?_
    rintro ⟨value, middle⟩ parsed
    obtain ⟨_, left, _, _, between⟩ := first.sound state input _ at_ parsed
    exact (second value).safe calls middle left between

theorem call {x : Outcome ε γ} {next : γ → σ → Outcome ε (α × σ)}
    {following : γ → List β → α → Prop} (calls : safety → x ≠ panic)
    (rest : ∀ value, Recognizes safety ahead (next value) (following value)) :
    Recognizes safety ahead (fun state => x >>= fun value => next value state)
      (fun field found => ∃ value, x = .ok value ∧ following value field found) where
  sound := by
    intro state input result at_ returned
    obtain ⟨value, called, then_⟩ := bind_eq_ok.mp returned
    obtain ⟨field, left, same, read, behind⟩ := (rest value).sound state input _ at_ then_
    exact ⟨field, left, same, ⟨value, called, read⟩, behind⟩
  complete := by
    rintro state field left found ⟨value, rfl, read⟩ at_
    exact (rest value).complete state field left found read at_
  safe always state input at_ :=
    bind_ne_panic (calls always) (fun value _ => (rest value).safe always state input at_)

/-- A parser, a call on what it read, and the other parser. -/
theorem decoded {decode : α → Outcome ε δ} {next : δ → σ → Outcome ε (γ × σ)}
    {following : δ → List β → γ → Prop} (first : Recognizes safety ahead parse language)
    (calls : ∀ read, safety → decode read ≠ panic)
    (second : ∀ value, Recognizes safety ahead (next value) (following value)) :
    Recognizes safety ahead (fun state => do
        let (read, state) ← parse state
        let value ← decode read
        next value state)
      (fun field found => ∃ before after value, field = before ++ after ∧
        (∃ read, language before read ∧ decode read = .ok value) ∧
        following value after found) := by
  apply (first.bind fun read => call (calls read) second).congr
  intro field found
  constructor
  · rintro ⟨before, after, read, rfl, here, value, called, also⟩
    exact ⟨before, after, value, rfl, ⟨read, here, called⟩, also⟩
  · rintro ⟨before, after, value, rfl, ⟨read, here, called⟩, also⟩
    exact ⟨before, after, read, rfl, here, value, called, also⟩

theorem guard (c : Prop) [Decidable c] (reason : ε)
    (rest : Recognizes safety ahead parse language) :
    Recognizes safety ahead
      (fun state => if c then ((fail reason : Outcome ε PUnit) >>= fun _ => parse state)
        else parse state)
      (fun field value => ¬ c ∧ language field value) := by
  by_cases holds : c
  · simp only [if_pos holds]
    exact ⟨nofun, fun _ _ _ _ read => absurd holds read.1, nofun⟩
  · simp only [if_neg holds]
    exact rest.congr (fun _ _ => (and_iff_right holds).symm)

end Recognizes

/-- The fields of a list of values in a row. -/
def Fields (language : List β → α → Prop) (field : List β) (values : List α) : Prop :=
  ∃ fields, field = fields.flatten ∧ List.Forall₂ language fields values

theorem fields_nil {language : List β → α → Prop} {field : List β} :
    Fields language field [] ↔ field = [] := by
  constructor
  · rintro ⟨_, rfl, ⟨⟩⟩
    rfl
  · rintro rfl
    exact ⟨[], rfl, .nil⟩

theorem fields_cons {language : List β → α → Prop} {field : List β} {value : α}
    {values : List α} : Fields language field (value :: values) ↔
      ∃ before after, field = before ++ after ∧ language before value ∧
        Fields language after values := by
  constructor
  · rintro ⟨_, rfl, _ | ⟨here, rest⟩⟩
    exact ⟨_, _, rfl, here, _, rfl, rest⟩
  · rintro ⟨before, _, rfl, here, fields, rfl, rest⟩
    exact ⟨before :: fields, rfl, .cons here rest⟩

theorem fields_flatMap {language : List β → α → Prop} {write : α → List β} {values : List α}
    (each : ∀ value ∈ values, language (write value) value) :
    Fields language (values.flatMap write) values := by
  refine ⟨values.map write, rfl, ?_⟩
  rw [List.forall₂_map_left_iff]
  exact List.forall₂_same.mpr each

theorem Fields.length_le {language : List β → α → Prop} {field : List β} {values : List α}
    (fields : Fields language field values) {least : Nat}
    (each : ∀ field value, language field value → least ≤ field.length) :
    values.length * least ≤ field.length := by
  induction values generalizing field with
  | nil => simp
  | cons value values ih =>
    obtain ⟨before, after, rfl, here, rest⟩ := fields_cons.mp fields
    have first := each before value here
    have others := ih rest
    rw [List.length_cons, List.length_append, Nat.succ_mul]
    omega

section Entries
variable {K V M : Type}

/-- A loop that reads records into a map, each under a new key, recognizes the records of any
entries with distinct keys. -/
theorem Recognizes.entries [DecidableEq K] (lookup : M → K → Option V)
    (insert : M → K × V → M) {record : List β → K × V → Prop} {parse : M × σ → Outcome ε (M × σ)}
    (content : ∀ m entry key, lookup (insert m entry) key =
      if key = entry.1 then some entry.2 else lookup m key)
    (each : ∀ m, Recognizes safety ahead (fun state => parse (m, state)) (fun field next =>
      ∃ entry, record field entry ∧ lookup m entry.1 = none ∧ next = insert m entry))
    (count : Nat) (m : M) :
    Recognizes safety ahead
      (fun state => (List.replicate count ()).foldlM (fun state _ => parse state) (m, state))
      (fun field next => ∃ entries, entries.length = count ∧ Fields record field entries ∧
        (entries.map Prod.fst).Nodup ∧ (∀ entry ∈ entries, lookup m entry.1 = none) ∧
        next = entries.foldl insert m) := by
  induction count generalizing m with
  | zero =>
    refine (done m).congr (fun field next => ?_)
    constructor
    · rintro ⟨rfl, rfl⟩
      exact ⟨[], rfl, fields_nil.mpr rfl, .nil, by simp, rfl⟩
    · rintro ⟨entries, size, fields, _, _, rfl⟩
      obtain rfl := List.eq_nil_of_length_eq_zero size
      exact ⟨fields_nil.mp fields, rfl⟩
  | succ count ih =>
    refine ((each m).bind ih).congr (fun field next => ?_)
    constructor
    · rintro ⟨before, after, _, rfl, ⟨entry, here, new, rfl⟩, entries, rfl, fields, distinct, fresh,
        rfl⟩
      have unseen (other : K × V) (mem : other ∈ entries) :
          other.1 ≠ entry.1 ∧ lookup m other.1 = none := by
        have absent := fresh other mem
        rw [content] at absent
        split at absent
        · cases absent
        · exact ⟨‹_›, absent⟩
      refine ⟨entry :: entries, rfl, fields_cons.mpr ⟨before, after, rfl, here, fields⟩, ?_, ?_, rfl⟩
      · rw [List.map_cons, List.nodup_cons]
        refine ⟨fun mem => ?_, distinct⟩
        obtain ⟨other, mem, same⟩ := List.mem_map.mp mem
        exact (unseen other mem).1 same
      · exact List.forall_mem_cons.mpr ⟨new, fun other mem => (unseen other mem).2⟩
    · rintro ⟨_ | ⟨entry, entries⟩, size, fields, distinct, fresh, rfl⟩
      · cases size
      · obtain ⟨before, after, rfl, here, fields⟩ := fields_cons.mp fields
        rw [List.map_cons, List.nodup_cons] at distinct
        rw [List.forall_mem_cons] at fresh
        refine ⟨before, after, _, rfl, ⟨entry, here, fresh.1, rfl⟩, entries,
          Nat.succ.inj size, fields, distinct.2, ?_, rfl⟩
        intro other mem
        rw [content, if_neg, fresh.2 other mem]
        intro same
        exact distinct.1 (List.mem_map.mpr ⟨other, mem, same⟩)

end Entries

namespace Accepts
variable {parse : σ → Outcome ε α} {language other : List β → α → Prop}

theorem congr (accepts : Accepts safety ahead parse language)
    (same : ∀ input value, language input value ↔ other input value) :
    Accepts safety ahead parse other := by
  rwa [← funext₂ fun input value => propext (same input value)]

theorem finish {ends : σ → Outcome ε PUnit}
    (decides : ∀ state input, ahead state input → Decides (input = []) (fun _ => True) (ends state))
    (value : α) :
    Accepts safety ahead (fun state => ends state >>= fun _ => .ok value)
      (fun input found => input = [] ∧ found = value) where
  sound := by
    intro state input found at_ returned
    obtain ⟨_, ended, ⟨⟩⟩ := bind_eq_ok.mp returned
    exact ⟨(decides state input at_).eq_ok.mp ended, rfl⟩
  complete := by
    rintro state _ _ ⟨rfl, rfl⟩ at_
    rw [(decides state [] at_).eq_ok.mpr rfl, bind_ok]
  safe _ state input at_ := bind_ne_panic (decides state input at_).ne_panic (fun _ _ => nofun)

theorem bind {first : σ → Outcome ε (γ × σ)} {leading : List β → γ → Prop}
    {next : γ → σ → Outcome ε α} {following : γ → List β → α → Prop}
    (recognizes : Recognizes safety ahead first leading)
    (accepts : ∀ value, Accepts safety ahead (next value) (following value)) :
    Accepts safety ahead (fun state => do
        let (value, state) ← first state
        next value state)
      (fun input found => ∃ before after value, input = before ++ after ∧ leading before value ∧
        following value after found) where
  sound := by
    intro state input found at_ returned
    obtain ⟨⟨value, middle⟩, parsed, then_⟩ := bind_eq_ok.mp returned
    obtain ⟨before, left, rfl, read, between⟩ := recognizes.sound state input _ at_ parsed
    exact ⟨before, left, value, rfl, read, (accepts value).sound middle left _ between then_⟩
  complete := by
    rintro state _ found ⟨before, after, value, rfl, read, also⟩ at_
    obtain ⟨middle, parsed, between⟩ := recognizes.complete state before after value read at_
    exact bind_eq_ok.mpr ⟨_, parsed, (accepts value).complete middle after found also between⟩
  safe := by
    intro calls state input at_
    refine bind_ne_panic (recognizes.safe calls state input at_) ?_
    rintro ⟨value, middle⟩ parsed
    obtain ⟨_, left, _, _, between⟩ := recognizes.sound state input _ at_ parsed
    exact (accepts value).safe calls middle left between

theorem guard (c : Prop) [Decidable c] (reason : ε) (rest : Accepts safety ahead parse language) :
    Accepts safety ahead
      (fun state => if c then ((fail reason : Outcome ε PUnit) >>= fun _ => parse state)
        else parse state)
      (fun input value => ¬ c ∧ language input value) := by
  by_cases holds : c
  · simp only [if_pos holds]
    exact ⟨nofun, fun _ _ _ read => absurd holds read.1, nofun⟩
  · simp only [if_neg holds]
    exact rest.congr (fun _ _ => (and_iff_right holds).symm)

/-- A check of the input ahead that refuses no input of the language. -/
theorem lookahead {check : σ → Outcome ε PUnit} (safe : ∀ state, check state ≠ panic)
    (passes : ∀ state input value, language input value → ahead state input →
      check state = .ok ⟨⟩)
    (rest : Accepts safety ahead parse language) :
    Accepts safety ahead (fun state => check state >>= fun _ => parse state) language where
  sound := by
    intro state input value at_ returned
    obtain ⟨_, _, then_⟩ := bind_eq_ok.mp returned
    exact rest.sound state input value at_ then_
  complete state input value read at_ := by
    rw [passes state input value read at_, bind_ok]
    exact rest.complete state input value read at_
  safe calls state input at_ :=
    bind_ne_panic (safe state) (fun _ _ => rest.safe calls state input at_)

end Accepts
end Outcome
