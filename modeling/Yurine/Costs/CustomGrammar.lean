import Yurine.Costs.CustomPersistence
import Yurine.Library.Recognizer
import Yurine.Library.Recording

/-! The format of custom-cost metadata. The grammar says which bytes list which rules; the
parser accepts exactly these bytes, and what it allocates is bounded by their length. -/
namespace Yurine
open Outcome LittleEndian

namespace CustomCosts
open MetadataReader
variable {T : Type}

/-- A valid cost: a pattern that `Cost::new` accepts. -/
def CostField (field : List UInt8) (cost : CostBits) : Prop :=
  ∃ value, field = u32Layout.write value ∧ CostBits.new value = .ok cost

/-- A length-prefixed token that the codec decodes. -/
def TokenField (codec : TokenCodec U32 T) (field : List UInt8) (token : T) : Prop :=
  ∃ encoded, encoded.length < u64Range ∧ field = pushBytes [] encoded ∧
    codec.decode encoded = .ok token

/-- A deletion or an insertion: a token and a cost. -/
def RuleField (codec : TokenCodec U32 T) (field : List UInt8) (rule : T × CostBits) : Prop :=
  ∃ token cost, field = token ++ cost ∧ TokenField codec token rule.1 ∧ CostField cost rule.2

/-- A substitution: two tokens that differ, and a cost. -/
def SubstitutionField (codec : TokenCodec U32 T) (field : List UInt8)
    (rule : (T × T) × CostBits) : Prop :=
  ∃ source target cost, field = source ++ (target ++ cost) ∧
    TokenField codec source rule.1.1 ∧ TokenField codec target rule.1.2 ∧
    CostField cost rule.2 ∧ rule.1.1 ≠ rule.1.2

/-- The content of a file: the defaults, and the rules in the order of their records. -/
structure Listing (T : Type) where
  defaultSubstitution : CostBits
  defaultDeletion : CostBits
  defaultInsertion : CostBits
  substitutions : List ((T × T) × CostBits)
  deletions : List (T × CostBits)
  insertions : List (T × CostBits)

/-- The records of the rules: no pair and no token has two. -/
structure RuleFields (codec : TokenCodec U32 T) (bytes : List UInt8) (listing : Listing T) :
    Prop where
  layout : ∃ substitutions deletions insertions,
    bytes = substitutions ++ (deletions ++ insertions) ∧
    Fields (SubstitutionField codec) substitutions listing.substitutions ∧
    Fields (RuleField codec) deletions listing.deletions ∧
    Fields (RuleField codec) insertions listing.insertions
  substitutions : (listing.substitutions.map Prod.fst).Nodup
  deletions : (listing.deletions.map Prod.fst).Nodup
  insertions : (listing.insertions.map Prod.fst).Nodup

/-- The count of a list of records. -/
def CountField (field : List UInt8) (count : Nat) : Prop :=
  count < u64Range ∧ field = encode 8 count

/-- The metadata that lists these defaults and rules: a version word, three costs, three counts
and the records. -/
def Formats (codec : TokenCodec U32 T) (bytes : List UInt8) (listing : Listing T) : Prop :=
  ∃ substitution deletion insertion substitutions deletions insertions rules,
    bytes = u32Layout.write metadataVersion ++ (substitution ++ (deletion ++ (insertion ++
      (substitutions ++ (deletions ++ (insertions ++ rules)))))) ∧
    CostField substitution listing.defaultSubstitution ∧
    CostField deletion listing.defaultDeletion ∧
    CostField insertion listing.defaultInsertion ∧
    CountField substitutions listing.substitutions.length ∧
    CountField deletions listing.deletions.length ∧
    CountField insertions listing.insertions.length ∧ RuleFields codec rules listing

section Lengths
variable {codec : TokenCodec U32 T}

theorem CostField.length_eq {field : List UInt8} {cost : CostBits} (read : CostField field cost) :
    field.length = 4 := by
  obtain ⟨value, rfl, _⟩ := read
  exact u32Layout_faithful.length_write value

theorem TokenField.length_le {field : List UInt8} {token : T}
    (read : TokenField codec field token) : 8 ≤ field.length := by
  obtain ⟨encoded, _, rfl, _⟩ := read
  simp [pushBytes, length_encode]

theorem RuleField.length_le (field : List UInt8) (rule : T × CostBits)
    (read : RuleField codec field rule) : 12 ≤ field.length := by
  obtain ⟨token, cost, rfl, here, valid⟩ := read
  have size := valid.length_eq
  have head := here.length_le
  rw [List.length_append]
  omega

theorem SubstitutionField.length_le (field : List UInt8) (rule : (T × T) × CostBits)
    (read : SubstitutionField codec field rule) : 20 ≤ field.length := by
  obtain ⟨source, target, cost, rfl, first, second, valid, _⟩ := read
  have size := valid.length_eq
  have left := first.length_le
  have right := second.length_le
  rw [List.length_append, List.length_append]
  omega

end Lengths

section Fields

theorem cost_ne_panic (value : U32) : CostBits.new value ≠ panic := by
  unfold CostBits.new
  split
  · nofun
  · split <;> nofun

theorem recognizes_cost {safety : Prop} {α : Type}
    {next : CostBits → MetadataReader → Outcome (Error U32) (α × MetadataReader)}
    {following : CostBits → List UInt8 → α → Prop}
    (rest : ∀ cost, Recognizes safety At (next cost) (following cost)) :
    Recognizes safety At (fun reader => do
        let (value, reader) ← reader.u32
        let cost ← CostBits.new value
        next cost reader)
      (fun field found => ∃ before after cost, field = before ++ after ∧ CostField before cost ∧
        following cost after found) :=
  recognizes_u32.decoded (fun value _ => cost_ne_panic value) rest

theorem recognizes_token {α : Type} (codec : TokenCodec U32 T)
    {next : T → MetadataReader → Outcome (Error U32) (α × MetadataReader)}
    {following : T → List UInt8 → α → Prop}
    (rest : ∀ token, Recognizes codec.Decodes At (next token) (following token)) :
    Recognizes codec.Decodes At (fun reader => do
        let (encoded, reader) ← reader.prefixed
        let token ← codec.decode encoded
        next token reader)
      (fun field found => ∃ before after token, field = before ++ after ∧
        TokenField codec before token ∧ following token after found) := by
  apply (recognizes_prefixed.decoded (fun encoded decodes => decodes encoded) rest).congr
  intro field found
  simp only [TokenField, and_assoc]

theorem recognizes_readDefault {safety : Prop} :
    Recognizes safety At readDefault CostField := by
  apply (recognizes_cost Recognizes.done).congr
  intro field cost
  constructor
  · rintro ⟨before, _, _, rfl, valid, rfl, rfl⟩
    rwa [List.append_nil]
  · intro valid
    exact ⟨field, [], cost, (List.append_nil field).symm, valid, rfl, rfl⟩

end Fields

section Parser
variable [DecidableEq T] {codec : TokenCodec U32 T}

/-- The policy with the defaults and the rules of a listing. -/
def Listing.policy (listing : Listing T) : CustomCosts T where
  defaultSubstitution := listing.defaultSubstitution
  defaultDeletion := listing.defaultDeletion
  defaultInsertion := listing.defaultInsertion
  substitutions := listing.substitutions.foldl
    (fun rules rule => insertSubstitution rules rule.1.1 rule.1.2 rule.2) ∅
  deletions := listing.deletions.foldl (fun rules rule => rules.insert rule.1 rule.2) ∅
  insertions := listing.insertions.foldl (fun rules rule => rules.insert rule.1 rule.2) ∅

theorem RuleFields.lists {bytes : List UInt8} {listing : Listing T}
    (fields : RuleFields codec bytes listing) :
    Lists listing.substitutions (substitutionRule listing.policy.substitutions) ∧
      Lists listing.deletions (fun token => listing.policy.deletions.lookup token) ∧
      Lists listing.insertions (fun token => listing.policy.insertions.lookup token) := by
  have rules {entries : List (T × CostBits)} (distinct : (entries.map Prod.fst).Nodup) :=
    lists_foldl (fun (rules : RuleMap T CostBits) token => rules.lookup token)
      (fun rules rule => rules.insert rule.1 rule.2)
      (fun rules rule => lookup_insert_eq rules rule.1 rule.2)
      (fun _ => AList.lookup_empty _) distinct
  have pairs := lists_foldl substitutionRule
    (fun rules rule => insertSubstitution rules rule.1.1 rule.1.2 rule.2)
    (fun rules rule => substitutionRule_insertSubstitution rules rule.1.1 rule.1.2 rule.2)
    substitutionRule_empty fields.substitutions
  exact ⟨pairs, rules fields.deletions, rules fields.insertions⟩

theorem recognizes_readRule (codec : TokenCodec U32 T) (duplicated : String)
    (rules : RuleMap T CostBits) :
    Recognizes codec.Decodes At (fun reader => readRule codec duplicated (rules, reader))
      (fun field next => ∃ rule, RuleField codec field rule ∧ rules.lookup rule.1 = none ∧
        next = rules.insert rule.1 rule.2) := by
  apply (recognizes_token codec fun token => recognizes_cost fun cost =>
    Recognizes.guard (rules.lookup token).isSome _
      (Recognizes.done (rules.insert token cost))).congr
  intro field next
  simp only [Option.not_isSome_iff_eq_none]
  constructor
  · rintro ⟨token, _, source, rfl, read, before, _, cost, rfl, valid, fresh, rfl, rfl⟩
    rw [List.append_nil]
    exact ⟨(source, cost), ⟨token, before, rfl, read, valid⟩, fresh, rfl⟩
  · rintro ⟨⟨source, cost⟩, ⟨token, value, rfl, read, valid⟩, fresh, rfl⟩
    exact ⟨token, value, source, rfl, read, value, [], cost, (List.append_nil value).symm, valid,
      fresh, rfl, rfl⟩

theorem recognizes_readSubstitution (codec : TokenCodec U32 T)
    (rules : RuleMap T (RuleMap T CostBits)) :
    Recognizes codec.Decodes At (fun reader => readSubstitution codec (rules, reader))
      (fun field next => ∃ rule, SubstitutionField codec field rule ∧
        substitutionRule rules rule.1 = none ∧
        next = insertSubstitution rules rule.1.1 rule.1.2 rule.2) := by
  apply (recognizes_token codec fun source => recognizes_token codec fun target =>
    recognizes_cost fun cost => Recognizes.guard (source = target) _
      (Recognizes.guard (substitutionRule rules (source, target)).isSome _
        (Recognizes.done (insertSubstitution rules source target cost)))).congr
  intro field next
  simp only [Option.not_isSome_iff_eq_none]
  constructor
  · rintro ⟨first, _, source, rfl, read, second, _, target, rfl, also, before, _, cost, rfl, valid,
      different, fresh, rfl, rfl⟩
    rw [List.append_nil]
    exact ⟨((source, target), cost), ⟨first, second, before, rfl, read, also, valid, different⟩,
      fresh, rfl⟩
  · rintro ⟨⟨⟨source, target⟩, cost⟩, ⟨first, second, value, rfl, read, also, valid, different⟩,
      fresh, rfl⟩
    exact ⟨first, _, source, rfl, read, second, value, target, rfl, also, value, [], cost,
      (List.append_nil value).symm, valid, different, fresh, rfl, rfl⟩

/-- The chain of checked operations gives the sum, or nothing when it overflows. -/
theorem minimumLen_eq (substitutions deletions insertions : Nat) :
    (do
      let len ← checkedMul substitutions 20
      let len ← checkedAdd (← checkedMul deletions 12) len
      checkedAdd (← checkedMul insertions 12) len) =
      if substitutions * 20 + deletions * 12 + insertions * 12 < usizeRange then
        some (substitutions * 20 + deletions * 12 + insertions * 12) else none := by
  unfold checkedMul checkedAdd
  by_cases fits : substitutions * 20 + deletions * 12 + insertions * 12 < usizeRange
  · simp (disch := omega) only [if_pos, Option.bind_eq_bind, Option.bind_some, Option.some.injEq]
    omega
  · rw [if_neg fits]
    simp only [Option.bind_eq_bind, Option.bind_eq_none_iff, Option.ite_none_right_eq_some,
      ite_eq_right_iff, reduceCtorEq, imp_false, Option.some.injEq]
    omega

/-- The check decides whether the smallest records of these counts fit, overflow included. -/
theorem decides_validateRuleCounts {remaining : Nat} (small : remaining < usizeRange)
    (substitutions deletions insertions : Nat) :
    Decides (substitutions * 20 + deletions * 12 + insertions * 12 ≤ remaining) (fun _ => True)
      (validateRuleCounts remaining substitutions deletions insertions) := by
  unfold validateRuleCounts
  rw [minimumLen_eq]
  refine (Decides.guard_last trivial).congr ?_
  split
  · simp
  · simp only [Option.all_none, not_true_eq_false, false_iff]
    omega

theorem recognizes_substitutions (codec : TokenCodec U32 T) (count : Nat) :
    Recognizes codec.Decodes At (fun reader => (List.replicate count ()).foldlM
        (fun state _ => readSubstitution codec state) (∅, reader))
      (fun field rules => ∃ entries, entries.length = count ∧
        Fields (SubstitutionField codec) field entries ∧ (entries.map Prod.fst).Nodup ∧
        rules = entries.foldl
          (fun rules rule => insertSubstitution rules rule.1.1 rule.1.2 rule.2) ∅) := by
  have loop := Recognizes.entries substitutionRule
    (fun rules rule => insertSubstitution rules rule.1.1 rule.1.2 rule.2)
    (fun rules rule => substitutionRule_insertSubstitution rules rule.1.1 rule.1.2 rule.2)
    (recognizes_readSubstitution codec) count ∅
  exact loop.congr (by simp)

theorem recognizes_rules (codec : TokenCodec U32 T) (duplicated : String) (count : Nat) :
    Recognizes codec.Decodes At (fun reader => (List.replicate count ()).foldlM
        (fun state _ => readRule codec duplicated state) (∅, reader))
      (fun field rules => ∃ entries, entries.length = count ∧
        Fields (RuleField codec) field entries ∧ (entries.map Prod.fst).Nodup ∧
        rules = entries.foldl (fun rules rule => rules.insert rule.1 rule.2) ∅) := by
  have loop := Recognizes.entries (fun (rules : RuleMap T CostBits) token => rules.lookup token)
    (fun rules rule => rules.insert rule.1 rule.2)
    (fun rules rule => lookup_insert_eq rules rule.1 rule.2)
    (recognizes_readRule codec duplicated) count ∅
  exact loop.congr (by simp)

/-- The records are read as the rules they list, after the check of their counts. -/
theorem accepts_rules (codec : TokenCodec U32 T) (substitution deletion insertion : CostBits)
    (s d i : Nat) :
    Accepts codec.Decodes At (fun reader => do
        validateRuleCounts reader.remaining s d i
        let (substitutions, reader) ← (List.replicate s ()).foldlM
          (fun state _ => readSubstitution codec state) (∅, reader)
        let (deletions, reader) ← (List.replicate d ()).foldlM
          (fun state _ => readRule codec "deletion rule is duplicated" state) (∅, reader)
        let (insertions, reader) ← (List.replicate i ()).foldlM
          (fun state _ => readRule codec "insertion rule is duplicated" state) (∅, reader)
        reader.finish
        return ⟨substitution, deletion, insertion, substitutions, deletions, insertions⟩)
      (fun input costs => ∃ substitutions deletions insertions, substitutions.length = s ∧
        deletions.length = d ∧ insertions.length = i ∧
        RuleFields codec input
          ⟨substitution, deletion, insertion, substitutions, deletions, insertions⟩ ∧
        costs = Listing.policy
          ⟨substitution, deletion, insertion, substitutions, deletions, insertions⟩) := by
  have rest := Accepts.bind (recognizes_substitutions codec s) (fun substitutions =>
    Accepts.bind (recognizes_rules codec "deletion rule is duplicated" d) (fun deletions =>
      Accepts.bind (recognizes_rules codec "insertion rule is duplicated" i) (fun insertions =>
        Accepts.finish (fun reader input (at_ : At reader input) => decides_finish at_)
          (⟨substitution, deletion, insertion, substitutions, deletions, insertions⟩ :
            CustomCosts T))))
  refine Accepts.lookahead ?_ ?_ (rest.congr (fun input costs => ?_))
  · intro reader
    unfold validateRuleCounts
    dsimp only
    split <;> nofun
  · rintro reader input _ ⟨substitutions, deletions, insertions, rfl, rfl, rfl, fields, _⟩ at_
    obtain ⟨first, second, third, rfl, pairs, left, right⟩ := fields.layout
    have small := at_.fits
    refine (decides_validateRuleCounts (at_.remaining ▸ small) _ _ _).eq_ok.mpr ?_
    have := pairs.length_le SubstitutionField.length_le
    have := left.length_le RuleField.length_le
    have := right.length_le RuleField.length_le
    rw [at_.remaining, List.length_append, List.length_append]
    dsimp only at *
    omega
  · constructor
    · rintro ⟨first, _, _, rfl, ⟨substitutions, rfl, pairs, distinct, rfl⟩, second, _, _, rfl,
        ⟨deletions, rfl, left, unique, rfl⟩, third, _, _, rfl,
        ⟨insertions, rfl, right, single, rfl⟩, rfl, rfl⟩
      rw [List.append_nil]
      exact ⟨_, _, _, rfl, rfl, rfl, ⟨⟨_, _, _, rfl, pairs, left, right⟩, distinct, unique, single⟩,
        rfl⟩
    · rintro ⟨substitutions, deletions, insertions, rfl, rfl, rfl, fields, rfl⟩
      obtain ⟨first, second, third, rfl, pairs, left, right⟩ := fields.layout
      exact ⟨first, _, _, rfl, ⟨_, rfl, pairs, fields.substitutions, rfl⟩, second, _, _, rfl,
        ⟨_, rfl, left, fields.deletions, rfl⟩, third, [], _, (List.append_nil _).symm,
        ⟨_, rfl, right, fields.insertions, rfl⟩, rfl, rfl⟩

/-- The parser returns the policy of what the bytes list, or an error when they list nothing. -/
theorem accepts_readMetadata {bytes : List UInt8} (small : bytes.length < usizeRange) :
    (∀ costs, readMetadata codec bytes = .ok costs ↔
      ∃ listing, Formats codec bytes listing ∧ costs = listing.policy) ∧
    (codec.Decodes → readMetadata codec bytes ≠ panic) := by
  have accepts := Accepts.bind recognizes_u32 (fun version =>
    Accepts.guard (version ≠ metadataVersion)
      (.invalidFile "unsupported custom-cost metadata version")
      (Accepts.bind recognizes_readDefault (fun substitution =>
        Accepts.bind recognizes_readDefault (fun deletion =>
          Accepts.bind recognizes_readDefault (fun insertion =>
            Accepts.bind recognizes_u64 (fun s => Accepts.bind recognizes_u64 (fun d =>
              Accepts.bind recognizes_u64 (fun i =>
                accepts_rules codec substitution deletion insertion s d i))))))))
  refine ⟨fun costs => ⟨fun returned => ?_, ?_⟩,
    fun decodes => accepts.safe decodes _ _ (new_at small)⟩
  · obtain ⟨_, _, version, rfl, rfl, current, substitution, _, ds, rfl, first, deletion, _, dd, rfl,
      second, insertion, _, di, rfl, third, s, _, _, rfl, ns, d, _, _, rfl, nd, i, rest, _, rfl, ni,
      substitutions, deletions, insertions, rfl, rfl, rfl, fields, rfl⟩ :=
      accepts.sound _ _ _ (new_at small) returned
    obtain rfl := not_not.mp current
    exact ⟨⟨ds, dd, di, substitutions, deletions, insertions⟩, ⟨substitution, deletion, insertion,
      s, d, i, rest, rfl, first, second, third, ns, nd, ni, fields⟩, rfl⟩
  · rintro ⟨⟨ds, dd, di, substitutions, deletions, insertions⟩, ⟨substitution, deletion, insertion,
      s, d, i, rules, same, first, second, third, ns, nd, ni, fields⟩, rfl⟩
    refine accepts.complete _ _ _ ?_ (new_at small)
    exact ⟨_, _, metadataVersion, same, rfl, not_not.mpr rfl, substitution, _, ds, rfl, first,
      deletion, _, dd, rfl, second, insertion, _, di, rfl, third, s, _, _, rfl, ns, d, _, _, rfl, nd,
      i, rules, _, rfl, ni, substitutions, deletions, insertions, rfl, rfl, rfl, fields, rfl⟩

end Parser
end CustomCosts
end Yurine
