import Yurine.Cli.CostConfig
import Yurine.Library.Loading

/-! What a rule file says. Every line is one rule, no two rules are about the same operation on
the same tokens, and the policy charges what its rules say and the defaults otherwise. -/
namespace Yurine.CostConfig
open Outcome CustomCosts Loading

variable {T α : Type}

/-- What a rule is about. -/
inductive RuleKey (T : Type) where
  | substitution (source target : T)
  | deletion (token : T)
  | insertion (token : T)
deriving DecidableEq

section Contexts
variable {context : String} {a : α}

@[simp] theorem raise_eq_ok {result : CliResult U32 α} : raise result = .ok a ↔ result = .ok a := by
  match result with
  | .ok b => simp only [raise, Except.ok.injEq]
  | .error (.error _) => simp only [raise, fail, reduceCtorEq]
  | .error .panic => simp only [raise, Outcome.panic, reduceCtorEq]

@[simp] theorem withContext_eq_ok {result : ConfigResult α} :
    withContext context result = .ok a ↔ result = .ok a := by
  match result with
  | .ok b => simp only [withContext, Except.ok.injEq]
  | .error (.error _) => simp only [withContext, fail, reduceCtorEq]
  | .error .panic => simp only [withContext, Outcome.panic, reduceCtorEq]

@[simp] theorem ofJson_eq_ok {result : Except String α} : ofJson result = .ok a ↔ result = .ok a := by
  cases result with
  | ok b => simp only [ofJson, Except.ok.injEq]
  | error text => simp only [ofJson, raise, bail, fail, reduceCtorEq]

@[simp] theorem orContext_eq_ok {option : Option α} :
    orContext context option = .ok a ↔ option = some a := by
  rw [orContext, raise_eq_ok, okOr_eq_ok]

theorem parseCost_eq_ok {value : U32} {field : String} {cost : CostBits} :
    parseCost value field = .ok cost ↔ CostBits.new value = .ok cost := by
  rw [parseCost, withContext_eq_ok, raise_eq_ok, ofLibrary_ok_iff]

theorem validateVersion_eq_ok {version : U32} : validateVersion version = .ok ⟨⟩ ↔ version = 1 := by
  rw [validateVersion]
  split
  case isTrue other =>
    constructor
    · intro impossible
      cases impossible
    · exact fun same => absurd same other
  case isFalse same => exact iff_of_true rfl (not_not.mp same)

theorem openJsonl_eq_ok {files : Files} {path : Path} {kind : String}
    {lines : List (Option String)} : openJsonl files path kind = .ok lines ↔
      ∃ file, files path = some file ∧ file.lines = lines := by
  rw [openJsonl, bind_eq_ok]
  simp only [withContext_eq_ok, raise_eq_ok, okOr_eq_ok, Pure.pure, Except.pure, Except.ok.injEq]

end Contexts

section Lines
variable {json : ConfigJson} {tokenizer : Tokenizer (CliError U32) T} {path : Path}

/-- A rule of a file with its tokens and its cost. -/
inductive Denotes (tokenizer : Tokenizer (CliError U32) T) :
    CustomRule → RuleKey T × CostBits → Prop
  | substitution {source target : String} {value : U32} {a b : T} {cost : CostBits}
      (first : singleToken tokenizer source = .ok a) (second : singleToken tokenizer target = .ok b)
      (valid : CostBits.new value = .ok cost) :
      Denotes tokenizer (.substitution source target value) (.substitution a b, cost)
  | deletion {text : String} {value : U32} {token : T} {cost : CostBits}
      (one : singleToken tokenizer text = .ok token) (valid : CostBits.new value = .ok cost) :
      Denotes tokenizer (.deletion text value) (.deletion token, cost)
  | insertion {text : String} {value : U32} {token : T} {cost : CostBits}
      (one : singleToken tokenizer text = .ok token) (valid : CostBits.new value = .ok cost) :
      Denotes tokenizer (.insertion text value) (.insertion token, cost)

def ReadsRule (json : ConfigJson) (tokenizer : Tokenizer (CliError U32) T) (line : Option String)
    (rule : RuleKey T × CostBits) : Prop :=
  ∃ text parsed, line = some text ∧ json.rule text = .ok parsed ∧ Denotes tokenizer parsed rule

/-- The file has had a rule about this. -/
def RuleState.Seen (state : RuleState T) : RuleKey T → Prop
  | .substitution source target => (source, target) ∈ state.substitutions
  | .deletion token => token ∈ state.deletions
  | .insertion token => token ∈ state.insertions

variable [DecidableEq T]

/-- The policy and the tokens after one more rule. -/
def RuleState.take (state : RuleState T) : RuleKey T × CostBits → RuleState T
  | (.substitution source target, cost) => { state with
      substitutions := (source, target) :: state.substitutions
      costs := state.costs.setSubstitution source target cost }
  | (.deletion token, cost) => { state with
      deletions := token :: state.deletions
      costs := state.costs.setDeletion token cost }
  | (.insertion token, cost) => { state with
      insertions := token :: state.insertions
      costs := state.costs.setInsertion token cost }

omit [DecidableEq T] in
theorem ruleToken_eq_ok {which text : String} {lineNumber : Nat} {token : T} :
    ruleToken tokenizer path which text lineNumber = .ok token ↔
      singleToken tokenizer text = .ok token := by
  rw [ruleToken, withContext_eq_ok, raise_eq_ok]

theorem parseRuleCost_eq_ok {value : U32} {lineNumber : Nat} {cost : CostBits} :
    parseRuleCost path value lineNumber = .ok cost ↔ CostBits.new value = .ok cost := by
  rw [parseRuleCost, withContext_eq_ok, raise_eq_ok, ofLibrary_ok_iff]

theorem unless_eq_ok {β : Type} {p : Prop} [Decidable p] {text : String} {next : ConfigResult β}
    {b : β} : (if p then (raise (bail text) : ConfigResult PUnit) >>= fun _ => next else next) =
      .ok b ↔ ¬ p ∧ next = .ok b := by
  split
  case isTrue holds =>
    constructor
    · intro impossible
      cases impossible
    · exact fun both => absurd holds both.1
  case isFalse fails => exact ⟨fun same => ⟨fails, same⟩, And.right⟩

theorem loads_loadRule : Loads (loadRule json tokenizer path) (ReadsRule json tokenizer)
    (fun state rule => ¬ state.Seen rule.1) RuleState.take := by
  rintro state ⟨line, i⟩ next
  unfold loadRule
  constructor
  · intro ran
    obtain ⟨text, read, ran⟩ := bind_eq_ok.mp ran
    obtain ⟨rule, parsed, ran⟩ := bind_eq_ok.mp ran
    rw [withContext_eq_ok, raise_eq_ok, okOr_eq_ok] at read
    rw [withContext_eq_ok, ofJson_eq_ok] at parsed
    cases rule with
    | substitution source target value =>
      obtain ⟨a, first, ran⟩ := bind_eq_ok.mp ran
      obtain ⟨b, second, ran⟩ := bind_eq_ok.mp ran
      obtain ⟨fresh, ran⟩ := unless_eq_ok.mp ran
      obtain ⟨cost, valid, ran⟩ := bind_eq_ok.mp ran
      cases ran
      exact ⟨(.substitution a b, cost), ⟨text, _, read, parsed, .substitution
        (ruleToken_eq_ok.mp first) (ruleToken_eq_ok.mp second) (parseRuleCost_eq_ok.mp valid)⟩,
        fresh, rfl⟩
    | deletion value cost =>
      obtain ⟨token, one, ran⟩ := bind_eq_ok.mp ran
      obtain ⟨fresh, ran⟩ := unless_eq_ok.mp ran
      obtain ⟨cost, valid, ran⟩ := bind_eq_ok.mp ran
      cases ran
      exact ⟨(.deletion token, cost), ⟨text, _, read, parsed, .deletion (ruleToken_eq_ok.mp one)
        (parseRuleCost_eq_ok.mp valid)⟩, fresh, rfl⟩
    | insertion value cost =>
      obtain ⟨token, one, ran⟩ := bind_eq_ok.mp ran
      obtain ⟨fresh, ran⟩ := unless_eq_ok.mp ran
      obtain ⟨cost, valid, ran⟩ := bind_eq_ok.mp ran
      cases ran
      exact ⟨(.insertion token, cost), ⟨text, _, read, parsed, .insertion (ruleToken_eq_ok.mp one)
        (parseRuleCost_eq_ok.mp valid)⟩, fresh, rfl⟩
  · rintro ⟨rule, ⟨text, parsed, read, parses, denotes⟩, fresh, rfl⟩
    refine bind_eq_ok.mpr ⟨text, by rw [withContext_eq_ok, raise_eq_ok, okOr_eq_ok]; exact read, ?_⟩
    refine bind_eq_ok.mpr ⟨parsed, by rw [withContext_eq_ok, ofJson_eq_ok]; exact parses, ?_⟩
    cases denotes with
    | substitution first second valid =>
      refine bind_eq_ok.mpr ⟨_, ruleToken_eq_ok.mpr first, ?_⟩
      refine bind_eq_ok.mpr ⟨_, ruleToken_eq_ok.mpr second, ?_⟩
      exact unless_eq_ok.mpr ⟨fresh, bind_eq_ok.mpr ⟨_, parseRuleCost_eq_ok.mpr valid, rfl⟩⟩
    | deletion one valid =>
      refine bind_eq_ok.mpr ⟨_, ruleToken_eq_ok.mpr one, ?_⟩
      exact unless_eq_ok.mpr ⟨fresh, bind_eq_ok.mpr ⟨_, parseRuleCost_eq_ok.mpr valid, rfl⟩⟩
    | insertion one valid =>
      refine bind_eq_ok.mpr ⟨_, ruleToken_eq_ok.mpr one, ?_⟩
      exact unless_eq_ok.mpr ⟨fresh, bind_eq_ok.mpr ⟨_, parseRuleCost_eq_ok.mpr valid, rfl⟩⟩

omit [DecidableEq T] in
theorem RuleState.seen_new (costs : CustomCosts T) (key : RuleKey T) :
    ¬ RuleState.Seen ⟨costs, [], [], []⟩ key := by
  cases key <;> exact List.not_mem_nil

theorem RuleState.seen_take (state : RuleState T) (rule : RuleKey T × CostBits) (key : RuleKey T) :
    (state.take rule).Seen key ↔ key = rule.1 ∨ state.Seen key := by
  obtain ⟨about, cost⟩ := rule
  cases about <;> cases key <;> simp [take, Seen]

end Lines
section Policy
variable [DecidableEq T]

/-- What the policy of a state charges by a rule. -/
def RuleState.charge (state : RuleState T) : RuleKey T → Option CostBits
  | .substitution source target => substitutionRule state.costs.substitutions (source, target)
  | .deletion token => state.costs.deletions.lookup token
  | .insertion token => state.costs.insertions.lookup token

/-- The replacement of a token by itself is free whatever the rules say. -/
def RuleKey.Proper : RuleKey T → Prop
  | .substitution source target => source ≠ target
  | _ => True

theorem RuleState.charge_take (state : RuleState T) (rule : RuleKey T × CostBits)
    {key : RuleKey T} (proper : key.Proper) :
    (state.take rule).charge key = if key = rule.1 then some rule.2 else state.charge key := by
  obtain ⟨about, cost⟩ := rule
  cases about with
  | substitution source target =>
    cases key with
    | substitution a b =>
      simp only [take, charge, setSubstitution]
      by_cases same : source = target
      · have other : RuleKey.substitution a b ≠ .substitution source target := by
          rintro ⟨⟩
          exact proper same
        rw [if_neg (not_not.mpr same), if_neg other]
      · simp only [if_pos same, substitutionRule_insertSubstitution, RuleKey.substitution.injEq,
          Prod.mk.injEq]
    | deletion token => simp [take, charge, setSubstitution, apply_ite]
    | insertion token => simp [take, charge, setSubstitution, apply_ite]
  | deletion token =>
    cases key with
    | substitution a b => simp [take, charge, setDeletion]
    | deletion other => simp only [take, charge, setDeletion, lookup_insert_eq, RuleKey.deletion.injEq]
    | insertion other => simp [take, charge, setDeletion]
  | insertion token =>
    cases key with
    | substitution a b => simp [take, charge, setInsertion]
    | deletion other => simp [take, charge, setInsertion]
    | insertion other =>
      simp only [take, charge, setInsertion, lookup_insert_eq, RuleKey.insertion.injEq]

/-- Rules about different things are all in the policy. -/
theorem RuleState.charge_foldl {rules : List (RuleKey T × CostBits)}
    (distinct : (rules.map Prod.fst).Nodup) (state : RuleState T) {key : RuleKey T}
    (proper : key.Proper) :
    (rules.foldl take state).charge key = (rules.lookup key).or (state.charge key) := by
  induction rules generalizing state with
  | nil => rfl
  | cons rule rules ih =>
    rw [List.map_cons, List.nodup_cons] at distinct
    rw [List.foldl_cons, ih distinct.2, charge_take _ _ proper]
    obtain ⟨about, cost⟩ := rule
    rw [List.lookup_cons]
    by_cases same : key = about
    · subst same
      have absent : rules.lookup key = none := by
        rw [List.lookup_eq_none_iff]
        intro entry mem
        rw [bne_iff_ne]
        rintro rfl
        exact distinct.1 (List.mem_map.mpr ⟨entry, mem, rfl⟩)
      simp [absent]
    · rw [if_neg same, beq_eq_false_iff_ne.mpr same]

theorem RuleState.defaults_foldl (rules : List (RuleKey T × CostBits)) (state : RuleState T) :
    (rules.foldl take state).costs.defaultSubstitution = state.costs.defaultSubstitution ∧
      (rules.foldl take state).costs.defaultDeletion = state.costs.defaultDeletion ∧
      (rules.foldl take state).costs.defaultInsertion = state.costs.defaultInsertion := by
  induction rules generalizing state with
  | nil => exact ⟨rfl, rfl, rfl⟩
  | cons rule rules ih =>
    obtain ⟨substitution, deletion, insertion⟩ := ih (state.take rule)
    rw [List.foldl_cons, substitution, deletion, insertion]
    obtain ⟨about, cost⟩ := rule
    cases about with
    | substitution source target =>
      simp only [take, setSubstitution]
      split <;> exact ⟨rfl, rfl, rfl⟩
    | deletion token => exact ⟨rfl, rfl, rfl⟩
    | insertion token => exact ⟨rfl, rfl, rfl⟩

def ruled (substitution deletion insertion : CostBits) (rules : List (RuleKey T × CostBits)) :
    CustomCosts T :=
  (rules.foldl RuleState.take
    ⟨CustomCosts.new substitution deletion insertion, [], [], []⟩).costs

/-- The policy charges what the rules say, and the defaults where they say nothing. -/
structure Charges (costs : CustomCosts T) (substitution deletion insertion : CostBits)
    (rules : List (RuleKey T × CostBits)) : Prop where
  substitution : ∀ source target, costs.substitution source target =
    if source = target then .zero
    else (rules.lookup (.substitution source target)).getD substitution
  deletion : ∀ token, costs.deletion token = (rules.lookup (.deletion token)).getD deletion
  insertion : ∀ token, costs.insertion token = (rules.lookup (.insertion token)).getD insertion

theorem charges_ruled {rules : List (RuleKey T × CostBits)}
    (distinct : (rules.map Prod.fst).Nodup) (substitution deletion insertion : CostBits) :
    Charges (ruled substitution deletion insertion rules) substitution deletion insertion rules := by
  obtain ⟨first, second, third⟩ := RuleState.defaults_foldl rules
    ⟨CustomCosts.new substitution deletion insertion, [], [], []⟩
  have charge (key : RuleKey T) (proper : key.Proper) := RuleState.charge_foldl distinct
    ⟨CustomCosts.new substitution deletion insertion, [], [], []⟩ proper
  constructor
  · intro source target
    rw [CustomCosts.substitution]
    by_cases same : source = target
    · rw [if_pos same, if_pos same]
    · have rule := charge (.substitution source target) same
      simp only [RuleState.charge, CustomCosts.new, substitutionRule_empty, Option.or_none] at rule
      rw [if_neg same, if_neg same, ruled, first]
      exact congrArg (Option.getD · substitution) rule
  · intro token
    have rule := charge (.deletion token) trivial
    simp only [RuleState.charge, CustomCosts.new, AList.lookup_empty, Option.or_none] at rule
    rw [CustomCosts.deletion, ruled, second]
    exact congrArg (Option.getD · deletion) rule
  · intro token
    have rule := charge (.insertion token) trivial
    simp only [RuleState.charge, CustomCosts.new, AList.lookup_empty, Option.or_none] at rule
    rw [CustomCosts.insertion, ruled, third]
    exact congrArg (Option.getD · insertion) rule

variable {json : ConfigJson} {tokenizer : Tokenizer (CliError U32) T} {path : Path}
  {files : Files} {format : DataFormat} {defaults : CustomDefaults} {costs : CustomCosts T}

/-- A rule file is loaded when its lines are rules about different things. -/
theorem loadCustomCosts_eq_ok :
    loadCustomCosts json tokenizer path files format defaults = .ok costs ↔
      ∃ substitution deletion insertion rules file,
        CostBits.new defaults.substitution = .ok substitution ∧
        CostBits.new defaults.deletion = .ok deletion ∧
        CostBits.new defaults.insertion = .ok insertion ∧ files path = some file ∧
        List.Forall₂ (ReadsRule json tokenizer) file.lines rules ∧ (rules.map Prod.fst).Nodup ∧
        costs = ruled substitution deletion insertion rules := by
  have taken (substitution deletion insertion : CostBits) (rules : List (RuleKey T × CostBits)) :
      TakesAll (fun (state : RuleState T) rule => ¬ state.Seen rule.1) RuleState.take
        ⟨CustomCosts.new substitution deletion insertion, [], [], []⟩ rules ↔
          (rules.map Prod.fst).Nodup := by
    have fresh (state : RuleState T) (rule : RuleKey T × CostBits) :
        ¬ state.Seen rule.1 ↔ ¬ state.Seen rule.1 := Iff.rfl
    rw [takesAll_iff_nodup fresh RuleState.seen_take]
    exact and_iff_left fun rule _ => RuleState.seen_new _ rule.1
  rw [loadCustomCosts]
  simp only [bind_eq_ok, parseCost_eq_ok, openJsonl_eq_ok, loads_loadRule.foldlM_ok, taken]
  constructor
  · rintro ⟨substitution, first, deletion, second, insertion, third, _, ⟨file, found, rfl⟩, state,
      ⟨rules, reads, distinct, rfl⟩, last⟩
    cases last
    exact ⟨substitution, deletion, insertion, rules, file, first, second, third, found, reads,
      distinct, rfl⟩
  · rintro ⟨substitution, deletion, insertion, rules, file, first, second, third, found, reads,
      distinct, rfl⟩
    exact ⟨substitution, first, deletion, second, insertion, third, _, ⟨file, found, rfl⟩, _,
      ⟨rules, reads, distinct, rfl⟩, rfl⟩

/-- A configuration of custom costs with these defaults and rules. -/
structure Configured (json : ConfigJson) (files : Files) (tokenizer : Tokenizer (CliError U32) T)
    (path : Path) (substitution deletion insertion : CostBits)
    (rules : List (RuleKey T × CostBits)) : Prop where
  read : ∃ file defaults source rulesFile, files path = some file ∧
    json.config file = .ok (.custom 1 defaults source) ∧
    CostBits.new defaults.substitution = .ok substitution ∧
    CostBits.new defaults.deletion = .ok deletion ∧
    CostBits.new defaults.insertion = .ok insertion ∧
    files ((path.parent.getD Path.here).join source.path) = some rulesFile ∧
    List.Forall₂ (ReadsRule json tokenizer) rulesFile.lines rules
  distinct : (rules.map Prod.fst).Nodup

variable {normalization : Normalization}

theorem load_eq_ok {costs : RuntimeCosts T} :
    load json files normalization tokenizer path = .ok costs ↔ ∃ file config,
      files path = some file ∧ json.config file = .ok config ∧
      config.policy json files normalization tokenizer (path.parent.getD Path.here) =
        .ok costs := by
  rw [load]
  simp only [bind_eq_ok, withContext_eq_ok, raise_eq_ok, okOr_eq_ok, ofJson_eq_ok]
  constructor
  · rintro ⟨file, found, config, parsed, loaded⟩
    exact ⟨file, config, found, parsed, loaded⟩
  · rintro ⟨file, config, found, parsed, loaded⟩
    exact ⟨file, found, config, parsed, loaded⟩

theorem policy_custom {base : Path} {version : U32} {source : DataSource}
    {policy : RuntimeCosts T} : (CostConfig.custom version defaults source).policy json files
      normalization tokenizer base = .ok policy ↔ version = 1 ∧ ∃ costs,
        loadCustomCosts json tokenizer (base.join source.path) files source.format defaults =
          .ok costs ∧ policy = .custom costs := by
  rw [CostConfig.policy, bind_eq_ok]
  constructor
  · rintro ⟨_, valid, loaded⟩
    obtain ⟨costs, made, last⟩ := bind_eq_ok.mp loaded
    cases last
    exact ⟨validateVersion_eq_ok.mp valid, costs, made, rfl⟩
  · rintro ⟨valid, costs, loaded, rfl⟩
    exact ⟨⟨⟩, validateVersion_eq_ok.mpr valid, bind_eq_ok.mpr ⟨costs, loaded, rfl⟩⟩

theorem policy_embedding_ne {base : Path} {version missing deletion insertion : U32}
    {source : DataSource} : (CostConfig.embedding version source missing deletion
      insertion).policy json files normalization tokenizer base ≠ .ok (.custom costs) := by
  intro loaded
  obtain ⟨_, _, loaded⟩ := bind_eq_ok.mp loaded
  obtain ⟨_, _, loaded⟩ := bind_eq_ok.mp loaded
  obtain ⟨_, _, loaded⟩ := bind_eq_ok.mp loaded
  obtain ⟨_, _, loaded⟩ := bind_eq_ok.mp loaded
  obtain ⟨_, _, loaded⟩ := bind_eq_ok.mp loaded
  cases loaded

theorem load_custom_eq_ok : load json files normalization tokenizer path = .ok (.custom costs) ↔
    ∃ substitution deletion insertion rules, Configured json files tokenizer path substitution
      deletion insertion rules ∧ costs = ruled substitution deletion insertion rules := by
  rw [load_eq_ok]
  constructor
  · rintro ⟨file, config, found, parsed, loaded⟩
    cases config with
    | embedding version source missing deletion insertion =>
      exact absurd loaded policy_embedding_ne
    | custom version defaults source =>
      obtain ⟨rfl, _, loaded, same⟩ := policy_custom.mp loaded
      cases same
      obtain ⟨substitution, deletion, insertion, rules, opened, first, second, third, here, reads,
        distinct, rfl⟩ := loadCustomCosts_eq_ok.mp loaded
      exact ⟨substitution, deletion, insertion, rules, ⟨⟨file, defaults, source, opened, found,
        parsed, first, second, third, here, reads⟩, distinct⟩, rfl⟩
  · rintro ⟨substitution, deletion, insertion, rules, ⟨⟨file, defaults, source, opened, found,
      parsed, first, second, third, here, reads⟩, distinct⟩, rfl⟩
    refine ⟨file, _, found, parsed, policy_custom.mpr ⟨rfl, _, ?_, rfl⟩⟩
    exact loadCustomCosts_eq_ok.mpr ⟨substitution, deletion, insertion, rules, opened, first,
      second, third, here, reads, distinct, rfl⟩

/-- A configuration of custom costs is loaded exactly when its defaults and all its lines are
rules with valid costs about different things, and the policy charges what it says. -/
theorem load_custom (json : ConfigJson) (files : Files) (normalization : Normalization)
    (tokenizer : Tokenizer (CliError U32) T) (path : Path) :
    (∀ costs, load json files normalization tokenizer path = .ok (.custom costs) →
      ∃ substitution deletion insertion rules,
        Configured json files tokenizer path substitution deletion insertion rules) ∧
    ∀ substitution deletion insertion rules,
      Configured json files tokenizer path substitution deletion insertion rules →
      ∃ costs, load json files normalization tokenizer path = .ok (.custom costs) ∧
        Charges costs substitution deletion insertion rules := by
  constructor
  · intro costs loaded
    obtain ⟨substitution, deletion, insertion, rules, configured, _⟩ :=
      load_custom_eq_ok.mp loaded
    exact ⟨substitution, deletion, insertion, rules, configured⟩
  · intro substitution deletion insertion rules configured
    exact ⟨_, load_custom_eq_ok.mpr ⟨_, _, _, _, configured, rfl⟩,
      charges_ruled configured.distinct substitution deletion insertion⟩

end Policy
end Yurine.CostConfig
