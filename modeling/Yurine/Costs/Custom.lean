import Yurine.Costs.Rounded
import Yurine.Types
import Mathlib.Data.List.AList

/-! Customizable edit costs. A cost is the bit pattern of its single-precision number, since
only its value is stored and handed out. A hash map is a finite map, and every order of its
entries is an order in which it may be iterated. -/
namespace Yurine
open Outcome

/-- `Cost`: the patterns of the non-negative finite numbers are those below infinity's. -/
structure CostBits where
  bits : U32
  finite : bits.val < 0x7f800000
deriving DecidableEq

namespace CostBits

def zero : CostBits := ⟨0, by decide⟩

def one : CostBits := ⟨0x3f800000, by decide⟩

/-- `Cost::new`; the only other number that is neither negative nor infinite is minus zero. -/
def new (value : U32) : Result U32 CostBits :=
  if finite : value.val < 0x7f800000 then .ok ⟨value, finite⟩
  else if value.val = 0x80000000 then .ok zero
  else fail (.invalidCost value)

theorem new_bits (cost : CostBits) : new cost.bits = .ok cost := dif_pos cost.finite

def cost (cost : CostBits) : Cost Single where
  get := ⟨cost.bits.val, cost.finite.le⟩
  nonneg := Int.natCast_nonneg _
  finite := by
    have finite := cost.finite
    show (cost.bits.val : Int) ≤ 0x7f7fffff
    omega

end CostBits

/-- The list has every entry of a map once. -/
structure Lists (order : List (K × V)) (lookup : K → Option V) : Prop where
  distinct : (order.map Prod.fst).Nodup
  entries : ∀ k v, (k, v) ∈ order ↔ lookup k = some v

theorem Lists.nil : Lists ([] : List (K × V)) (fun _ => none) := ⟨by simp, by simp⟩

theorem Lists.perm {order other : List (K × V)} {lookup : K → Option V}
    (lists : Lists order lookup) (same : other.Perm order) : Lists other lookup :=
  ⟨(same.map Prod.fst).nodup_iff.mpr lists.distinct, fun k v =>
    same.mem_iff.trans (lists.entries k v)⟩

theorem Lists.unique {order : List (K × V)} {first second : K → Option V}
    (lists : Lists order first) (also : Lists order second) : first = second := by
  funext k
  apply Option.ext
  intro v
  rw [← lists.entries, ← also.entries]

/-- Inserting entries with distinct keys into an empty map gives a map of exactly these. -/
theorem lists_foldl {M : Type} [DecidableEq K] (lookup : M → K → Option V)
    (insert : M → K × V → M) {empty : M}
    (content : ∀ m entry key, lookup (insert m entry) key =
      if key = entry.1 then some entry.2 else lookup m key)
    (blank : ∀ key, lookup empty key = none) {entries : List (K × V)}
    (distinct : (entries.map Prod.fst).Nodup) :
    Lists entries (lookup (entries.foldl insert empty)) := by
  refine ⟨distinct, fun k v => ?_⟩
  suffices h : ∀ m, (∀ key ∈ entries.map Prod.fst, lookup m key = none) →
      (lookup (entries.foldl insert m) k = some v ↔ (k, v) ∈ entries ∨ lookup m k = some v) by
    rw [h empty fun key _ => blank key, blank]
    simp
  induction entries with
  | nil => simp
  | cons entry entries ih =>
    intro m fresh
    rw [List.map_cons, List.nodup_cons] at distinct
    have unseen : ∀ key ∈ entries.map Prod.fst, lookup (insert m entry) key = none := by
      intro key mem
      rw [content, if_neg, fresh key (List.mem_cons_of_mem _ mem)]
      rintro rfl
      exact distinct.1 mem
    rw [List.foldl_cons, ih distinct.2 _ unseen, content, List.mem_cons]
    by_cases same : k = entry.1
    · rw [if_pos same, fresh k (by simp [same])]
      have absent : (k, v) ∉ entries := fun mem =>
        distinct.1 (List.mem_map.mpr ⟨_, mem, same⟩)
      simp only [absent, false_or, Option.some.injEq, reduceCtorEq, or_false]
      exact ⟨fun value => Prod.ext same value.symm, fun whole => (congrArg Prod.snd whole).symm⟩
    · rw [if_neg same]
      have other : (k, v) ≠ entry := fun whole => same (congrArg Prod.fst whole)
      simp only [other, false_or]

abbrev RuleMap (T V : Type) := AList (fun _ : T => V)

instance [DecidableEq T] [DecidableEq V] : DecidableEq (RuleMap T V) := fun first second =>
  decidable_of_iff (first.entries = second.entries) AList.ext_iff.symm

structure CustomCosts (T : Type) where
  defaultSubstitution : CostBits
  defaultDeletion : CostBits
  defaultInsertion : CostBits
  substitutions : RuleMap T (RuleMap T CostBits)
  deletions : RuleMap T CostBits
  insertions : RuleMap T CostBits
deriving DecidableEq

namespace CustomCosts
variable {T : Type}

def new (substitution deletion insertion : CostBits) : CustomCosts T :=
  ⟨substitution, deletion, insertion, ∅, ∅, ∅⟩

def setDefaultSubstitution (costs : CustomCosts T) (cost : CostBits) : CustomCosts T :=
  { costs with defaultSubstitution := cost }

def setDefaultDeletion (costs : CustomCosts T) (cost : CostBits) : CustomCosts T :=
  { costs with defaultDeletion := cost }

def setDefaultInsertion (costs : CustomCosts T) (cost : CostBits) : CustomCosts T :=
  { costs with defaultInsertion := cost }

variable [DecidableEq T]

/-- `substitutions.entry(from).or_default().insert(to, cost)`. -/
def insertSubstitution (substitutions : RuleMap T (RuleMap T CostBits)) (source target : T)
    (cost : CostBits) : RuleMap T (RuleMap T CostBits) :=
  substitutions.insert source (((substitutions.lookup source).getD ∅).insert target cost)

def setSubstitution (costs : CustomCosts T) (source target : T) (cost : CostBits) :
    CustomCosts T :=
  if source ≠ target then
    { costs with substitutions := insertSubstitution costs.substitutions source target cost }
  else costs

def setDeletion (costs : CustomCosts T) (token : T) (cost : CostBits) : CustomCosts T :=
  { costs with deletions := costs.deletions.insert token cost }

def setInsertion (costs : CustomCosts T) (token : T) (cost : CostBits) : CustomCosts T :=
  { costs with insertions := costs.insertions.insert token cost }

/-- The rule of a pair of tokens in a nested map. -/
def substitutionRule (substitutions : RuleMap T (RuleMap T CostBits)) (pair : T × T) :
    Option CostBits :=
  (substitutions.lookup pair.1).bind (fun targets => targets.lookup pair.2)

def substitution (costs : CustomCosts T) (source target : T) : CostBits :=
  if source = target then CostBits.zero
  else (substitutionRule costs.substitutions (source, target)).getD costs.defaultSubstitution

def deletion (costs : CustomCosts T) (token : T) : CostBits :=
  (costs.deletions.lookup token).getD costs.defaultDeletion

def insertion (costs : CustomCosts T) (token : T) : CostBits :=
  (costs.insertions.lookup token).getD costs.defaultInsertion

/-- `EditCosts` for `CustomCosts`. -/
def policy (costs : CustomCosts T) : Policy Single T where
  substitution source target := (costs.substitution source target).cost
  deletion token := (costs.deletion token).cost
  insertion token := (costs.insertion token).cost

@[simp] theorem substitutionRule_empty (pair : T × T) :
    substitutionRule ∅ pair = (none : Option CostBits) := by
  simp [substitutionRule]

theorem substitutionRule_insertSubstitution (substitutions : RuleMap T (RuleMap T CostBits))
    (source target : T) (cost : CostBits) (pair : T × T) :
    substitutionRule (insertSubstitution substitutions source target cost) pair =
      if pair = (source, target) then some cost else substitutionRule substitutions pair := by
  obtain ⟨a, b⟩ := pair
  unfold substitutionRule insertSubstitution
  by_cases first : a = source
  · subst first
    rw [AList.lookup_insert, Option.bind_some]
    by_cases second : b = target
    · subst second
      rw [AList.lookup_insert, if_pos rfl]
    · rw [AList.lookup_insert_ne second, if_neg (by simp [second])]
      cases substitutions.lookup a <;> simp
  · rw [AList.lookup_insert_ne first, if_neg (by simp [first])]

theorem lookup_insert_eq (rules : RuleMap T CostBits) (token : T) (cost : CostBits) (other : T) :
    (rules.insert token cost).lookup other =
      if other = token then some cost else rules.lookup other := by
  split
  · rename_i same
    rw [same, AList.lookup_insert]
  · rename_i different
    exact AList.lookup_insert_ne different

/-- The values a program can build with the constructor and the setters. -/
inductive Reachable : CustomCosts T → Prop where
  | new (substitution deletion insertion : CostBits) :
      Reachable (new substitution deletion insertion)
  | setDefaultSubstitution : Reachable costs → Reachable (costs.setDefaultSubstitution cost)
  | setDefaultDeletion : Reachable costs → Reachable (costs.setDefaultDeletion cost)
  | setDefaultInsertion : Reachable costs → Reachable (costs.setDefaultInsertion cost)
  | setSubstitution : Reachable costs → Reachable (costs.setSubstitution source target cost)
  | setDeletion : Reachable costs → Reachable (costs.setDeletion token cost)
  | setInsertion : Reachable costs → Reachable (costs.setInsertion token cost)

theorem Reachable.different {costs : CustomCosts T} (reachable : costs.Reachable) {token : T} :
    substitutionRule costs.substitutions (token, token) = none := by
  induction reachable with
  | new => exact substitutionRule_empty _
  | setDefaultSubstitution _ ih => exact ih
  | setDefaultDeletion _ ih => exact ih
  | setDefaultInsertion _ ih => exact ih
  | setSubstitution _ ih =>
    unfold CustomCosts.setSubstitution
    split
    · rename_i different
      rw [substitutionRule_insertSubstitution, if_neg, ih]
      rintro same
      obtain ⟨first, second⟩ := Prod.mk.inj same
      exact different (first.symm.trans second)
    · exact ih
  | setDeletion _ ih => exact ih
  | setInsertion _ ih => exact ih

/-- Two policies with the same defaults and the same rules. -/
structure SameRules (first second : CustomCosts T) : Prop where
  defaultSubstitution : first.defaultSubstitution = second.defaultSubstitution
  defaultDeletion : first.defaultDeletion = second.defaultDeletion
  defaultInsertion : first.defaultInsertion = second.defaultInsertion
  substitutions : ∀ pair, substitutionRule first.substitutions pair =
    substitutionRule second.substitutions pair
  deletions : ∀ token, first.deletions.lookup token = second.deletions.lookup token
  insertions : ∀ token, first.insertions.lookup token = second.insertions.lookup token

theorem SameRules.costs {first second : CustomCosts T} (same : first.SameRules second) :
    first.substitution = second.substitution ∧ first.deletion = second.deletion ∧
      first.insertion = second.insertion := by
  refine ⟨?_, ?_, ?_⟩
  · funext source target
    rw [substitution, substitution, same.substitutions, same.defaultSubstitution]
  · funext token
    rw [deletion, deletion, same.deletions, same.defaultDeletion]
  · funext token
    rw [insertion, insertion, same.insertions, same.defaultInsertion]

/-- An order in which the maps of a policy are iterated. -/
structure Iteration (T : Type) where
  substitutions : List (T × List (T × CostBits))
  deletions : List (T × CostBits)
  insertions : List (T × CostBits)

/-- The rules in the order of the nested iteration. -/
def Iteration.pairs (iteration : Iteration T) : List ((T × T) × CostBits) :=
  iteration.substitutions.flatMap fun entry =>
    entry.2.map fun rule => ((entry.1, rule.1), rule.2)

structure Iteration.Of (iteration : Iteration T) (costs : CustomCosts T) : Prop where
  sources : (iteration.substitutions.map Prod.fst).Nodup
  listed : ∀ entry ∈ iteration.substitutions, ∃ targets,
    costs.substitutions.lookup entry.1 = some targets ∧ Lists entry.2 targets.lookup
  complete : ∀ source targets, costs.substitutions.lookup source = some targets →
    source ∈ iteration.substitutions.map Prod.fst
  deletions : Lists iteration.deletions costs.deletions.lookup
  insertions : Lists iteration.insertions costs.insertions.lookup

/-- The entries of a map in the order in which it stores them. -/
def entriesOf (rules : RuleMap T V) : List (T × V) := rules.entries.map fun e => (e.1, e.2)

theorem lists_entriesOf (rules : RuleMap T V) :
    Lists (entriesOf rules) (fun token => rules.lookup token) := by
  constructor
  · have keys : (entriesOf rules).map Prod.fst = rules.keys := by
      simp [entriesOf, AList.keys, List.keys]
    rw [keys]
    exact rules.keys_nodup
  · intro token value
    rw [← Option.mem_def, AList.mem_lookup_iff]
    simp only [entriesOf, List.mem_map, Prod.mk.injEq]
    constructor
    · rintro ⟨⟨_, _⟩, mem, rfl, rfl⟩
      exact mem
    · intro mem
      exact ⟨_, mem, rfl, rfl⟩

/-- One of the iterations of a policy. -/
def iterate (costs : CustomCosts T) : Iteration T where
  substitutions := (entriesOf costs.substitutions).map fun entry => (entry.1, entriesOf entry.2)
  deletions := entriesOf costs.deletions
  insertions := entriesOf costs.insertions

/-- `verify`: the costs are checked again. -/
def verify (costs : CustomCosts T) : Result U32 PUnit :=
  (costs.iterate.pairs.map Prod.snd ++ costs.iterate.deletions.map Prod.snd ++
      costs.iterate.insertions.map Prod.snd ++
      [costs.defaultSubstitution, costs.defaultDeletion, costs.defaultInsertion]).forM
    fun cost => do
    let _ ← CostBits.new cost.bits
    return ⟨⟩

omit [DecidableEq T] in
/-- A cost is checked when it is made. -/
theorem verify_eq (costs : CustomCosts T) : costs.verify = .ok ⟨⟩ := by
  apply forM_eq_ok.mpr
  intro cost _
  rw [CostBits.new_bits]
  rfl

theorem iterate_of (costs : CustomCosts T) : costs.iterate.Of costs := by
  have lists := lists_entriesOf costs.substitutions
  have sources : costs.iterate.substitutions.map Prod.fst =
      (entriesOf costs.substitutions).map Prod.fst := by
    simp [iterate, Function.comp_def]
  refine ⟨?_, ?_, ?_, lists_entriesOf _, lists_entriesOf _⟩
  · rw [sources]
    exact lists.distinct
  · intro entry mem
    obtain ⟨stored, listed, rfl⟩ := List.mem_map.mp mem
    exact ⟨stored.2, (lists.entries _ _).mp listed, lists_entriesOf _⟩
  · intro source targets found
    rw [sources]
    exact List.mem_map.mpr ⟨(source, targets), (lists.entries _ _).mpr found, rfl⟩

/-- The nested iteration yields every substitution rule once. -/
theorem Iteration.Of.pairs {iteration : Iteration T} {costs : CustomCosts T}
    (of : iteration.Of costs) :
    Lists iteration.pairs (substitutionRule costs.substitutions) := by
  constructor
  · have keys : iteration.pairs.map Prod.fst = iteration.substitutions.flatMap fun entry =>
        entry.2.map fun rule => (entry.1, rule.1) := by
      simp [Iteration.pairs, List.map_flatMap, Function.comp_def]
    rw [keys, List.nodup_flatMap]
    constructor
    · intro entry mem
      obtain ⟨targets, _, lists⟩ := of.listed entry mem
      have distinct := lists.distinct
      rw [show (entry.2.map fun rule => (entry.1, rule.1)) =
        (entry.2.map Prod.fst).map (Prod.mk entry.1) by simp [Function.comp_def]]
      exact distinct.map (fun a b same => (Prod.mk.inj same).2)
    · refine (List.pairwise_map.mp of.sources).imp ?_
      intro first second different
      apply List.disjoint_left.mpr
      simp only [List.mem_map, not_exists, not_and]
      rintro pair ⟨rule, _, rfl⟩ other _ same
      exact different (Prod.mk.inj same).1.symm
  · rintro ⟨source, target⟩ cost
    simp only [Iteration.pairs, List.mem_flatMap, List.mem_map, Prod.mk.injEq, substitutionRule,
      Option.bind_eq_some_iff]
    constructor
    · rintro ⟨entry, mem, rule, listed, ⟨rfl, rfl⟩, rfl⟩
      obtain ⟨targets, found, lists⟩ := of.listed entry mem
      exact ⟨targets, found, (lists.entries _ _).mp listed⟩
    · rintro ⟨targets, found, here⟩
      obtain ⟨entry, mem, rfl⟩ := List.mem_map.mp (of.complete source targets found)
      obtain ⟨same, lookup, lists⟩ := of.listed entry mem
      obtain rfl := Option.some.inj (found.symm.trans lookup)
      exact ⟨entry, mem, (target, cost), (lists.entries _ _).mpr here, ⟨rfl, rfl⟩, rfl⟩

end CustomCosts
end Yurine
