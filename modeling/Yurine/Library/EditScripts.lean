import Mathlib.Algebra.Order.BigOperators.Group.List
import Mathlib.Algebra.Order.Monoid.Unbundled.MinMax
import Mathlib.Order.Bounds.Basic
import Mathlib.Tactic.Abel

/-! Edit scripts between words over arbitrary alphabets, with weights in an ordered
commutative monoid. The distance is computed by recursion on the words and proved to
be the least total of a script; reversal, concatenation, the split of a script at a
pairing and the charging of disjoint shares are stated for scripts. -/
namespace EditScripts

structure Weights (α β M : Type) where
  substitute : α → β → M
  delete : α → M
  insert : β → M

inductive Edit (α β : Type) where
  | substitute (a : α) (b : β)
  | delete (a : α)
  | insert (b : β)

abbrev Script (α β : Type) := List (Edit α β)

def source : Script α β → List α
  | [] => []
  | .substitute a _ :: script => a :: source script
  | .delete a :: script => a :: source script
  | .insert _ :: script => source script

def target : Script α β → List β
  | [] => []
  | .substitute _ b :: script => b :: target script
  | .delete _ :: script => target script
  | .insert b :: script => b :: target script

def Edit.weight (w : Weights α β M) : Edit α β → M
  | .substitute a b => w.substitute a b
  | .delete a => w.delete a
  | .insert b => w.insert b

def total [Add M] [Zero M] (w : Weights α β M) (script : Script α β) : M :=
  (script.map (Edit.weight w)).sum

/-- The totals of all scripts that turn `q` into `d`. -/
def totals [Add M] [Zero M] (w : Weights α β M) (q : List α) (d : List β) : Set M :=
  { x | ∃ script, source script = q ∧ target script = d ∧ total w script = x }

/-- One row of the distance: `rest` is the row of the word without its first symbol. -/
def extend [Add M] [Min M] (w : Weights α β M) (a : α) (rest : List β → M) : List β → M
  | [] => w.delete a + rest []
  | b :: d => min (w.substitute a b + rest d)
      (min (w.delete a + rest (b :: d)) (w.insert b + extend w a rest d))

def distance [Add M] [Zero M] [Min M] (w : Weights α β M) : List α → List β → M
  | [], d => (d.map w.insert).sum
  | a :: q, d => extend w a (distance w q) d

section Words
variable {α β : Type}

@[simp] theorem source_append (s t : Script α β) : source (s ++ t) = source s ++ source t := by
  induction s with
  | nil => rfl
  | cons e s ih => cases e <;> simp [source, ih]

@[simp] theorem target_append (s t : Script α β) : target (s ++ t) = target s ++ target t := by
  induction s with
  | nil => rfl
  | cons e s ih => cases e <;> simp [target, ih]

@[simp] theorem source_reverse (s : Script α β) : source s.reverse = (source s).reverse := by
  induction s with
  | nil => rfl
  | cons e s ih => cases e <;> simp [source, ih]

@[simp] theorem target_reverse (s : Script α β) : target s.reverse = (target s).reverse := by
  induction s with
  | nil => rfl
  | cons e s ih => cases e <;> simp [target, ih]

theorem source_inserts (d : List β) : source (d.map (Edit.insert (α := α))) = [] := by
  induction d with
  | nil => rfl
  | cons b d ih => simpa [source] using ih

theorem target_inserts (d : List β) : target (d.map (Edit.insert (α := α))) = d := by
  induction d with
  | nil => rfl
  | cons b d ih => simpa [target] using ih

/-- A script can be cut where it has produced any prefix of its target. -/
theorem exists_split_target (script : Script α β) (d e : List β) (same : target script = d ++ e) :
    ∃ s t, script = s ++ t ∧ target s = d ∧ target t = e := by
  induction script generalizing d with
  | nil =>
    obtain ⟨rfl, rfl⟩ := List.append_eq_nil_iff.mp same.symm
    exact ⟨[], [], rfl, rfl, rfl⟩
  | cons edit script ih =>
    cases d with
    | nil => exact ⟨[], edit :: script, rfl, rfl, same⟩
    | cons b d =>
      cases edit with
      | delete a =>
        obtain ⟨s, t, rfl, hs, ht⟩ := ih (b :: d) same
        exact ⟨.delete a :: s, t, rfl, hs, ht⟩
      | substitute a c =>
        obtain ⟨rfl, rest⟩ := List.cons.inj same
        obtain ⟨s, t, rfl, hs, ht⟩ := ih d rest
        exact ⟨.substitute a c :: s, t, rfl, by simp [target, hs], ht⟩
      | insert c =>
        obtain ⟨rfl, rest⟩ := List.cons.inj same
        obtain ⟨s, t, rfl, hs, ht⟩ := ih d rest
        exact ⟨.insert c :: s, t, rfl, by simp [target, hs], ht⟩

/-- The script substitutes position `i` of its source by position `j` of its target. -/
def Pairs (script : Script α β) (i j : Nat) : Prop :=
  ∃ before a b after, script = before ++ .substitute a b :: after ∧
    (source before).length = i ∧ (target before).length = j

def Edit.consumes : Edit α β → Bool
  | .substitute _ _ => true
  | .delete _ => true
  | .insert _ => false

/-- The edits that consume the source positions, in order. -/
def consumers (script : Script α β) : List (Edit α β) := script.filter Edit.consumes

theorem length_consumers (script : Script α β) :
    (consumers script).length = (source script).length := by
  induction script with
  | nil => rfl
  | cons edit script ih =>
    cases edit <;> simpa [consumers, source, Edit.consumes, List.filter_cons] using ih

theorem consumer_at (script : Script α β) {i : Nat} {edit : Edit α β}
    (found : (consumers script)[i]? = some edit) :
    ∃ before after, script = before ++ edit :: after ∧ (source before).length = i := by
  induction script generalizing i with
  | nil => simp [consumers] at found
  | cons first script ih =>
    by_cases consuming : first.consumes = true
    · have split : consumers (first :: script) = first :: consumers script := by
        simp [consumers, consuming]
      rw [split] at found
      cases i with
      | zero =>
        obtain rfl := Option.some.inj found
        exact ⟨[], script, rfl, rfl⟩
      | succ i =>
        obtain ⟨before, after, rfl, hlen⟩ := ih found
        refine ⟨first :: before, after, rfl, ?_⟩
        cases first <;> simp_all [source, Edit.consumes]
    · have split : consumers (first :: script) = consumers script := by
        simp [consumers, consuming]
      rw [split] at found
      obtain ⟨before, after, rfl, hlen⟩ := ih found
      refine ⟨first :: before, after, rfl, ?_⟩
      cases first <;> simp_all [source, Edit.consumes]

end Words

section Totals
variable {α β M : Type} [AddCommMonoid M] {w : Weights α β M}

@[simp] theorem total_nil : total w [] = 0 := rfl

@[simp] theorem total_cons (e : Edit α β) (s : Script α β) :
    total w (e :: s) = e.weight w + total w s := by
  simp [total]

@[simp] theorem total_append (s t : Script α β) : total w (s ++ t) = total w s + total w t := by
  simp [total]

@[simp] theorem total_reverse (s : Script α β) : total w s.reverse = total w s := by
  simp [total]

variable [LinearOrder M]

@[simp] theorem distance_nil (d : List β) : distance w [] d = (d.map w.insert).sum := rfl

@[simp] theorem distance_cons_nil (a : α) (q : List α) :
    distance w (a :: q) [] = w.delete a + distance w q [] := rfl

theorem distance_cons_cons (a : α) (q : List α) (b : β) (d : List β) :
    distance w (a :: q) (b :: d) = min (w.substitute a b + distance w q d)
      (min (w.delete a + distance w q (b :: d)) (w.insert b + distance w (a :: q) d)) := rfl

theorem distance_nil_right (q : List α) : distance w q [] = (q.map w.delete).sum := by
  induction q with
  | nil => rfl
  | cons a q ih => rw [distance_cons_nil, ih, List.map_cons, List.sum_cons]

end Totals

section Distance
variable {α β M : Type} [AddCommMonoid M] [LinearOrder M] [IsOrderedAddMonoid M]
variable {w : Weights α β M}

theorem distance_le (script : Script α β) :
    distance w (source script) (target script) ≤ total w script := by
  induction script with
  | nil => simp [source, target]
  | cons edit script ih =>
    cases edit with
    | substitute a b =>
      simp only [source, target, distance_cons_cons, total_cons, Edit.weight]
      exact (min_le_left _ _).trans (by gcongr)
    | delete a =>
      simp only [source, target, total_cons, Edit.weight]
      cases h : target script with
      | nil =>
        rw [distance_cons_nil, ← h]
        gcongr
      | cons b d =>
        rw [distance_cons_cons]
        refine (min_le_right _ _).trans ((min_le_left _ _).trans ?_)
        rw [← h]
        gcongr
    | insert b =>
      simp only [source, target, total_cons, Edit.weight]
      cases h : source script with
      | nil =>
        rw [h] at ih
        simp only [distance_nil, List.map_cons, List.sum_cons] at ih ⊢
        gcongr
      | cons a q =>
        rw [distance_cons_cons]
        refine (min_le_right _ _).trans ((min_le_right _ _).trans ?_)
        rw [← h]
        gcongr

omit [IsOrderedAddMonoid M] in
theorem exists_script (w : Weights α β M) (q : List α) (d : List β) :
    ∃ script, source script = q ∧ target script = d ∧ total w script = distance w q d := by
  induction q generalizing d with
  | nil =>
    refine ⟨d.map .insert, source_inserts d, target_inserts d, ?_⟩
    simp [total, Function.comp_def, Edit.weight]
  | cons a q ihq =>
    induction d with
    | nil =>
      obtain ⟨s, hs, ht, same⟩ := ihq []
      exact ⟨.delete a :: s, by simp [source, hs], ht, by simp [Edit.weight, same]⟩
    | cons b d ihd =>
      rw [distance_cons_cons]
      rcases min_choice (w.substitute a b + distance w q d)
        (min (w.delete a + distance w q (b :: d)) (w.insert b + distance w (a :: q) d))
        with h | h <;> rw [h]
      · obtain ⟨s, hs, ht, same⟩ := ihq d
        exact ⟨.substitute a b :: s, by simp [source, hs], by simp [target, ht],
          by simp [Edit.weight, same]⟩
      · rcases min_choice (w.delete a + distance w q (b :: d))
          (w.insert b + distance w (a :: q) d) with h' | h' <;> rw [h']
        · obtain ⟨s, hs, ht, same⟩ := ihq (b :: d)
          exact ⟨.delete a :: s, by simp [source, hs], ht, by simp [Edit.weight, same]⟩
        · obtain ⟨s, hs, ht, same⟩ := ihd
          exact ⟨.insert b :: s, hs, by simp [target, ht], by simp [Edit.weight, same]⟩

/-- The distance is the minimum total weight over all edit scripts. -/
theorem distance_isLeast (w : Weights α β M) (q : List α) (d : List β) :
    IsLeast (totals w q d) (distance w q d) := by
  refine ⟨exists_script w q d, ?_⟩
  rintro x ⟨script, rfl, rfl, rfl⟩
  exact distance_le script

theorem isLeast_totals_iff {q : List α} {d : List β} {x : M} :
    IsLeast (totals w q d) x ↔ x = distance w q d :=
  ⟨fun h => h.unique (distance_isLeast w q d), fun h => h ▸ distance_isLeast w q d⟩

theorem distance_append_le (q₁ q₂ : List α) (d₁ d₂ : List β) :
    distance w (q₁ ++ q₂) (d₁ ++ d₂) ≤ distance w q₁ d₁ + distance w q₂ d₂ := by
  obtain ⟨s, rfl, rfl, hs⟩ := exists_script w q₁ d₁
  obtain ⟨t, rfl, rfl, ht⟩ := exists_script w q₂ d₂
  rw [← hs, ← ht, ← total_append, ← source_append, ← target_append]
  exact distance_le (s ++ t)

theorem distance_reverse (q : List α) (d : List β) :
    distance w q.reverse d.reverse = distance w q d := by
  have half (q : List α) (d : List β) : distance w q.reverse d.reverse ≤ distance w q d := by
    obtain ⟨s, rfl, rfl, same⟩ := exists_script w q d
    rw [← same, ← source_reverse, ← target_reverse, ← total_reverse]
    exact distance_le s.reverse
  refine le_antisymm (half q d) ?_
  simpa using half q.reverse d.reverse

theorem distance_concat_nil (q : List α) (a : α) :
    distance w (q ++ [a]) [] = distance w q [] + w.delete a := by
  have whole := distance_reverse (w := w) (q ++ [a]) []
  have rest := distance_reverse (w := w) q []
  simp only [List.reverse_append, List.reverse_singleton, List.singleton_append,
    List.reverse_nil, distance_cons_nil] at whole rest
  rw [← whole, rest, add_comm]

/-- The recurrence on last symbols. -/
theorem distance_concat_concat (q : List α) (a : α) (d : List β) (b : β) :
    distance w (q ++ [a]) (d ++ [b]) = min (distance w q d + w.substitute a b)
      (min (distance w q (d ++ [b]) + w.delete a) (distance w (q ++ [a]) d + w.insert b)) := by
  have last : distance w q (d ++ [b]) = distance w q.reverse (b :: d.reverse) := by
    rw [← distance_reverse]
    simp
  have first : distance w (q ++ [a]) d = distance w (a :: q.reverse) d.reverse := by
    rw [← distance_reverse]
    simp
  rw [last, first, ← distance_reverse (q ++ [a]), ← distance_reverse q d]
  simp only [List.reverse_append, List.reverse_singleton, List.singleton_append,
    distance_cons_cons]
  rw [add_comm (distance w q.reverse d.reverse), add_comm (distance w q.reverse (b :: d.reverse)),
    add_comm (distance w (a :: q.reverse) d.reverse)]

omit [IsOrderedAddMonoid M] in
/-- Words related symbol by symbol, with equal weights for related symbols, are at the
same distance. -/
theorem distance_rel {α' β' : Type} {w' : Weights α' β' M} {R : α → α' → Prop}
    {S : β → β' → Prop}
    (substitute : ∀ a a' b b', R a a' → S b b' → w.substitute a b = w'.substitute a' b')
    (delete : ∀ a a', R a a' → w.delete a = w'.delete a')
    (insert : ∀ b b', S b b' → w.insert b = w'.insert b')
    {q : List α} {q' : List α'} {d : List β} {d' : List β'}
    (hq : List.Forall₂ R q q') (hd : List.Forall₂ S d d') :
    distance w q d = distance w' q' d' := by
  induction hq generalizing d d' with
  | nil =>
    induction hd with
    | nil => rfl
    | cons hb _ ih =>
      simp only [distance_nil, List.map_cons, List.sum_cons] at ih ⊢
      rw [insert _ _ hb, ih]
  | cons ha _ ihq =>
    induction hd with
    | nil => rw [distance_cons_nil, distance_cons_nil, delete _ _ ha, ihq .nil]
    | cons hb hd ihd =>
      rw [distance_cons_cons, distance_cons_cons, substitute _ _ _ _ ha hb, delete _ _ ha,
        insert _ _ hb, ihq hd, ihq (.cons hb hd), ihd]

/-- The least total over the scripts that pair a given position of either word. -/
theorem paired_isLeast (w : Weights α β M) (q₁ q₂ : List α) (a : α) (d₁ d₂ : List β) (b : β) :
    IsLeast { x | ∃ script, source script = q₁ ++ a :: q₂ ∧ target script = d₁ ++ b :: d₂ ∧
        Pairs script q₁.length d₁.length ∧ total w script = x }
      (w.substitute a b + distance w q₁ d₁ + distance w q₂ d₂) := by
  constructor
  · obtain ⟨s, hs, hs', same⟩ := exists_script w q₁ d₁
    obtain ⟨t, ht, ht', same'⟩ := exists_script w q₂ d₂
    refine ⟨s ++ .substitute a b :: t, by simp [source, hs, ht], by simp [target, hs', ht'],
      ⟨s, a, b, t, rfl, by rw [hs], by rw [hs']⟩, ?_⟩
    simp only [total_append, total_cons, Edit.weight, same, same']
    abel
  · rintro x ⟨script, hs, ht, ⟨before, a', b', after, rfl, hi, hj⟩, rfl⟩
    simp only [source_append, source, target_append, target] at hs ht
    obtain ⟨rfl, sourceRest⟩ := List.append_inj hs hi
    obtain ⟨rfl, targetRest⟩ := List.append_inj ht hj
    obtain ⟨rfl, rfl⟩ := List.cons.inj sourceRest
    obtain ⟨rfl, rfl⟩ := List.cons.inj targetRest
    simp only [total_append, total_cons, Edit.weight]
    have left := distance_le (w := w) before
    have right := distance_le (w := w) after
    calc w.substitute a' b' + distance w (source before) (target before) +
          distance w (source after) (target after)
        ≤ w.substitute a' b' + total w before + total w after := by gcongr
      _ = total w before + (w.substitute a' b' + total w after) := by abel

/-- A script that pairs two positions costs at least the distance. -/
theorem distance_le_paired (q₁ q₂ : List α) (a : α) (d₁ d₂ : List β) (b : β) :
    distance w (q₁ ++ a :: q₂) (d₁ ++ b :: d₂) ≤
      w.substitute a b + distance w q₁ d₁ + distance w q₂ d₂ := by
  obtain ⟨script, hs, ht, _, same⟩ := (paired_isLeast w q₁ q₂ a d₁ d₂ b).1
  rw [← same, ← hs, ← ht]
  exact distance_le script

omit [LinearOrder M] [IsOrderedAddMonoid M] in
/-- A script without a pair deletes its source and inserts its target. -/
theorem total_of_unpaired {script : Script α β} (unpaired : ∀ i j, ¬ Pairs script i j) :
    total w script = ((source script).map w.delete).sum + ((target script).map w.insert).sum := by
  induction script with
  | nil => simp [total, source, target]
  | cons edit script ih =>
    have rest : ∀ i j, ¬ Pairs script i j := by
      rintro i j ⟨before, a, b, after, rfl, _, _⟩
      exact unpaired _ _ ⟨edit :: before, a, b, after, rfl, rfl, rfl⟩
    rw [total_cons, ih rest]
    cases edit with
    | substitute a b => exact absurd ⟨[], a, b, script, rfl, rfl, rfl⟩ (unpaired 0 0)
    | delete a =>
      simp only [Edit.weight, source, target, List.map_cons, List.sum_cons]
      abel
    | insert b =>
      simp only [Edit.weight, source, target, List.map_cons, List.sum_cons]
      abel

/-- When no substitution costs more than a deletion and an insertion, two non-empty words have
an optimal script with a pair. -/
theorem exists_paired_script (cheap : ∀ a b, w.substitute a b ≤ w.delete a + w.insert b)
    {q : List α} {d : List β} (hq : q ≠ []) (hd : d ≠ []) :
    ∃ script i j, source script = q ∧ target script = d ∧ Pairs script i j ∧
      total w script = distance w q d := by
  obtain ⟨script, hs, ht, same⟩ := exists_script w q d
  by_cases paired : ∃ i j, Pairs script i j
  · obtain ⟨i, j, pair⟩ := paired
    exact ⟨script, i, j, hs, ht, pair, same⟩
  · obtain ⟨a, q, rfl⟩ := List.exists_cons_of_ne_nil hq
    obtain ⟨b, d, rfl⟩ := List.exists_cons_of_ne_nil hd
    obtain ⟨rest, hs', ht', same'⟩ := exists_script w q d
    have bounded : distance w q d ≤ (q.map w.delete).sum + (d.map w.insert).sum := by
      have apart := distance_append_le (w := w) q [] [] d
      rwa [List.append_nil, List.nil_append, distance_nil_right, distance_nil] at apart
    -- pair the first symbols in place of deleting one and inserting the other
    refine ⟨.substitute a b :: rest, 0, 0, by simp [source, hs'], by simp [target, ht'],
      ⟨[], a, b, rest, rfl, rfl, rfl⟩, le_antisymm ?_ ?_⟩
    · calc total w (.substitute a b :: rest) = w.substitute a b + distance w q d := by
            rw [total_cons, same', Edit.weight]
        _ ≤ w.delete a + w.insert b + ((q.map w.delete).sum + (d.map w.insert).sum) :=
            add_le_add (cheap a b) bounded
        _ = ((a :: q).map w.delete).sum + ((b :: d).map w.insert).sum := by
            simp only [List.map_cons, List.sum_cons]
            abel
        _ = distance w (a :: q) (b :: d) := by
            rw [← same, total_of_unpaired (fun i j pair => paired ⟨i, j, pair⟩), hs, ht]
    · have below := distance_le (w := w) (.substitute a b :: rest)
      simpa only [source, target, hs', ht'] using below

structure Weights.Nonneg (w : Weights α β M) : Prop where
  substitute : ∀ a b, 0 ≤ w.substitute a b
  delete : ∀ a, 0 ≤ w.delete a
  insert : ∀ b, 0 ≤ w.insert b

omit [IsOrderedAddMonoid M] in
theorem Weights.Nonneg.weight (nonneg : w.Nonneg) (edit : Edit α β) : 0 ≤ edit.weight w := by
  cases edit with
  | substitute a b => exact nonneg.substitute a b
  | delete a => exact nonneg.delete a
  | insert b => exact nonneg.insert b

theorem Weights.Nonneg.total (nonneg : w.Nonneg) (script : Script α β) :
    0 ≤ EditScripts.total w script := by
  refine List.sum_nonneg ?_
  intro x hx
  obtain ⟨edit, _, rfl⟩ := List.mem_map.mp hx
  exact nonneg.weight edit

theorem Weights.Nonneg.distance (nonneg : w.Nonneg) (q : List α) (d : List β) :
    0 ≤ EditScripts.distance w q d := by
  obtain ⟨script, _, _, same⟩ := exists_script w q d
  exact same ▸ nonneg.total script

/-- The best distance from a prefix of the source never decreases as the target grows. -/
theorem exists_prefix_le (nonneg : w.Nonneg) (q : List α) (d e : List β) :
    ∃ n ≤ q.length, distance w (q.take n) d ≤ distance w q (d ++ e) := by
  obtain ⟨script, hs, ht, same⟩ := exists_script w q (d ++ e)
  obtain ⟨s, t, rfl, rfl, rfl⟩ := exists_split_target script d e ht
  rw [source_append] at hs
  refine ⟨(source s).length, by simp [← hs], ?_⟩
  rw [← same, ← hs, List.take_left, total_append]
  exact (distance_le s).trans (le_add_of_nonneg_right (nonneg.total t))

/-- Charges that each consuming edit covers are covered by the whole script. -/
theorem charges_le_total (nonneg : w.Nonneg) (script : Script α β) {charges : List M}
    (covered : List.Forall₂ (fun charge edit => charge ≤ edit.weight w) charges
      (consumers script)) : charges.sum ≤ total w script := by
  have consumed : charges.sum ≤ ((consumers script).map (Edit.weight w)).sum :=
    List.Forall₂.sum_le_sum (List.forall₂_map_right_iff.mpr covered)
  refine consumed.trans ?_
  have sub : ((consumers script).map (Edit.weight w)).Sublist (script.map (Edit.weight w)) :=
    List.filter_sublist.map _
  refine sub.sum_le_sum ?_
  intro x hx
  obtain ⟨edit, _, rfl⟩ := List.mem_map.mp hx
  exact nonneg.weight edit

end Distance
end EditScripts
