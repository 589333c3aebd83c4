import Mathlib.Algebra.Order.Ring.Int
import Mathlib.Data.List.Basic
import Mathlib.Tactic.Common

/-! Calls that return a value, report an error or panic, and the rules of their
pre- and postconditions. A checked access panics outside its list, so a proof
that a call ensures anything is also a proof that no access in it is out of range. -/

/-- Why a call did not return a value. -/
inductive Failure (ε : Type) where
  | error (reason : ε)
  | panic
deriving DecidableEq, Repr

abbrev Outcome (ε α : Type) := Except (Failure ε) α

namespace Outcome

def fail (reason : ε) : Outcome ε α := .error (.error reason)

def panic : Outcome ε α := .error .panic

/-- `xs[i]`. -/
def index (xs : List α) (i : Nat) : Outcome ε α :=
  match xs[i]? with
  | some x => .ok x
  | none => panic

/-- `&xs[start..stop]`. -/
def slice (xs : List α) (start stop : Nat) : Outcome ε (List α) :=
  if start ≤ stop ∧ stop ≤ xs.length then .ok ((xs.drop start).take (stop - start)) else panic

/-- `xs[i] = f(xs[i])`. -/
def update (xs : List α) (i : Nat) (f : α → α) : Outcome ε (List α) :=
  if i < xs.length then .ok (xs.modify i f) else panic

/-- `option.ok_or(reason)`. -/
def okOr (reason : ε) : Option α → Outcome ε α
  | some a => .ok a
  | none => fail reason

/-- `option.unwrap()`. -/
def unwrap : Option α → Outcome ε α
  | some a => .ok a
  | none => panic

/-- `result.unwrap()`. -/
def unwrapResult : Outcome ε α → Outcome ε α
  | .ok a => .ok a
  | .error _ => panic

/-- `result.map_err(f)`. -/
def mapFailure (f : ε → δ) : Outcome ε α → Outcome δ α
  | .ok a => .ok a
  | .error (.error reason) => fail (f reason)
  | .error .panic => panic

/-- The call does not panic, its value satisfies `post` and its error `raises`. -/
def Ensures (post : α → Prop) (raises : ε → Prop) : Outcome ε α → Prop
  | .ok a => post a
  | .error (.error reason) => raises reason
  | .error .panic => False

variable {ε α β σ : Type} {P Q : α → Prop} {E F : ε → Prop}

@[simp] theorem ensures_ok : Ensures P E (.ok a) ↔ P a := Iff.rfl

@[simp] theorem ensures_pure : Ensures P E (pure a) ↔ P a := Iff.rfl

@[simp] theorem ensures_fail : Ensures P E (fail reason) ↔ E reason := Iff.rfl

@[simp] theorem ensures_error : Ensures P E (.error (.error reason)) ↔ E reason := Iff.rfl

theorem Ensures.mono {x : Outcome ε α} (h : Ensures P E x) (post : ∀ a, P a → Q a)
    (raises : ∀ e, E e → F e) : Ensures Q F x := by
  match x, h with
  | .ok a, h => exact post a h
  | .error (.error e), h => exact raises e h

theorem Ensures.post {x : Outcome ε α} (h : Ensures P E x) (post : ∀ a, P a → Q a) :
    Ensures Q E x := h.mono post (fun _ he => he)

theorem Ensures.bind {x : Outcome ε α} {f : α → Outcome ε β} {Q : β → Prop}
    (first : Ensures P E x) (next : ∀ a, P a → Ensures Q E (f a)) : Ensures Q E (x >>= f) := by
  match x, first with
  | .ok a, first => exact next a first
  | .error (.error e), first => exact first

theorem Ensures.of_ok {x : Outcome ε α} (h : Ensures P E x) (returned : x = .ok a) : P a := by
  subst returned
  exact h

theorem Ensures.of_fail {x : Outcome ε α} (h : Ensures P E x) (failed : x = fail e) : E e := by
  subst failed
  exact h

theorem Ensures.ne_panic {x : Outcome ε α} (h : Ensures P E x) : x ≠ panic := by
  rintro rfl
  exact h

theorem Ensures.and {x : Outcome ε α} (first : Ensures P E x) (second : Ensures Q F x) :
    Ensures (fun a => P a ∧ Q a) (fun e => E e ∧ F e) x := by
  match x, first, second with
  | .ok a, first, second => exact ⟨first, second⟩
  | .error (.error e), first, second => exact ⟨first, second⟩

/-- A postcondition may name the call whose value it describes. -/
theorem Ensures.returned {x : Outcome ε α} (h : Ensures P E x) :
    Ensures (fun a => x = .ok a ∧ P a) E x := by
  match x, h with
  | .ok a, h => exact ⟨rfl, h⟩
  | .error (.error _), h => exact h

/-- The call with its value and the proof of the postcondition. -/
def Ensures.attach {x : Outcome ε α} (h : Ensures P E x) : Outcome ε { a // P a } :=
  match x, h with
  | .ok a, h => .ok ⟨a, h⟩
  | .error e, _ => .error e

@[simp] theorem Ensures.attach_ok (h : Ensures P E (.ok a : Outcome ε α)) :
    h.attach = .ok ⟨a, h⟩ := rfl

theorem Ensures.ensures_attach {x : Outcome ε α} (h : Ensures P E x) :
    Ensures (fun b => x = .ok b.1) E h.attach := by
  match x, h with
  | .ok a, _ => rfl
  | .error (.error _), h => exact h

theorem Ensures.returns {x : Outcome ε α} (h : Ensures P (fun _ => False) x) :
    ∃ a, x = .ok a ∧ P a := by
  match x, h with
  | .ok a, h => exact ⟨a, rfl, h⟩

theorem ensures_eq {x : Outcome ε α} : Ensures (fun b => b = a) (fun _ => False) x ↔ x = .ok a := by
  constructor
  · intro h
    obtain ⟨b, hx, rfl⟩ := h.returns
    exact hx
  · rintro rfl
    rfl

@[simp] theorem bind_ok (a : α) (f : α → Outcome ε β) : (Except.ok a >>= f) = f a := rfl

@[simp] theorem bind_fail (e : ε) (f : α → Outcome ε β) : (fail e >>= f) = fail e := rfl

@[simp] theorem bind_panic (f : α → Outcome ε β) : (panic >>= f) = panic := rfl

theorem bind_eq_ok {x : Outcome ε α} {f : α → Outcome ε β} :
    (x >>= f) = .ok b ↔ ∃ a, x = .ok a ∧ f a = .ok b := by
  cases x <;> simp [Bind.bind, Except.bind]

theorem mapFailure_eq_ok {f : ε → δ} {x : Outcome ε α} : mapFailure f x = .ok a ↔ x = .ok a := by
  match x with
  | .ok b => simp [mapFailure]
  | .error (.error _) => simp [mapFailure, fail]
  | .error .panic => simp [mapFailure, panic]

theorem bind_eq_error {x : Outcome ε α} {f : α → Outcome ε β} {reason : ε} :
    (x >>= f) = .error (.error reason) ↔
      x = .error (.error reason) ∨ ∃ a, x = .ok a ∧ f a = .error (.error reason) := by
  cases x <;> simp [Bind.bind, Except.bind]

theorem bind_ne_panic {x : Outcome ε α} {f : α → Outcome ε β} (first : x ≠ panic)
    (next : ∀ a, x = .ok a → f a ≠ panic) : (x >>= f) ≠ panic := by
  match x, first with
  | .ok a, _ => exact next a rfl
  | .error (.error _), _ => nofun
  | .error .panic, first => exact absurd rfl first

theorem ensures_ite {c : Prop} [Decidable c] {x y : Outcome ε α}
    (yes : c → Ensures P E x) (no : ¬ c → Ensures P E y) : Ensures P E (if c then x else y) := by
  split
  · exact yes ‹_›
  · exact no ‹_›

theorem index_ok {xs : List α} {i : Nat} (inside : i < xs.length) :
    index xs i = (.ok xs[i] : Outcome ε α) := by
  simp [index, inside]

theorem index_eq_ok {xs : List α} {i : Nat} :
    index xs i = (.ok a : Outcome ε α) ↔ xs[i]? = some a := by
  unfold index
  split <;> simp_all [panic]

theorem slice_ok {xs : List α} {start stop : Nat} (ordered : start ≤ stop)
    (inside : stop ≤ xs.length) :
    slice xs start stop = (.ok ((xs.drop start).take (stop - start)) : Outcome ε (List α)) :=
  if_pos ⟨ordered, inside⟩

theorem slice_eq_ok {xs ys : List α} {start stop : Nat} :
    slice xs start stop = (.ok ys : Outcome ε (List α)) ↔
      start ≤ stop ∧ stop ≤ xs.length ∧ ys = (xs.drop start).take (stop - start) := by
  unfold slice
  split
  · simp_all [eq_comm]
  · rename_i outside
    constructor
    · intro impossible
      cases impossible
    · rintro ⟨ordered, inside, _⟩
      exact absurd ⟨ordered, inside⟩ outside

theorem update_ok {xs : List α} {i : Nat} {f : α → α} (inside : i < xs.length) :
    update xs i f = (.ok (xs.modify i f) : Outcome ε (List α)) := if_pos inside

@[simp] theorem okOr_some (e : ε) (a : α) : okOr e (some a) = .ok a := rfl

@[simp] theorem okOr_none (e : ε) : okOr e (none : Option α) = fail e := rfl

theorem okOr_eq_ok {o : Option α} {e : ε} : okOr e o = .ok a ↔ o = some a := by
  cases o <;> simp [fail]

/-- A loop over a list keeps an invariant of the elements already visited. -/
theorem Ensures.foldlM {motive : List α → σ → Prop} {l : List α} {f : σ → α → Outcome ε σ}
    {s : σ} (start : motive [] s)
    (step : ∀ before a after s, l = before ++ a :: after → motive before s →
      Ensures (motive (before ++ [a])) E (f s a)) :
    Ensures (motive l) E (l.foldlM f s) := by
  suffices h : ∀ (before rest : List α) (s : σ), l = before ++ rest → motive before s →
      Ensures (motive l) E (rest.foldlM f s) from h [] l s rfl start
  intro before rest
  induction rest generalizing before with
  | nil =>
    intro s same holds
    rw [List.append_nil] at same
    exact same ▸ holds
  | cons a rest ih =>
    intro s same holds
    refine Ensures.bind (step before a rest s same holds) (fun t ht => ?_)
    exact ih (before ++ [a]) t (by simpa using same) ht

/-- A loop over a list and its positions keeps an invariant of the position. -/
theorem Ensures.foldlM_zipIdx {motive : Nat → σ → Prop} {l : List α}
    {f : σ → α × Nat → Outcome ε σ} {s : σ} (start : motive 0 s)
    (step : ∀ i (inside : i < l.length) s, motive i s →
      Ensures (motive (i + 1)) E (f s (l[i], i))) :
    Ensures (motive l.length) E (l.zipIdx.foldlM f s) := by
  have loop : Ensures (fun s => motive l.zipIdx.length s) E (l.zipIdx.foldlM f s) := by
    refine Ensures.foldlM (motive := fun visited s => motive visited.length s) start ?_
    rintro before ⟨a, i⟩ after s same holds
    have sizes := congrArg List.length same
    simp only [List.length_zipIdx, List.length_append, List.length_cons] at sizes
    have inside : before.length < l.length := by omega
    have at_position : l.zipIdx[before.length]? = some (a, i) := by simp [same]
    rw [List.getElem?_zipIdx, List.getElem?_eq_getElem inside] at at_position
    simp only [Option.map_some, Nat.zero_add, Option.some.injEq, Prod.mk.injEq] at at_position
    obtain ⟨rfl, rfl⟩ := at_position
    simpa only [List.length_append, List.length_singleton] using
      step before.length inside s holds
  simpa only [List.length_zipIdx] using loop

theorem Ensures.mapM {post : α → β → Prop} {xs : List α} {f : α → Outcome ε β}
    (each : ∀ a ∈ xs, Ensures (post a) E (f a)) :
    Ensures (List.Forall₂ post xs) E (xs.mapM f) := by
  induction xs with
  | nil => exact .nil
  | cons a xs ih =>
    rw [List.mapM_cons]
    refine Ensures.bind (each a (by simp)) (fun b hb => ?_)
    refine Ensures.bind (ih (fun c hc => each c (by simp [hc]))) (fun bs hbs => ?_)
    exact .cons hb hbs

theorem mapM_ok {xs : List α} {f : α → Outcome ε β} {g : α → β}
    (each : ∀ a ∈ xs, f a = .ok (g a)) : xs.mapM f = .ok (xs.map g) := by
  induction xs with
  | nil => rfl
  | cons a xs ih =>
    rw [List.mapM_cons, each a (by simp), bind_ok, ih (fun b hb => each b (by simp [hb])), bind_ok]
    rfl

theorem mapM_eq_ok {xs : List α} {ys : List β} {f : α → Outcome ε β} :
    xs.mapM f = .ok ys ↔ List.Forall₂ (fun a b => f a = .ok b) xs ys := by
  induction xs generalizing ys with
  | nil =>
    constructor
    · intro mapped
      cases mapped
      exact .nil
    · rintro ⟨⟩
      rfl
  | cons a xs ih =>
    rw [List.mapM_cons, bind_eq_ok]
    constructor
    · rintro ⟨b, first, rest⟩
      obtain ⟨bs, tail, same⟩ := bind_eq_ok.mp rest
      cases same
      exact .cons first (ih.mp tail)
    · rintro (_ | ⟨first, tail⟩)
      exact ⟨_, first, bind_eq_ok.mpr ⟨_, ih.mpr tail, rfl⟩⟩

theorem Ensures.forM {xs : List α} {f : α → Outcome ε PUnit} {motive : List α → Prop}
    (start : motive [])
    (step : ∀ before a after, xs = before ++ a :: after → motive before →
      Ensures (fun _ => motive (before ++ [a])) E (f a)) :
    Ensures (fun _ => motive xs) E (xs.forM f) := by
  suffices h : ∀ before rest : List α, xs = before ++ rest → motive before →
      Ensures (fun _ => motive xs) E (rest.forM f) from h [] xs rfl start
  intro before rest
  induction rest generalizing before with
  | nil =>
    intro same holds
    rw [List.append_nil] at same
    exact same ▸ holds
  | cons a rest ih =>
    intro same holds
    change Ensures (fun _ => motive xs) E (f a >>= fun _ => rest.forM f)
    refine Ensures.bind (step before a rest same holds) (fun _ ht => ?_)
    exact ih (before ++ [a]) (by simpa using same) ht

/-- A check that passes when `p` holds and raises an error when it does not. -/
def Decides (p : Prop) (E : ε → Prop) (x : Outcome ε PUnit) : Prop :=
  Ensures (fun _ => p) (fun e => ¬ p ∧ E e) x

section Decides
variable {p q : Prop} {x y : Outcome ε PUnit}

theorem Decides.eq_ok (h : Decides p E x) : x = .ok ⟨⟩ ↔ p := by
  match x, h with
  | .ok _, h => exact ⟨fun _ => h, fun _ => rfl⟩
  | .error (.error _), h => exact ⟨nofun, fun hp => absurd hp h.1⟩

theorem Decides.raises {F : ε → Prop} (h : Decides p E x) (raises : ∀ e, E e → F e) :
    Decides p F x :=
  h.mono (fun _ hp => hp) (fun e he => ⟨he.1, raises e he.2⟩)

theorem Decides.congr (h : Decides p E x) (same : p ↔ q) : Decides q E x :=
  h.mono (fun _ hp => same.mp hp) (fun _ he => ⟨fun hq => he.1 (same.mpr hq), he.2⟩)

theorem Decides.and (first : Decides p E x) (second : p → Decides q E y) :
    Decides (p ∧ q) E (x >>= fun _ => y) :=
  Ensures.bind (first.mono (fun _ hp => hp) (fun _ he => ⟨fun hpq => he.1 hpq.1, he.2⟩))
    (fun _ hp => (second hp).mono (fun _ hq => ⟨hp, hq⟩)
      (fun _ he => ⟨fun hpq => he.1 hpq.2, he.2⟩))

theorem Decides.guard [Decidable c] {e : ε} (he : E e) (rest : ¬ c → Decides q E y) :
    Decides (¬ c ∧ q) E (if c then ((fail e : Outcome ε PUnit) >>= fun _ => y) else y) := by
  split
  · exact ⟨fun h => h.1 ‹_›, he⟩
  · rename_i hc
    exact (rest hc).congr ⟨fun hq => ⟨hc, hq⟩, And.right⟩

theorem Decides.guard_last [Decidable c] {e : ε} (he : E e) :
    Decides (¬ c) E (if c then fail e else pure ⟨⟩) := by
  split
  · exact ⟨fun h => h ‹_›, he⟩
  · assumption

theorem Decides.forM {P : α → Prop} {xs : List α} {f : α → Outcome ε PUnit}
    (each : ∀ a ∈ xs, Decides (P a) E (f a)) : Decides (∀ a ∈ xs, P a) E (xs.forM f) := by
  induction xs with
  | nil => simp [Decides, List.forM]
  | cons a xs ih =>
    refine Decides.congr (Decides.and (each a (by simp))
      (fun _ => ih (fun b hb => each b (by simp [hb])))) ?_
    simp

end Decides

theorem forM_eq_ok {xs : List α} {f : α → Outcome ε PUnit} :
    xs.forM f = .ok ⟨⟩ ↔ ∀ a ∈ xs, f a = .ok ⟨⟩ := by
  induction xs with
  | nil => exact ⟨fun _ _ mem => absurd mem List.not_mem_nil, fun _ => rfl⟩
  | cons a xs ih =>
    rw [List.forall_mem_cons, ← ih]
    change (f a >>= fun _ => xs.forM f) = .ok ⟨⟩ ↔ _
    cases f a with
    | ok _ => exact ⟨fun rest => ⟨rfl, rest⟩, And.right⟩
    | error _ => exact ⟨nofun, fun both => nomatch both.1⟩

/-- A loop that checks every element first and then does its work. -/
theorem foldlM_check {xs : List α} {f : α → Outcome ε β} {g : σ → α → σ} {s : σ} :
    xs.foldlM (fun s a => f a >>= fun _ => pure (g s a)) s =
      (xs.forM fun a => f a >>= fun _ => pure ⟨⟩) >>= fun _ => .ok (xs.foldl g s) := by
  induction xs generalizing s with
  | nil => rfl
  | cons a xs ih =>
    rw [List.foldlM_cons]
    simp only [List.forM_eq_forM, List.forM_cons, bind_assoc] at ih ⊢
    cases f a with
    | error failure => rfl
    | ok b => exact ih

/-- A loop of checks ends with the error of the first check that fails. -/
theorem forM_eq_findSome? {xs : List α} {f : α → Outcome ε PUnit} {g : α → Option ε}
    (each : ∀ a ∈ xs, f a = (g a).elim (.ok ⟨⟩) fail) :
    xs.forM f = (xs.findSome? g).elim (.ok ⟨⟩) fail := by
  induction xs with
  | nil => rfl
  | cons a xs ih =>
    have rest := ih (fun b mem => each b (List.mem_cons_of_mem a mem))
    change (f a >>= fun _ => xs.forM f) = _
    rw [each a (by simp), List.findSome?_cons]
    cases g a with
    | none => exact rest
    | some e => rfl

end Outcome
