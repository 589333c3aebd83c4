import Yurine.Library.Outcome

/-! Calls that change a state as they go. What has been changed before an error stays changed,
so a call is described by its outcome together with the state it leaves. -/
namespace Outcome

abbrev Stateful (ε σ α : Type) := ExceptT (Failure ε) (StateM σ) α

/-- From the first state, the call ends with the outcome and leaves the second state. -/
structure Ends {ε σ α : Type} (x : Stateful ε σ α) (start : σ) (y : Outcome ε α) (stop : σ) :
    Prop where
  ran : x.run.run start = (y, stop)

namespace Ends
variable {ε σ α β : Type} {x : Stateful ε σ α} {f : α → Stateful ε σ β} {start middle stop : σ}
  {y : Outcome ε β}

theorem lift (outcome : Outcome ε α) : Ends (monadLift outcome) start outcome start := ⟨rfl⟩

theorem lifted {outcome y : Outcome ε α} (same : outcome = y) :
    Ends (monadLift outcome) start y start := same ▸ lift outcome

theorem get : Ends (get : Stateful ε σ σ) start (.ok start) start := ⟨rfl⟩

theorem modify (change : σ → σ) :
    Ends (modify change : Stateful ε σ PUnit) start (.ok ⟨⟩) (change start) := ⟨rfl⟩

theorem pure (a : α) : Ends (pure a : Stateful ε σ α) start (.ok a) start := ⟨rfl⟩

theorem bind {a : α} (first : Ends x start (.ok a) middle) (next : Ends (f a) middle y stop) :
    Ends (x >>= f) start y stop := by
  constructor
  rw [ExceptT.run_bind, StateT.run_bind, first.ran]
  exact next.ran

theorem bind_error {failure : Failure ε} (first : Ends x start (.error failure) stop) :
    Ends (x >>= f) start (.error failure) stop := by
  constructor
  rw [ExceptT.run_bind, StateT.run_bind, first.ran]
  rfl

/-- Calls that return whatever the state is return in any order. -/
theorem mapM {f : α → Stateful ε σ β} {g : α → β}
    (each : ∀ a start, ∃ stop, Ends (f a) start (.ok (g a)) stop) (as : List α) (start : σ) :
    ∃ stop, Ends (as.mapM f) start (.ok (as.map g)) stop := by
  induction as generalizing start with
  | nil => exact ⟨start, pure []⟩
  | cons a as ih =>
    obtain ⟨middle, first⟩ := each a start
    obtain ⟨stop, rest⟩ := ih middle
    rw [List.mapM_cons]
    exact ⟨stop, first.bind (rest.bind (pure _))⟩

end Ends
end Outcome
