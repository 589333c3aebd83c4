import Yurine.Library.Outcome

/-! Calls that record events as they go. The events recorded before an error stay recorded, so
what holds of every event holds of failing calls too. -/
namespace Outcome

abbrev Recording (ε τ α : Type) := ExceptT (Failure ε) (StateM (List τ)) α

def record {ε τ : Type} (event : τ) : Recording ε τ PUnit := modify fun events => events ++ [event]

/-- The recording call ends as the plain one does, and every event it records satisfies `P`. -/
def Records {ε τ α : Type} (P : τ → Prop) (x : Recording ε τ α) (y : Outcome ε α) : Prop :=
  ∀ events, ∃ more, x.run.run events = (y, events ++ more) ∧ ∀ event ∈ more, P event

namespace Records
variable {ε τ α β : Type} {P : τ → Prop}

theorem lift (y : Outcome ε α) : Records P (monadLift y) y :=
  fun events => ⟨[], by rw [List.append_nil]; rfl, by simp⟩

theorem record {event : τ} (holds : P event) :
    Records P (Outcome.record event : Recording ε τ PUnit) (.ok ⟨⟩) :=
  fun events => ⟨[event], rfl, by simpa using holds⟩

theorem bind {x : Recording ε τ α} {y : Outcome ε α} {f : α → Recording ε τ β}
    {g : α → Outcome ε β} (first : Records P x y)
    (next : ∀ a, y = .ok a → Records P (f a) (g a)) : Records P (x >>= f) (y >>= g) := by
  intro events
  obtain ⟨more, ran, all⟩ := first events
  rw [ExceptT.run_bind, StateT.run_bind, ran]
  cases y with
  | error failure => exact ⟨more, rfl, all⟩
  | ok a =>
    obtain ⟨later, also, rest⟩ := next a rfl (events ++ more)
    refine ⟨more ++ later, ?_, fun event mem => ?_⟩
    · rw [← List.append_assoc]
      exact also
    · exact (List.mem_append.mp mem).elim (all event) (rest event)

theorem guard {c : Prop} [Decidable c] {reason : ε} {x : Recording ε τ α} {y : Outcome ε α}
    (rest : ¬ c → Records P x y) :
    Records P (if c then (monadLift (fail reason : Outcome ε PUnit) >>= fun _ => x) else x)
      (if c then ((fail reason : Outcome ε PUnit) >>= fun _ => y) else y) := by
  split
  · exact (lift _).bind nofun
  · exact rest ‹_›

end Records
end Outcome
