import Sloader.Data.Outcome

namespace Sloader.Data

/-! Computations that are given a number of steps.

One settles if some number is enough for it: it does not run out, and a larger
number changes nothing.  Settling composes, so that a loop in the middle of a
program settles the program as soon as the rest of it never reports `exhausted`.
-/

variable {ε α β σ ι : Type} {exhausted reason : ε}

/-- The computation does not stop for this reason. -/
def Avoids (reason : ε) (action : Except ε α) : Prop :=
  action ≠ .error reason

theorem avoids_ok {value : α} : Avoids reason (.ok value) := by
  intro stopped
  contradiction

theorem avoids_pure {value : α} : Avoids reason (pure value : Except ε α) :=
  avoids_ok

theorem avoids_error {other : ε} (differ : other ≠ reason) : Avoids reason (.error other : Except ε α) := by
  intro stopped
  exact differ (Except.error.inj stopped)

theorem Avoids.bind {action : Except ε α} {next : α → Except ε β} (first : Avoids reason action)
    (rest : ∀ value, action = .ok value → Avoids reason (next value)) : Avoids reason (action >>= next) := by
  intro stopped
  rcases bind_eq_error.mp stopped with failed | ⟨value, ran, failed⟩
  · exact first failed
  · exact rest value ran failed

theorem Avoids.foldlM {step : σ → ι → Except ε σ} (each : ∀ state item, Avoids reason (step state item))
    (items : List ι) (state : σ) : Avoids reason (items.foldlM step state) := by
  intro stopped
  exact foldlM_error (· ≠ reason) (fun state item _ failed same => each state item (same ▸ failed)) stopped rfl

theorem Avoids.forM {step : ι → Except ε PUnit} (each : ∀ item, Avoids reason (step item)) (items : List ι) :
    Avoids reason (items.forM step) := by
  induction items with
  | nil => exact avoids_pure
  | cons item rest ih => exact (each item).bind fun _ _ => ih

/-- Some number of steps is enough, and any larger one gives the same. -/
def Settles (exhausted : ε) (run : Nat → Except ε α) : Prop :=
  ∃ enough, Avoids exhausted (run enough) ∧ ∀ steps, enough ≤ steps → run steps = run enough

theorem Avoids.settles {action : Except ε α} (avoids : Avoids exhausted action) :
    Settles exhausted fun _ => action :=
  ⟨0, avoids, fun _ _ => rfl⟩

/-- One step more is counted than the rest of the computation takes. -/
theorem Settles.succ {run next : Nat → Except ε α} (settles : Settles exhausted next)
    (turn : ∀ steps, run (steps + 1) = next steps) : Settles exhausted run := by
  obtain ⟨enough, avoids, same⟩ := settles
  refine ⟨enough + 1, turn enough ▸ avoids, ?_⟩
  intro steps large
  obtain ⟨less, rfl⟩ : ∃ less, steps = less + 1 := ⟨steps - 1, by omega⟩
  rw [turn, turn, same less (by omega)]

theorem Settles.bind {action : Except ε α} {next : α → Nat → Except ε β} (first : Avoids exhausted action)
    (rest : ∀ value, action = .ok value → Settles exhausted (next value)) :
    Settles exhausted fun steps => action >>= (next · steps) := by
  cases action with
  | error other =>
      have stopped : Avoids exhausted (.error other : Except ε β) := avoids_error fun same => first (same ▸ rfl)
      exact stopped.settles
  | ok value => exact rest value rfl

theorem Settles.andThen {run : Nat → Except ε α} {next : α → Except ε β} (settles : Settles exhausted run)
    (rest : ∀ value, Avoids exhausted (next value)) : Settles exhausted fun steps => run steps >>= next := by
  obtain ⟨enough, avoids, same⟩ := settles
  refine ⟨enough, avoids.bind fun value _ => rest value, ?_⟩
  intro steps large
  change run steps >>= next = run enough >>= next
  rw [same steps large]

end Sloader.Data
