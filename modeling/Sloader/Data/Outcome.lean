import Mathlib.Data.List.Forall2

namespace Sloader.Data

/-! Computations that may stop early: inversion of a successful sequence, and
the invariant rule for a loop that threads a state. -/

variable {ε α β σ τ : Type}

theorem bind_eq_ok {action : Except ε α} {next : α → Except ε β} {result : β} :
    (action >>= next) = .ok result ↔ ∃ value, action = .ok value ∧ next value = .ok result := by
  cases action with
  | error reason => exact ⟨fun stopped => (nomatch stopped), fun ⟨_, stopped, _⟩ => (nomatch stopped)⟩
  | ok value => exact ⟨fun ran => ⟨value, rfl, ran⟩, fun ⟨_, same, ran⟩ => by cases same; exact ran⟩

theorem bind_eq_error {action : Except ε α} {next : α → Except ε β} {reason : ε} :
    (action >>= next) = .error reason ↔
      action = .error reason ∨ ∃ value, action = .ok value ∧ next value = .error reason := by
  cases action with
  | error other => exact ⟨fun stopped => .inl (by cases stopped; rfl),
      fun either => either.elim (fun same => by cases same; rfl) (fun ⟨_, ran, _⟩ => nomatch ran)⟩
  | ok value => exact ⟨fun stopped => .inr ⟨value, rfl, stopped⟩,
      fun either => either.elim (fun stopped => nomatch stopped) (fun ⟨_, same, stopped⟩ => by cases same; exact stopped)⟩

@[simp] theorem pure_eq_ok {value result : α} :
    (pure value : Except ε α) = .ok result ↔ value = result := by
  change Except.ok value = .ok result ↔ value = result
  exact Except.ok.injEq value result ▸ Iff.rfl

theorem exists_of_isOk {action : Except ε α} (done : action.isOk = true) : ∃ value, action = .ok value := by
  cases action with
  | error reason => contradiction
  | ok value => exact ⟨value, rfl⟩

theorem eq_ok_of_toOption {action : Except ε α} {value : α} (found : action.toOption = some value) :
    action = .ok value := by
  cases action with
  | error reason => simp [Except.toOption] at found
  | ok result => simpa [Except.toOption] using found

/-- What every iteration preserves holds when the loop is over. -/
theorem foldlM_invariant {step : σ → α → Except ε σ} {items : List α} {before after : σ}
    (Holds : σ → Prop)
    (preserved : ∀ state item next, item ∈ items → Holds state → step state item = .ok next → Holds next)
    (initial : Holds before) (ran : items.foldlM step before = .ok after) : Holds after := by
  induction items generalizing before with
  | nil =>
      cases ran
      exact initial
  | cons item rest ih =>
      rw [List.foldlM_cons, bind_eq_ok] at ran
      obtain ⟨middle, first, remaining⟩ := ran
      apply ih _ (preserved before item middle List.mem_cons_self initial first) remaining
      intro state other next member
      exact preserved state other next (List.mem_cons_of_mem item member)

/-- What every pair of iterations preserves relates the ends of two loops over the same items. -/
theorem foldlM_lockstep {left : σ → α → Except ε σ} {right : τ → α → Except ε τ} {items : List α} {first last : σ}
    {second lastRight : τ} (Related : σ → τ → Prop)
    (preserved : ∀ state other item next otherNext, Related state other → left state item = .ok next →
      right other item = .ok otherNext → Related next otherNext)
    (initial : Related first second) (ranLeft : items.foldlM left first = .ok last)
    (ranRight : items.foldlM right second = .ok lastRight) : Related last lastRight := by
  induction items generalizing first second with
  | nil =>
      cases ranLeft
      cases ranRight
      exact initial
  | cons item rest ih =>
      rw [List.foldlM_cons, bind_eq_ok] at ranLeft ranRight
      obtain ⟨next, stepLeft, restLeft⟩ := ranLeft
      obtain ⟨otherNext, stepRight, restRight⟩ := ranRight
      exact ih (preserved _ _ _ _ _ initial stepLeft stepRight) restLeft restRight

/-- What every failure of an iteration satisfies, a failure of the loop does too. -/
theorem foldlM_error {step : σ → α → Except ε σ} {items : List α} {before : σ} {reason : ε} (Fails : ε → Prop)
    (each : ∀ state item reason, step state item = .error reason → Fails reason)
    (failed : items.foldlM step before = .error reason) : Fails reason := by
  induction items generalizing before with
  | nil => contradiction
  | cons item rest ih =>
      rw [List.foldlM_cons, bind_eq_error] at failed
      obtain stopped | ⟨next, _, remaining⟩ := failed
      · exact each before item reason stopped
      · exact ih remaining

theorem mapM_eq_ok {read : α → Except ε β} {items : List α} {results : List β} :
    items.mapM read = .ok results ↔
      List.Forall₂ (fun item result => read item = .ok result) items results := by
  induction items generalizing results with
  | nil =>
      rw [List.mapM_nil, pure_eq_ok, List.forall₂_nil_left_iff]
      exact eq_comm
  | cons item rest ih =>
      simp only [List.mapM_cons, bind_eq_ok, pure_eq_ok, ih, List.forall₂_cons_left_iff]
      constructor
      · rintro ⟨result, first, others, remaining, rfl⟩
        exact ⟨result, others, first, remaining, rfl⟩
      · rintro ⟨result, others, first, remaining, rfl⟩
        exact ⟨result, first, others, remaining, rfl⟩

/-- Every result was read from one of the items. -/
theorem exists_of_mapM {read : α → Except ε β} {items : List α} {results : List β} {result : β}
    (ran : items.mapM read = .ok results) (member : result ∈ results) : ∃ item ∈ items, read item = .ok result := by
  have paired := mapM_eq_ok.mp ran
  clear ran
  induction paired with
  | nil => exact absurd member List.not_mem_nil
  | cons first _ ih =>
      rcases List.mem_cons.mp member with rfl | later
      · exact ⟨_, List.mem_cons_self, first⟩
      · obtain ⟨item, inRest, found⟩ := ih later
        exact ⟨item, List.mem_cons_of_mem _ inRest, found⟩

end Sloader.Data
