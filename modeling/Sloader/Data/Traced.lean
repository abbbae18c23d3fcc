import Mathlib.Data.List.Basic
import Sloader.Data.Outcome

namespace Sloader.Data

/-! Computations that report what they do, also when they stop early. -/

structure Traced (ε τ α : Type) where
  events : List τ
  outcome : Except ε α

namespace Traced

variable {ε τ σ α β : Type}

def lift (outcome : Except ε α) : Traced ε τ α where
  events := []
  outcome := outcome

def report (event : τ) : Traced ε τ Unit where
  events := [event]
  outcome := .ok ()

def relabel (label : σ → τ) (action : Traced ε σ α) : Traced ε τ α where
  events := action.events.map label
  outcome := action.outcome

instance : Monad (Traced ε τ) where
  pure value := ⟨[], .ok value⟩
  bind action next :=
    match action.outcome with
    | .error reason => ⟨action.events, .error reason⟩
    | .ok value => ⟨action.events ++ (next value).events, (next value).outcome⟩

variable {action : Traced ε τ α} {next : α → Traced ε τ β} {value : α} {event : τ}

@[simp] theorem events_pure (value : α) : (pure value : Traced ε τ α).events = [] := rfl

@[simp] theorem outcome_pure (value : α) : (pure value : Traced ε τ α).outcome = .ok value := rfl

@[simp] theorem events_lift (outcome : Except ε α) : (lift outcome : Traced ε τ α).events = [] := rfl

@[simp] theorem outcome_lift (outcome : Except ε α) : (lift outcome : Traced ε τ α).outcome = outcome := rfl

@[simp] theorem events_report (event : τ) : (report event : Traced ε τ Unit).events = [event] := rfl

@[simp] theorem outcome_report (event : τ) : (report event : Traced ε τ Unit).outcome = .ok () := rfl

@[simp] theorem events_relabel (label : σ → τ) (action : Traced ε σ α) :
    (action.relabel label).events = action.events.map label := rfl

@[simp] theorem outcome_relabel (label : σ → τ) (action : Traced ε σ α) :
    (action.relabel label).outcome = action.outcome := rfl

theorem events_bind (ran : action.outcome = .ok value) :
    (action >>= next).events = action.events ++ (next value).events := by
  simp only [bind, ran]

theorem outcome_bind (ran : action.outcome = .ok value) : (action >>= next).outcome = (next value).outcome := by
  simp only [bind, ran]

theorem lift_bind (value : α) (next : α → Traced ε τ β) : (lift (.ok value) >>= next) = next value :=
  rfl

theorem bind_stopped {reason : ε} (stopped : action.outcome = .error reason) :
    (action >>= next).events = action.events ∧ (action >>= next).outcome = .error reason := by
  simp only [bind, stopped, and_self]

theorem outcome_bind_ok {result : β} :
    (action >>= next).outcome = .ok result ↔
      ∃ value, action.outcome = .ok value ∧ (next value).outcome = .ok result := by
  cases ran : action.outcome with
  | error reason => simp [bind_stopped ran]
  | ok value => simp [outcome_bind ran]

theorem mem_events_bind :
    event ∈ (action >>= next).events ↔
      event ∈ action.events ∨ ∃ value, action.outcome = .ok value ∧ event ∈ (next value).events := by
  cases ran : action.outcome with
  | error reason => simp [bind_stopped ran]
  | ok value => simp [events_bind ran]

/-- An order that holds within each of two computations and between them holds
throughout. -/
theorem pairwise_bind {Ordered : τ → τ → Prop} (first : action.events.Pairwise Ordered)
    (second : ∀ value, action.outcome = .ok value → (next value).events.Pairwise Ordered)
    (across : ∀ value, action.outcome = .ok value → ∀ earlier ∈ action.events, ∀ later ∈ (next value).events,
      Ordered earlier later) : (action >>= next).events.Pairwise Ordered := by
  cases ran : action.outcome with
  | error reason =>
      rw [(bind_stopped ran).1]
      exact first
  | ok value =>
      rw [events_bind ran]
      exact List.pairwise_append.mpr ⟨first, second value ran, across value ran⟩

variable {step : α → Traced ε τ PUnit} {items : List α}

theorem outcome_forM_ok :
    (forM items step).outcome = .ok () ↔ ∀ item ∈ items, (step item).outcome = .ok () := by
  induction items with
  | nil => simp
  | cons item rest ih =>
      rw [List.forM_cons, outcome_bind_ok, List.forall_mem_cons, ← ih]
      exact ⟨fun ⟨_, first, later⟩ => ⟨first, later⟩, fun ⟨first, later⟩ => ⟨(), first, later⟩⟩

theorem events_forM (ran : ∀ item ∈ items, (step item).outcome = .ok ()) :
    (forM items step).events = items.flatMap fun item => (step item).events := by
  induction items with
  | nil => rfl
  | cons item rest ih =>
      rw [List.forM_cons, events_bind (ran item List.mem_cons_self),
        ih (fun other member => ran other (List.mem_cons_of_mem item member)), List.flatMap_cons]

/-- Runs to its end and says nothing. -/
def Quiet (action : Traced ε τ PUnit) : Prop :=
  action.outcome = .ok () ∧ action.events = []

/-- Runs to its end and reports one event. -/
def ReportsOnly (action : Traced ε τ PUnit) (event : τ) : Prop :=
  action.outcome = .ok () ∧ action.events = [event]

theorem quiet_forM : (forM items step).Quiet ↔ ∀ item ∈ items, (step item).Quiet := by
  simp only [Quiet, outcome_forM_ok]
  constructor
  · rintro ⟨ran, silent⟩ item member
    rw [events_forM ran, List.flatMap_eq_nil_iff] at silent
    exact ⟨ran item member, silent item member⟩
  · intro quiet
    have ran : ∀ item ∈ items, (step item).outcome = .ok () := fun item member => (quiet item member).1
    rw [events_forM ran, List.flatMap_eq_nil_iff]
    exact ⟨ran, fun item member => (quiet item member).2⟩

/-- Where one step says something, it is the one whose event is reported. -/
theorem reportsOnly_forM_at {before after : List α} {item : α} (loud : (step item).events ≠ []) :
    (forM (before ++ item :: after) step).ReportsOnly event ↔
      (step item).ReportsOnly event ∧ ∀ other ∈ before ++ after, (step other).Quiet := by
  have members : ∀ other, other ∈ before ++ item :: after ↔ other = item ∨ other ∈ before ++ after := by
    intro other
    simp only [List.mem_append, List.mem_cons, or_left_comm]
  constructor
  · rintro ⟨ran, said⟩
    have each := outcome_forM_ok.mp ran
    rw [events_forM each, List.flatMap_append, List.flatMap_cons] at said
    rcases List.append_eq_singleton_iff.mp said with ⟨none, rest⟩ | ⟨_, rest⟩
    · rcases List.append_eq_singleton_iff.mp rest with ⟨silent, _⟩ | ⟨only, noneAfter⟩
      · exact absurd silent loud
      · refine ⟨⟨each item ((members item).mpr (.inl rfl)), only⟩, ?_⟩
        intro other member
        refine ⟨each other ((members other).mpr (.inr member)), ?_⟩
        rcases List.mem_append.mp member with early | late
        · exact List.flatMap_eq_nil_iff.mp none other early
        · exact List.flatMap_eq_nil_iff.mp noneAfter other late
    · exact absurd (List.append_eq_nil_iff.mp rest).1 loud
  · rintro ⟨⟨ran, only⟩, quiet⟩
    have each : ∀ other ∈ before ++ item :: after, (step other).outcome = .ok () := by
      intro other member
      rcases (members other).mp member with rfl | among
      · exact ran
      · exact (quiet other among).1
    have none : before.flatMap (fun other => (step other).events) = [] :=
      List.flatMap_eq_nil_iff.mpr fun other member => (quiet other (List.mem_append_left after member)).2
    have noneAfter : after.flatMap (fun other => (step other).events) = [] :=
      List.flatMap_eq_nil_iff.mpr fun other member => (quiet other (List.mem_append_right before member)).2
    refine ⟨outcome_forM_ok.mpr each, ?_⟩
    rw [events_forM each, List.flatMap_append, List.flatMap_cons, none, only, noneAfter]
    rfl

theorem reportsOnly_forM :
    (forM items step).ReportsOnly event ↔
      ∃ before item after, items = before ++ item :: after ∧ (step item).ReportsOnly event ∧
        ∀ other ∈ before ++ after, (step other).Quiet := by
  constructor
  · intro reports
    have events := reports.2
    rw [events_forM (outcome_forM_ok.mp reports.1)] at events
    have member : event ∈ items.flatMap fun item => (step item).events := events ▸ List.mem_singleton_self event
    obtain ⟨item, inItems, said⟩ := List.mem_flatMap.mp member
    obtain ⟨before, after, rfl⟩ := List.append_of_mem inItems
    exact ⟨before, item, after, rfl, (reportsOnly_forM_at (List.ne_nil_of_mem said)).mp reports⟩
  · rintro ⟨before, item, after, rfl, reports, quiet⟩
    exact (reportsOnly_forM_at (by simp [reports.2])).mpr ⟨reports, quiet⟩

theorem reportsOnly_forM_flatMap {parts : β → List α} {wholes : List β} :
    (forM (wholes.flatMap parts) step).ReportsOnly event ↔
      (forM wholes fun whole => forM (parts whole) step).ReportsOnly event := by
  have outcomes : (forM (wholes.flatMap parts) step).outcome = .ok () ↔
      (forM wholes fun whole => forM (parts whole) step).outcome = .ok () := by
    simp only [outcome_forM_ok, List.mem_flatMap]
    exact ⟨fun ran whole member item inParts => ran item ⟨whole, member, inParts⟩,
      fun ran item ⟨whole, member, inParts⟩ => ran whole member item inParts⟩
  unfold ReportsOnly
  rw [outcomes]
  apply and_congr_right
  intro ran
  have each := outcome_forM_ok.mp ran
  rw [events_forM each, events_forM (outcome_forM_ok.mp (outcomes.mpr ran)), List.flatMap_assoc,
    List.flatMap_congr fun whole member => (events_forM (outcome_forM_ok.mp (each whole member))).symm]

end Traced

end Sloader.Data
