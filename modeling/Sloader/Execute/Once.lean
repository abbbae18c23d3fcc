import Sloader.Execute.Order
import Sloader.Execute.ThreadLocal
import Sloader.Run.History

namespace Sloader

open Data

/-! Initialisers over whole runs: the binaries that are loaded at the start have
theirs called by `Execute`, once; those that `dlopen` adds never have. -/

/-- The places of the initialisers that a binary has. -/
def ELFBinary.HasPlace (binary : ELFBinary) : Place → Prop
  | .init => binary.init ≠ 0
  | .array index => index < (binary.initArraysz / 8).toNat

/-- Each initialiser of each binary has been called exactly once. -/
def InitialisedOnce (binaries : List ELFBinary) (made : List Call) : Prop :=
  ∀ index binary place, binaries[index]? = some binary → binary.HasPlace place →
    (made.countP fun call => decide (call.binary = index ∧ call.place = place)) = 1

theorem countP_eq_one_iff {made : List Call} {index : Nat} {place : Place} (sorted : made.Pairwise Call.Before) :
    (made.countP fun call => decide (call.binary = index ∧ call.place = place)) = 1 ↔
      ∃ call ∈ made, call.binary = index ∧ call.place = place := by
  induction made with
  | nil => simp
  | cons head rest ih =>
      rw [List.pairwise_cons] at sorted
      rw [List.countP_cons, List.exists_mem_cons_iff]
      by_cases here : head.binary = index ∧ head.place = place
      · have others : (rest.countP fun call => decide (call.binary = index ∧ call.place = place)) = 0 := by
          apply List.countP_eq_zero.mpr
          intro other member same
          have before := sorted.1 other member
          obtain ⟨sameBinary, samePlace⟩ := of_decide_eq_true same
          rw [Call.Before, here.1, here.2, sameBinary, samePlace] at before
          omega
        rw [if_pos (decide_eq_true here), others]
        exact iff_of_true rfl (.inl here)
      · have notCounted : ¬ decide (head.binary = index ∧ head.place = place) = true :=
          fun same => here (of_decide_eq_true same)
        rw [if_neg notCounted, Nat.add_zero, ih sorted.2]
        exact (or_iff_right here).symm

namespace DynLoader

variable {α : Type} {host : Host} {call : Address → DynLoader → Traced Stop α DynLoader}
  {loader next state final : DynLoader} {binary index count : Nat} {funs : Address} {loaded : ELFBinary} {made : Call}

/-- No entry is null when the loop over the array comes to it. -/
def NoNullEntry (call : Address → DynLoader → Traced Stop α DynLoader) (binary : Nat) (funs : Address) :
    Nat → Nat → DynLoader → Prop
  | 0, _, _ => True
  | count + 1, index, loader =>
      let function := loader.memory.bytes.load64 (funs + BitVec.ofNat 64 (8 * index))
      function ≠ 0 ∧ ∀ next, (callInitialiser call ⟨binary, .array index, function⟩ loader).outcome = .ok next →
        NoNullEntry call binary funs count (index + 1) next

theorem callInitArray_complete_iff
    (ran : (callInitArray call binary funs count index loader).outcome = .ok next) :
    (∀ offset < count, ∃ made, .call made ∈ (callInitArray call binary funs count index loader).events ∧
        made.place = .array (index + offset)) ↔
      NoNullEntry call binary funs count index loader := by
  induction count generalizing index loader with
  | zero => simp [NoNullEntry]
  | succ count ih =>
      rw [callInitArray] at ran ⊢
      rw [NoNullEntry]
      split at ran
      · rename_i null
        rw [if_pos null]
        apply iff_of_false _ fun present => present.1 null
        intro complete
        obtain ⟨made, member, _⟩ := complete 0 (by omega)
        exact absurd member List.not_mem_nil
      · rename_i nonnull
        rw [if_neg nonnull]
        obtain ⟨middle, first, rest⟩ := Traced.outcome_bind_ok.mp ran
        have step := ih rest
        constructor
        · intro complete
          refine ⟨nonnull, fun other again => ?_⟩
          rw [first] at again
          cases again
          apply step.mp
          intro offset within
          obtain ⟨made, member, place⟩ := complete (offset + 1) (by omega)
          rcases Traced.mem_events_bind.mp member with here | ⟨other, again, later⟩
          · rw [mem_callInitialiser.mp here, Place.array.injEq] at place
            omega
          · rw [first] at again
            cases again
            exact ⟨made, later, by rw [place, Nat.add_assoc, Nat.add_comm 1]⟩
        · intro present offset within
          cases offset with
          | zero => exact ⟨_, Traced.mem_events_bind.mpr (.inl (mem_callInitialiser.mpr rfl)), rfl⟩
          | succ offset =>
              obtain ⟨made, member, place⟩ := step.mpr (present.2 middle first) offset (by omega)
              exact ⟨made, Traced.mem_events_bind.mpr (.inr ⟨middle, first, member⟩),
                by rw [place, Nat.add_assoc, Nat.add_comm 1]⟩

/-- Initialisers are code like the program's own: they change memory and call
`sloader_dlopen`. -/
def Foreign (host : Host) (call : Address → DynLoader → Traced Stop α DynLoader) : Prop :=
  ∀ address loader next, (call address loader).outcome = .ok next → Later host loader next

theorem Later.trans {middle : DynLoader} (first : Later host loader middle) (second : Later host middle next) :
    Later host loader next := by
  induction second with
  | now => exact first
  | program _ memory ih => exact .program ih memory
  | tls _ ran ih => exact .tls ih ran
  | dlopen _ ran ih => exact .dlopen ih ran

theorem Later.keeps {loader next : DynLoader} {index : Nat} {loaded : ELFBinary} (later : Later host loader next)
    (found : loader.binaries[index]? = some loaded) : next.binaries[index]? = some loaded := by
  obtain ⟨more, binaries⟩ := later.binaries_append
  rw [binaries, List.getElem?_append_left (List.getElem?_eq_some_iff.mp found).1]
  exact found

section Foreign

variable (foreign : Foreign host call)

include foreign

theorem callInitArray_later (ran : (callInitArray call binary funs count index loader).outcome = .ok next) :
    Later host loader next := by
  induction count generalizing index loader with
  | zero =>
      cases ran
      exact .now
  | succ count ih =>
      rw [callInitArray] at ran
      split at ran
      · cases ran
        exact .now
      · obtain ⟨middle, first, rest⟩ := Traced.outcome_bind_ok.mp ran
        have called : Later host loader middle := foreign _ _ _ first
        exact called.trans (ih rest)

theorem callInit_later (ran : (callInit call index loaded loader).outcome = .ok next) : Later host loader next := by
  rw [callInit] at ran
  split at ran
  · exact foreign _ _ _ ran
  · cases ran
    exact .now

theorem callArray_later (ran : (callArray call index loaded loader).outcome = .ok next) : Later host loader next := by
  rw [callArray] at ran
  split at ran
  · obtain ⟨_, _, rest⟩ := Traced.outcome_bind_ok.mp ran
    exact callInitArray_later foreign rest
  · cases ran
    exact .now

theorem initialise_later (ran : (initialise call index loader).outcome = .ok next) : Later host loader next := by
  rw [initialise] at ran
  split at ran
  · contradiction
  · obtain ⟨middle, first, rest⟩ := Traced.outcome_bind_ok.mp ran
    exact (callInit_later foreign first).trans (callArray_later foreign rest)

theorem initialiseDown_later (ran : (initialiseDown call count loader).outcome = .ok next) :
    Later host loader next := by
  induction count generalizing loader with
  | zero =>
      cases ran
      exact .now
  | succ count ih =>
      obtain ⟨middle, first, rest⟩ := Traced.outcome_bind_ok.mp ran
      exact (initialise_later foreign first).trans (ih rest)

theorem Turn.reached (turn : Turn call count loader index state) : Later host loader state := by
  induction turn with
  | here => exact .now
  | later ran _ ih => exact (initialise_later foreign ran).trans ih

end Foreign

theorem exists_turn (ran : (initialiseDown call count loader).outcome = .ok final) (below : index < count) :
    ∃ state, Turn call count loader index state := by
  induction count generalizing loader with
  | zero => omega
  | succ count ih =>
      obtain ⟨middle, first, rest⟩ := Traced.outcome_bind_ok.mp ran
      by_cases last : index = count
      · subst last
        exact ⟨loader, .here⟩
      · obtain ⟨state, turn⟩ := ih rest (by omega)
        exact ⟨state, .later first turn⟩

theorem Turn.completes (turn : Turn call count loader index state)
    (ran : (initialiseDown call count loader).outcome = .ok final) :
    ∃ next, (initialise call index state).outcome = .ok next := by
  induction turn with
  | here =>
      obtain ⟨next, first, _⟩ := Traced.outcome_bind_ok.mp ran
      exact ⟨next, first⟩
  | later turned _ ih =>
      obtain ⟨next, first, rest⟩ := Traced.outcome_bind_ok.mp ran
      rw [turned] at first
      cases first
      exact ih rest

theorem Turn.index_lt (turn : Turn call count loader index state) : index < count := by
  induction turn with
  | here => omega
  | later _ _ ih => omega

/-- The calls for a binary are those of its turn. -/
theorem Turn.mem_calls (turn : Turn call count loader index state) :
    (.call made ∈ (initialiseDown call count loader).events ∧ made.binary = index) ↔
      .call made ∈ (initialise call index state).events := by
  induction turn with
  | here =>
      rw [initialiseDown, Traced.mem_events_bind]
      constructor
      · intro called
        obtain ⟨here | ⟨_, _, later⟩, rfl⟩ := called
        · exact here
        · exact absurd (mem_initialiseDown later) (Nat.lt_irrefl _)
      · intro here
        exact ⟨.inl here, mem_initialise here⟩
  | later ran turn ih =>
      rw [initialiseDown, Traced.mem_events_bind, ← ih]
      constructor
      · intro called
        obtain ⟨here | ⟨next, again, later⟩, rfl⟩ := called
        · have below := turn.index_lt
          rw [mem_initialise here] at below
          exact absurd below (Nat.lt_irrefl _)
        · rw [ran] at again
          cases again
          exact ⟨later, rfl⟩
      · intro afterwards
        obtain ⟨later, same⟩ := afterwards
        exact ⟨.inr ⟨_, ran, later⟩, same⟩

theorem callArray_complete_iff (ran : (callArray call index loaded loader).outcome = .ok next) :
    (∀ entry < (loaded.initArraysz / 8).toNat,
        ∃ made, .call made ∈ (callArray call index loaded loader).events ∧ made.place = .array entry) ↔
      NoNullEntry call index (loaded.initArray + loaded.baseAddr) (loaded.initArraysz / 8).toNat 0 loader := by
  by_cases empty : loaded.initArraysz = 0
  · have none : (loaded.initArraysz / 8).toNat = 0 := by simp [empty]
    rw [none]
    exact iff_of_true (fun entry within => absurd within (Nat.not_lt_zero entry)) trivial
  · rw [callArray, if_pos empty] at ran ⊢
    obtain ⟨_, passed, looped⟩ := Traced.outcome_bind_ok.mp ran
    rw [Traced.events_bind passed, Traced.events_lift, List.nil_append, ← callInitArray_complete_iff looped]
    simp only [Nat.zero_add]

/-- The calls of a turn that comes to its end. -/
theorem initialise_complete_iff (found : loader.binaries[index]? = some loaded)
    (ran : (initialise call index loader).outcome = .ok next) :
    (∀ place, loaded.HasPlace place → ∃ made, .call made ∈ (initialise call index loader).events ∧ made.place = place) ↔
      ∀ middle, (callInit call index loaded loader).outcome = .ok middle →
        NoNullEntry call index (loaded.initArray + loaded.baseAddr) (loaded.initArraysz / 8).toNat 0 middle := by
  simp only [initialise, found] at ran ⊢
  obtain ⟨middle, first, rest⟩ := Traced.outcome_bind_ok.mp ran
  have only {state : DynLoader} (again : (callInit call index loaded loader).outcome = .ok state) :
      state = middle := by
    rw [first] at again
    exact (Except.ok.inj again).symm
  constructor
  · intro called state again
    rw [only again, ← callArray_complete_iff rest]
    intro entry within
    obtain ⟨made, member, place⟩ := called (.array entry) within
    rcases Traced.mem_events_bind.mp member with early | ⟨_, again, later⟩
    · rw [(mem_callInit.mp early).2] at place
      contradiction
    · rw [only again] at later
      exact ⟨made, later, place⟩
  · intro present place has
    cases place with
    | init => exact ⟨_, Traced.mem_events_bind.mpr (.inl (mem_callInit.mpr ⟨has, rfl⟩)), rfl⟩
    | array entry =>
        obtain ⟨made, member, place⟩ := (callArray_complete_iff rest).mpr (present middle first) entry has
        exact ⟨made, Traced.mem_events_bind.mpr (.inr ⟨middle, first, member⟩), place⟩

/-- No entry of an array is null when `Execute` comes to it. -/
def NoNullInitialiser (call : Address → DynLoader → Traced Stop α DynLoader) (loader : DynLoader) : Prop :=
  ∀ index state loaded middle, Turn call loader.binaries.length loader index state →
    loader.binaries[index]? = some loaded → (callInit call index loaded state).outcome = .ok middle →
    NoNullEntry call index (loaded.initArray + loaded.baseAddr) (loaded.initArraysz / 8).toNat 0 middle

/-- The calls of a whole run for a binary, given the turn of that binary. -/
theorem Turn.complete_iff (foreign : Foreign host call) (turn : Turn call loader.binaries.length loader index state)
    (ran : (runInitialisers call loader).outcome = .ok next) (found : loader.binaries[index]? = some loaded) :
    (∀ place, loaded.HasPlace place →
        ∃ made ∈ calls (runInitialisers call loader).events, made.binary = index ∧ made.place = place) ↔
      ∀ middle, (callInit call index loaded state).outcome = .ok middle →
        NoNullEntry call index (loaded.initArray + loaded.baseAddr) (loaded.initArraysz / 8).toNat 0 middle := by
  obtain ⟨_, ends⟩ := turn.completes ran
  rw [← initialise_complete_iff ((turn.reached foreign).keeps found) ends]
  apply forall₂_congr
  intro place _
  constructor
  · intro called
    obtain ⟨made, member, same, atPlace⟩ := called
    exact ⟨made, turn.mem_calls.mp ⟨Sloader.mem_calls.mp member, same⟩, atPlace⟩
  · intro called
    obtain ⟨made, member, atPlace⟩ := called
    obtain ⟨inRun, same⟩ := turn.mem_calls.mpr member
    exact ⟨made, Sloader.mem_calls.mpr inRun, same, atPlace⟩

theorem runInitialisers_once_iff (foreign : Foreign host call)
    (ran : (runInitialisers call loader).outcome = .ok next) (later : Later host next final) :
    InitialisedOnce final.binaries (calls (runInitialisers call loader).events) ↔
      NoNullInitialiser call loader ∧
      ∀ index loaded, loader.binaries.length ≤ index → final.binaries[index]? = some loaded →
        ∀ place, ¬ loaded.HasPlace place := by
  have once (index : Nat) (place : Place) := @countP_eq_one_iff _ index place (@calls_sorted α call loader)
  have kept : Later host loader final := (initialiseDown_later foreign ran).trans later
  constructor
  · intro initialised
    constructor
    · intro index state loaded middle turn found
      apply (turn.complete_iff foreign ran found).mp
      intro place has
      exact (once index place).mp (initialised index loaded place (kept.keeps found) has)
    · intro index loaded beyond found place has
      obtain ⟨made, member, same, _⟩ := (once index place).mp (initialised index loaded place found has)
      have below := mem_initialiseDown (mem_calls.mp member)
      omega
  · intro fits index loaded place found has
    obtain ⟨present, none⟩ := fits
    rw [once]
    by_cases old : index < loader.binaries.length
    · obtain ⟨state, turn⟩ := exists_turn ran old
      obtain ⟨more, binaries⟩ := kept.binaries_append
      rw [binaries, List.getElem?_append_left old] at found
      have entries (middle : DynLoader) := present index state loaded middle turn found
      exact (turn.complete_iff foreign ran found).mpr entries place has
    · exact absurd has (none index loaded (by omega) found place)

/-- After the start of the program, and after every call of `dlopen` since, each
initialiser has been called exactly once just if `Execute` came to no null entry
and nothing that was loaded after it has an initialiser. -/
theorem run_initialised_once_iff {memory : Memory} {steps : Nat} {mainPath : Path} {libraries : DynLoader}
    {getauxval : Elf64Xword → Elf64Xword} {args envs : StringVector} {rsp : Address} {entry : Entry}
    (foreign : Foreign host call)
    (loads : (fresh memory).loadDependingLibs host steps mainPath = .ok libraries)
    (relocates : libraries.relocate host = .ok loader)
    (ran : ((fresh memory).run host call getauxval args envs rsp steps mainPath).outcome = .ok entry)
    (later : Later host entry.loader final) :
    InitialisedOnce final.binaries
        (calls ((fresh memory).run host call getauxval args envs rsp steps mainPath).events) ↔
      NoNullInitialiser call loader ∧
      ∀ index loaded, loader.binaries.length ≤ index → final.binaries[index]? = some loaded →
        ∀ place, ¬ loaded.HasPlace place := by
  rw [run_eq loads relocates] at ran ⊢
  rw [execute_events]
  obtain ⟨initialised, stack, ready, main, initialises, _, fills, _, rfl⟩ := execute_steps ran
  have afterwards : Later host initialised final := (Later.program (.tls .now fills) _).trans later
  exact runInitialisers_once_iff foreign initialises afterwards

theorem idle_foreign (host : Host) : Foreign host idle := by
  intro address loader next ran
  cases ran
  exact .now

theorem noNullInitialiser_of_empty (empty : ∀ loaded ∈ loader.binaries, (loaded.initArraysz / 8).toNat = 0) :
    NoNullInitialiser call loader := by
  intro index state loaded middle _ found _
  rw [empty loaded (List.mem_of_getElem? found)]
  exact trivial

/-- A run of an executable with a `DT_INIT`, up to its entry. -/
def onceRun (main : List (BitVec 64)) : Traced Stop (Event Unit) Entry :=
  (fresh Sample.memory).run (initHost main [] []) idle (fun _ => 1) noStrings noStrings 0x7fff00000000 12
    (ascii "/bin/m")

theorem onceRun_facts :
    (Sample.startup (initHost [2] [] []) (ascii "/bin/m")).toOption.map (fun loader =>
      loader.binaries.map fun loaded => (loaded.initArraysz / 8).toNat) = some [0, 0] ∧
    (onceRun [2]).outcome.toOption.map (fun entry => entry.loader.binaries.length) = some 2 := by
  decide +kernel

theorem run_initialised_once_chain :
    ∃ entry, (onceRun [2]).outcome = .ok entry ∧ entry.loader.binaries.length = 2 ∧
      InitialisedOnce entry.loader.binaries (calls (onceRun [2]).events) := by
  obtain ⟨loader, started, sizes⟩ := Option.map_eq_some_iff.mp onceRun_facts.1
  obtain ⟨entry, ran, length⟩ := Option.map_eq_some_iff.mp onceRun_facts.2
  obtain ⟨libraries, loads, relocates⟩ := bind_eq_ok.mp (eq_ok_of_toOption started)
  have count : loader.binaries.length = 2 := by simpa using congrArg List.length sizes
  refine ⟨entry, eq_ok_of_toOption ran, length, ?_⟩
  apply (run_initialised_once_iff (idle_foreign _) loads relocates (eq_ok_of_toOption ran) .now).mpr
  constructor
  · apply noNullInitialiser_of_empty
    intro loaded member
    have listed := List.mem_map_of_mem (f := fun loaded : ELFBinary => (loaded.initArraysz / 8).toNat) member
    rw [sizes] at listed
    simpa using listed
  · intro index loaded beyond found
    have within := (List.getElem?_eq_some_iff.mp found).1
    omega

theorem onceRun_dlopen_facts :
    (onceRun []).outcome.toOption.map (fun entry =>
      (entry.loader.sloaderDlopen (initHost [] [] []) 12 (some (ascii "b"))).toOption.map fun opened =>
        opened.2.binaries.map ELFBinary.init) = some (some [232, 232]) ∧
    (calls (onceRun []).events).map Call.binary = [0] := by
  decide +kernel

/-- The library has a `DT_INIT`, `dlopen` has returned, and nothing has called it. -/
theorem dlopen_leaves_uninitialised :
    ∃ entry handle opened, (onceRun []).outcome = .ok entry ∧
      entry.loader.sloaderDlopen (initHost [] [] []) 12 (some (ascii "b")) = .ok (handle, opened) ∧
      opened.binaries.map ELFBinary.init = [232, 232] ∧ (calls (onceRun []).events).map Call.binary = [0] ∧
      ¬ InitialisedOnce opened.binaries (calls (onceRun []).events) := by
  obtain ⟨facts, made⟩ := onceRun_dlopen_facts
  obtain ⟨entry, ran, opens⟩ := Option.map_eq_some_iff.mp facts
  obtain ⟨⟨handle, opened⟩, dlopens, inits⟩ := Option.map_eq_some_iff.mp opens
  refine ⟨entry, handle, opened, eq_ok_of_toOption ran, eq_ok_of_toOption dlopens, inits, made, ?_⟩
  intro initialised
  have second := congrArg (·[1]?) inits
  rw [List.getElem?_map] at second
  obtain ⟨library, found, init⟩ := Option.map_eq_some_iff.mp second
  have has : library.HasPlace .init := by
    change library.init ≠ 0
    rw [init]
    decide
  obtain ⟨call, member, isCall⟩ := List.countP_pos_iff.mp
    (Nat.lt_of_lt_of_eq Nat.one_pos (initialised 1 library .init found has).symm)
  have listed := List.mem_map_of_mem (f := Call.binary) member
  rw [made, (of_decide_eq_true isCall).1] at listed
  exact absurd (List.mem_singleton.mp listed) Nat.one_ne_zero

end DynLoader

end Sloader
