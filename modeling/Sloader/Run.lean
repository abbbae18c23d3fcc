import Sloader.Tls
import Sloader.Loader.Queue

namespace Sloader

open Data

/-! Whole runs: the start of the program, its own code, and its calls of
`sloader_dlopen`. -/

namespace DynLoader

/-- `sloader_dlopen`: the handle it returns, and the loader after it. -/
def sloaderDlopen (host : Host) (steps : Nat) (loader : DynLoader) :
    Option CString → Except Stop (Address × DynLoader)
  | none => .ok (0xabcdabcdabcdabcd, loader)
  | some filename =>
      if isSkipped filename then .ok (0xaaaaaaaabbbbbbbb, loader)
      else do
        let path ← findLibrary host filename none none
        let loader ← loader.loadDependingLibs host steps path
        let loader ← loader.relocate host
        return (0xdeadbeefdeadbeef, loader)

/-- The states of the loader while it does not run itself.  Initialisers and the
program may change memory and map pages at will, and call `sloader_dlopen`. -/
inductive Run (host : Host) (mainPath : Path) : DynLoader → Prop where
  | startup {memory : Memory} {steps : Nat} {loaded relocated : DynLoader}
      (libraries : (fresh memory).loadDependingLibs host steps mainPath = .ok loaded)
      (ran : loaded.relocate host = .ok relocated) : Run host mainPath relocated
  | program {loader : DynLoader} (run : Run host mainPath loader) (memory : Memory) :
      Run host mainPath (loader.withMemory memory)
  | tls {loader next : DynLoader} (run : Run host mainPath loader)
      (ran : loader.executeTls host = .ok next) : Run host mainPath next
  | dlopen {loader next : DynLoader} {steps : Nat} {filename : Option CString} {handle : Address}
      (run : Run host mainPath loader)
      (ran : loader.sloaderDlopen host steps filename = .ok (handle, next)) : Run host mainPath next

/-- The states that a run can go on to. -/
inductive Later (host : Host) (loader : DynLoader) : DynLoader → Prop where
  | now : Later host loader loader
  | program {before : DynLoader} (later : Later host loader before) (memory : Memory) :
      Later host loader (before.withMemory memory)
  | tls {before next : DynLoader} (later : Later host loader before)
      (ran : before.executeTls host = .ok next) : Later host loader next
  | dlopen {before next : DynLoader} {steps : Nat} {filename : Option CString} {handle : Address}
      (later : Later host loader before)
      (ran : before.sloaderDlopen host steps filename = .ok (handle, next)) : Later host loader next

variable {host : Host} {mainPath : Path} {loader next loaded : DynLoader} {steps : Nat}
  {filename : Option CString} {handle : Address}

theorem sloaderDlopen_steps {filename : CString} (wanted : isSkipped filename = false)
    (ran : loader.sloaderDlopen host steps (some filename) = .ok (handle, next)) :
    ∃ path loaded, findLibrary host filename none none = .ok path ∧
      loader.loadDependingLibs host steps path = .ok loaded ∧ loaded.relocate host = .ok next ∧
      handle = 0xdeadbeefdeadbeef := by
  simp only [sloaderDlopen, wanted, Bool.false_eq_true, if_false, bind_eq_ok, pure_eq_ok, Prod.mk.injEq] at ran
  obtain ⟨path, found, loaded, loads, relocated, relocates, rfl, rfl⟩ := ran
  exact ⟨path, loaded, found, loads, relocates, rfl⟩

theorem sloaderDlopen_cases (ran : loader.sloaderDlopen host steps filename = .ok (handle, next)) :
    next = loader ∨ ∃ path loaded, loader.loadDependingLibs host steps path = .ok loaded ∧
      loaded.relocate host = .ok next := by
  cases filename with
  | none =>
      cases ran
      exact .inl rfl
  | some filename =>
      cases wanted : isSkipped filename with
      | true =>
          simp only [sloaderDlopen, wanted, if_true, Except.ok.injEq, Prod.mk.injEq] at ran
          exact .inl ran.2.symm
      | false =>
          obtain ⟨path, loaded, _, loads, relocates, _⟩ := sloaderDlopen_steps wanted ran
          exact .inr ⟨path, loaded, loads, relocates⟩

/-- Memory and the TLS offset apart, nothing has changed. -/
structure SameBookkeeping (before after : DynLoader) : Prop where
  binaries : after.binaries = before.binaries
  nextBaseAddr : after.nextBaseAddr = before.nextBaseAddr
  loaded : after.loaded = before.loaded
  relocated : after.relocated = before.relocated
  processed : after.processed = before.processed
  mapFile : after.mapFile = before.mapFile

theorem SameBookkeeping.refl (loader : DynLoader) : SameBookkeeping loader loader :=
  ⟨rfl, rfl, rfl, rfl, rfl, rfl⟩

theorem SameBookkeeping.trans {first second third : DynLoader} (left : SameBookkeeping first second)
    (right : SameBookkeeping second third) : SameBookkeeping first third :=
  ⟨right.binaries.trans left.binaries, right.nextBaseAddr.trans left.nextBaseAddr, right.loaded.trans left.loaded,
    right.relocated.trans left.relocated, right.processed.trans left.processed, right.mapFile.trans left.mapFile⟩

theorem withMemory_bookkeeping (loader : DynLoader) (memory : Memory) :
    SameBookkeeping loader (loader.withMemory memory) :=
  ⟨rfl, rfl, rfl, rfl, rfl, rfl⟩

theorem initializeTls_bookkeeping (loader : DynLoader) (b : ELFBinary) :
    SameBookkeeping loader (loader.initializeTls host b) := by
  unfold initializeTls
  split <;> exact ⟨rfl, rfl, rfl, rfl, rfl, rfl⟩

theorem foldl_initializeTls_bookkeeping (binaries : List ELFBinary) (loader : DynLoader) :
    SameBookkeeping loader (binaries.foldl (initializeTls host) loader) := by
  induction binaries generalizing loader with
  | nil => exact .refl loader
  | cons b rest ih => exact (initializeTls_bookkeeping loader b).trans (ih (loader.initializeTls host b))

theorem executeTls_bookkeeping (ran : loader.executeTls host = .ok next) : SameBookkeeping loader next := by
  obtain ⟨_, _, rfl⟩ := executeTls_eq_ok.mp ran
  exact foldl_initializeTls_bookkeeping loader.binaries loader

/-- The rule for whole runs: what a call of `LoadDependingLibs` followed by one of
`Relocate` preserves holds throughout, if it is about the bookkeeping. -/
theorem Run.invariant (Holds : DynLoader → Prop)
    (initial : ∀ memory, Holds (fresh memory))
    (libraries : ∀ loader steps path loaded next, Holds loader →
      loader.loadDependingLibs host steps path = .ok loaded → loaded.relocate host = .ok next → Holds next)
    (others : ∀ loader next, Holds loader → SameBookkeeping loader next → Holds next)
    (run : Run host mainPath loader) : Holds loader := by
  induction run with
  | startup loads ran => exact libraries _ _ _ _ _ (initial _) loads ran
  | program _ memory ih => exact others _ _ ih (withMemory_bookkeeping _ memory)
  | tls _ ran ih => exact others _ _ ih (executeTls_bookkeeping ran)
  | dlopen _ ran ih =>
      rcases sloaderDlopen_cases ran with rfl | ⟨path, loaded, loads, relocates⟩
      · exact ih
      · exact libraries _ _ _ _ _ ih loads relocates

theorem Run.invariant_of_loads (Holds : DynLoader → Prop)
    (initial : ∀ memory, Holds (fresh memory))
    (marked : ∀ loader name, Holds loader → Holds (loader.insertLoaded name))
    (added : ∀ loader path binary next, Holds loader → loader.emplace host path = .ok (binary, next) → Holds next)
    (relocates : ∀ loader next, Holds loader → loader.relocate host = .ok next → Holds next)
    (others : ∀ loader next, Holds loader → SameBookkeeping loader next → Holds next)
    (run : Run host mainPath loader) : Holds loader := by
  refine run.invariant Holds initial ?_ others
  intro loader steps path loaded next holds loads ran
  have visited := Visits.of_loadDependingLibs loads
  exact relocates loaded next (visited.invariant Holds marked added holds) ran

/-- What is checked of a start of the program holds in a state of its runs. -/
theorem exists_startup {facts : DynLoader → Bool}
    (checked : (Sample.startup host mainPath).toOption.map facts = some true) :
    ∃ loader, Run host mainPath loader ∧ facts loader = true := by
  obtain ⟨loader, started, holds⟩ := Option.map_eq_some_iff.mp checked
  obtain ⟨loaded, loads, relocates⟩ := bind_eq_ok.mp (eq_ok_of_toOption started)
  exact ⟨loader, .startup loads relocates, holds⟩

end DynLoader

end Sloader
