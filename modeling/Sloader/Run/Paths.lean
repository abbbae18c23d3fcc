import Sloader.Run.Once

namespace Sloader

open Data

/-! Is a file ever mapped twice?  `loaded_` holds the names that were asked for, and
what is mapped are the files that `FindLibrary` leads to. -/

namespace DynLoader

def PathsDiffer (loader : DynLoader) : Prop :=
  loader.binaries.Pairwise fun earlier later => pathKey earlier.path ≠ pathKey later.path

def Maps (loader : DynLoader) (path : Path) : Prop :=
  ∃ binary ∈ loader.binaries, pathKey binary.path = pathKey path

/-- A call of `LoadDependingLibs` for a file that is not mapped, in which every
name that leads to a mapped file is one that `loaded_` has. -/
structure Careful (host : Host) (start : DynLoader) (rootPath : Path) : Prop where
  root : ¬ start.Maps rootPath
  names : ∀ {loader request queue path}, Visits host start rootPath loader (request :: queue) →
    isSkipped request.libraryName = false →
    findLibrary host request.libraryName request.runpath request.rpath = .ok path →
    loader.Maps path → request.libraryName ∈ loader.loaded

/-- A run all of whose calls are careful. -/
inductive CarefulRun (host : Host) (mainPath : Path) : DynLoader → Prop where
  | startup {memory : Memory} {steps : Nat} {loaded relocated : DynLoader}
      (careful : Careful host (fresh memory) mainPath)
      (libraries : (fresh memory).loadDependingLibs host steps mainPath = .ok loaded)
      (ran : loaded.relocate host = .ok relocated) : CarefulRun host mainPath relocated
  | program {loader : DynLoader} (run : CarefulRun host mainPath loader) (memory : Memory) :
      CarefulRun host mainPath (loader.withMemory memory)
  | tls {loader next : DynLoader} (run : CarefulRun host mainPath loader)
      (ran : loader.executeTls host = .ok next) : CarefulRun host mainPath next
  | dlopen {loader next : DynLoader} {steps : Nat} {filename : Option CString} {handle : Address}
      (run : CarefulRun host mainPath loader)
      (careful : ∀ name path, filename = some name → isSkipped name = false →
        findLibrary host name none none = .ok path → Careful host loader path)
      (ran : loader.sloaderDlopen host steps filename = .ok (handle, next)) : CarefulRun host mainPath next

variable {host : Host} {mainPath rootPath path : Path} {start loader next after : DynLoader} {binary : ELFBinary}
  {queue : List Request} {request : Request} {steps : Nat}

theorem PathsDiffer.emplace (differ : loader.PathsDiffer) (unmapped : ¬ loader.Maps path)
    (ran : loader.emplace host path = .ok (binary, next)) : next.PathsDiffer := by
  refine (pairwise_emplace ran).mpr ⟨differ, ?_⟩
  intro earlier member
  rw [emplace_path ran]
  exact fun same => unmapped ⟨earlier, member, same⟩

theorem Visits.pathsDiffer (differ : start.PathsDiffer) (careful : Careful host start rootPath)
    (visited : Visits host start rootPath loader queue) : loader.PathsDiffer := by
  induction visited with
  | root ran =>
      obtain ⟨binary, loader, emplaced, rfl, rfl⟩ := loadRoot_spec ran
      have rooted : loader.PathsDiffer := differ.emplace careful.root emplaced
      exact rooted
  | pop before ran ih =>
      rcases popRequest_cases ran with
        ⟨_, rfl, rfl⟩ | ⟨_, _, rfl, rfl⟩ | ⟨unknown, wanted, path, binary, found, emplaced, rfl⟩
      · exact ih
      · exact ih
      · have unmapped := fun isMapped => unknown (careful.names before wanted found isMapped)
        exact @PathsDiffer.emplace host path (insertLoaded _ _) _ binary ih unmapped emplaced

theorem drainQueue_append (ran : drainQueue host steps loader queue = .ok after) :
    ∃ more, after.binaries = loader.binaries ++ more := by
  induction steps generalizing loader queue with
  | zero =>
      cases queue with
      | nil =>
          cases ran
          exact ⟨[], by simp⟩
      | cons request queue => contradiction
  | succ steps ih =>
      cases queue with
      | nil =>
          cases ran
          exact ⟨[], by simp⟩
      | cons request queue =>
          simp only [drainQueue, bind_eq_ok] at ran
          obtain ⟨⟨next, rest⟩, popped, remaining⟩ := ran
          obtain ⟨more, binaries⟩ := ih remaining
          rcases popRequest_cases popped with ⟨_, rfl, rfl⟩ | ⟨_, _, rfl, rfl⟩ | ⟨_, _, path, binary, _, emplaced, rfl⟩
          · exact ⟨more, binaries⟩
          · exact ⟨more, binaries⟩
          · refine ⟨binary :: more, ?_⟩
            rw [binaries, emplace_binaries emplaced, insertLoaded, List.append_assoc, List.singleton_append]

theorem PathsDiffer.unmapped {earlier more : List ELFBinary} (differ : loader.PathsDiffer)
    (binaries : loader.binaries = earlier ++ binary :: more) :
    ¬ ∃ other ∈ earlier, pathKey other.path = pathKey binary.path := by
  rw [PathsDiffer, binaries, List.pairwise_append] at differ
  rintro ⟨other, member, same⟩
  exact differ.2.2 other member binary List.mem_cons_self same

/-- A name that is not in `loaded_` adds the file it leads to. -/
theorem Visits.adds (ran : start.loadDependingLibs host steps rootPath = .ok after)
    (visited : Visits host start rootPath loader (request :: queue)) (unknown : request.libraryName ∉ loader.loaded)
    (wanted : isSkipped request.libraryName = false)
    (found : findLibrary host request.libraryName request.runpath request.rpath = .ok path) :
    ∃ binary more, after.binaries = loader.binaries ++ binary :: more ∧ binary.path = path := by
  obtain ⟨remaining, drained⟩ := visited.completes ran
  cases remaining with
  | zero => contradiction
  | succ remaining =>
      simp only [drainQueue, bind_eq_ok] at drained
      obtain ⟨⟨next, rest⟩, popped, drained⟩ := drained
      obtain ⟨more, binaries⟩ := drainQueue_append drained
      rcases popRequest_cases popped with ⟨known, _⟩ | ⟨_, skipped, _⟩ | ⟨_, _, other, binary, leads, emplaced, _⟩
      · contradiction
      · rw [wanted] at skipped
        contradiction
      · rw [found] at leads
        cases leads
        refine ⟨binary, more, ?_, emplace_path emplaced⟩
        rw [binaries, emplace_binaries emplaced, insertLoaded, List.append_assoc, List.singleton_append]

theorem PathsDiffer.careful (differ : after.PathsDiffer)
    (ran : start.loadDependingLibs host steps rootPath = .ok after) : Careful host start rootPath := by
  constructor
  · obtain ⟨library, more, binaries, rfl⟩ := (Visits.of_loadDependingLibs ran).root_binary
    exact differ.unmapped binaries
  · intro loader request queue path visited wanted found isMapped
    by_contra unknown
    obtain ⟨binary, more, binaries, rfl⟩ := visited.adds ran unknown wanted found
    exact differ.unmapped binaries isMapped

theorem PathsDiffer.of_append (differ : next.PathsDiffer) {more : List ELFBinary}
    (binaries : next.binaries = loader.binaries ++ more) : loader.PathsDiffer := by
  rw [PathsDiffer, binaries, List.pairwise_append] at differ
  exact differ.1

theorem CarefulRun.run (run : CarefulRun host mainPath loader) : Run host mainPath loader := by
  induction run with
  | startup _ libraries ran => exact .startup libraries ran
  | program _ memory ih => exact .program ih memory
  | tls _ ran ih => exact .tls ih ran
  | dlopen _ _ ran ih => exact .dlopen ih ran

theorem PathsDiffer.step (differ : start.PathsDiffer) (careful : Careful host start rootPath)
    (loads : start.loadDependingLibs host steps rootPath = .ok loader)
    (relocates : loader.relocate host = .ok next) : next.PathsDiffer := by
  rw [PathsDiffer, relocate_binaries relocates]
  exact (Visits.of_loadDependingLibs loads).pathsDiffer differ careful

theorem CarefulRun.pathsDiffer (run : CarefulRun host mainPath loader) : loader.PathsDiffer := by
  induction run with
  | startup careful libraries ran =>
      have initial (memory : Memory) : (fresh memory).PathsDiffer := List.Pairwise.nil
      exact (initial _).step careful libraries ran
  | program _ memory ih => exact ih
  | tls _ ran ih =>
      rw [PathsDiffer, (executeTls_bookkeeping ran).binaries]
      exact ih
  | @dlopen loader next steps filename handle _ careful ran ih =>
      cases filename with
      | none =>
          cases ran
          exact ih
      | some name =>
          cases wanted : isSkipped name with
          | true =>
              simp only [sloaderDlopen, wanted, if_true, Except.ok.injEq, Prod.mk.injEq] at ran
              exact ran.2 ▸ ih
          | false =>
              obtain ⟨path, loaded, found, loads, relocates, _⟩ := sloaderDlopen_steps wanted ran
              exact ih.step (careful name path rfl wanted found) loads relocates

theorem Run.careful (run : Run host mainPath loader) (differ : loader.PathsDiffer) : CarefulRun host mainPath loader := by
  induction run with
  | startup libraries ran =>
      rw [PathsDiffer, relocate_binaries ran] at differ
      exact .startup (PathsDiffer.careful differ libraries) libraries ran
  | program _ memory ih => exact .program (ih differ) memory
  | tls _ ran ih =>
      rw [PathsDiffer, (executeTls_bookkeeping ran).binaries] at differ
      exact .tls (ih differ) ran
  | @dlopen loader next steps filename handle _ ran ih =>
      obtain ⟨more, binaries⟩ := Later.binaries_append (.dlopen .now ran)
      refine .dlopen (ih (differ.of_append binaries)) ?_ ran
      rintro name path rfl wanted found
      obtain ⟨_, loaded, leads, loads, relocates, _⟩ := sloaderDlopen_steps wanted ran
      rw [found] at leads
      cases leads
      rw [PathsDiffer, relocate_binaries relocates] at differ
      exact PathsDiffer.careful differ loads

/-- The states in which no two binaries have the same path are those that careful
runs reach. -/
theorem carefulRun_iff :
    CarefulRun host mainPath loader ↔ Run host mainPath loader ∧ loader.PathsDiffer := by
  constructor
  · intro careful
    exact ⟨careful.run, careful.pathsDiffer⟩
  · intro ⟨run, differ⟩
    exact run.careful differ

theorem carefulRun_iff_openedOnce :
    ∃ loader, CarefulRun dlopenHost (ascii "/bin/m") loader ∧ loader.processed.length = 1 := by
  obtain ⟨once, twice, ran, run, _⟩ := exists_openedTwice
  have facts := openedTwice_facts
  rw [ran] at facts
  obtain ⟨one, differ, _⟩ := of_decide_eq_true (Option.some.inj facts)
  exact ⟨once, carefulRun_iff.mpr ⟨run, differ⟩, one⟩

theorem Run.mapped_twice :
    ∃ loader, Run dlopenHost (ascii "/bin/m") loader ∧
      loader.binaries.map ELFBinary.path = [ascii "/bin/m", ascii "/lib/a", ascii "/lib/a"] ∧ ¬ loader.PathsDiffer := by
  obtain ⟨once, twice, ran, _, run⟩ := exists_openedTwice
  have facts := openedTwice_facts
  rw [ran] at facts
  obtain ⟨_, _, mapped, _⟩ := of_decide_eq_true (Option.some.inj facts)
  have paths := congrArg (List.map Prod.fst) mapped
  rw [List.map_map] at paths
  refine ⟨twice, run, paths, ?_⟩
  intro differ
  have keys : (twice.binaries.map ELFBinary.path).Pairwise fun earlier later => pathKey earlier ≠ pathKey later :=
    List.pairwise_map.mpr differ
  have same : twice.binaries.map ELFBinary.path = [ascii "/bin/m", ascii "/lib/a", ascii "/lib/a"] := paths
  rw [same] at keys
  exact absurd keys (by decide)

end DynLoader

end Sloader
