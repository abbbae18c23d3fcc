import Sloader.Dlsym

namespace Sloader

open Data

/-! What becomes of a `sloader_dlopen` that cannot find a library, and of a
`sloader_dlsym` that cannot find a name: the process ends. -/

namespace DynLoader

variable {host : Host} {start loader next after : DynLoader} {request : Request} {queue : List Request}
  {rootPath : Path} {steps : Nat} {name : CString} {handle : Address} {stop : Stop}

/-- From a state that the loop comes to, a call goes on as the loop does from there. -/
theorem Visits.resume (visited : Visits host start rootPath loader queue) :
    ∃ taken, ∀ steps, start.loadDependingLibs host (steps + taken) rootPath = drainQueue host steps loader queue := by
  induction visited with
  | root rooted =>
      refine ⟨0, fun steps => ?_⟩
      simp only [loadDependingLibs, rooted, bind, Except.bind, Nat.add_zero]
  | pop _ popped ih =>
      obtain ⟨taken, resumed⟩ := ih
      refine ⟨taken + 1, fun steps => ?_⟩
      rw [← Nat.add_assoc, Nat.add_right_comm, resumed]
      simp only [drainQueue, popped, bind, Except.bind]

theorem Asks.stops (asked : Asks host start rootPath loader request)
    (missing : findLibrary host request.libraryName request.runpath request.rpath = .error stop) :
    ∃ enough, ∀ steps, enough ≤ steps → start.loadDependingLibs host steps rootPath = .error stop := by
  obtain ⟨⟨queue, visited⟩, unknown, wanted⟩ := asked
  obtain ⟨taken, resumed⟩ := visited.resume
  refine ⟨taken + 1, ?_⟩
  intro steps enough
  obtain ⟨more, rfl⟩ := Nat.exists_eq_add_of_le enough
  have turn : taken + 1 + more = more + 1 + taken := by omega
  rw [turn, resumed]
  simp only [drainQueue, popRequest, unknown, wanted, missing, if_false, Bool.false_eq_true, bind, Except.bind]

/-- A name that the call has looked up: one of the new binaries lists it, and
another was loaded from the path that was found. -/
def FoundFor (host : Host) (new : List ELFBinary) (name : CString) : Prop :=
  ∃ lister ∈ new, ∃ binary ∈ new, name ∈ lister.neededs ∧
    findLibrary host name lister.runpath lister.rpath = .ok binary.path

theorem FoundFor.append {new : List ELFBinary} (found : FoundFor host new name) (binary : ELFBinary) :
    FoundFor host (new ++ [binary]) name := by
  obtain ⟨lister, inNew, library, member, rest⟩ := found
  exact ⟨lister, List.mem_append_left _ inNew, library, List.mem_append_left _ member, rest⟩

/-- The dependencies of the new binaries, while some requests are still queued. -/
structure Closed (host : Host) (start : DynLoader) (rootPath : Path) (loader : DynLoader) (queue : List Request)
    (new : List ELFBinary) : Prop where
  binaries : loader.binaries = start.binaries ++ new
  needed : ∀ binary ∈ new, ∀ name ∈ binary.neededs, name ∈ loader.loaded ∨ name ∈ queue.map Request.libraryName
  queued : ∀ request ∈ queue, ∃ binary ∈ new, request ∈ binary.requests
  found : ∀ name ∈ loader.loaded,
    name ∈ start.loaded ∨ name = filename rootPath ∨ isSkipped name = true ∨ FoundFor host new name

theorem mem_requests_name {binary : ELFBinary} (member : request ∈ binary.requests) :
    request.libraryName ∈ binary.neededs ∧ request.runpath = binary.runpath ∧ request.rpath = binary.rpath := by
  obtain ⟨name, needed, rfl⟩ := List.mem_map.mp member
  exact ⟨needed, rfl, rfl⟩

theorem name_mem_requests {binary : ELFBinary} (needed : name ∈ binary.neededs) :
    name ∈ binary.requests.map Request.libraryName :=
  List.mem_map.mpr ⟨⟨name, binary.runpath, binary.rpath⟩, List.mem_map.mpr ⟨name, needed, rfl⟩, rfl⟩

/-- Dropping or marking the first request of the queue. -/
theorem Closed.drop {new : List ELFBinary} (closed : Closed host start rootPath loader (request :: queue) new)
    (binaries : next.binaries = loader.binaries) (known : request.libraryName ∈ next.loaded)
    (kept : ∀ name ∈ loader.loaded, name ∈ next.loaded)
    (marked : ∀ name ∈ next.loaded, name ∈ loader.loaded ∨ isSkipped name = true) :
    Closed host start rootPath next queue new where
  binaries := binaries.trans closed.binaries
  needed := by
    intro binary member name listed
    rcases closed.needed binary member name listed with loaded | queued
    · exact .inl (kept name loaded)
    · rw [List.map_cons, List.mem_cons] at queued
      rcases queued with rfl | queued
      · exact .inl known
      · exact .inr queued
  queued := fun other member => closed.queued other (List.mem_cons_of_mem request member)
  found := by
    intro name member
    rcases marked name member with loaded | skipped
    · exact closed.found name loaded
    · exact .inr (.inr (.inl skipped))

/-- Loading a library for the first request of the queue. -/
theorem Closed.load {new : List ELFBinary} {binary : ELFBinary}
    (closed : Closed host start rootPath loader (request :: queue) new)
    (found : findLibrary host request.libraryName request.runpath request.rpath = .ok binary.path)
    (binaries : next.binaries = loader.binaries ++ [binary])
    (loaded : next.loaded = request.libraryName :: loader.loaded) :
    Closed host start rootPath next (queue ++ binary.requests) (new ++ [binary]) where
  binaries := by rw [binaries, closed.binaries, List.append_assoc]
  needed := by
    intro other member name listed
    rw [loaded, List.mem_cons, List.map_append, List.mem_append]
    rcases List.mem_append.mp member with old | last
    · rcases closed.needed other old name listed with isLoaded | queued
      · exact .inl (.inr isLoaded)
      · rw [List.map_cons, List.mem_cons] at queued
        rcases queued with same | queued
        · exact .inl (.inl same)
        · exact .inr (.inl queued)
    · rw [List.mem_singleton.mp last] at listed
      exact .inr (.inr (name_mem_requests listed))
  queued := by
    intro other member
    rcases List.mem_append.mp member with old | last
    · obtain ⟨lister, inNew, listed⟩ := closed.queued other (List.mem_cons_of_mem request old)
      exact ⟨lister, List.mem_append_left _ inNew, listed⟩
    · exact ⟨binary, List.mem_append_right _ (List.mem_singleton_self binary), last⟩
  found := by
    intro name member
    rw [loaded, List.mem_cons] at member
    rcases member with rfl | old
    · obtain ⟨lister, inNew, listed⟩ := closed.queued request List.mem_cons_self
      obtain ⟨needed, runpath, rpath⟩ := mem_requests_name listed
      rw [runpath, rpath] at found
      exact .inr (.inr (.inr ⟨lister, List.mem_append_left _ inNew, binary,
        List.mem_append_right _ (List.mem_singleton_self binary), needed, found⟩))
    · rcases closed.found name old with before | root | skipped | looked
      · exact .inl before
      · exact .inr (.inl root)
      · exact .inr (.inr (.inl skipped))
      · exact .inr (.inr (.inr (looked.append binary)))

theorem Visits.closed (visited : Visits host start rootPath loader queue) :
    ∃ new, Closed host start rootPath loader queue new := by
  induction visited with
  | root ran =>
      obtain ⟨binary, loader, emplaced, rfl, rfl⟩ := loadRoot_spec ran
      have binaries := emplace_binaries emplaced
      refine ⟨[binary], binaries, ?_, ?_, ?_⟩
      · intro other member name listed
        rw [List.mem_singleton.mp member] at listed
        exact .inr (name_mem_requests listed)
      · intro request member
        exact ⟨binary, List.mem_singleton_self binary, member⟩
      · intro name member
        rw [insertLoaded, List.mem_cons, emplace_loaded emplaced] at member
        rcases member with rfl | old
        · exact .inr (.inl rfl)
        · exact .inl old
  | pop _ ran ih =>
      obtain ⟨new, closed⟩ := ih
      rcases popRequest_cases ran with ⟨known, rfl, rfl⟩ | ⟨_, skipped, rfl, rfl⟩ | ⟨_, _, path, binary, found, emplaced, rfl⟩
      · exact ⟨new, closed.drop rfl known (fun name member => member) (fun name member => .inl member)⟩
      · refine ⟨new, closed.drop rfl List.mem_cons_self (fun name member => List.mem_cons_of_mem _ member) ?_⟩
        intro name member
        rcases List.mem_cons.mp member with rfl | old
        · exact .inr skipped
        · exact .inl old
      · have binaries := emplace_binaries emplaced
        rw [← emplace_path emplaced] at found
        exact ⟨new ++ [binary], closed.load found binaries (emplace_loaded emplaced)⟩

theorem sloaderDlopen_error {file : CString} (wanted : isSkipped file = false)
    (missing : findLibrary host file none none = .error stop) (loader : DynLoader) (steps : Nat) :
    loader.sloaderDlopen host steps (some file) = .error stop := by
  simp only [sloaderDlopen, wanted, missing, Bool.false_eq_true, if_false, bind, Except.bind]

theorem sloaderDlopen_loads_error {file : CString} {path : Path} (wanted : isSkipped file = false)
    (found : findLibrary host file none none = .ok path)
    (failed : loader.loadDependingLibs host steps path = .error stop) :
    loader.sloaderDlopen host steps (some file) = .error stop := by
  simp only [sloaderDlopen, wanted, found, failed, Bool.false_eq_true, if_false, bind, Except.bind]

theorem sloaderDlopen_handle {file : Option CString}
    (ran : loader.sloaderDlopen host steps file = .ok (handle, next)) : handle ≠ 0 := by
  cases file with
  | none =>
      cases ran
      decide
  | some file =>
      cases wanted : isSkipped file with
      | true =>
          simp only [sloaderDlopen, wanted, if_true, Except.ok.injEq, Prod.mk.injEq] at ran
          rw [← ran.1]
          decide
      | false =>
          obtain ⟨_, _, _, _, _, rfl⟩ := sloaderDlopen_steps wanted ran
          decide

theorem sloaderDlopen_closed {file : CString} (wanted : isSkipped file = false)
    (ran : loader.sloaderDlopen host steps (some file) = .ok (handle, next)) :
    ∃ path new, findLibrary host file none none = .ok path ∧ next.binaries = loader.binaries ++ new ∧
      ∀ binary ∈ new, ∀ name ∈ binary.neededs,
        name ∈ loader.loaded ∨ name = filename path ∨ isSkipped name = true ∨ FoundFor host new name := by
  obtain ⟨path, loaded, found, loads, relocates, _⟩ := sloaderDlopen_steps wanted ran
  obtain ⟨new, closed⟩ := (Visits.of_loadDependingLibs loads).closed
  refine ⟨path, new, found, (relocate_binaries relocates).trans closed.binaries, ?_⟩
  intro binary member name listed
  rcases closed.needed binary member name listed with isLoaded | queued
  · exact closed.found name isLoaded
  · exact absurd queued List.not_mem_nil

/-- `sloader_dlopen` never returns a null pointer.  It does not return if it cannot
find the library or one of those that its loop comes to, and when it returns it
has found whatever the new binaries need.  `sloader_dlsym` does not return for a
name without an entry, and accepts a weak undefined one. -/
theorem dlopen_failure_stops (host : Host) (loader : DynLoader) :
    (∀ steps file handle next, loader.sloaderDlopen host steps file = .ok (handle, next) → handle ≠ 0) ∧
    (∀ steps file stop, isSkipped file = false → findLibrary host file none none = .error stop →
      loader.sloaderDlopen host steps (some file) = .error stop) ∧
    (∀ file path before request stop, isSkipped file = false → findLibrary host file none none = .ok path →
      Asks host loader path before request →
      findLibrary host request.libraryName request.runpath request.rpath = .error stop →
      ∃ enough, ∀ steps, enough ≤ steps → loader.sloaderDlopen host steps (some file) = .error stop) ∧
    (∀ steps file handle next, isSkipped file = false →
      loader.sloaderDlopen host steps (some file) = .ok (handle, next) →
      ∃ path new, findLibrary host file none none = .ok path ∧ next.binaries = loader.binaries ++ new ∧
        ∀ binary ∈ new, ∀ name ∈ binary.neededs,
          name ∈ loader.loaded ∨ name = filename path ∨ isSkipped name = true ∨ FoundFor host new name) ∧
    ∀ handle name, loader.memory.Readable loader.binaries →
      firstNamed loader.memory name Elf64Sym.isDefined (symbolTable loader.binaries) = none →
      loader.sloaderDlsym handle name =
        match firstNamed loader.memory name Elf64Sym.isWeakUndef (symbolTable loader.binaries) with
        | none => .error (.check "opt")
        | some entry => .ok (entry.2.stValue + entry.1.baseAddr) := by
  refine ⟨fun _ _ _ _ ran => sloaderDlopen_handle ran,
    fun steps _ _ wanted missing => sloaderDlopen_error wanted missing loader steps, ?_,
    fun _ _ _ _ wanted ran => sloaderDlopen_closed wanted ran, ?_⟩
  · intro file path before request stop wanted found asked missing
    obtain ⟨enough, stops⟩ := asked.stops missing
    exact ⟨enough, fun steps bound => sloaderDlopen_loads_error wanted found (stops steps bound)⟩
  · intro handle name readable undefined
    rw [sloaderDlsym_eq readable, definition, undefined]
    rfl

/-- An executable, and a library `b` for it to open that needs a missing one. -/
def brokenHost : Host :=
  let executable : Sample.Object := {}
  -- the string is "q", at 2
  let library : Sample.Object := { strings := [0x710000], needed := [2] }
  Sample.host [(ascii "m", executable.file), (ascii "b", library.file)] fun _ => none

theorem brokenHost_facts :
    findLibrary brokenHost (ascii "q") none none = .error .abort ∧
    findLibrary brokenHost (ascii "b") none none = .ok (ascii "/lib/b") ∧
    (Sample.startup brokenHost (ascii "/bin/m")).toOption.map (fun loader => decide (
      symbolTable loader.binaries = [] ∧
      (loader.loadRoot brokenHost (ascii "/lib/b")).toOption.map (fun (next, queue) => (next.loaded, queue)) =
        some ([ascii "b", ascii "m"], [⟨ascii "q", none, none⟩]))) = some true := by
  decide +kernel

/-- Neither a missing library nor a missing dependency nor a missing name makes
the functions return. -/
theorem dlopen_aborts :
    ∃ loader, Run brokenHost (ascii "/bin/m") loader ∧
      findLibrary brokenHost (ascii "q") none none = .error .abort ∧
      (∀ steps, loader.sloaderDlopen brokenHost steps (some (ascii "q")) = .error .abort) ∧
      (∃ enough, ∀ steps, enough ≤ steps →
        loader.sloaderDlopen brokenHost steps (some (ascii "b")) = .error .abort) ∧
      ∀ handle, loader.sloaderDlsym handle (ascii "q") = .error (.check "opt") := by
  obtain ⟨missing, found, facts⟩ := brokenHost_facts
  obtain ⟨loader, run, checked⟩ := exists_startup facts
  obtain ⟨empty, rooted⟩ := of_decide_eq_true checked
  obtain ⟨⟨next, queue⟩, ran, same⟩ := Option.map_eq_some_iff.mp rooted
  obtain ⟨marked, rfl⟩ := Prod.mk.inj same
  have asked : Asks brokenHost loader (ascii "/lib/b") next ⟨ascii "q", none, none⟩ := by
    refine ⟨⟨[], .root (eq_ok_of_toOption ran)⟩, ?_, by decide⟩
    rw [marked]
    decide
  obtain ⟨enough, stops⟩ := asked.stops missing
  refine ⟨loader, run, missing, sloaderDlopen_error (by decide) missing loader,
    ⟨enough, fun steps bound => sloaderDlopen_loads_error (by decide) found (stops steps bound)⟩, ?_⟩
  intro handle
  rw [sloaderDlsym_eq (.inl empty), empty]
  rfl

end DynLoader

end Sloader
