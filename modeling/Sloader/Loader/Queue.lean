import Sloader.Binary.Load
import Mathlib.Data.Set.Finite.List
import Mathlib.Data.Fintype.Basic
import Mathlib.Data.Set.Card

namespace Sloader.DynLoader

open Data

/-! The loop of `LoadDependingLibs`: what one turn can do, the states it passes
through, and that it comes to an end. -/

variable {host : Host} {loader next start after : DynLoader} {request : Request}
  {queue rest : List Request} {rootPath : Path}

theorem popRequest_cases (ran : loader.popRequest host request queue = .ok (next, rest)) :
    (request.libraryName ∈ loader.loaded ∧ next = loader ∧ rest = queue) ∨
    (request.libraryName ∉ loader.loaded ∧ isSkipped request.libraryName = true ∧
      next = loader.insertLoaded request.libraryName ∧ rest = queue) ∨
    (request.libraryName ∉ loader.loaded ∧ isSkipped request.libraryName = false ∧
      ∃ path binary, findLibrary host request.libraryName request.runpath request.rpath = .ok path ∧
        (loader.insertLoaded request.libraryName).emplace host path = .ok (binary, next) ∧
        rest = queue ++ binary.requests) := by
  unfold popRequest at ran
  split at ran
  · rename_i known
    cases ran
    exact .inl ⟨known, rfl, rfl⟩
  · rename_i unknown
    split at ran
    · rename_i skipped
      cases ran
      exact .inr (.inl ⟨unknown, skipped, rfl, rfl⟩)
    · rename_i wanted
      simp only [bind_eq_ok, pure_eq_ok, Prod.mk.injEq] at ran
      obtain ⟨path, found, ⟨binary, loaded⟩, emplaced, rfl, rfl⟩ := ran
      exact .inr (.inr ⟨unknown, by simpa using wanted, path, binary, found, emplaced, rfl⟩)

theorem loadRoot_spec (ran : start.loadRoot host rootPath = .ok (next, queue)) :
    ∃ binary loader, start.emplace host rootPath = .ok (binary, loader) ∧
      next = loader.insertLoaded (filename rootPath) ∧ queue = binary.requests := by
  simp only [loadRoot, bind_eq_ok, pure_eq_ok, Prod.mk.injEq] at ran
  obtain ⟨⟨binary, loader⟩, emplaced, rfl, rfl⟩ := ran
  exact ⟨binary, loader, emplaced, rfl, rfl⟩

/-- The states in which the loop tests its queue, from a given call on. -/
inductive Visits (host : Host) (start : DynLoader) (rootPath : Path) : DynLoader → List Request → Prop where
  | root {loader : DynLoader} {queue : List Request}
      (ran : start.loadRoot host rootPath = .ok (loader, queue)) :
      Visits host start rootPath loader queue
  | pop {loader next : DynLoader} {request : Request} {queue rest : List Request}
      (visited : Visits host start rootPath loader (request :: queue))
      (ran : loader.popRequest host request queue = .ok (next, rest)) :
      Visits host start rootPath next rest

def Asks (host : Host) (start : DynLoader) (rootPath : Path) (loader : DynLoader) (request : Request) : Prop :=
  (∃ queue, Visits host start rootPath loader (request :: queue)) ∧
    request.libraryName ∉ loader.loaded ∧ isSkipped request.libraryName = false

theorem Visits.drained (visited : Visits host start rootPath loader queue) {steps : Nat}
    (ran : drainQueue host steps loader queue = .ok after) :
    Visits host start rootPath after [] := by
  induction steps generalizing loader queue with
  | zero =>
      cases queue with
      | nil =>
          cases ran
          exact visited
      | cons request queue => contradiction
  | succ steps ih =>
      cases queue with
      | nil =>
          cases ran
          exact visited
      | cons request queue =>
          simp only [drainQueue, bind_eq_ok] at ran
          obtain ⟨⟨next, rest⟩, popped, remaining⟩ := ran
          exact ih (visited.pop popped) remaining

theorem Visits.of_loadDependingLibs {steps : Nat}
    (ran : start.loadDependingLibs host steps rootPath = .ok after) :
    Visits host start rootPath after [] := by
  simp only [loadDependingLibs, bind_eq_ok] at ran
  obtain ⟨⟨loader, queue⟩, rooted, drained⟩ := ran
  exact (Visits.root rooted).drained drained

theorem Visits.completes {steps : Nat}
    (ran : start.loadDependingLibs host steps rootPath = .ok after)
    (visited : Visits host start rootPath loader queue) :
    ∃ remaining, drainQueue host remaining loader queue = .ok after := by
  induction visited with
  | root rooted =>
      simp only [loadDependingLibs, rooted, bind_eq_ok] at ran
      obtain ⟨_, same, drained⟩ := ran
      cases same
      exact ⟨steps, drained⟩
  | pop _ popped ih =>
      obtain ⟨remaining, drained⟩ := ih
      cases remaining with
      | zero => contradiction
      | succ remaining =>
          simp only [drainQueue, popped, bind_eq_ok] at drained
          obtain ⟨_, same, drained⟩ := drained
          cases same
          exact ⟨remaining, drained⟩

/-- What marking a name and adding a binary preserve holds in every state of the loop. -/
theorem Visits.invariant (Holds : DynLoader → Prop)
    (marked : ∀ loader name, Holds loader → Holds (loader.insertLoaded name))
    (added : ∀ loader path binary next, Holds loader → loader.emplace host path = .ok (binary, next) → Holds next)
    (initial : Holds start) (visited : Visits host start rootPath loader queue) : Holds loader := by
  induction visited with
  | root ran =>
      obtain ⟨binary, loader, emplaced, rfl, rfl⟩ := loadRoot_spec ran
      exact marked _ _ (added _ _ _ _ initial emplaced)
  | pop _ ran ih =>
      rcases popRequest_cases ran with ⟨_, rfl, rfl⟩ | ⟨_, _, rfl, rfl⟩ | ⟨_, _, path, binary, _, emplaced, rfl⟩
      · exact ih
      · exact marked _ _ ih
      · exact added _ _ _ _ (marked _ _ ih) emplaced

/-- The first binary that a call adds is its root. -/
theorem Visits.root_binary (visited : Visits host start rootPath loader queue) :
    ∃ library more, loader.binaries = start.binaries ++ library :: more ∧ library.path = rootPath := by
  induction visited with
  | root ran =>
      obtain ⟨binary, loader, emplaced, rfl, rfl⟩ := loadRoot_spec ran
      have binaries := emplace_binaries emplaced
      exact ⟨binary, [], binaries, emplace_path emplaced⟩
  | pop _ ran ih =>
      obtain ⟨library, more, binaries, path⟩ := ih
      rcases popRequest_cases ran with ⟨_, rfl, rfl⟩ | ⟨_, _, rfl, rfl⟩ | ⟨_, _, _, binary, _, emplaced, rfl⟩
      · exact ⟨library, more, binaries, path⟩
      · exact ⟨library, more, binaries, path⟩
      · refine ⟨library, more ++ [binary], ?_, path⟩
        rw [emplace_binaries emplaced, insertLoaded, binaries, List.append_assoc, List.cons_append]

/-- The names that can occur at all: strings that fit into memory. -/
def names : Set CString := { name | name.length ≤ 2 ^ 64 }

theorem names_finite : names.Finite := by
  have bytes : Finite UInt8 := Finite.of_injective UInt8.toFin fun _ _ => UInt8.toFin_inj.mp
  exact List.finite_length_le UInt8 (2 ^ 64)

noncomputable def unseen (loader : DynLoader) : Nat :=
  (names \ { name | name ∈ loader.loaded }).ncard

theorem unseen_insertLoaded {name : CString} (bounded : name ∈ names) (fresh : name ∉ loader.loaded) :
    (loader.insertLoaded name).unseen < loader.unseen := by
  refine Set.ncard_lt_ncard ?_ (names_finite.subset Set.sdiff_subset)
  refine Set.ssubset_iff_of_subset ?_ |>.mpr ⟨name, ⟨bounded, fresh⟩, ?_⟩
  · intro other ⟨isName, unknown⟩
    exact ⟨isName, fun known => unknown (List.mem_cons_of_mem name known)⟩
  · intro ⟨_, unknown⟩
    exact unknown List.mem_cons_self

theorem requests_bounded {binary : ELFBinary} (bounded : binary.NeededsBounded) :
    ∀ request ∈ binary.requests, request.libraryName ∈ names := by
  intro request member
  obtain ⟨name, needed, rfl⟩ := List.mem_map.mp member
  exact bounded name needed

/-- The number of unseen names never grows, and a turn that leaves it alone
shortens the queue. -/
theorem popRequest_decreases (bounded : request.libraryName ∈ names)
    (ran : loader.popRequest host request queue = .ok (next, rest)) :
    next.unseen < loader.unseen ∨ next.unseen = loader.unseen ∧ rest.length = queue.length := by
  rcases popRequest_cases ran with ⟨_, rfl, rfl⟩ | ⟨fresh, _, rfl, rfl⟩ | ⟨fresh, _, path, binary, _, emplaced, rfl⟩
  · exact .inr ⟨rfl, rfl⟩
  · exact .inl (unseen_insertLoaded bounded fresh)
  · have same : next.unseen = (loader.insertLoaded request.libraryName).unseen := by
      simp only [unseen, emplace_loaded emplaced]
    exact .inl (same ▸ unseen_insertLoaded bounded fresh)

theorem popRequest_bounded (bounded : ∀ request ∈ queue, request.libraryName ∈ names)
    (ran : loader.popRequest host request queue = .ok (next, rest)) :
    ∀ request ∈ rest, request.libraryName ∈ names := by
  rcases popRequest_cases ran with ⟨_, rfl, rfl⟩ | ⟨_, _, rfl, rfl⟩ | ⟨_, _, path, binary, _, emplaced, rfl⟩
  · exact bounded
  · exact bounded
  · intro request member
    rcases List.mem_append.mp member with old | new
    · exact bounded request old
    · exact requests_bounded (emplace_neededs emplaced) request new

end Sloader.DynLoader
