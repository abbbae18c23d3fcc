import Sloader.Binary.Grants
import Sloader.Relocate.Words
import Sloader.Run.Layout
import Mathlib.Logic.Relation

namespace Sloader

open Data

/-! The address space over a run of a program that maps nothing itself: the
anonymous pages of the binaries are added to it, each when it is not in use.  The
private mappings of whole files are no part of it. -/

def ELFBinary.pages (binary : ELFBinary) : List (Address × Nat) :=
  ELFBinary.pageRanges binary.baseAddr binary.filePhdrs

/-- The pages of the binaries, those of the last one first. -/
def pagesOf (binaries : List ELFBinary) : List (Address × Nat) :=
  binaries.reverse.flatMap ELFBinary.pages

theorem pagesOf_append (left right : List ELFBinary) : pagesOf (left ++ right) = pagesOf right ++ pagesOf left := by
  rw [pagesOf, List.reverse_append, List.flatMap_append]
  rfl

namespace DynLoader

variable {host : Host} {start loader next last loaded : DynLoader} {binary : ELFBinary} {path rootPath : Path}
  {steps : Nat}

/-- The binaries that were added took their pages, and no others were taken. -/
def Accounted (start loader : DynLoader) : Prop :=
  ∃ new, loader.binaries = start.binaries ++ new ∧ start.memory.Takes loader.memory (pagesOf new)

theorem Accounted.refl (loader : DynLoader) : Accounted loader loader :=
  ⟨[], by simp, .nothing _⟩

theorem Accounted.trans (left : Accounted start loader) (right : Accounted loader next) : Accounted start next := by
  obtain ⟨new, binaries, takes⟩ := left
  obtain ⟨more, later, takesLater⟩ := right
  refine ⟨new ++ more, by rw [later, binaries, List.append_assoc], ?_⟩
  rw [pagesOf_append]
  exact takes.trans takesLater

/-- No binary is added, and no page taken. -/
theorem Accounted.of_ranges (binaries : next.binaries = loader.binaries)
    (ranges : next.memory.ranges = loader.memory.ranges) : Accounted loader next :=
  ⟨[], by simp [binaries], ranges, .nothing⟩

theorem emplace_accounted (sound : host.MmapSound) (ran : loader.emplace host path = .ok (binary, next)) :
    Accounted loader next := by
  refine ⟨[binary], emplace_binaries ran, ?_⟩
  obtain ⟨mapping, segments, _, rfl⟩ := emplace_mapping ran
  have takes := ELFBinary.loadSegments_takes sound segments
  simpa [pagesOf, ELFBinary.pages] using takes

theorem loadDependingLibs_accounted (sound : host.MmapSound)
    (ran : start.loadDependingLibs host steps rootPath = .ok loaded) : Accounted start loaded := by
  refine (Visits.of_loadDependingLibs ran).invariant (Accounted start) ?_ ?_ (.refl start)
  · intro loader name accounted
    exact accounted
  · intro loader path binary next accounted ran
    exact accounted.trans (emplace_accounted sound ran)

theorem relocate_accounted (ran : loader.relocate host = .ok next) : Accounted loader next := by
  obtain ⟨records, passed, _⟩ := relocate_pass ran
  exact .of_ranges (relocate_binaries ran) (pass_ranges passed)

theorem initializeTls_ranges (binaries : List ELFBinary) (loader : DynLoader) :
    (binaries.foldl (initializeTls host) loader).memory.ranges = loader.memory.ranges := by
  induction binaries generalizing loader with
  | nil => rfl
  | cons b rest ih =>
      rw [List.foldl_cons, ih, initializeTls]
      split <;> rfl

theorem executeTls_accounted (ran : loader.executeTls host = .ok next) : Accounted loader next := by
  refine .of_ranges (executeTls_bookkeeping ran).binaries ?_
  obtain ⟨_, _, rfl⟩ := executeTls_eq_ok.mp ran
  exact initializeTls_ranges _ _

/-- What happens to the loader while the program maps and unmaps nothing. -/
inductive Undisturbed (host : Host) : DynLoader → DynLoader → Prop where
  | load {loader loaded next : DynLoader} {steps : Nat} {rootPath : Path}
      (libraries : loader.loadDependingLibs host steps rootPath = .ok loaded)
      (ran : loaded.relocate host = .ok next) : Undisturbed host loader next
  | store {loader : DynLoader} (memory : Memory) (ranges : memory.ranges = loader.memory.ranges) :
      Undisturbed host loader (loader.withMemory memory)
  | tls {loader next : DynLoader} (ran : loader.executeTls host = .ok next) : Undisturbed host loader next
  | dlopen {loader next : DynLoader} {steps : Nat} {filename : Option CString} {handle : Address}
      (ran : loader.sloaderDlopen host steps filename = .ok (handle, next)) : Undisturbed host loader next

theorem Undisturbed.accounted (sound : host.MmapSound) (step : Undisturbed host loader next) :
    Accounted loader next := by
  cases step with
  | load libraries ran => exact (loadDependingLibs_accounted sound libraries).trans (relocate_accounted ran)
  | store memory ranges => exact .of_ranges rfl ranges
  | tls ran => exact executeTls_accounted ran
  | dlopen ran =>
      rcases sloaderDlopen_cases ran with rfl | ⟨path, loaded, loads, relocates⟩
      · exact .refl _
      · exact (loadDependingLibs_accounted sound loads).trans (relocate_accounted relocates)

/-- However often the program opens libraries, what is mapped, but for the private
mappings of files, is what was mapped before and the pages of the binaries; no two of
their ranges share an address, and none has one that was in use before. -/
theorem undisturbed_addressSpace (sound : host.MmapSound)
    (run : Relation.ReflTransGen (Undisturbed host) start last) :
    ∃ new, last.binaries = start.binaries ++ new ∧
      ((pagesOf new).Pairwise fun later earlier => Apart later.1 later.2 earlier.1 earlier.2) ∧
      (∀ address, Covered (pagesOf new) address → start.memory.mapped address = false) ∧
      ∀ address, last.memory.mapped address = true ↔
        Covered (pagesOf new) address ∨ start.memory.mapped address = true := by
  have accounted : Accounted start last := by
    induction run with
    | refl => exact .refl start
    | tail _ step ih => exact ih.trans (step.accounted sound)
  obtain ⟨new, binaries, takes⟩ := accounted
  refine ⟨new, binaries, takes.grants.apart, ?_, fun address => takes.mapped_iff⟩
  intro address covered
  obtain ⟨range, member, inside⟩ := covered
  cases used : start.memory.mapped address with
  | false => rfl
  | true => exact absurd (Memory.mapped_iff.mp used) (takes.grants.unused range member address inside)

theorem undisturbed_addressSpace_tlsHost :
    ∃ last, Relation.ReflTransGen (Undisturbed Sample.tlsHost) (fresh Sample.memory) last ∧
      ∃ new, last.binaries = [] ++ new ∧ new.length = 2 ∧
        ∀ address, last.memory.mapped address = true ↔
          Covered (pagesOf new) address ∨ Sample.memory.mapped address = true := by
  obtain ⟨last, started, checked⟩ := Option.map_eq_some_iff.mp tlsHost_ordered
  obtain ⟨loaded, loads, relocates⟩ := bind_eq_ok.mp (eq_ok_of_toOption started)
  have run := Relation.ReflTransGen.single (Undisturbed.load loads relocates)
  obtain ⟨new, binaries, _, _, mapped⟩ := undisturbed_addressSpace (Sample.host_mmapSound _ _) run
  have two : last.binaries.length = 2 := (of_decide_eq_true checked).1
  refine ⟨last, run, new, binaries, ?_, mapped⟩
  rw [binaries] at two
  exact two

end DynLoader

end Sloader
