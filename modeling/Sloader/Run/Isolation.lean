import Sloader.Relocate.Words
import Sloader.Run.History
import Sloader.Run.Layout
import Sloader.Sample

namespace Sloader

open Data

/-! What a call of `sloader_dlopen` leaves alone.  New segments lie in pages that
were not in use, and only the entries of new binaries are processed. -/

def ELFBinary.CopiesFit (binary : ELFBinary) : Prop :=
  ∀ ph ∈ binary.segments, CopyFits binary.baseAddr ph

/-- The ranges of the binary's `PT_LOAD` headers. -/
def ELFBinary.Owns (binary : ELFBinary) (address : Address) : Prop :=
  ∃ ph ∈ binary.segments, Inside (binary.baseAddr + ph.pVaddr) ph.pMemsz.toNat address

def ELFBinary.Unused (memory : Memory) (binary : ELFBinary) : Prop :=
  ∀ address, binary.Owns address → memory.mapped address = false

theorem ELFBinary.Unused.earlier {before memory : Memory} {binary : ELFBinary} (unused : binary.Unused memory)
    (extended : before.Extends memory) : binary.Unused before := by
  intro address owned
  by_contra known
  have mapped := (extended address (by simpa using known)).1
  rw [unused address owned] at mapped
  contradiction

theorem pass_outside {host : Host} {binaries : List ELFBinary} {memory after : Memory} {items : List Item}
    {records : List Processed} {address : Address}
    (passed : pass host binaries memory items = .ok (after, records))
    (outside : ∀ record ∈ records, ¬ record.write.Covers address) : after.bytes address = memory.bytes address := by
  induction items generalizing memory records with
  | nil =>
      cases passed
      rfl
  | cons item rest ih =>
      obtain ⟨_, write, later, _, remaining, rfl⟩ := pass_cons_ok.mp passed
      have kept := ih remaining fun record member => outside record (List.mem_cons_of_mem _ member)
      exact kept.trans (Write.apply_outside (outside _ List.mem_cons_self))

namespace DynLoader

variable {host : Host} {mainPath path rootPath : Path} {start loader loaded next : DynLoader} {binary : ELFBinary}
  {queue : List Request} {steps : Nat} {filename : Option CString} {handle : Address}

theorem emplace_unused (sound : host.MmapSound) (ran : loader.emplace host path = .ok (binary, next))
    (fits : binary.CopiesFit) : loader.memory.Extends next.memory ∧ binary.Unused loader.memory := by
  obtain ⟨mapping, segments, _, rfl⟩ := emplace_mapping ran
  have copies : ∀ ph ∈ binary.filePhdrs, ph.pType = .load → ELFBinary.CopyFits binary.baseAddr ph := by
    intro ph member wanted
    exact fits ph (ELFBinary.mem_segments.mpr ⟨member, wanted⟩)
  refine ⟨ELFBinary.loadSegments_extends sound segments copies, ?_⟩
  intro address ⟨ph, member, inside⟩
  obtain ⟨inHeaders, wanted⟩ := ELFBinary.mem_segments.mp member
  obtain ⟨offset, within, _, rfl⟩ := inside.exists_offset
  rw [BitVec.add_comm binary.baseAddr]
  exact ELFBinary.loadSegments_unused sound segments copies ph inHeaders wanted _
    (ELFBinary.inside_pages (fits ph member).pages within)

/-- What holds all along a call, as long as the binaries loaded so far are in order. -/
def UnusedBefore (start loader : DynLoader) : Prop :=
  ∃ new, loader.binaries = start.binaries ++ new ∧
    ((∀ binary ∈ new, binary.CopiesFit) → start.memory.Extends loader.memory ∧
      ∀ binary ∈ new, binary.Unused start.memory)

theorem UnusedBefore.emplace (sound : host.MmapSound) (unused : UnusedBefore start loader)
    (ran : loader.emplace host path = .ok (binary, next)) : UnusedBefore start next := by
  obtain ⟨new, binaries, holds⟩ := unused
  refine ⟨new ++ [binary], by rw [emplace_binaries ran, binaries, List.append_assoc], ?_⟩
  intro fits
  obtain ⟨extended, unusedOld⟩ := holds fun other member => fits other (List.mem_append_left _ member)
  obtain ⟨extendedLast, unusedLast⟩ := emplace_unused sound ran (fits binary (by simp))
  refine ⟨extended.trans extendedLast, ?_⟩
  intro other member
  rcases List.mem_append.mp member with old | last
  · exact unusedOld other old
  · rw [List.mem_singleton.mp last]
    exact unusedLast.earlier extended

theorem Visits.unusedBefore (sound : host.MmapSound) (visited : Visits host start rootPath loader queue) :
    UnusedBefore start loader := by
  refine visited.invariant (UnusedBefore start) ?_ ?_ ⟨[], by simp, fun _ => ⟨.refl _, by simp⟩⟩
  · intro loader name unused
    exact unused
  · intro loader path binary next unused ran
    exact unused.emplace sound ran

theorem Visits.loaded_subset (visited : Visits host start rootPath loader queue) : start.loaded ⊆ loader.loaded := by
  refine visited.invariant (fun state => start.loaded ⊆ state.loaded) ?_ ?_ (List.Subset.refl _)
  · intro state name subset
    exact List.subset_cons_of_subset name subset
  · intro state path binary next subset ran
    rw [emplace_loaded ran]
    exact subset

/-- A binary whose path is marked is skipped. -/
theorem pending_marked {relocated : List PathKey} {placed : List (ELFBinary × Nat)}
    (done : ∀ entry ∈ placed, pathKey entry.1.path ∈ relocated) :
    pending relocated placed = [] ∧ marked relocated placed = relocated := by
  induction placed with
  | nil => exact ⟨rfl, rfl⟩
  | cons head rest ih =>
      obtain ⟨none, same⟩ := ih fun entry member => done entry (List.mem_cons_of_mem head member)
      have headDone := done head List.mem_cons_self
      simp only [pending, marked, headDone, if_true]
      exact ⟨none, same⟩

/-- Between calls there is nothing left for `Relocate` to do. -/
theorem History.relocate_again (history : History host loader) : loader.relocate host = .ok loader := by
  obtain ⟨none, same⟩ := @pending_marked loader.relocated loader.binaries.zipIdx (by
    intro entry member
    exact (history.marks _).mpr ⟨entry.1, List.fst_mem_of_mem_zipIdx member, rfl⟩)
  rw [relocate_eq, work, none, same]
  simp [pass, processedBy, Functor.map, Except.map]

/-- The entries that are processed next belong to binaries that are new. -/
theorem History.records_new {more : List ELFBinary} {records : List Processed} {after : Memory}
    (history : History host loader) (binaries : loaded.binaries = loader.binaries ++ more)
    (relocated : loaded.relocated = loader.relocated)
    (passed : pass host loaded.binaries loaded.memory loaded.work = .ok (after, records)) :
    ∀ record ∈ records, loader.binaries.length ≤ record.binary := by
  intro record member
  have place : record.place ∈ loaded.work.map Item.place := by
    rw [← pass_places passed]
    exact List.mem_map_of_mem member
  exact ((history.mem_work binaries relocated).mp place).1

/-- What a call may not touch is as before: mapped bytes, the binaries and their
places, and every mark. -/
structure Isolated (before after : DynLoader) : Prop where
  memory : before.memory.Extends after.memory
  binaries : before.binaries <+: after.binaries
  loaded : before.loaded ⊆ after.loaded
  relocated : before.relocated ⊆ after.relocated

theorem Isolated.refl (loader : DynLoader) : Isolated loader loader :=
  ⟨.refl _, List.prefix_rfl, List.Subset.refl _, List.Subset.refl _⟩

theorem History.isolated (sound : host.MmapSound) (history : History host loader)
    (loads : loader.loadDependingLibs host steps path = .ok loaded) (relocates : loaded.relocate host = .ok next)
    (fits : ∀ binary ∈ next.binaries.drop loader.binaries.length, binary.CopiesFit)
    (writes : ∀ record ∈ next.processed.drop loader.processed.length, ∀ binary,
      next.binaries[record.binary]? = some binary → ∀ address, record.write.Covers address → binary.Owns address) :
    Isolated loader next := by
  obtain ⟨new, binaries, relocated, processed⟩ := loadDependingLibs_history loads
  obtain ⟨records, passed, same⟩ := relocate_pass relocates
  have visited := Visits.of_loadDependingLibs loads
  obtain ⟨again, binariesAgain, unused⟩ := visited.unusedBefore sound
  obtain rfl : again = new := List.append_cancel_left (binariesAgain.symm.trans binaries)
  have sameBinaries : next.binaries = loader.binaries ++ again := (relocate_binaries relocates).trans binaries
  have sameProcessed : next.processed = loader.processed ++ records := by rw [same, processed]
  rw [sameBinaries, List.drop_left] at fits
  rw [sameProcessed, List.drop_left, sameBinaries] at writes
  obtain ⟨extended, unused⟩ := unused fits
  refine ⟨?_, ?_, ?_, ?_⟩
  · intro address known
    obtain ⟨mapped, kept⟩ := extended address known
    -- what is mapped already belongs to no new binary, so no entry writes there
    have untouched : ∀ record ∈ records, ¬ record.write.Covers address := by
      intro record member covered
      have isNew := history.records_new binaries relocated passed record member
      obtain ⟨bin, found, _⟩ := ((pass_records passed fun item => DynLoader.mem_work) record member).2.entry
      rw [binaries] at found
      have isMore : bin ∈ again := by
        rw [List.getElem?_append_right isNew] at found
        exact List.mem_of_getElem? found
      have fresh := unused bin isMore address (writes record member bin found address covered)
      rw [known] at fresh
      contradiction
    refine ⟨?_, (pass_outside passed untouched).trans kept⟩
    rw [Memory.mapped, pass_ranges passed]
    exact mapped
  · exact ⟨again, sameBinaries.symm⟩
  · rw [same]
    exact visited.loaded_subset
  · intro key member
    have marks : next.relocated = marked loader.relocated loaded.binaries.zipIdx := by rw [same, relocated]
    rw [marks]
    exact mem_marked.mpr (.inl member)

/-- A call that returns changes no byte that was mapped before it, as long as each
new binary relocates only itself and its segments do not wrap around the end of
memory.  After it there is nothing left to relocate. -/
theorem Run.dlopen_isolated (sound : host.MmapSound) (run : Run host mainPath loader)
    (ran : loader.sloaderDlopen host steps filename = .ok (handle, next))
    (fits : ∀ binary ∈ next.binaries.drop loader.binaries.length, binary.CopiesFit)
    (writes : ∀ record ∈ next.processed.drop loader.processed.length, ∀ binary,
      next.binaries[record.binary]? = some binary → ∀ address, record.write.Covers address → binary.Owns address) :
    Isolated loader next ∧ next.relocate host = .ok next := by
  refine ⟨?_, (Run.dlopen run ran).history.relocate_again⟩
  rcases sloaderDlopen_cases ran with rfl | ⟨path, loaded, loads, relocates⟩
  · exact .refl _
  · exact run.history.isolated sound loads relocates fits writes

/-- An executable, a library with one `RELATIVE` entry, and an executable with a
`p_memsz` that takes its segment from just below the first one around the end of
memory: its pages end where it does, but not what is copied. -/
def neighbourHost : Host :=
  let executable : Sample.Object := {}
  let library : Sample.Object := { data := [0], symbols := [0, 0, 0], relas := [232, 8, 240] }
  let wrapping : Sample.Object := { eType := 2, vaddr := 0x13fff00, data := List.replicate 8 0x2222222222222222 }
  let file := wrapping.file.take 104 ++ Sample.file [0xfffffffffffffff8] ++ wrapping.file.drop 112
  Sample.host [(ascii "m", executable.file), (ascii "a", library.file), (ascii "w", file)] fun _ => none

def openedNeighbours : Except Stop (DynLoader × DynLoader × DynLoader) := do
  let loader ← Sample.startup neighbourHost (ascii "/bin/m")
  let (_, library) ← loader.sloaderDlopen neighbourHost 12 (some (ascii "a"))
  let (_, wrapping) ← loader.sloaderDlopen neighbourHost 12 (some (ascii "w"))
  return (loader, library, wrapping)

theorem openedNeighbours_facts :
    openedNeighbours.toOption.map (fun (loader, library, wrapping) => decide (
      loader.binaries.length = 1 ∧ loader.processed.length = 0 ∧
      (∀ binary ∈ library.binaries.drop 1, ∀ ph ∈ binary.segments, ph.pFilesz.toNat ≤ ph.pMemsz.toNat ∧
        ph.pVaddr.toNat + ph.pMemsz.toNat + binary.baseAddr.toNat + 0xfff < 2 ^ 64) ∧
      (library.processed.map fun record => (record.binary, record.write)) = [(1, .word 0x18000e8 0x18000f0)] ∧
      (∀ binary ∈ library.binaries[1]?, ∃ ph ∈ binary.segments, binary.baseAddr + ph.pVaddr = 0x1800000 ∧
        240 ≤ ph.pMemsz.toNat) ∧
      (∀ binary ∈ wrapping.binaries.drop 1, ∀ ph ∈ binary.segments, ph.pFilesz.toNat ≤ ph.pMemsz.toNat) ∧
      wrapping.processed.length = 0 ∧ loader.memory.mapped 0x1400010 = true ∧
      (∀ binary ∈ loader.binaries[0]?, ∃ ph ∈ binary.segments,
        Inside (binary.baseAddr + ph.pVaddr) ph.pMemsz.toNat 0x1400010) ∧
      loader.memory.bytes 0x1400010 = 3 ∧ wrapping.memory.bytes 0x1400010 = 0x22)) = some true := by
  decide +kernel

theorem exists_openedNeighbours :
    ∃ loader library wrapping first second, openedNeighbours = .ok (loader, library, wrapping) ∧
      Run neighbourHost (ascii "/bin/m") loader ∧
      loader.sloaderDlopen neighbourHost 12 (some (ascii "a")) = .ok (first, library) ∧
      loader.sloaderDlopen neighbourHost 12 (some (ascii "w")) = .ok (second, wrapping) := by
  obtain ⟨⟨loader, library, wrapping⟩, found, _⟩ := Option.map_eq_some_iff.mp openedNeighbours_facts
  have ran := eq_ok_of_toOption found
  have steps := ran
  simp only [openedNeighbours, Sample.startup, bind_eq_ok, pure_eq_ok, Prod.mk.injEq] at steps
  obtain ⟨_, ⟨loaded, loads, relocates⟩, ⟨first, _⟩, opens, ⟨second, _⟩, wraps, rfl, rfl, rfl⟩ := steps
  exact ⟨_, _, _, first, second, ran, .startup loads relocates, opens, wraps⟩

theorem Run.dlopen_isolated_library :
    ∃ loader next handle, Run neighbourHost (ascii "/bin/m") loader ∧
      loader.sloaderDlopen neighbourHost 12 (some (ascii "a")) = .ok (handle, next) ∧ next.processed.length = 1 ∧
      Isolated loader next ∧ next.relocate neighbourHost = .ok next := by
  obtain ⟨loader, library, _, handle, _, ran, run, opens, _⟩ := exists_openedNeighbours
  have facts := openedNeighbours_facts
  rw [ran] at facts
  obtain ⟨one, zero, fits, writes, segment, _⟩ := of_decide_eq_true (Option.some.inj facts)
  have count : library.processed.length = 1 := by simpa using congrArg List.length writes
  refine ⟨loader, library, handle, run, opens, count,
    Run.dlopen_isolated (Sample.host_mmapSound _ _) run opens ?_ ?_⟩
  · rw [one]
    intro binary member ph inSegments
    obtain ⟨sizes, pages⟩ := fits binary member ph inSegments
    exact ⟨sizes, pages⟩
  · rw [zero, List.drop_zero]
    intro record member binary found address covered
    have written := List.mem_map_of_mem (f := fun record : Processed => (record.binary, record.write)) member
    rw [writes, List.mem_singleton, Prod.mk.injEq] at written
    rw [written.1] at found
    obtain ⟨ph, inSegments, start, size⟩ := segment binary found
    refine ⟨ph, inSegments, ?_⟩
    rw [written.2] at covered
    rw [start]
    simp only [Write.Covers, Write.start, Write.count, Inside] at covered ⊢
    bv_omega

/-- With a segment that wraps, a byte of the executable changes. -/
theorem Run.dlopen_overwrites_neighbour :
    ∃ (loader next : DynLoader) (handle : Address) (main : ELFBinary), neighbourHost.MmapSound ∧
      Run neighbourHost (ascii "/bin/m") loader ∧
      loader.sloaderDlopen neighbourHost 12 (some (ascii "w")) = .ok (handle, next) ∧
      (∀ binary ∈ next.binaries.drop loader.binaries.length, ∀ ph ∈ binary.segments,
        ph.pFilesz.toNat ≤ ph.pMemsz.toNat) ∧
      next.processed.drop loader.processed.length = [] ∧ loader.binaries[0]? = some main ∧ main.Owns 0x1400010 ∧
      loader.memory.mapped 0x1400010 = true ∧ loader.memory.bytes 0x1400010 = 3 ∧
      next.memory.bytes 0x1400010 = 0x22 := by
  obtain ⟨loader, _, wrapping, _, handle, ran, run, _, wraps⟩ := exists_openedNeighbours
  have facts := openedNeighbours_facts
  rw [ran] at facts
  obtain ⟨one, zero, _, _, _, sizes, none, mapped, owned, before, after⟩ := of_decide_eq_true (Option.some.inj facts)
  obtain ⟨main, binaries⟩ := List.length_eq_one_iff.mp one
  have found : loader.binaries[0]? = some main := by rw [binaries]; rfl
  refine ⟨loader, wrapping, handle, main, Sample.host_mmapSound _ _, run, wraps, by rwa [one], ?_, found,
    owned main found, mapped, before, after⟩
  rw [List.length_eq_zero_iff.mp none, List.drop_nil]

end DynLoader

end Sloader
