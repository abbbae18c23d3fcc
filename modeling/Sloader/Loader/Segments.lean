import Sloader.Binary.Segments
import Sloader.Loader.Queue
import Sloader.Sample

namespace Sloader

open Data

/-! A call of `LoadDependingLibs` leaves every segment it loads with the bytes of
its file, and everything that was mapped before as it was. -/

def ELFBinary.SegmentsFit (binary : ELFBinary) : Prop :=
  ∀ ph ∈ binary.filePhdrs, ph.pType = .load → ELFBinary.SegmentFits binary.file binary.baseAddr ph

def ELFBinary.HoldsSegments (memory : Memory) (binary : ELFBinary) : Prop :=
  ∀ ph ∈ binary.filePhdrs, ph.pType = .load →
    HoldsSegment memory binary ph ∧ MapsSegment memory binary ph

theorem ELFBinary.HoldsSegments.extended {memory after : Memory} {binary : ELFBinary} (fits : binary.SegmentsFit)
    (holds : binary.HoldsSegments memory) (extended : memory.Extends after) : binary.HoldsSegments after := by
  intro ph member wanted
  obtain ⟨held, maps⟩ := holds ph member wanted
  exact held.extended (fits ph member wanted).sizes maps extended

namespace DynLoader

variable {host : Host} {loader next start after : DynLoader} {path rootPath : Path} {binary : ELFBinary}

theorem emplace_segments (sound : host.MmapSound) (ran : loader.emplace host path = .ok (binary, next))
    (fits : binary.SegmentsFit) :
    loader.memory.Extends next.memory ∧ binary.HoldsSegments next.memory ∧
      host.openFile binary.path = some binary.file := by
  have file : host.openFile binary.path = some binary.file := by
    rw [emplace_path ran]
    exact emplace_file ran
  obtain ⟨mapping, segments, _, rfl⟩ := emplace_mapping ran
  obtain ⟨extended, holds⟩ := ELFBinary.loadSegments_spec sound segments fits
  exact ⟨extended, holds, file⟩

/-- What holds all along a call, as long as the binaries loaded so far are in order. -/
def SegmentsLoaded (host : Host) (start loader : DynLoader) : Prop :=
  ∃ new, loader.binaries = start.binaries ++ new ∧
    ((∀ binary ∈ new, binary.SegmentsFit) → start.memory.Extends loader.memory ∧
      ∀ binary ∈ new, binary.HoldsSegments loader.memory ∧ host.openFile binary.path = some binary.file)

theorem SegmentsLoaded.emplace (sound : host.MmapSound) (loaded : SegmentsLoaded host start loader)
    (ran : loader.emplace host path = .ok (binary, next)) : SegmentsLoaded host start next := by
  obtain ⟨new, binaries, holds⟩ := loaded
  refine ⟨new ++ [binary], by rw [emplace_binaries ran, binaries, List.append_assoc], ?_⟩
  intro fits
  have fitsNew : ∀ other ∈ new, other.SegmentsFit := fun other member => fits other (List.mem_append_left _ member)
  obtain ⟨extendedOld, holdsOld⟩ := holds fitsNew
  obtain ⟨extended, held, file⟩ := emplace_segments sound ran (fits binary (by simp))
  refine ⟨extendedOld.trans extended, ?_⟩
  intro other member
  rcases List.mem_append.mp member with old | last
  · exact ⟨(holdsOld other old).1.extended (fitsNew other old) extended, (holdsOld other old).2⟩
  · rw [List.mem_singleton.mp last]
    exact ⟨held, file⟩

theorem loadDependingLibs_segments {steps : Nat} (sound : host.MmapSound)
    (ran : start.loadDependingLibs host steps rootPath = .ok after)
    (fits : ∀ binary ∈ after.binaries.drop start.binaries.length, binary.SegmentsFit) :
    (∀ binary ∈ after.binaries.drop start.binaries.length,
      host.openFile binary.path = some binary.file ∧
      ∀ ph ∈ binary.filePhdrs, ph.pType = .load → ELFBinary.HoldsSegment after.memory binary ph) ∧
    start.memory.Extends after.memory ∧
    (∀ (loader : DynLoader) path binary next, loader.emplace host path = .ok (binary, next) → binary.SegmentsFit →
      loader.memory.Extends next.memory) ∧
    ∀ (binary : ELFBinary) mapping ph next, binary.loadSegment host mapping ph = .ok next →
      (ph.pType = .load → ELFBinary.SegmentFits binary.file binary.baseAddr ph) →
      mapping.memory.Extends next.memory := by
  have loaded : SegmentsLoaded host start after := by
    refine (Visits.of_loadDependingLibs ran).invariant (SegmentsLoaded host start) ?_ ?_ ?_
    · intro loader name loaded
      exact loaded
    · intro loader path binary next loaded emplaced
      exact loaded.emplace sound emplaced
    · exact ⟨[], by simp, fun _ => ⟨.refl _, by simp⟩⟩
  obtain ⟨new, binaries, holds⟩ := loaded
  rw [binaries, List.drop_left] at fits ⊢
  obtain ⟨extended, held⟩ := holds fits
  refine ⟨?_, extended, ?_, ?_⟩
  · intro binary member
    exact ⟨(held binary member).2, fun ph inHeaders wanted => ((held binary member).1 ph inHeaders wanted).1⟩
  · intro loader path binary next emplaced fitsBinary
    exact (emplace_segments sound emplaced fitsBinary).1
  · intro binary mapping ph next mapped fitsSegment
    exact (ELFBinary.loadSegment_spec sound mapped fitsSegment).1

theorem loadDependingLibs_tlsHost_fits :
    ((fresh Sample.memory).loadDependingLibs Sample.tlsHost 12 (ascii "/bin/m")).toOption.map (fun after =>
      decide (after.binaries.length = 2 ∧ ∀ binary ∈ after.binaries, ∀ ph ∈ binary.filePhdrs, ph.pType = .load →
        ph.pFilesz.toNat ≤ ph.pMemsz.toNat ∧ ph.pOffset.toNat + ph.pFilesz.toNat ≤ binary.file.length ∧
        binary.file.length < 2 ^ 64 ∧
        ph.pVaddr.toNat + ph.pMemsz.toNat + binary.baseAddr.toNat + 0xfff < 2 ^ 64)) = some true := by
  decide +kernel

theorem loadDependingLibs_segments_tlsHost :
    ∃ after, (fresh Sample.memory).loadDependingLibs Sample.tlsHost 12 (ascii "/bin/m") = .ok after ∧
      after.binaries.length = 2 ∧
      ∀ binary ∈ after.binaries, Sample.tlsHost.openFile binary.path = some binary.file ∧
        ∀ ph ∈ binary.filePhdrs, ph.pType = .load → ELFBinary.HoldsSegment after.memory binary ph := by
  obtain ⟨after, ran, checked⟩ := Option.map_eq_some_iff.mp loadDependingLibs_tlsHost_fits
  obtain ⟨two, fits⟩ := of_decide_eq_true checked
  refine ⟨after, eq_ok_of_toOption ran, two, ?_⟩
  have segments := loadDependingLibs_segments (Sample.host_mmapSound _ _) (eq_ok_of_toOption ran) (by
    intro binary member ph inHeaders wanted
    obtain ⟨sizes, contents, small, pages⟩ := fits binary member ph inHeaders wanted
    exact ⟨sizes, contents, small, pages⟩)
  exact segments.1

end DynLoader

end Sloader
