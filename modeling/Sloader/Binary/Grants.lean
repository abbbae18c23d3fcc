import Sloader.Binary.Segments
import Sloader.Data.Ranges

namespace Sloader

open Data

/-! The pages that `Load` takes: those of its `PT_LOAD` headers, each range of them
when it was not in use. -/

theorem Memory.mapped_iff {memory : Memory} {address : Address} :
    memory.mapped address = true ↔ Covered memory.ranges address := by
  simp only [Memory.mapped, List.any_eq_true, decide_eq_true_eq, Covered]

/-- The ranges were added to those of the memory, each when it was not in use. -/
structure Memory.Takes (before after : Memory) (new : List (Address × Nat)) : Prop where
  ranges : after.ranges = new ++ before.ranges
  grants : Grants before.ranges new

theorem Memory.Takes.nothing (memory : Memory) : memory.Takes memory [] :=
  ⟨rfl, .nothing⟩

theorem Memory.Takes.trans {first second third : Memory} {new more : List (Address × Nat)}
    (left : first.Takes second new) (right : second.Takes third more) : first.Takes third (more ++ new) := by
  refine ⟨by rw [right.ranges, left.ranges, List.append_assoc], left.grants.append ?_⟩
  rw [← left.ranges]
  exact right.grants

theorem Memory.Takes.mapped_iff {before after : Memory} {new : List (Address × Nat)} {address : Address}
    (takes : before.Takes after new) :
    after.mapped address = true ↔ Covered new address ∨ before.mapped address = true := by
  rw [Memory.mapped_iff, Memory.mapped_iff, takes.ranges, covered_append]

namespace ELFBinary

def pageRange (base : Elf64Addr) (ph : Elf64Phdr) : Address × Nat :=
  (mmapStart base ph, (mmapSize base ph).toNat)

/-- The last range first, as they are taken. -/
def pageRanges (base : Elf64Addr) (phdrs : List Elf64Phdr) : List (Address × Nat) :=
  ((phdrs.filter fun ph => ph.pType = .load).map (pageRange base)).reverse

variable {host : Host} {binary : ELFBinary} {mapping next last : Mapping} {ph : Elf64Phdr} {base : Elf64Addr}
  {phdrs : List Elf64Phdr} {address : Address}

theorem pageRanges_cons (base : Elf64Addr) (ph : Elf64Phdr) (phdrs : List Elf64Phdr) :
    pageRanges base (ph :: phdrs) =
      pageRanges base phdrs ++ if ph.pType = .load then [pageRange base ph] else [] := by
  simp only [pageRanges, List.filter_cons, decide_eq_true_eq]
  split
  · rw [List.map_cons, List.reverse_cons]
  · rw [List.append_nil]

theorem mem_pageRanges {range : Address × Nat} :
    range ∈ pageRanges base phdrs ↔ ∃ ph ∈ phdrs, ph.pType = .load ∧ pageRange base ph = range := by
  simp only [pageRanges, List.mem_reverse, List.mem_map, List.mem_filter, decide_eq_true_eq, and_assoc]

theorem covered_pageRanges : Covered (pageRanges base phdrs) address ↔
    ∃ ph ∈ phdrs, ph.pType = .load ∧ Inside (mmapStart base ph) (mmapSize base ph).toNat address := by
  constructor
  · rintro ⟨range, member, inside⟩
    obtain ⟨ph, inHeaders, wanted, rfl⟩ := mem_pageRanges.mp member
    exact ⟨ph, inHeaders, wanted, inside⟩
  · rintro ⟨ph, inHeaders, wanted, inside⟩
    exact ⟨pageRange base ph, mem_pageRanges.mpr ⟨ph, inHeaders, wanted, rfl⟩, inside⟩

theorem loadSegment_takes (sound : host.MmapSound) (ran : binary.loadSegment host mapping ph = .ok next) :
    mapping.memory.Takes next.memory (if ph.pType = .load then [pageRange binary.baseAddr ph] else []) := by
  rcases loadSegment_cases ran with ⟨skipped, rfl⟩ | ⟨wanted, granted, memory, _⟩
  · rw [if_neg skipped]
    exact .nothing _
  · rw [if_pos wanted]
    refine ⟨by rw [memory]; rfl, Grants.nothing.grant ?_⟩
    intro address inside covered
    have unused := sound.unused granted address inside
    rw [Memory.mapped_iff.mpr covered] at unused
    contradiction

theorem loadSegments_takes (sound : host.MmapSound) (ran : phdrs.foldlM (binary.loadSegment host) mapping = .ok last) :
    mapping.memory.Takes last.memory (pageRanges binary.baseAddr phdrs) := by
  induction phdrs generalizing mapping with
  | nil =>
      cases ran
      exact .nothing _
  | cons head rest ih =>
      rw [List.foldlM_cons, bind_eq_ok] at ran
      obtain ⟨middle, first, remaining⟩ := ran
      rw [pageRanges_cons]
      exact (loadSegment_takes sound first).trans (ih remaining)

end ELFBinary

end Sloader
