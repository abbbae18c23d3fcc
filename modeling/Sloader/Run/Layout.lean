import Sloader.Binary.Segments
import Sloader.Relocate.Pass
import Sloader.Run

namespace Sloader

open Data

/-! Where binaries are placed over a whole run.  Each one starts at or above the
base address that the one before it left, which lies above all its segments. -/

namespace ELFBinary

def segments (binary : ELFBinary) : List Elf64Phdr :=
  binary.filePhdrs.filter (·.pType = .load)

theorem mem_segments {binary : ELFBinary} {ph : Elf64Phdr} :
    ph ∈ binary.segments ↔ ph ∈ binary.filePhdrs ∧ ph.pType = .load := by
  simp [segments]

/-- Segments in the order that the format requires, and no sum that overflows. -/
structure Ordered (binary : ELFBinary) : Prop where
  ascending : binary.segments.Pairwise fun left right => left.pVaddr ≤ right.pVaddr
  pages : ∀ ph ∈ binary.segments, PageFits binary.baseAddr ph
  next : binary.endAddr.toNat + 0x3fffff < 2 ^ 64

theorem nextBaseAddr_spec {endAddr : Elf64Addr} (fits : endAddr.toNat + 0x3fffff < 2 ^ 64) :
    0x400000 ∣ (nextBaseAddr endAddr).toNat ∧ endAddr ≤ nextBaseAddr endAddr := by
  have rounded : (nextBaseAddr endAddr).toNat = (endAddr.toNat + 0x3fffff) / 0x400000 * 0x400000 := by
    have sum : (endAddr + (0x400000 - 1)).toNat = endAddr.toNat + 0x3fffff := by bv_omega
    have granule : (0x400000 : Elf64Addr).toNat = 0x400000 := by decide
    rw [nextBaseAddr, BitVec.toNat_mul, BitVec.toNat_udiv, sum, granule]
    omega
  constructor
  · rw [rounded]
    exact Nat.dvd_mul_left _ _
  · bv_omega

end ELFBinary

namespace DynLoader

variable {host : Host} {mainPath path : Path} {loader next : DynLoader} {binary : ELFBinary}

theorem emplace_place (sound : host.MmapSound) (ran : loader.emplace host path = .ok (binary, next))
    (ordered : binary.Ordered) :
    (∀ ph ∈ binary.segments, ELFBinary.mmapEnd binary.baseAddr ph ≤ binary.endAddr) ∧
      binary.baseAddr ≤ binary.endAddr ∧ next.nextBaseAddr = ELFBinary.nextBaseAddr binary.endAddr ∧
      (binary.ehdr.eType = .dyn → binary.baseAddr = loader.nextBaseAddr) := by
  have place := emplace_base ran
  obtain ⟨mapping, segments, finish, rfl⟩ := emplace_mapping ran
  have pages : ∀ ph ∈ binary.filePhdrs, ph.pType = .load → ELFBinary.PageFits binary.baseAddr ph := by
    intro ph member wanted
    exact ordered.pages ph (ELFBinary.mem_segments.mpr ⟨member, wanted⟩)
  refine ⟨?_, ?_, rfl, place⟩
  · intro ph member
    obtain ⟨inHeaders, wanted⟩ := ELFBinary.mem_segments.mp member
    have ascending := ordered.ascending
    rw [ELFBinary.segments, List.pairwise_filter] at ascending
    have passed := (ELFBinary.loadSegments_passed sound segments pages (by simpa using ascending)).2 ph
      inHeaders wanted
    rw [← finish]
    exact passed.finish
  · rw [← finish]
    refine foldlM_invariant (fun mapping => binary.baseAddr ≤ mapping.endAddr) ?_ (BitVec.le_refl _) segments
    intro mapping ph next member above mapped
    exact ELFBinary.loadSegment_base (pages ph member) mapped above

structure Layout (loader : DynLoader) : Prop where
  aligned : 0x400000 ∣ loader.nextBaseAddr.toNat
  bases : ∀ binary ∈ loader.binaries, binary.ehdr.eType = .dyn → 0x400000 ∣ binary.baseAddr.toNat
  last : ∀ binary ∈ loader.binaries.getLast?, loader.nextBaseAddr = ELFBinary.nextBaseAddr binary.endAddr
  bounded : ∀ binary ∈ loader.binaries, ELFBinary.nextBaseAddr binary.endAddr ≤ loader.nextBaseAddr
  ends : ∀ binary ∈ loader.binaries, ∀ ph ∈ binary.segments,
    ELFBinary.mmapEnd binary.baseAddr ph ≤ loader.nextBaseAddr
  monotone : loader.binaries.Pairwise fun earlier later =>
    ELFBinary.nextBaseAddr earlier.endAddr ≤ ELFBinary.nextBaseAddr later.endAddr
  apart : loader.binaries.Pairwise fun earlier later => ∀ left ∈ earlier.segments, ∀ right ∈ later.segments,
    Apart (ELFBinary.mmapStart earlier.baseAddr left) (ELFBinary.mmapSize earlier.baseAddr left).toNat
      (ELFBinary.mmapStart later.baseAddr right) (ELFBinary.mmapSize later.baseAddr right).toNat

theorem Layout.of_bookkeeping (layout : Layout loader) (binaries : next.binaries = loader.binaries)
    (base : next.nextBaseAddr = loader.nextBaseAddr) : Layout next := by
  obtain ⟨aligned, bases, last, bounded, ends, monotone, apart⟩ := layout
  rw [← binaries] at bases last bounded ends monotone apart
  rw [← base] at aligned last bounded ends
  exact ⟨aligned, bases, last, bounded, ends, monotone, apart⟩

theorem pages_apart {earlierBase base : Elf64Addr} {left right : Elf64Phdr}
    (fitsLeft : ELFBinary.PageFits earlierBase left) (fits : ELFBinary.PageFits base right)
    (aligned : 0x400000 ∣ base.toNat) (below : ELFBinary.mmapEnd earlierBase left ≤ base) :
    Apart (ELFBinary.mmapStart earlierBase left) (ELFBinary.mmapSize earlierBase left).toNat
      (ELFBinary.mmapStart base right) (ELFBinary.mmapSize base right).toNat := by
  have startLeft := ELFBinary.mmapStart_toNat fitsLeft
  have finishLeft := ELFBinary.mmapEnd_toNat fitsLeft
  have start := ELFBinary.mmapStart_toNat fits
  have finish := ELFBinary.mmapEnd_toNat fits
  unfold ELFBinary.PageFits at fitsLeft fits
  intro address inLeft inRight
  simp only [Inside, ELFBinary.mmapSize] at inLeft inRight
  generalize ELFBinary.mmapStart earlierBase left = lowLeft at *
  generalize ELFBinary.mmapEnd earlierBase left = highLeft at *
  generalize ELFBinary.mmapStart base right = low at *
  generalize ELFBinary.mmapEnd base right = high at *
  bv_omega

theorem Layout.emplace (sound : host.MmapSound) (layout : Layout loader)
    (ran : loader.emplace host path = .ok (binary, next))
    (ordered : ∀ other ∈ next.binaries, other.Ordered)
    (dyn : ∀ other ∈ next.binaries.tail, other.ehdr.eType = .dyn) : Layout next := by
  have binaries := emplace_binaries ran
  have orderedLast : binary.Ordered := ordered binary (by simp [binaries])
  obtain ⟨ends, above, base, place⟩ := emplace_place sound ran orderedLast
  obtain ⟨aligned, beyond⟩ := ELFBinary.nextBaseAddr_spec orderedLast.next
  -- a binary that is not the first is placed where the others left off
  have raised : loader.binaries ≠ [] →
      binary.baseAddr = loader.nextBaseAddr ∧ loader.nextBaseAddr ≤ next.nextBaseAddr := by
    intro nonempty
    have same := place (dyn binary (by simp [binaries, List.tail_append_of_ne_nil nonempty]))
    refine ⟨same, ?_⟩
    rw [← same, base]
    exact BitVec.le_trans above beyond
  have older {other : ELFBinary} (member : other ∈ loader.binaries) := raised (List.ne_nil_of_mem member)
  constructor
  · rw [base]
    exact aligned
  · intro other member isDyn
    rcases (mem_emplace ran).mp member with old | rfl
    · exact layout.bases other old isDyn
    · rw [place isDyn]
      exact layout.aligned
  · intro other isLast
    rw [binaries, List.getLast?_concat, Option.mem_some_iff] at isLast
    rw [← isLast, base]
  · intro other member
    rcases (mem_emplace ran).mp member with old | rfl
    · exact BitVec.le_trans (layout.bounded other old) (older old).2
    · rw [base]
      exact BitVec.le_refl _
  · intro other member ph inSegments
    rcases (mem_emplace ran).mp member with old | rfl
    · exact BitVec.le_trans (layout.ends other old ph inSegments) (older old).2
    · rw [base]
      exact BitVec.le_trans (ends ph inSegments) beyond
  · refine (pairwise_emplace ran).mpr ⟨layout.monotone, ?_⟩
    intro other member
    rw [← base]
    exact BitVec.le_trans (layout.bounded other member) (older member).2
  · refine (pairwise_emplace ran).mpr ⟨layout.apart, ?_⟩
    intro other member left inLeft right inRight
    have orderedOther : other.Ordered := ordered other (by simp [binaries, member])
    apply pages_apart (orderedOther.pages left inLeft) (orderedLast.pages right inRight)
    · rw [(older member).1]
      exact layout.aligned
    · rw [(older member).1]
      exact layout.ends other member left inLeft

theorem Run.layout (sound : host.MmapSound) (run : Run host mainPath loader)
    (ordered : ∀ binary ∈ loader.binaries, binary.Ordered)
    (dyn : ∀ binary ∈ loader.binaries.tail, binary.ehdr.eType = .dyn) : Layout loader := by
  refine run.invariant_of_loads (fun loader => (∀ binary ∈ loader.binaries, binary.Ordered) →
    (∀ binary ∈ loader.binaries.tail, binary.ehdr.eType = .dyn) → Layout loader) ?_ ?_ ?_ ?_ ?_ ordered dyn
  · intro memory _ _
    have aligned : 0x400000 ∣ (0x1400000 : Elf64Addr).toNat := by decide
    exact ⟨aligned, by simp [fresh], by simp [fresh], by simp [fresh], by simp [fresh], by simp [fresh],
      by simp [fresh]⟩
  · intro loader name layout ordered dyn
    exact (layout ordered dyn).of_bookkeeping rfl rfl
  · intro loader path binary next layout ran ordered dyn
    have binaries := emplace_binaries ran
    have before : Layout loader := by
      apply layout
      · intro other member
        exact ordered other (by simp [binaries, member])
      · intro other member
        apply dyn other
        rw [binaries, List.tail_append_of_ne_nil (List.ne_nil_of_mem (List.mem_of_mem_tail member))]
        exact List.mem_append_left _ member
    exact before.emplace sound ran ordered dyn
  · intro loader next layout ran ordered dyn
    have binaries := relocate_binaries ran
    rw [binaries] at ordered dyn
    exact (layout ordered dyn).of_bookkeeping binaries (relocate_nextBaseAddr ran)
  · intro loader next layout same ordered dyn
    rw [same.binaries] at ordered dyn
    exact (layout ordered dyn).of_bookkeeping same.binaries same.nextBaseAddr

/-- In every state of every run, shared objects start at multiples of the
granule, `next_base_addr_` has not gone down since the first load (after a load
it is `nextBaseAddr` of where the binary ends), and binaries share no page. -/
theorem Run.placement (sound : host.MmapSound) (run : Run host mainPath loader)
    (ordered : ∀ binary ∈ loader.binaries, binary.Ordered)
    (dyn : ∀ binary ∈ loader.binaries.tail, binary.ehdr.eType = .dyn) :
    (∀ binary ∈ loader.binaries, binary.ehdr.eType = .dyn → 0x400000 ∣ binary.baseAddr.toNat) ∧
    (loader.binaries.Pairwise fun earlier later =>
      ELFBinary.nextBaseAddr earlier.endAddr ≤ ELFBinary.nextBaseAddr later.endAddr) ∧
    (∀ binary ∈ loader.binaries.getLast?, loader.nextBaseAddr = ELFBinary.nextBaseAddr binary.endAddr) ∧
    loader.binaries.Pairwise fun earlier later => ∀ left ∈ earlier.segments, ∀ right ∈ later.segments,
      Apart (ELFBinary.mmapStart earlier.baseAddr left) (ELFBinary.mmapSize earlier.baseAddr left).toNat
        (ELFBinary.mmapStart later.baseAddr right) (ELFBinary.mmapSize later.baseAddr right).toNat := by
  have layout := run.layout sound ordered dyn
  exact ⟨layout.bases, layout.monotone, layout.last, layout.apart⟩

theorem tlsHost_ordered :
    (Sample.startup Sample.tlsHost (ascii "/bin/m")).toOption.map (fun loader => decide (
      loader.binaries.length = 2 ∧ (∀ binary ∈ loader.binaries, binary.ehdr.eType = .dyn) ∧
      ∀ binary ∈ loader.binaries, (binary.segments.Pairwise fun left right => left.pVaddr ≤ right.pVaddr) ∧
        (∀ ph ∈ binary.segments,
          ph.pVaddr.toNat + ph.pMemsz.toNat + binary.baseAddr.toNat + 0xfff < 2 ^ 64) ∧
        binary.endAddr.toNat + 0x3fffff < 2 ^ 64)) = some true := by
  decide +kernel

theorem Run.placement_tlsHost :
    ∃ loader, Run Sample.tlsHost (ascii "/bin/m") loader ∧ loader.binaries.length = 2 ∧
      (∀ binary ∈ loader.binaries, binary.ehdr.eType = .dyn → 0x400000 ∣ binary.baseAddr.toNat) ∧
      (loader.binaries.Pairwise fun earlier later =>
        ELFBinary.nextBaseAddr earlier.endAddr ≤ ELFBinary.nextBaseAddr later.endAddr) ∧
      (∀ binary ∈ loader.binaries.getLast?, loader.nextBaseAddr = ELFBinary.nextBaseAddr binary.endAddr) ∧
      loader.binaries.Pairwise fun earlier later => ∀ left ∈ earlier.segments, ∀ right ∈ later.segments,
        Apart (ELFBinary.mmapStart earlier.baseAddr left) (ELFBinary.mmapSize earlier.baseAddr left).toNat
          (ELFBinary.mmapStart later.baseAddr right) (ELFBinary.mmapSize later.baseAddr right).toNat := by
  obtain ⟨loader, run, checked⟩ := exists_startup tlsHost_ordered
  obtain ⟨two, dyn, ordered⟩ := of_decide_eq_true checked
  refine ⟨loader, run, two, Run.placement (Sample.host_mmapSound _ _) run ?_ ?_⟩
  · intro binary member
    obtain ⟨ascending, pages, next⟩ := ordered binary member
    exact ⟨ascending, pages, next⟩
  · intro binary member
    exact dyn binary (List.mem_of_mem_tail member)

end DynLoader

end Sloader
