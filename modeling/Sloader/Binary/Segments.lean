import Sloader.Binary.Load

namespace Sloader

open Data

/-! The segments that `Load` maps: where they end up, what they hold, and that
mapping one leaves alone whatever was mapped before. -/

/-- What is mapped stays mapped and keeps its bytes. -/
def Memory.Extends (before after : Memory) : Prop :=
  ∀ address, before.mapped address = true →
    after.mapped address = true ∧ after.bytes address = before.bytes address

theorem Memory.Extends.refl (memory : Memory) : memory.Extends memory :=
  fun _ mapped => ⟨mapped, rfl⟩

theorem Memory.Extends.trans {first second third : Memory} (left : first.Extends second)
    (right : second.Extends third) : first.Extends third := by
  intro address mapped
  obtain ⟨mappedSecond, same⟩ := left address mapped
  obtain ⟨mappedThird, sameAgain⟩ := right address mappedSecond
  exact ⟨mappedThird, sameAgain.trans same⟩

namespace ELFBinary

variable {host : Host} {binary : ELFBinary} {mapping next last : Mapping} {ph : Elf64Phdr} {base : Elf64Addr}
  {memory after : Memory}

theorem and_pageMask_toNat (address : Address) : (address &&& pageMask).toNat = address.toNat / 4096 * 4096 := by
  have mask : pageMask = BitVec.allOnes 64 <<< 12 := by decide
  have bound := address.isLt
  rw [mask, and_shiftedOnes, BitVec.toNat_shiftLeft, BitVec.toNat_ushiftRight, Nat.shiftLeft_eq,
    Nat.shiftRight_eq_div_pow]
  omega

/-- The end of a segment, rounded up to a page, is still an address. -/
def PageFits (base : Elf64Addr) (ph : Elf64Phdr) : Prop :=
  ph.pVaddr.toNat + ph.pMemsz.toNat + base.toNat + 0xfff < 2 ^ 64

theorem mmapStart_toNat (fits : PageFits base ph) :
    (mmapStart base ph).toNat = (ph.pVaddr.toNat + base.toNat) / 4096 * 4096 := by
  have sum : (ph.pVaddr + base).toNat = ph.pVaddr.toNat + base.toNat := by
    unfold PageFits at fits
    bv_omega
  rw [mmapStart, and_pageMask_toNat, sum]

theorem mmapEnd_toNat (fits : PageFits base ph) :
    (mmapEnd base ph).toNat = (ph.pVaddr.toNat + ph.pMemsz.toNat + base.toNat + 0xfff) / 4096 * 4096 := by
  have sum : (ph.pVaddr + ph.pMemsz + base + 0xfff).toNat =
      ph.pVaddr.toNat + ph.pMemsz.toNat + base.toNat + 0xfff := by
    unfold PageFits at fits
    bv_omega
  rw [mmapEnd, and_pageMask_toNat, sum]

theorem inside_pages (fits : PageFits base ph) {offset : Nat} (within : offset < ph.pMemsz.toNat) :
    Inside (mmapStart base ph) (mmapSize base ph).toNat (ph.pVaddr + base + BitVec.ofNat 64 offset) := by
  have start := mmapStart_toNat fits
  have finish := mmapEnd_toNat fits
  unfold PageFits at fits
  unfold Inside mmapSize
  generalize mmapStart base ph = low at start
  generalize mmapEnd base ph = high at finish
  bv_omega

theorem loadSegment_cases (ran : binary.loadSegment host mapping ph = .ok next) :
    (ph.pType ≠ .load ∧ next = mapping) ∨
    (ph.pType = .load ∧
      host.mmap mapping.memory (mmapStart binary.baseAddr ph) (mmapSize binary.baseAddr ph) =
        mmapStart binary.baseAddr ph ∧
      next.memory = copySegment binary.file binary.baseAddr ph
        (mapping.memory.mapZero (mmapStart binary.baseAddr ph) (mmapSize binary.baseAddr ph)) ∧
      next.endAddr = mmapEnd binary.baseAddr ph ∧
      next.mapFile = mapping.mapFile ++ [mapLine binary.path binary.baseAddr ph]) := by
  unfold loadSegment at ran
  split at ran
  · rename_i skipped
    cases ran
    exact .inl ⟨skipped, rfl⟩
  · rename_i wanted
    simp only [bind_eq_ok, check_eq_ok, pure_eq_ok] at ran
    obtain ⟨_, granted, _, _, _, _, rfl⟩ := ran
    exact .inr ⟨by simpa using wanted, (by simpa using granted : _ = _).symm, rfl, rfl, rfl⟩

/-- What the format promises about a loadable segment at this base. -/
structure SegmentFits (file : List UInt8) (base : Elf64Addr) (ph : Elf64Phdr) : Prop where
  sizes : ph.pFilesz.toNat ≤ ph.pMemsz.toNat
  contents : ph.pOffset.toNat + ph.pFilesz.toNat ≤ file.length
  -- the size of a file is a `size_t`
  file : file.length < 2 ^ 64
  pages : PageFits base ph

/-- The part of it that keeps what is copied inside the pages of the segment. -/
structure CopyFits (base : Elf64Addr) (ph : Elf64Phdr) : Prop where
  sizes : ph.pFilesz.toNat ≤ ph.pMemsz.toNat
  pages : PageFits base ph

theorem SegmentFits.copy {file : List UInt8} (fits : SegmentFits file base ph) : CopyFits base ph :=
  ⟨fits.sizes, fits.pages⟩

def HoldsSegment (memory : Memory) (binary : ELFBinary) (ph : Elf64Phdr) : Prop :=
  (∀ offset < ph.pFilesz.toNat, binary.file[ph.pOffset.toNat + offset]? =
    some (memory.bytes (binary.baseAddr + ph.pVaddr + BitVec.ofNat 64 offset))) ∧
  ∀ offset, ph.pFilesz.toNat ≤ offset → offset < ph.pMemsz.toNat →
    memory.bytes (binary.baseAddr + ph.pVaddr + BitVec.ofNat 64 offset) = 0

def MapsSegment (memory : Memory) (binary : ELFBinary) (ph : Elf64Phdr) : Prop :=
  ∀ offset < ph.pMemsz.toNat, memory.mapped (binary.baseAddr + ph.pVaddr + BitVec.ofNat 64 offset) = true

theorem HoldsSegment.extended (sizes : ph.pFilesz.toNat ≤ ph.pMemsz.toNat)
    (holds : HoldsSegment memory binary ph) (maps : MapsSegment memory binary ph)
    (extends_ : memory.Extends after) : HoldsSegment after binary ph ∧ MapsSegment after binary ph := by
  refine ⟨⟨?_, ?_⟩, ?_⟩
  · intro offset within
    rw [(extends_ _ (maps offset (by omega))).2]
    exact holds.1 offset within
  · intro offset past within
    rw [(extends_ _ (maps offset within)).2]
    exact holds.2 offset past within
  · intro offset within
    exact (extends_ _ (maps offset within)).1

theorem fileBytes_eq {file : List UInt8} (fits : SegmentFits file base ph) {offset : Nat}
    (within : offset < ph.pFilesz.toNat) :
    file[ph.pOffset.toNat + offset]? = some (fileBytes file (ph.pOffset + BitVec.ofNat 64 offset)) := by
  have contents := fits.contents
  have small := fits.file
  have index : (ph.pOffset + BitVec.ofNat 64 offset).toNat = ph.pOffset.toNat + offset := by
    rw [BitVec.toNat_add, BitVec.toNat_ofNat]
    omega
  have bound : ph.pOffset.toNat + offset < file.length := by omega
  rw [fileBytes, index, List.getD_eq_getElem?_getD, List.getElem?_eq_getElem bound, Option.getD_some]

theorem loadSegment_extends (sound : host.MmapSound) (ran : binary.loadSegment host mapping ph = .ok next)
    (fits : ph.pType = .load → CopyFits binary.baseAddr ph) : mapping.memory.Extends next.memory := by
  rcases loadSegment_cases ran with ⟨_, rfl⟩ | ⟨wanted, granted, memory, _⟩
  · exact .refl _
  · intro address known
    have outside : ¬ Inside (mmapStart binary.baseAddr ph) (mmapSize binary.baseAddr ph).toNat address := by
      intro inside
      rw [sound.unused granted address inside] at known
      contradiction
    have uncopied : ¬ Inside (ph.pVaddr + binary.baseAddr) ph.pFilesz.toNat address := by
      intro inside
      obtain ⟨offset, within, _, rfl⟩ := inside.exists_offset
      exact outside (inside_pages (fits wanted).pages (Nat.lt_of_lt_of_le within (fits wanted).sizes))
    rw [memory]
    refine ⟨Memory.mapped_mapZero.mpr (.inr known), ?_⟩
    simp only [copySegment, Memory.mapZero]
    rw [Bytes.patch_outside uncopied, Bytes.patch_outside outside]

theorem loadSegments_extends (sound : host.MmapSound) {phdrs : List Elf64Phdr}
    (ran : phdrs.foldlM (binary.loadSegment host) mapping = .ok last)
    (fits : ∀ ph ∈ phdrs, ph.pType = .load → CopyFits binary.baseAddr ph) :
    mapping.memory.Extends last.memory := by
  refine foldlM_invariant (fun state => mapping.memory.Extends state.memory) ?_ (.refl _) ran
  intro state ph next member extended loaded
  exact extended.trans (loadSegment_extends sound loaded (fits ph member))

/-- The pages of the segments were not in use before. -/
theorem loadSegments_unused (sound : host.MmapSound) {phdrs : List Elf64Phdr}
    (ran : phdrs.foldlM (binary.loadSegment host) mapping = .ok last)
    (fits : ∀ ph ∈ phdrs, ph.pType = .load → CopyFits binary.baseAddr ph) :
    ∀ ph ∈ phdrs, ph.pType = .load → ∀ address,
      Inside (mmapStart binary.baseAddr ph) (mmapSize binary.baseAddr ph).toNat address →
      mapping.memory.mapped address = false := by
  induction phdrs generalizing mapping with
  | nil => exact fun ph member => absurd member List.not_mem_nil
  | cons head rest ih =>
      rw [List.foldlM_cons, bind_eq_ok] at ran
      obtain ⟨middle, first, remaining⟩ := ran
      have extended := loadSegment_extends sound first (fits head List.mem_cons_self)
      intro ph member wanted address inside
      rcases List.mem_cons.mp member with rfl | inRest
      · rcases loadSegment_cases first with ⟨skipped, _⟩ | ⟨_, granted, _⟩
        · contradiction
        · exact sound.unused granted address inside
      · have unused := ih remaining (fun other inRest => fits other (List.mem_cons_of_mem head inRest)) ph inRest wanted
          address inside
        by_contra known
        rw [(extended address (by simpa using known)).1] at unused
        contradiction

theorem loadSegment_spec (sound : host.MmapSound) (ran : binary.loadSegment host mapping ph = .ok next)
    (fits : ph.pType = .load → SegmentFits binary.file binary.baseAddr ph) :
    mapping.memory.Extends next.memory ∧
      (ph.pType = .load → HoldsSegment next.memory binary ph ∧ MapsSegment next.memory binary ph) := by
  rcases loadSegment_cases ran with ⟨skipped, rfl⟩ | ⟨wanted, granted, memory, _⟩
  · exact ⟨.refl _, fun wanted => absurd wanted skipped⟩
  · have fits := fits wanted
    have inPages {offset : Nat} (within : offset < ph.pMemsz.toNat) := inside_pages fits.pages within
    have mapped (address : Address) : next.memory.mapped address = true ↔
        Inside (mmapStart binary.baseAddr ph) (mmapSize binary.baseAddr ph).toNat address ∨
          mapping.memory.mapped address = true := by
      rw [memory]
      exact Memory.mapped_mapZero
    have bytes : next.memory.bytes =
        (mapping.memory.bytes.patch (mmapStart binary.baseAddr ph) (mmapSize binary.baseAddr ph).toNat
          fun _ => 0).patch (ph.pVaddr + binary.baseAddr) ph.pFilesz.toNat fun index =>
            fileBytes binary.file (ph.pOffset + BitVec.ofNat 64 index) := by
      rw [memory]
      rfl
    have commuted (offset : Nat) : binary.baseAddr + ph.pVaddr + BitVec.ofNat 64 offset =
        ph.pVaddr + binary.baseAddr + BitVec.ofNat 64 offset := by rw [BitVec.add_comm binary.baseAddr]
    refine ⟨loadSegment_extends sound ran fun _ => fits.copy, fun _ => ⟨⟨?_, ?_⟩, ?_⟩⟩
    · intro offset within
      rw [fileBytes_eq fits within, bytes, commuted, Bytes.patch_offset within (within.trans ph.pFilesz.isLt)]
    · intro offset past within
      have bound : offset < 2 ^ 64 := within.trans ph.pMemsz.isLt
      have uncopied : ¬ Inside (ph.pVaddr + binary.baseAddr) ph.pFilesz.toNat
          (ph.pVaddr + binary.baseAddr + BitVec.ofNat 64 offset) := by
        rw [Inside, offset_toNat bound]
        omega
      rw [bytes, commuted, Bytes.patch_outside uncopied, Bytes.patch_inside (inPages within)]
    · intro offset within
      rw [mapped, commuted]
      exact .inl (inPages within)

theorem loadSegments_spec (sound : host.MmapSound) {phdrs : List Elf64Phdr}
    (ran : phdrs.foldlM (binary.loadSegment host) mapping = .ok last)
    (fits : ∀ ph ∈ phdrs, ph.pType = .load → SegmentFits binary.file binary.baseAddr ph) :
    mapping.memory.Extends last.memory ∧
      ∀ ph ∈ phdrs, ph.pType = .load →
        HoldsSegment last.memory binary ph ∧ MapsSegment last.memory binary ph := by
  induction phdrs generalizing mapping with
  | nil =>
      cases ran
      exact ⟨.refl _, by simp⟩
  | cons head rest ih =>
      rw [List.foldlM_cons, bind_eq_ok] at ran
      obtain ⟨middle, first, remaining⟩ := ran
      obtain ⟨extended, holds⟩ := loadSegment_spec sound first (fits head List.mem_cons_self)
      obtain ⟨extendedRest, holdsRest⟩ := ih remaining fun ph member => fits ph (List.mem_cons_of_mem head member)
      refine ⟨extended.trans extendedRest, ?_⟩
      intro ph member wanted
      rcases List.mem_cons.mp member with rfl | inRest
      · obtain ⟨held, maps⟩ := holds wanted
        exact held.extended (fits ph List.mem_cons_self wanted).sizes maps extendedRest
      · exact holdsRest ph inRest wanted

theorem loadSegment_base (fits : ph.pType = .load → PageFits binary.baseAddr ph)
    (ran : binary.loadSegment host mapping ph = .ok next) (above : binary.baseAddr ≤ mapping.endAddr) :
    binary.baseAddr ≤ next.endAddr := by
  rcases loadSegment_cases ran with ⟨_, rfl⟩ | ⟨wanted, _, _, finish, _⟩
  · exact above
  · have rounded := mmapEnd_toNat (fits wanted)
    rw [finish]
    bv_omega

theorem mmapEnd_le_mmapStart {earlier : Elf64Phdr} (fitsEarlier : PageFits base earlier) (fits : PageFits base ph)
    (ordered : earlier.pVaddr ≤ ph.pVaddr) (nonempty : mmapSize base ph ≠ 0)
    (apart : Apart (mmapStart base ph) (mmapSize base ph).toNat
      (mmapStart base earlier) (mmapSize base earlier).toNat) :
    mmapEnd base earlier ≤ mmapStart base ph := by
  have startEarlier := mmapStart_toNat fitsEarlier
  have finishEarlier := mmapEnd_toNat fitsEarlier
  have start := mmapStart_toNat fits
  have finish := mmapEnd_toNat fits
  have first := apart (mmapStart base ph)
  unfold PageFits at fitsEarlier fits
  unfold mmapSize at nonempty first
  unfold Inside at first
  generalize mmapStart base ph = low at *
  generalize mmapEnd base ph = high at *
  generalize mmapStart base earlier = lowEarlier at *
  generalize mmapEnd base earlier = highEarlier at *
  bv_omega

/-- A segment that has been mapped, and ends where the loop has come to or before. -/
structure Passed (base : Elf64Addr) (mapping : Mapping) (ph : Elf64Phdr) : Prop where
  pages : PageFits base ph
  mapped : ∀ address, Inside (mmapStart base ph) (mmapSize base ph).toNat address →
    mapping.memory.mapped address = true
  finish : mmapEnd base ph ≤ mapping.endAddr

theorem loadSegment_passed (ran : binary.loadSegment host mapping ph = .ok next)
    (wanted : ph.pType = .load) (fits : PageFits binary.baseAddr ph) : Passed binary.baseAddr next ph := by
  rcases loadSegment_cases ran with ⟨skipped, _⟩ | ⟨_, _, memory, finish, _⟩
  · exact absurd wanted skipped
  · refine ⟨fits, ?_, by rw [finish]; exact BitVec.le_refl _⟩
    intro address inside
    rw [memory]
    exact Memory.mapped_mapZero.mpr (.inl inside)

theorem Passed.step (sound : host.MmapSound) {earlier : Elf64Phdr}
    (passed : Passed binary.baseAddr mapping earlier) (ran : binary.loadSegment host mapping ph = .ok next)
    (fits : ph.pType = .load → PageFits binary.baseAddr ph)
    (ordered : ph.pType = .load → earlier.pVaddr ≤ ph.pVaddr) : Passed binary.baseAddr next earlier := by
  rcases loadSegment_cases ran with ⟨_, rfl⟩ | ⟨wanted, granted, memory, finish, _⟩
  · exact passed
  · have apart : Apart (mmapStart binary.baseAddr ph) (mmapSize binary.baseAddr ph).toNat
        (mmapStart binary.baseAddr earlier) (mmapSize binary.baseAddr earlier).toNat := by
      intro address inside inEarlier
      have unused := sound.unused granted address inside
      rw [passed.mapped address inEarlier] at unused
      contradiction
    have before := mmapEnd_le_mmapStart passed.pages (fits wanted) (ordered wanted) (sound.nonempty granted) apart
    refine ⟨passed.pages, ?_, ?_⟩
    · intro address inside
      rw [memory]
      exact Memory.mapped_mapZero.mpr (.inr (passed.mapped address inside))
    · have start := mmapStart_toNat (fits wanted)
      have rounded := mmapEnd_toNat (fits wanted)
      rw [finish]
      bv_omega

theorem loadSegments_passed (sound : host.MmapSound) {phdrs : List Elf64Phdr}
    (ran : phdrs.foldlM (binary.loadSegment host) mapping = .ok last)
    (fits : ∀ ph ∈ phdrs, ph.pType = .load → PageFits binary.baseAddr ph)
    (ordered : phdrs.Pairwise fun left right => left.pType = .load → right.pType = .load →
      left.pVaddr ≤ right.pVaddr) :
    (∀ ph, Passed binary.baseAddr mapping ph → (∀ other ∈ phdrs, other.pType = .load → ph.pVaddr ≤ other.pVaddr) →
      Passed binary.baseAddr last ph) ∧
    ∀ ph ∈ phdrs, ph.pType = .load → Passed binary.baseAddr last ph := by
  induction phdrs generalizing mapping with
  | nil =>
      cases ran
      exact ⟨fun ph passed _ => passed, by simp⟩
  | cons head rest ih =>
      rw [List.foldlM_cons, bind_eq_ok] at ran
      obtain ⟨middle, first, remaining⟩ := ran
      obtain ⟨headOrdered, restOrdered⟩ := List.pairwise_cons.mp ordered
      obtain ⟨keeps, passes⟩ := ih remaining (fun ph member => fits ph (List.mem_cons_of_mem head member)) restOrdered
      constructor
      · intro ph passed below
        apply keeps ph (passed.step sound first (fits head List.mem_cons_self) (below head List.mem_cons_self))
        intro other member
        exact below other (List.mem_cons_of_mem head member)
      · intro ph member wanted
        rcases List.mem_cons.mp member with rfl | inRest
        · apply keeps ph (loadSegment_passed first wanted (fits ph List.mem_cons_self wanted))
          intro other inRest
          exact headOrdered other inRest wanted
        · exact passes ph inRest wanted

end ELFBinary

end Sloader
