import Mathlib.Data.List.Pairwise
import Sloader.ExecLoader.Load

namespace Sloader

open Data

/-! What `Unload` gives back.  It unmaps the `p_memsz` bytes from the start of the
first page of a segment, and it has kept 32 bits of `p_memsz`, so that pages at the
end of a segment can stay behind. -/

theorem Memory.mapped_munmap {memory : Memory} {start address : Address} {size : Nat}
    (aligned : start.toNat % 4096 = 0) :
    (memory.munmap start size).mapped address = true ↔
      memory.mapped address = true ∧ ¬ Inside start ((size + 0xfff) / 4096 * 4096) address := by
  unfold Memory.munmap
  split
  · rw [Memory.mapped_iff, Memory.mapped_iff, covered_cutRanges]
  · rename_i refused
    obtain rfl : size = 0 := by
      by_contra positive
      exact refused ⟨aligned, positive⟩
    have nowhere : ¬ Inside start ((0 + 0xfff) / 4096 * 4096) address := Nat.not_lt_zero _
    simp only [nowhere, not_false_eq_true, and_true]

namespace ExecLoader

open ELFBinary (mmapStart mmapEnd mmapSize pageOffset pageRange pageRanges PageFits)

variable {host : Host} {loader loaded : ExecLoader} {memory after : Memory} {ph other : Elf64Phdr}
  {phdrs : List Elf64Phdr} {address : Address}

/-- The bytes that `Unload` unmaps of a segment. -/
def unloadSize (ph : Elf64Phdr) : Nat :=
  ((ph.pMemsz.setWidth 32).toNat + 0xfff) / 4096 * 4096

/-- All the pages of the segment are unmapped. -/
def UnloadsAll (ph : Elf64Phdr) : Prop :=
  ph.pMemsz.toNat < 2 ^ 32 ∧ (pageOffset 0 ph + ph.pMemsz.toNat + 0xfff) / 4096 = (ph.pMemsz.toNat + 0xfff) / 4096

theorem mmapSize_pages (fits : PageFits 0 ph) :
    (mmapSize 0 ph).toNat = (pageOffset 0 ph + ph.pMemsz.toNat + 0xfff) / 4096 * 4096 := by
  have start := ELFBinary.mmapStart_toNat fits
  have finish := ELFBinary.mmapEnd_toNat fits
  have offset : pageOffset 0 ph = ph.pVaddr.toNat % 4096 := by rw [pageOffset, add_zero]
  rw [offset]
  unfold PageFits at fits
  unfold mmapSize
  generalize mmapStart 0 ph = low at *
  generalize mmapEnd 0 ph = high at *
  bv_omega

theorem unloadSize_le (fits : PageFits 0 ph) : unloadSize ph ≤ (mmapSize 0 ph).toNat := by
  have kept : (ph.pMemsz.setWidth 32).toNat = ph.pMemsz.toNat % 2 ^ 32 := BitVec.toNat_setWidth 32 _
  rw [mmapSize_pages fits, unloadSize, kept]
  omega

theorem unloadSize_eq_iff (fits : PageFits 0 ph) : unloadSize ph = (mmapSize 0 ph).toNat ↔ UnloadsAll ph := by
  have kept : (ph.pMemsz.setWidth 32).toNat = ph.pMemsz.toNat % 2 ^ 32 := BitVec.toNat_setWidth 32 _
  rw [mmapSize_pages fits, unloadSize, kept, UnloadsAll]
  omega

theorem unload_eq (loaded : ExecLoader) (memory : Memory) (regions : loaded.memories = regions phdrs) :
    (loaded.unload memory).mapped address = true ↔
      memory.mapped address = true ∧
        ∀ ph ∈ phdrs, ph.pType = .load → ¬ Inside (mmapStart 0 ph) (unloadSize ph) address := by
  rw [unload, regions]
  clear regions
  induction phdrs generalizing memory with
  | nil => simp [ExecLoader.regions]
  | cons ph rest ih =>
      by_cases wanted : ph.pType = .load
      · have start : (mmapStart 0 ph).toNat % 4096 = 0 := by
          rw [mmapStart, ELFBinary.and_pageMask_toNat, Nat.mul_mod_left]
        have split : ExecLoader.regions (ph :: rest) = region ph :: ExecLoader.regions rest := by
          rw [ExecLoader.regions, List.filter_cons_of_pos (by simpa using wanted), List.map_cons, ExecLoader.regions]
        rw [split, List.foldl_cons, ih, region, Memory.mapped_munmap start, List.forall_mem_cons, and_assoc]
        simp only [wanted, true_implies, unloadSize]
      · have split : ExecLoader.regions (ph :: rest) = ExecLoader.regions rest := by
          rw [ExecLoader.regions, List.filter_cons_of_neg (by simpa using wanted), ExecLoader.regions]
        rw [split, ih, List.forall_mem_cons]
        simp only [wanted, false_implies, true_and]

theorem load_takes (sound : host.MmapSound) (fresh : loader.memories = [])
    (ran : loader.load host memory = .ok (loaded, after)) :
    loaded.memories = regions loader.phdrs ∧ memory.Takes after (pageRanges 0 loader.phdrs) := by
  let binary : ELFBinary :=
    { path := [], file := loader.file, ehdr := loader.ehdr, filePhdrs := loader.phdrs, fileDynamic := {},
      hasTls := false, fileTls := {} }
  have loop := @foldlM_loadSegment_iff host loader loaded after binary ⟨memory, 0, []⟩ loader.phdrs rfl rfl
  obtain ⟨⟨mapping, segments, rfl⟩, _, rfl⟩ := loop.mp ran
  exact ⟨by rw [fresh, List.nil_append], ELFBinary.loadSegments_takes sound segments⟩

/-- Two segments with an address in common are one. -/
theorem same_segment (grants : Grants memory.ranges (pageRanges 0 phdrs)) (member : ph ∈ phdrs)
    (wanted : ph.pType = .load) (otherMember : other ∈ phdrs) (otherWanted : other.pType = .load)
    (inside : Inside (mmapStart 0 ph) (mmapSize 0 ph).toNat address)
    (inOther : Inside (mmapStart 0 other) (mmapSize 0 other).toNat address) : ph = other := by
  have apart := grants.apart
  rw [pageRanges, List.pairwise_reverse, List.pairwise_map] at apart
  by_contra differ
  have symmetric : Std.Symm fun earlier later : Elf64Phdr =>
      Apart (pageRange 0 later).1 (pageRange 0 later).2 (pageRange 0 earlier).1 (pageRange 0 earlier).2 :=
    ⟨fun _ _ left => left.symm⟩
  have separate := apart.forall (List.mem_filter.mpr ⟨member, by simpa using wanted⟩)
    (List.mem_filter.mpr ⟨otherMember, by simpa using otherWanted⟩) differ
  exact separate address inOther inside

/-- The first page of a segment that is not given back. -/
theorem mapped_behind (memories : loaded.memories = regions phdrs) (takes : memory.Takes after (pageRanges 0 phdrs))
    (pages : ∀ ph ∈ phdrs, ph.pType = .load → PageFits 0 ph) (member : ph ∈ phdrs) (wanted : ph.pType = .load)
    (within : unloadSize ph < (mmapSize 0 ph).toNat) :
    (loaded.unload after).mapped (mmapStart 0 ph + BitVec.ofNat 64 (unloadSize ph)) = true := by
  have bound : unloadSize ph < 2 ^ 64 := within.trans (mmapSize 0 ph).isLt
  have inside := @Inside.offset (mmapStart 0 ph) _ _ within bound
  refine (unload_eq loaded after memories).mpr ⟨takes.mapped_iff.mpr (.inl ?_), ?_⟩
  · exact ELFBinary.covered_pageRanges.mpr ⟨ph, member, wanted, inside⟩
  · intro other otherMember otherWanted inOther
    have inPages := Nat.lt_of_lt_of_le inOther (unloadSize_le (pages other otherMember otherWanted))
    obtain rfl := same_segment takes.grants member wanted otherMember otherWanted inside inPages
    rw [Inside, offset_toNat bound] at inOther
    exact Nat.lt_irrefl _ inOther

/-- `Unload` after `Load` leaves all pages mapped that were mapped before.  It
leaves no others exactly if the size of every segment fits into 32 bits and
none needs a page more for not starting where a page does. -/
theorem unload_restores_iff (sound : host.MmapSound) (fresh : loader.memories = [])
    (pages : ∀ ph ∈ loader.phdrs, ph.pType = .load → PageFits 0 ph)
    (ran : loader.load host memory = .ok (loaded, after)) :
    (∀ address, memory.mapped address = true → (loaded.unload after).mapped address = true) ∧
      ((∀ address, (loaded.unload after).mapped address = memory.mapped address) ↔
        ∀ ph ∈ loader.phdrs, ph.pType = .load → UnloadsAll ph) := by
  obtain ⟨memories, takes⟩ := load_takes sound fresh ran
  have unused {ph : Elf64Phdr} {address : Address} (member : ph ∈ loader.phdrs) (wanted : ph.pType = .load)
      (inside : Inside (mmapStart 0 ph) (mmapSize 0 ph).toNat address) : memory.mapped address ≠ true := by
    rw [ne_eq, Memory.mapped_iff]
    exact takes.grants.unused _ (ELFBinary.mem_pageRanges.mpr ⟨ph, member, wanted, rfl⟩) address inside
  have hole {ph : Elf64Phdr} {address : Address} (member : ph ∈ loader.phdrs) (wanted : ph.pType = .load)
      (inside : Inside (mmapStart 0 ph) (unloadSize ph) address) :
      Inside (mmapStart 0 ph) (mmapSize 0 ph).toNat address :=
    Nat.lt_of_lt_of_le inside (unloadSize_le (pages ph member wanted))
  have kept (address : Address) (known : memory.mapped address = true) : (loaded.unload after).mapped address = true := by
    refine (unload_eq loaded after memories).mpr ⟨takes.mapped_iff.mpr (.inr known), ?_⟩
    intro ph member wanted inside
    exact unused member wanted (hole member wanted inside) known
  refine ⟨kept, ?_, ?_⟩
  · intro same ph member wanted
    refine (unloadSize_eq_iff (pages ph member wanted)).mp ?_
    by_contra differ
    have within : unloadSize ph < (mmapSize 0 ph).toNat :=
      Nat.lt_of_le_of_ne (unloadSize_le (pages ph member wanted)) differ
    have inside := @Inside.offset (mmapStart 0 ph) _ _ within (within.trans (mmapSize 0 ph).isLt)
    have left := mapped_behind memories takes pages member wanted within
    rw [same] at left
    exact unused member wanted inside left
  · intro all address
    rw [Bool.eq_iff_iff]
    refine ⟨?_, kept address⟩
    intro left
    obtain ⟨mapped, outside⟩ := (unload_eq loaded after memories).mp left
    rcases takes.mapped_iff.mp mapped with covered | before
    · obtain ⟨ph, member, wanted, inside⟩ := ELFBinary.covered_pageRanges.mp covered
      have whole := (unloadSize_eq_iff (pages ph member wanted)).mpr (all ph member wanted)
      exact absurd (whole ▸ inside) (outside ph member wanted)
    · exact before

/-- An executable of half a page. -/
def halfPage (pVaddr : Elf64Addr) : ExecLoader where
  filename := ascii "m"
  file := []
  ehdr := ⟨.exec, 0, 64, 56, 1⟩
  phdrs := [{ pType := .load, pVaddr, pMemsz := 0x800 }]

/-- Where it starts with a page it leaves nothing, where it lies across two pages
the second stays mapped. -/
theorem unload_restores_iff_halfPage :
    ∃ first second loaded after, (halfPage 0x400000).load execHost Sample.memory = .ok (first, after) ∧
      (∀ address, (first.unload after).mapped address = Sample.memory.mapped address) ∧
      (halfPage 0x400c00).load execHost Sample.memory = .ok (second, loaded) ∧
      ¬ ∀ address, (second.unload loaded).mapped address = Sample.memory.mapped address := by
  have loads : ((halfPage 0x400000).load execHost Sample.memory).isOk = true ∧
      ((halfPage 0x400c00).load execHost Sample.memory).isOk = true := by decide +kernel
  obtain ⟨⟨first, after⟩, ran⟩ := exists_of_isOk loads.1
  obtain ⟨⟨second, loaded⟩, ranAcross⟩ := exists_of_isOk loads.2
  have sound := Sample.host_mmapSound [(ascii "m", ({ eType := 2, vaddr := 0x400000 } : Sample.Object).file)] fun _ => none
  have pages (pVaddr : Elf64Addr) (small : pVaddr.toNat < 2 ^ 32) :
      ∀ ph ∈ (halfPage pVaddr).phdrs, ph.pType = .load → PageFits 0 ph := by
    intro ph member _
    rw [List.mem_singleton.mp member]
    change pVaddr.toNat + 0x800 + 0 + 0xfff < 2 ^ 64
    omega
  have whole := (unload_restores_iff sound rfl (pages 0x400000 (by decide)) ran).2
  have across := (unload_restores_iff sound rfl (pages 0x400c00 (by decide)) ranAcross).2
  refine ⟨first, second, loaded, after, ran, whole.mpr ?_, ranAcross, fun restored => ?_⟩
  · intro ph member _
    rw [List.mem_singleton.mp member]
    exact ⟨by decide, by decide⟩
  · have all := across.mp restored _ (List.mem_singleton_self _) rfl
    exact absurd all.2 (by decide)

end ExecLoader

end Sloader
