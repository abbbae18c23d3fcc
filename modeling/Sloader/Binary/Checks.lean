import Sloader.Binary.Segments
import Sloader.Sample

namespace Sloader

open Data

/-! What the checks of `Load` let through.

Once `mmap` has granted the pages of a segment, `Load` checks that the `p_memsz`
bytes of the segment are in them, and then it copies `p_filesz` bytes.  Nothing
compares the two sizes, so that the checks are enough only while `p_filesz` does
not go beyond the last page of the segment. -/

namespace ELFBinary

variable {host : Host} {binary : ELFBinary} {mapping next : Mapping} {phdrs : List Elf64Phdr} {ph : Elf64Phdr}
  {base : Elf64Addr}

/-- `Load` comes to this header of a segment, `mmap` returns the address that it
was given, and the checks behind it pass. -/
def Passes (host : Host) (binary : ELFBinary) (mapping : Mapping) (phdrs : List Elf64Phdr) (ph : Elf64Phdr) : Prop :=
  ∃ before after reached next, phdrs = before ++ ph :: after ∧
    before.foldlM (binary.loadSegment host) mapping = .ok reached ∧
    ph.pType = .load ∧ binary.loadSegment host reached ph = .ok next

/-- The destination of the copy is inside the pages that have just been mapped. -/
def CopiesInside (base : Elf64Addr) (ph : Elf64Phdr) : Prop :=
  ∀ address, Inside (ph.pVaddr + base) ph.pFilesz.toNat address →
    Inside (mmapStart base ph) (mmapSize base ph).toNat address

/-- How far behind the start of its page a segment begins. -/
def pageOffset (base : Elf64Addr) (ph : Elf64Phdr) : Nat :=
  (ph.pVaddr + base).toNat % 4096

/-- How many bytes of its last page a segment leaves. -/
def pageRest (base : Elf64Addr) (ph : Elf64Phdr) : Nat :=
  (- (ph.pVaddr + ph.pMemsz + base)).toNat % 4096

theorem loadSegment_checked (ran : binary.loadSegment host mapping ph = .ok next) (wanted : ph.pType = .load) :
    ph.pVaddr + binary.baseAddr + ph.pMemsz ≤ mmapEnd binary.baseAddr ph := by
  rw [loadSegment, if_neg (not_not_intro wanted)] at ran
  simp only [bind_eq_ok, check_eq_ok] at ran
  obtain ⟨_, _, _, _, _, finish, _⟩ := ran
  simpa using finish

theorem sub_mmapStart (base : Elf64Addr) (ph : Elf64Phdr) :
    (ph.pVaddr + base - mmapStart base ph).toNat = pageOffset base ph := by
  have start := and_pageMask_toNat (ph.pVaddr + base)
  rw [← mmapStart] at start
  unfold pageOffset
  generalize mmapStart base ph = low at *
  generalize ph.pVaddr + base = address at *
  bv_omega

/-- The end of the segment is not so close to the end of memory that rounding it
up to a page would wrap: the second check sees to it. -/
theorem mmapEnd_eq (checked : ph.pVaddr + base + ph.pMemsz ≤ mmapEnd base ph) :
    (mmapEnd base ph).toNat = (ph.pVaddr + ph.pMemsz + base).toNat + pageRest base ph := by
  have finish := and_pageMask_toNat (ph.pVaddr + ph.pMemsz + base + 0xfff)
  have commuted : ph.pVaddr + base + ph.pMemsz = ph.pVaddr + ph.pMemsz + base := by ring
  rw [← mmapEnd] at finish
  rw [commuted] at checked
  unfold pageRest
  generalize mmapEnd base ph = high at *
  generalize ph.pVaddr + ph.pMemsz + base = last at *
  bv_omega

theorem mmapSize_toNat (checked : ph.pVaddr + base + ph.pMemsz ≤ mmapEnd base ph) :
    (mmapSize base ph).toNat = (pageOffset base ph + ph.pMemsz.toNat + pageRest base ph) % 2 ^ 64 := by
  have finish := mmapEnd_eq checked
  have start := sub_mmapStart base ph
  unfold mmapSize
  generalize mmapEnd base ph = high at *
  generalize mmapStart base ph = low at *
  generalize pageRest base ph = rest at *
  generalize pageOffset base ph = offset at *
  bv_omega

/-- Whatever the headers, the checks keep a copy inside the mapped pages exactly
if `p_filesz` ends before they do. -/
theorem Passes.copiesInside_iff (passes : Passes host binary mapping phdrs ph) :
    CopiesInside binary.baseAddr ph ↔
      ph.pFilesz = 0 ∨ pageOffset binary.baseAddr ph + ph.pFilesz.toNat ≤
        (pageOffset binary.baseAddr ph + ph.pMemsz.toNat + pageRest binary.baseAddr ph) % 2 ^ 64 := by
  obtain ⟨_, _, _, _, _, _, wanted, ran⟩ := passes
  have empty : ph.pFilesz.toNat = 0 ↔ ph.pFilesz = 0 := by bv_omega
  have size := mmapSize_toNat (loadSegment_checked ran wanted)
  rw [CopiesInside, within_iff (mmapSize binary.baseAddr ph).isLt, sub_mmapStart, size, empty]

end ELFBinary

namespace Sample

/-- A file of two pages, to be loaded with one segment of one page. -/
def pageSegment (pFilesz : Elf64Xword) : Elf64Phdr :=
  { pType := .load, pMemsz := 0x1000, pFilesz := pFilesz }

def pageBinary (pFilesz : Elf64Xword) : ELFBinary where
  path := ascii "/lib/libpage.so"
  file := List.replicate 0x2000 1
  ehdr := ⟨.dyn, 0, 64, 56, 1⟩
  filePhdrs := [pageSegment pFilesz]
  fileDynamic := {}
  hasTls := false
  fileTls := {}
  baseAddr := 0x1400000

def emptyMapping : ELFBinary.Mapping :=
  ⟨⟨fun _ => 0, []⟩, 0x1400000, []⟩

theorem pageBinary_passes {pFilesz : Elf64Xword}
    (done : ((pageBinary pFilesz).loadSegment (Sample.host [] fun _ => none) emptyMapping
      (pageSegment pFilesz)).isOk = true) :
    (pageBinary pFilesz).Passes (Sample.host [] fun _ => none) emptyMapping [pageSegment pFilesz]
      (pageSegment pFilesz) := by
  obtain ⟨next, ran⟩ := exists_of_isOk done
  exact ⟨[], [], emptyMapping, next, rfl, rfl, rfl, ran⟩

theorem pageBinary_copiesInside :
    (pageBinary 0x1000).Passes (Sample.host [] fun _ => none) emptyMapping [pageSegment 0x1000] (pageSegment 0x1000) ∧
      ELFBinary.CopiesInside 0x1400000 (pageSegment 0x1000) := by
  have passes := @pageBinary_passes 0x1000 (by decide +kernel)
  exact ⟨passes, passes.copiesInside_iff.mpr (by decide)⟩

/-- Two pages are copied into one. -/
theorem pageBinary_overruns :
    (pageBinary 0x2000).Passes (Sample.host [] fun _ => none) emptyMapping [pageSegment 0x2000] (pageSegment 0x2000) ∧
      ¬ ELFBinary.CopiesInside 0x1400000 (pageSegment 0x2000) := by
  refine ⟨pageBinary_passes (by decide +kernel), fun inside => ?_⟩
  have overrun := inside 0x1401000 (by decide)
  exact absurd overrun (by decide)

end Sample

end Sloader
