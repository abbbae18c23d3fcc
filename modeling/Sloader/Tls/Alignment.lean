import Sloader.Tls.Image
import Mathlib.Data.Nat.ModEq

namespace Sloader

open Data

/-! The alignment of thread-local blocks.  The loop of `Execute` packs the blocks
without a look at `p_align`, while the offsets that the linker has put into the
executable assume that its block is padded. -/

/-- The least multiple that is not smaller. -/
def roundUp (size align : Nat) : Nat :=
  (size + (align - 1)) / align * align

theorem roundUp_eq_self_iff {size align : Nat} (positive : 0 < align) :
    roundUp size align = size ↔ align ∣ size := by
  constructor
  · intro same
    exact ⟨(size + (align - 1)) / align, by rw [Nat.mul_comm]; exact same.symm⟩
  · intro multiple
    obtain ⟨count, same⟩ := multiple
    have quotient : (align * count + (align - 1)) / align = count := by
      rw [Nat.mul_add_div positive, Nat.div_eq_of_lt (by omega), Nat.add_zero]
    rw [roundUp, same, quotient, Nat.mul_comm]

theorem roundUp_bounds {size align : Nat} (positive : 0 < align) :
    size ≤ roundUp size align ∧ roundUp size align < size + align := by
  have split := Nat.div_add_mod (size + (align - 1)) align
  have small := Nat.mod_lt (size + (align - 1)) positive
  rw [roundUp, Nat.mul_comm]
  omega

/-- The distance from an aligned pointer down to a block decides its alignment. -/
theorem aligned_below_iff {pointer distance vaddr : BitVec 64} {align : Nat} (divides : align ∣ 2 ^ 64)
    (aligned : align ∣ pointer.toNat) :
    (pointer - distance).toNat % align = vaddr.toNat % align ↔ align ∣ distance.toNat + vaddr.toNat := by
  have whole : (pointer - distance).toNat + distance.toNat ≡ pointer.toNat [MOD 2 ^ 64] := by
    change _ % 2 ^ 64 = _ % 2 ^ 64
    bv_omega
  have back : (pointer - distance).toNat + distance.toNat ≡ 0 [MOD align] :=
    (whole.of_dvd divides).trans (Nat.modEq_zero_iff_dvd.mpr aligned)
  constructor
  · intro same
    have moved : vaddr.toNat + distance.toNat ≡ 0 [MOD align] :=
      (Nat.ModEq.add_right distance.toNat (Nat.ModEq.symm same)).trans back
    rw [Nat.add_comm]
    exact Nat.modEq_zero_iff_dvd.mp moved
  · intro multiple
    rw [Nat.add_comm] at multiple
    exact Nat.ModEq.add_right_cancel' distance.toNat (back.trans (Nat.modEq_zero_iff_dvd.mpr multiple).symm)

variable {host : Host} {loader : DynLoader} {binaries before after : List ELFBinary} {b : ELFBinary}

theorem tlsBlockSize_mod (binaries : List ELFBinary) :
    (tlsBlockSize binaries).toNat = tlsTotal binaries % 2 ^ 64 := by
  induction binaries with
  | nil => rfl
  | cons b rest ih =>
      have split : tlsTotal (b :: rest) = tlsTotal [b] + tlsTotal rest := tlsTotal_append [b] rest
      rw [tlsBlockSize_cons, split]
      cases tls : b.hasTls with
      | false =>
          have alone : tlsTotal [b] = 0 := by simp [tlsTotal, tls]
          rw [alone, Nat.zero_add]
          simpa using ih
      | true =>
          rw [tlsTotal_singleton tls]
          simp only [if_true, BitVec.toNat_add, ih, Nat.add_mod_mod]

/-- What the ABI asks of the places where `Execute` puts the blocks. -/
structure TlsAligned (host : Host) (loader : DynLoader) : Prop where
  congruent : ∀ before b after, loader.binaries = before ++ b :: after → b.hasTls = true →
    ((before.foldl (DynLoader.initializeTls host) loader).tlsImageStart host b).toNat % b.fileTls.pAlign.toNat =
      b.fileTls.pVaddr.toNat % b.fileTls.pAlign.toNat
  executable : ∀ main rest, loader.binaries = main :: rest → main.hasTls = true →
    loader.tlsImageStart host main =
      host.tlsBlock + 4096 - BitVec.ofNat 64 (roundUp main.fileTls.pMemsz.toNat main.fileTls.pAlign.toNat)

/-- The thread pointer, `4096` bytes above the block, has every alignment, each
of them a power of two. -/
structure AlignedPointer (host : Host) (binaries : List ELFBinary) : Prop where
  powers : ∀ b ∈ binaries, b.hasTls = true → ∃ bits, b.fileTls.pAlign.toNat = 2 ^ bits
  pointer : ∀ b ∈ binaries, b.hasTls = true → b.fileTls.pAlign.toNat ∣ (host.tlsBlock + 4096).toNat

theorem AlignedPointer.divides (aligned : AlignedPointer host binaries) (member : b ∈ binaries)
    (hasTls : b.hasTls = true) : 0 < b.fileTls.pAlign.toNat ∧ b.fileTls.pAlign.toNat ∣ 2 ^ 63 := by
  obtain ⟨bits, power⟩ := aligned.powers b member hasTls
  have bound := b.fileTls.pAlign.isLt
  rw [power] at bound ⊢
  have small : bits < 64 := (Nat.pow_lt_pow_iff_right (by omega)).mp bound
  exact ⟨Nat.two_pow_pos bits, Nat.pow_dvd_pow 2 (by omega)⟩

theorem congruent_iff (initial : loader.tlsOffset = 4096) (aligned : AlignedPointer host binaries)
    (split : binaries = before ++ b :: after) (hasTls : b.hasTls = true) :
    ((before.foldl (DynLoader.initializeTls host) loader).tlsImageStart host b).toNat % b.fileTls.pAlign.toNat =
        b.fileTls.pVaddr.toNat % b.fileTls.pAlign.toNat ↔
      b.fileTls.pAlign.toNat ∣ tlsTotal before + b.fileTls.pMemsz.toNat + b.fileTls.pVaddr.toNat := by
  have member : b ∈ binaries := by simp [split]
  have divides : b.fileTls.pAlign.toNat ∣ 2 ^ 64 :=
    (aligned.divides member hasTls).2.trans (Nat.pow_dvd_pow 2 (by omega))
  have place : (before.foldl (DynLoader.initializeTls host) loader).tlsImageStart host b =
      host.tlsBlock + 4096 - (tlsBlockSize before + b.fileTls.pMemsz) := by
    rw [tlsImageStart_eq initial]
    ring
  have size : (tlsBlockSize before + b.fileTls.pMemsz).toNat ≡
      tlsTotal before + b.fileTls.pMemsz.toNat [MOD b.fileTls.pAlign.toNat] := by
    apply Nat.ModEq.of_dvd divides
    change _ % 2 ^ 64 = _ % 2 ^ 64
    rw [BitVec.toNat_add, tlsBlockSize_mod, Nat.mod_mod, Nat.mod_add_mod]
  rw [place, aligned_below_iff divides (aligned.pointer b member hasTls)]
  exact (size.add_right b.fileTls.pVaddr.toNat).dvd_iff dvd_rfl

theorem executable_iff (initial : loader.tlsOffset = 4096) (aligned : AlignedPointer host binaries)
    (member : b ∈ binaries) (hasTls : b.hasTls = true) :
    loader.tlsImageStart host b =
        host.tlsBlock + 4096 - BitVec.ofNat 64 (roundUp b.fileTls.pMemsz.toNat b.fileTls.pAlign.toNat) ↔
      b.fileTls.pAlign.toNat ∣ b.fileTls.pMemsz.toNat := by
  obtain ⟨positive, divides⟩ := aligned.divides member hasTls
  have small := Nat.le_of_dvd (by omega) divides
  have bounds := @roundUp_bounds b.fileTls.pMemsz.toNat b.fileTls.pAlign.toNat positive
  have size := b.fileTls.pMemsz.isLt
  rw [DynLoader.tlsImageStart, initial, sub_right_inj, ← roundUp_eq_self_iff positive]
  constructor
  · intro same
    have sameNat := congrArg BitVec.toNat same
    rw [BitVec.toNat_ofNat] at sameNat
    omega
  · intro same
    rw [same, BitVec.ofNat_toNat, BitVec.setWidth_eq]

/-- The blocks are where the ABI puts them exactly if no padding was called for:
every distance from the thread pointer down to a block is right for the block's
alignment, and the executable's size is a multiple of its own. -/
theorem tls_aligned_iff (initial : loader.tlsOffset = 4096) (aligned : AlignedPointer host loader.binaries) :
    TlsAligned host loader ↔
      (∀ before b after, loader.binaries = before ++ b :: after → b.hasTls = true →
        b.fileTls.pAlign.toNat ∣ tlsTotal before + b.fileTls.pMemsz.toNat + b.fileTls.pVaddr.toNat) ∧
      ∀ main rest, loader.binaries = main :: rest → main.hasTls = true →
        main.fileTls.pAlign.toNat ∣ main.fileTls.pMemsz.toNat := by
  constructor
  · intro placed
    refine ⟨fun before b after split hasTls => ?_, fun main rest split hasTls => ?_⟩
    · exact (congruent_iff initial aligned split hasTls).mp (placed.congruent before b after split hasTls)
    · exact (executable_iff initial aligned (by simp [split]) hasTls).mp (placed.executable main rest split hasTls)
  · intro unpadded
    obtain ⟨distances, size⟩ := unpadded
    refine ⟨fun before b after split hasTls => ?_, fun main rest split hasTls => ?_⟩
    · exact (congruent_iff initial aligned split hasTls).mpr (distances before b after split hasTls)
    · exact (executable_iff initial aligned (by simp [split]) hasTls).mpr (size main rest split hasTls)

namespace Sample

/-- An executable whose thread-local block has the size `main`, and a library
with a block of `8` bytes, both aligned to `8`. -/
def alignedLoader (main : Elf64Xword) : DynLoader :=
  let executable := tlsBinary main []
  let library := tlsBinary 8 []
  { memory := memory
    binaries := [{ executable with fileTls := { executable.fileTls with pAlign := 8 } },
      { library with fileTls := { library.fileTls with pAlign := 8 } }] }

theorem alignedLoader_pointer (main : Elf64Xword) : AlignedPointer tlsHost (alignedLoader main).binaries := by
  have eight : ∀ b ∈ (alignedLoader main).binaries, b.fileTls.pAlign = 8 := by
    intro b member
    simp only [alignedLoader, List.mem_cons, List.not_mem_nil, or_false] at member
    rcases member with rfl | rfl <;> rfl
  refine ⟨fun b member _ => ⟨3, by rw [eight b member]; rfl⟩, fun b member _ => ?_⟩
  rw [eight b member]
  decide

theorem alignedLoader_aligned : TlsAligned tlsHost (alignedLoader 16) := by
  apply (tls_aligned_iff rfl (alignedLoader_pointer 16)).mpr
  refine ⟨fun before b after split _ => ?_, fun main rest split _ => ?_⟩
  · cases before with
    | nil =>
        cases split
        decide
    | cons first others =>
        cases others with
        | nil =>
            cases split
            decide
        | cons second others =>
            have length := congrArg List.length split
            simp [alignedLoader] at length
  · cases split
    decide

/-- The linker put the variables of a block of `12` bytes at `16` below the thread
pointer, and the loader puts them at `12`. -/
theorem executable_not_padded :
    AlignedPointer tlsHost (alignedLoader 12).binaries ∧ (alignedLoader 12).tlsOffset = 4096 ∧
      ((alignedLoader 12).binaries.head?.map fun main =>
        ((alignedLoader 12).tlsImageStart tlsHost main, main.fileTls.pVaddr)) = some (0x7f0000000ff4, 0) ∧
      ¬ TlsAligned tlsHost (alignedLoader 12) := by
  refine ⟨alignedLoader_pointer 12, rfl, rfl, fun placed => ?_⟩
  have start := placed.executable _ _ rfl rfl
  exact absurd start (by decide)

end Sample

end Sloader
