import Sloader.Tls
import Sloader.Sample

namespace Sloader

open Data

/-! The images that the TLS loop of `Execute` leaves.  Each turn also stores a
pointer just past the block it fills, which is where the block of the previous
binary begins. -/

structure TlsBlock where
  binary : ELFBinary
  finish : Address

/-- The layout in the source's comment: every block ends where the one before it starts. -/
def tlsBlocks : Address → List ELFBinary → List TlsBlock
  | _, [] => []
  | finish, b :: rest =>
      if b.hasTls then ⟨b, finish⟩ :: tlsBlocks (finish - b.fileTls.pMemsz) rest
      else tlsBlocks finish rest

namespace TlsBlock

def start (block : TlsBlock) : Address :=
  block.finish - block.binary.fileTls.pMemsz

def Covers (block : TlsBlock) (address : Address) : Prop :=
  Inside block.start block.binary.fileTls.pMemsz.toNat address

/-- The initial image: the bytes of the segment, and zero after them. -/
def image (block : TlsBlock) (memory : Memory) (address : Address) : UInt8 :=
  if (address - block.start).toNat < block.binary.fileTls.pFilesz.toNat then
    memory.bytes (block.binary.baseAddr + block.binary.fileTls.pVaddr + (address - block.start))
  else 0

def CoversPointer (block : TlsBlock) (address : Address) : Prop :=
  Inside block.finish 8 address

def pointerByte (block : TlsBlock) (address : Address) : UInt8 :=
  Bytes.wordByte block.finish.toNat (address - block.finish).toNat

instance (block : TlsBlock) (address : Address) : Decidable (block.Covers address) :=
  inferInstanceAs (Decidable (Inside _ _ _))

instance (block : TlsBlock) (address : Address) : Decidable (block.CoversPointer address) :=
  inferInstanceAs (Decidable (Inside _ _ _))

end TlsBlock

variable {host : Host} {loader : DynLoader} {binaries before after : List ELFBinary} {b : ELFBinary}
  {block : TlsBlock} {address : Address}

theorem tlsBlocks_append (finish : Address) (before after : List ELFBinary) :
    tlsBlocks finish (before ++ after) =
      tlsBlocks finish before ++ tlsBlocks (finish - tlsBlockSize before) after := by
  induction before generalizing finish with
  | nil => simp [tlsBlocks, tlsBlockSize]
  | cons b rest ih =>
      simp only [List.cons_append, tlsBlocks, ih, tlsBlockSize_cons]
      split
      · rw [sub_add_eq_sub_sub, List.cons_append]
      · rw [zero_add]

def nextBlock (host : Host) (loader : DynLoader) (b : ELFBinary) : TlsBlock :=
  ⟨b, host.tlsBlock + loader.tlsOffset⟩

theorem initializeTls_pointer (hasTls : b.hasTls = true)
    (inside : (nextBlock host loader b).CoversPointer address) :
    (loader.initializeTls host b).memory.bytes address = (nextBlock host loader b).pointerByte address := by
  simp only [DynLoader.initializeTls, hasTls, if_true, Memory.store64]
  exact Bytes.patch_inside inside

theorem initializeTls_image (hasTls : b.hasTls = true)
    (files : b.fileTls.pFilesz.toNat ≤ b.fileTls.pMemsz.toNat)
    (outside : ¬ (nextBlock host loader b).CoversPointer address)
    (inside : (nextBlock host loader b).Covers address) :
    (loader.initializeTls host b).memory.bytes address = (nextBlock host loader b).image loader.memory address := by
  have tail : Inside (host.tlsBlock + loader.tlsOffset - (b.fileTls.pMemsz - b.fileTls.pFilesz))
        (b.fileTls.pMemsz - b.fileTls.pFilesz).toNat address ↔
      b.fileTls.pFilesz.toNat ≤ (address - (nextBlock host loader b).start).toNat := by
    simp only [TlsBlock.Covers, TlsBlock.start, nextBlock, Inside] at inside ⊢
    bv_omega
  simp only [DynLoader.initializeTls, hasTls, if_true, Memory.store64, Memory.memset, Memory.memcpy]
  refine (Bytes.patch_outside outside).trans ?_
  by_cases bss : b.fileTls.pFilesz.toNat ≤ (address - (nextBlock host loader b).start).toNat
  · exact (Bytes.patch_inside (tail.mpr bss)).trans (if_neg (Nat.not_lt.mpr bss)).symm
  · refine (Bytes.patch_outside fun cleared => bss (tail.mp cleared)).trans ?_
    refine (Bytes.patch_inside inside).trans ?_
    rw [BitVec.ofNat_toNat, BitVec.setWidth_eq]
    exact (if_pos (Nat.lt_of_not_le bss)).symm

theorem initializeTls_outside (hasTls : b.hasTls = true)
    (files : b.fileTls.pFilesz.toNat ≤ b.fileTls.pMemsz.toNat)
    (outsidePointer : ¬ (nextBlock host loader b).CoversPointer address)
    (outside : ¬ (nextBlock host loader b).Covers address) :
    (loader.initializeTls host b).memory.bytes address = loader.memory.bytes address := by
  simp only [DynLoader.initializeTls, hasTls, if_true, Memory.store64, Memory.memset, Memory.memcpy]
  refine (Bytes.patch_outside outsidePointer).trans ?_
  refine (Bytes.patch_outside ?_).trans (Bytes.patch_outside outside)
  simp only [TlsBlock.Covers, TlsBlock.start, nextBlock, Inside] at outside ⊢
  bv_omega

theorem initializeTls_skip (noTls : b.hasTls = false) : loader.initializeTls host b = loader := by
  simp [DynLoader.initializeTls, noTls]

def tlsTotal (binaries : List ELFBinary) : Nat :=
  ((binaries.filter (·.hasTls)).map fun b => b.fileTls.pMemsz.toNat).sum

/-- Images no larger than their blocks, and room for all blocks. -/
structure TlsSizes (binaries : List ELFBinary) : Prop where
  files : ∀ b ∈ binaries, b.hasTls = true → b.fileTls.pFilesz.toNat ≤ b.fileTls.pMemsz.toNat
  total : tlsTotal binaries ≤ 4096

/-- Besides, the segments are not part of the reserved space itself. -/
structure TlsFits (host : Host) (binaries : List ELFBinary) : Prop extends TlsSizes binaries where
  sources : ∀ b ∈ binaries, b.hasTls = true →
    Apart (b.baseAddr + b.fileTls.pVaddr) b.fileTls.pFilesz.toNat host.tlsBlock 4104

def tlsPosition (host : Host) (address : Address) : Nat :=
  (address - host.tlsBlock).toNat

theorem tlsTotal_append (before after : List ELFBinary) :
    tlsTotal (before ++ after) = tlsTotal before + tlsTotal after := by
  simp [tlsTotal]

theorem tlsTotal_singleton (hasTls : b.hasTls = true) : tlsTotal [b] = b.fileTls.pMemsz.toNat := by
  simp [tlsTotal, hasTls]

theorem tlsBlockSize_toNat (total : tlsTotal binaries ≤ 4096) :
    (tlsBlockSize binaries).toNat = tlsTotal binaries := by
  induction binaries with
  | nil => rfl
  | cons b rest ih =>
      have split : tlsTotal (b :: rest) = tlsTotal [b] + tlsTotal rest := tlsTotal_append [b] rest
      have tail := ih (by omega)
      rw [tlsBlockSize_cons]
      cases tls : b.hasTls with
      | false =>
          have alone : tlsTotal [b] = 0 := by simp [tlsTotal, tls]
          simp only [Bool.false_eq_true, if_false, zero_add]
          omega
      | true =>
          have alone := tlsTotal_singleton tls
          simp only [if_true, BitVec.toNat_add]
          omega

theorem tlsBlocks_position (total : tlsTotal before ≤ 4096)
    (member : block ∈ tlsBlocks (host.tlsBlock + 4096) before) (covers : block.Covers address) :
    4096 - tlsTotal before ≤ tlsPosition host address ∧ tlsPosition host address < 4096 := by
  induction before using List.reverseRecOn with
  | nil => simp [tlsBlocks] at member
  | append_singleton earlier b ih =>
      rw [tlsTotal_append] at total ⊢
      rw [tlsBlocks_append, List.mem_append] at member
      rcases member with old | new
      · obtain ⟨lower, upper⟩ := ih (by omega) old
        exact ⟨by omega, upper⟩
      · simp only [tlsBlocks] at new
        split at new
        · rename_i hasTls
          rw [List.mem_singleton] at new
          have size := tlsBlockSize_toNat (by omega : tlsTotal earlier ≤ 4096)
          have alone := tlsTotal_singleton hasTls
          rw [alone] at total ⊢
          subst new
          simp only [TlsBlock.Covers, TlsBlock.start, Inside, tlsPosition] at covers ⊢
          bv_omega
        · simp at new

def tlsState (host : Host) (loader : DynLoader) (before : List ELFBinary) : DynLoader :=
  before.foldl (DynLoader.initializeTls host) loader

theorem tlsState_append_singleton (before : List ELFBinary) (b : ELFBinary) :
    tlsState host loader (before ++ [b]) = (tlsState host loader before).initializeTls host b := by
  simp [tlsState]

theorem TlsSizes.split (sizes : TlsSizes (before ++ after)) : TlsSizes before := by
  refine ⟨fun b member => sizes.files b (List.mem_append_left after member), ?_⟩
  have total := sizes.total
  rw [tlsTotal_append] at total
  omega

theorem TlsFits.split (fits : TlsFits host (before ++ after)) : TlsFits host before :=
  ⟨fits.toTlsSizes.split, fun b member => fits.sources b (List.mem_append_left after member)⟩

theorem tlsState_settled (binaries : List ELFBinary)
    (keeps : ∀ before b after, binaries = before ++ b :: after →
      ∀ block ∈ tlsBlocks (host.tlsBlock + 4096) before, ∀ address, block.Covers address →
        ((tlsState host loader before).initializeTls host b).memory.bytes address =
          (tlsState host loader before).memory.bytes address)
    (split : binaries = before ++ after) (member : block ∈ tlsBlocks (host.tlsBlock + 4096) before)
    (covers : block.Covers address) :
    (tlsState host loader binaries).memory.bytes address = (tlsState host loader before).memory.bytes address := by
  induction after generalizing before with
  | nil => simp [split]
  | cons b rest ih =>
      have later : block ∈ tlsBlocks (host.tlsBlock + 4096) (before ++ [b]) := by
        rw [tlsBlocks_append]
        exact List.mem_append_left _ member
      rw [ih (by simpa using split) later, tlsState_append_singleton]
      exact keeps before b rest split block member address covers

/-- What is in the block at an address once later turns have stored their pointers. -/
def TlsBlock.settledByte (block : TlsBlock) (memory : Memory) (later : List TlsBlock) (address : Address) : UInt8 :=
  match later.reverse.find? fun other => decide (other.CoversPointer address) with
  | some other => other.pointerByte address
  | none => block.image memory address

theorem TlsBlock.settledByte_append_singleton (memory : Memory) (middle : List TlsBlock) (last : TlsBlock) :
    block.settledByte memory (middle ++ [last]) address =
      if last.CoversPointer address then last.pointerByte address else block.settledByte memory middle address := by
  rw [settledByte, List.reverse_append, List.reverse_singleton, List.singleton_append, List.find?_cons]
  by_cases pointer : last.CoversPointer address
  · simp [pointer]
  · simp [pointer, settledByte]

section Run

variable (initial : loader.tlsOffset = 4096)

include initial

theorem tlsState_offset (total : tlsTotal before ≤ 4096) :
    (tlsState host loader before).tlsOffset.toNat = 4096 - tlsTotal before := by
  have size := tlsBlockSize_toNat total
  rw [tlsState, foldl_initializeTls_tlsOffset, initial]
  bv_omega

theorem tlsBlocks_last (hasTls : b.hasTls = true) :
    tlsBlocks (host.tlsBlock + 4096) (before ++ [b]) =
      tlsBlocks (host.tlsBlock + 4096) before ++ [nextBlock host (tlsState host loader before) b] := by
  rw [tlsBlocks_append]
  simp only [tlsBlocks, hasTls, if_true, nextBlock, tlsState, foldl_initializeTls_tlsOffset, initial,
    ← add_sub_assoc]

theorem nextBlock_position (hasTls : b.hasTls = true) (total : tlsTotal (before ++ [b]) ≤ 4096) :
    ((nextBlock host (tlsState host loader before) b).CoversPointer address ↔
      4096 - tlsTotal before ≤ tlsPosition host address ∧
        tlsPosition host address < 4096 - tlsTotal before + 8) ∧
    ((nextBlock host (tlsState host loader before) b).Covers address ↔
      4096 - tlsTotal before - b.fileTls.pMemsz.toNat ≤ tlsPosition host address ∧
        tlsPosition host address < 4096 - tlsTotal before) := by
  rw [tlsTotal_append, tlsTotal_singleton hasTls] at total
  have offset := @tlsState_offset host loader before initial (by omega)
  simp only [TlsBlock.CoversPointer, TlsBlock.Covers, TlsBlock.start, nextBlock, Inside, tlsPosition]
  generalize (tlsState host loader before).tlsOffset = current at offset
  generalize tlsTotal before = size at offset total
  constructor <;> bv_omega

theorem tlsState_outside (sizes : TlsSizes before) (outside : 4104 ≤ tlsPosition host address) :
    (tlsState host loader before).memory.bytes address = loader.memory.bytes address := by
  induction before using List.reverseRecOn with
  | nil => rfl
  | append_singleton earlier b ih =>
      rw [tlsState_append_singleton]
      cases tls : b.hasTls with
      | false =>
          rw [initializeTls_skip tls]
          exact ih sizes.split
      | true =>
          obtain ⟨pointer, covers⟩ := @nextBlock_position host loader earlier b address initial tls sizes.total
          rw [initializeTls_outside tls (sizes.files b (by simp) tls), ih sizes.split]
          · rw [pointer]
            omega
          · rw [covers]
            omega

theorem image_tlsState (fits : TlsFits host (before ++ [b])) (hasTls : b.hasTls = true)
    (owner : block.binary = b) :
    block.image (tlsState host loader before).memory address = block.image loader.memory address := by
  unfold TlsBlock.image
  split
  · rename_i within
    apply tlsState_outside initial fits.toTlsSizes.split
    rw [owner] at within ⊢
    have apart := fits.sources b (by simp) hasTls
      (b.baseAddr + b.fileTls.pVaddr + (address - block.start)) (by
        simp only [Inside]
        bv_omega)
    simp only [Inside] at apart
    simp only [tlsPosition]
    omega
  · rfl

/-- No pointer is stored over an image that differs from it there. -/
def PointersHarmless (memory : Memory) (blocks : List TlsBlock) : Prop :=
  blocks.Pairwise fun earlier later => ∀ address, earlier.Covers address → later.CoversPointer address →
    later.pointerByte address = earlier.image memory address

theorem initializeTls_earlier (fits : TlsFits host (before ++ [b])) (hasTls : b.hasTls = true)
    (member : block ∈ tlsBlocks (host.tlsBlock + 4096) before) (covers : block.Covers address) :
    ((tlsState host loader before).initializeTls host b).memory.bytes address =
      if (nextBlock host (tlsState host loader before) b).CoversPointer address then
        (nextBlock host (tlsState host loader before) b).pointerByte address
      else (tlsState host loader before).memory.bytes address := by
  obtain ⟨pointerAt, blockAt⟩ := @nextBlock_position host loader before b address initial hasTls fits.total
  obtain ⟨lower, upper⟩ := tlsBlocks_position fits.split.total member covers
  by_cases pointer : (nextBlock host (tlsState host loader before) b).CoversPointer address
  · rw [if_pos pointer]
    exact initializeTls_pointer hasTls pointer
  · rw [if_neg pointer]
    apply initializeTls_outside hasTls (fits.files b (by simp) hasTls) pointer
    rw [blockAt]
    omega

/-- What the loop leaves at an address of a block: the byte of the last pointer
that a later turn stores over it, if there is one. -/
theorem tlsState_settledByte {earlier later : List TlsBlock} (fits : TlsFits host before)
    (blocks : tlsBlocks (host.tlsBlock + 4096) before = earlier ++ block :: later) (covers : block.Covers address) :
    (tlsState host loader before).memory.bytes address = block.settledByte loader.memory later address := by
  induction before using List.reverseRecOn generalizing later with
  | nil => simp [tlsBlocks] at blocks
  | append_singleton first b ih =>
      rw [tlsState_append_singleton]
      cases tls : b.hasTls with
      | false =>
          rw [initializeTls_skip tls]
          rw [tlsBlocks_append] at blocks
          exact ih fits.split (by simpa [tlsBlocks, tls] using blocks)
      | true =>
          rw [tlsBlocks_last initial tls] at blocks
          cases later using List.reverseRecOn with
          | nil =>
              obtain ⟨_, last⟩ := List.append_inj' blocks rfl
              obtain rfl : nextBlock host (tlsState host loader first) b = block := List.head_eq_of_cons_eq last
              obtain ⟨pointerAt, blockAt⟩ := @nextBlock_position host loader first b address initial tls fits.total
              have outside : ¬ (nextBlock host (tlsState host loader first) b).CoversPointer address := by
                rw [pointerAt]
                have inside := blockAt.mp covers
                omega
              rw [initializeTls_image tls (fits.files b (by simp) tls) outside covers]
              exact image_tlsState initial fits tls rfl
          | append_singleton middle last _ =>
              rw [← List.cons_append, ← List.append_assoc] at blocks
              obtain ⟨before, same⟩ := List.append_inj' blocks rfl
              obtain rfl : nextBlock host (tlsState host loader first) b = last := List.head_eq_of_cons_eq same
              have member : block ∈ tlsBlocks (host.tlsBlock + 4096) first := by
                rw [before]
                simp
              rw [initializeTls_earlier initial fits tls member covers, TlsBlock.settledByte_append_singleton,
                ih fits.split before]

theorem PointersHarmless.images (fits : TlsFits host before)
    (harmless : PointersHarmless loader.memory (tlsBlocks (host.tlsBlock + 4096) before))
    (member : block ∈ tlsBlocks (host.tlsBlock + 4096) before) (covers : block.Covers address) :
    (tlsState host loader before).memory.bytes address = block.image loader.memory address := by
  obtain ⟨earlier, later, blocks⟩ := List.append_of_mem member
  rw [tlsState_settledByte initial fits blocks covers, TlsBlock.settledByte]
  rw [blocks, PointersHarmless, List.pairwise_append] at harmless
  split
  · rename_i other found
    have pointer : other.CoversPointer address := by simpa using List.find?_some found
    have inLater : other ∈ later := List.mem_reverse.mp (List.mem_of_find?_eq_some found)
    exact (List.pairwise_cons.mp harmless.2.1).1 other inLater address covers pointer
  · rfl

theorem PointersHarmless.of_settled (binaries : List ELFBinary) (fits : TlsFits host binaries)
    (images : ∀ block ∈ tlsBlocks (host.tlsBlock + 4096) binaries, ∀ address, block.Covers address →
      (tlsState host loader binaries).memory.bytes address = block.image loader.memory address)
    (keeps : ∀ before b after, binaries = before ++ b :: after →
      ∀ block ∈ tlsBlocks (host.tlsBlock + 4096) before, ∀ address, block.Covers address →
        ((tlsState host loader before).initializeTls host b).memory.bytes address =
          (tlsState host loader before).memory.bytes address)
    (split : binaries = before ++ after) :
    PointersHarmless loader.memory (tlsBlocks (host.tlsBlock + 4096) before) := by
  induction before using List.reverseRecOn generalizing after with
  | nil => exact List.Pairwise.nil
  | append_singleton earlier b ih =>
      have before := @ih (b :: after) (by simpa using split)
      cases tls : b.hasTls with
      | false =>
          rw [tlsBlocks_append]
          simpa [tlsBlocks, tls] using before
      | true =>
          rw [tlsBlocks_last initial tls]
          refine List.pairwise_append.mpr ⟨before, List.pairwise_singleton _ _, ?_⟩
          intro block member last isLast address covers pointer
          rw [List.mem_singleton] at isLast
          subst isLast
          have stored := initializeTls_earlier initial (split ▸ fits).split tls member covers
          rw [if_pos pointer, ← tlsState_append_singleton] at stored
          have inAll : block ∈ tlsBlocks (host.tlsBlock + 4096) (earlier ++ [b]) := by
            rw [tlsBlocks_append]
            exact List.mem_append_left _ member
          have inBinaries : block ∈ tlsBlocks (host.tlsBlock + 4096) binaries := by
            rw [split, tlsBlocks_append]
            exact List.mem_append_left _ inAll
          rw [← stored, ← tlsState_settled binaries keeps split inAll covers]
          exact images block inBinaries address covers

end Run

/-- No turn of the loop changes a block that was filled before. -/
def KeepsBlocks (host : Host) (loader : DynLoader) : Prop :=
  ∀ before b rest, loader.binaries = before ++ b :: rest →
    ∀ block ∈ tlsBlocks (host.tlsBlock + 4096) before, ∀ address, block.Covers address →
      ((tlsState host loader before).initializeTls host b).memory.bytes address =
        (tlsState host loader before).memory.bytes address

theorem PointersHarmless.keepsBlocks (initial : loader.tlsOffset = 4096) (fits : TlsFits host loader.binaries)
    (harmless : PointersHarmless loader.memory (tlsBlocks (host.tlsBlock + 4096) loader.binaries)) :
    KeepsBlocks host loader := by
  intro before b rest split block member address covers
  have fitsNext : TlsFits host (before ++ [b]) := by
    have fitsAll : TlsFits host ((before ++ [b]) ++ rest) := by simpa [split] using fits
    exact fitsAll.split
  cases tls : b.hasTls with
  | false => rw [initializeTls_skip tls]
  | true =>
      have harmlessNext : PointersHarmless loader.memory (tlsBlocks (host.tlsBlock + 4096) (before ++ [b])) := by
        rw [show loader.binaries = (before ++ [b]) ++ rest by simpa using split, tlsBlocks_append] at harmless
        exact (List.pairwise_append.mp harmless).1
      rw [tlsBlocks_last initial tls] at harmlessNext
      obtain ⟨harmlessBefore, _, cross⟩ := List.pairwise_append.mp harmlessNext
      rw [initializeTls_earlier initial fitsNext tls member covers]
      split
      · rename_i pointer
        rw [cross block member _ List.mem_cons_self address covers pointer,
          PointersHarmless.images initial fitsNext.split harmlessBefore member covers]
      · rfl

/-- The loop ends, with the initial images in the blocks and each block left alone
once it is filled, exactly if everything that is copied is mapped and no pointer is
stored over an image that differs from it. -/
theorem executeTls_images_iff (initial : loader.tlsOffset = 4096) (fits : TlsFits host loader.binaries) :
    (∃ after, loader.executeTls host = .ok after ∧
        (∀ block ∈ tlsBlocks (host.tlsBlock + 4096) loader.binaries, ∀ address, block.Covers address →
          after.memory.bytes address = block.image loader.memory address) ∧ KeepsBlocks host loader) ↔
      (∀ b ∈ loader.binaries, b.tlsMapped loader.memory = true) ∧
        PointersHarmless loader.memory (tlsBlocks (host.tlsBlock + 4096) loader.binaries) := by
  have room : tlsBlockSize loader.binaries ≤ 4096 := by
    have size := tlsBlockSize_toNat fits.total
    have total := fits.total
    bv_omega
  constructor
  · intro filled
    obtain ⟨after, ran, images, keeps⟩ := filled
    obtain ⟨_, readable, rfl⟩ := DynLoader.executeTls_eq_ok.mp ran
    exact ⟨readable, PointersHarmless.of_settled initial loader.binaries fits images keeps (List.append_nil _).symm⟩
  · intro condition
    obtain ⟨readable, harmless⟩ := condition
    refine ⟨tlsState host loader loader.binaries, DynLoader.executeTls_eq_ok.mpr ⟨room, readable, rfl⟩, ?_,
      harmless.keepsBlocks initial fits⟩
    exact fun block member address covers => harmless.images initial fits member covers

@[irreducible] def tlsLoader : DynLoader :=
  Sample.relocated Sample.tlsHost (ascii "/bin/m")

theorem tlsLoader_facts :
    tlsLoader.tlsOffset = 4096 ∧
    (∀ b ∈ tlsLoader.binaries, b.hasTls = true → b.fileTls.pFilesz.toNat ≤ b.fileTls.pMemsz.toNat) ∧
    tlsTotal tlsLoader.binaries ≤ 4096 ∧
    (∀ b ∈ tlsLoader.binaries, b.hasTls = true →
      b.fileTls.pFilesz.toNat ≤ (Sample.tlsHost.tlsBlock - (b.baseAddr + b.fileTls.pVaddr)).toNat ∧
      4104 ≤ (b.baseAddr + b.fileTls.pVaddr - Sample.tlsHost.tlsBlock).toNat) ∧
    (∃ block ∈ tlsBlocks (Sample.tlsHost.tlsBlock + 4096) tlsLoader.binaries,
      block.Covers (Sample.tlsHost.tlsBlock + 4088) ∧
      block.image tlsLoader.memory (Sample.tlsHost.tlsBlock + 4088) = 0x11) ∧
    (tlsLoader.executeTls Sample.tlsHost).toOption.map
      (fun after => after.memory.bytes (Sample.tlsHost.tlsBlock + 4088)) = some 0xf8 := by
  decide +kernel

theorem tlsLoader_fits : TlsFits Sample.tlsHost tlsLoader.binaries := by
  obtain ⟨_, files, total, sources, _⟩ := tlsLoader_facts
  refine ⟨⟨files, total⟩, ?_⟩
  intro b member hasTls
  obtain ⟨sourceOutside, blockOutside⟩ := sources b member hasTls
  exact apart_of_starts sourceOutside blockOutside

theorem executeTls_images_iff_tlsLoader :
    (∃ after, tlsLoader.executeTls Sample.tlsHost = .ok after ∧
        (∀ block ∈ tlsBlocks (Sample.tlsHost.tlsBlock + 4096) tlsLoader.binaries, ∀ address, block.Covers address →
          after.memory.bytes address = block.image tlsLoader.memory address) ∧ KeepsBlocks Sample.tlsHost tlsLoader) ↔
      (∀ b ∈ tlsLoader.binaries, b.tlsMapped tlsLoader.memory = true) ∧
        PointersHarmless tlsLoader.memory (tlsBlocks (Sample.tlsHost.tlsBlock + 4096) tlsLoader.binaries) :=
  executeTls_images_iff tlsLoader_facts.1 tlsLoader_fits

theorem executeTls_overwrites_image :
    ∃ after, tlsLoader.executeTls Sample.tlsHost = .ok after ∧
      ¬ ∀ block ∈ tlsBlocks (Sample.tlsHost.tlsBlock + 4096) tlsLoader.binaries, ∀ address,
        block.Covers address → after.memory.bytes address = block.image tlsLoader.memory address := by
  obtain ⟨_, _, _, _, ⟨block, member, covers, image⟩, last⟩ := tlsLoader_facts
  obtain ⟨after, ran, stored⟩ := Option.map_eq_some_iff.mp last
  refine ⟨after, eq_ok_of_toOption ran, ?_⟩
  intro images
  have held := images block member _ covers
  rw [image, stored] at held
  exact absurd held (by decide)

end Sloader
