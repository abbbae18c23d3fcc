import Sloader.Tls.Space

namespace Sloader

open Data

/-! What the TLS loop of `Execute` does outside the blocks that it fills: it stores
the thread pointer at the end of each, and nothing else. -/

/-- The byte of the last pointer that is stored over the address, if there is one. -/
def frameByte (blocks : List TlsBlock) (memory : Memory) (address : Address) : UInt8 :=
  match blocks.reverse.find? fun block => decide (block.CoversPointer address) with
  | some block => block.pointerByte address
  | none => memory.bytes address

variable {host : Host} {loader next : DynLoader} {before after binaries : List ELFBinary} {b : ELFBinary}
  {block : TlsBlock} {blocks : List TlsBlock} {memory : Memory} {address : Address}

theorem frameByte_concat : frameByte (blocks ++ [block]) memory address =
    if block.CoversPointer address then block.pointerByte address else frameByte blocks memory address := by
  rw [frameByte, List.reverse_append, List.reverse_singleton, List.singleton_append, List.find?_cons]
  by_cases pointer : block.CoversPointer address
  · simp [pointer]
  · simp [pointer, frameByte]

theorem tlsState_frameByte (initial : loader.tlsOffset = 4096)
    (files : ∀ b ∈ before, b.hasTls = true → b.fileTls.pFilesz.toNat ≤ b.fileTls.pMemsz.toNat)
    (outside : ∀ block ∈ tlsBlocks (host.tlsBlock + 4096) before, ¬ block.Covers address) :
    (tlsState host loader before).memory.bytes address =
      frameByte (tlsBlocks (host.tlsBlock + 4096) before) loader.memory address := by
  induction before using List.reverseRecOn with
  | nil => rfl
  | append_singleton earlier b ih =>
      have filesEarlier : ∀ other ∈ earlier, other.hasTls = true →
          other.fileTls.pFilesz.toNat ≤ other.fileTls.pMemsz.toNat :=
        fun other member => files other (List.mem_append_left _ member)
      rw [tlsState_append_singleton]
      cases tls : b.hasTls with
      | false =>
          have same : tlsBlocks (host.tlsBlock + 4096) (earlier ++ [b]) = tlsBlocks (host.tlsBlock + 4096) earlier := by
            simp [tlsBlocks_append, tlsBlocks, tls]
          rw [same] at outside ⊢
          rw [initializeTls_skip tls]
          exact ih filesEarlier outside
      | true =>
          have blocks := @tlsBlocks_last host loader earlier b initial tls
          rw [blocks] at outside ⊢
          rw [frameByte_concat]
          split
          · rename_i pointer
            exact initializeTls_pointer tls pointer
          · rename_i apart
            rw [initializeTls_outside tls (files b (by simp) tls) apart (outside _ (by simp))]
            exact ih filesEarlier fun block member => outside block (List.mem_append_left _ member)

theorem blockBelow_coversPointer (total : tlsTotal before ≤ 4096) :
    (blockBelow host before b).CoversPointer address ↔
      4096 - tlsTotal before ≤ tlsPosition host address ∧
        tlsPosition host address < 4096 - tlsTotal before + 8 := by
  have size := tlsBlockSize_toNat total
  simp only [TlsBlock.CoversPointer, blockBelow, Inside, tlsPosition]
  generalize tlsTotal before = amount at size total ⊢
  bv_omega

/-- A pointer is stored over the word at the thread pointer only if it is that word. -/
theorem finish_of_coversPointer (total : tlsTotal binaries ≤ 4096)
    (steps : ∀ before b after, binaries = before ++ b :: after → b.hasTls = true →
      tlsTotal before = 0 ∨ 8 ≤ tlsTotal before)
    (member : block ∈ tlsBlocks (host.tlsBlock + 4096) binaries) (inside : Inside (host.tlsBlock + 4096) 8 address)
    (pointer : block.CoversPointer address) : block.finish = host.tlsBlock + 4096 := by
  obtain ⟨before, b, after, split, hasTls, rfl⟩ := (mem_tlsBlocks host).mp member
  rw [split, tlsTotal_append] at total
  have size := tlsBlockSize_toNat (by omega : tlsTotal before ≤ 4096)
  obtain ⟨_, upper⟩ := (blockBelow_coversPointer (by omega)).mp pointer
  have place : 4096 ≤ tlsPosition host address := by
    simp only [Inside, tlsPosition] at inside ⊢
    bv_omega
  have first : tlsTotal before = 0 := by
    rcases steps before b after split hasTls with first | large
    · exact first
    · omega
  change host.tlsBlock + 4096 - tlsBlockSize before = host.tlsBlock + 4096
  bv_omega

theorem exists_tlsBlock (hasTls : ∃ b ∈ binaries, b.hasTls = true) :
    ∃ block ∈ tlsBlocks (host.tlsBlock + 4096) binaries, block.finish = host.tlsBlock + 4096 := by
  induction binaries with
  | nil => simp at hasTls
  | cons head rest ih =>
      cases tls : head.hasTls with
      | true => exact ⟨⟨head, host.tlsBlock + 4096⟩, by simp [tlsBlocks, tls], rfl⟩
      | false =>
          obtain ⟨b, member, others⟩ := hasTls
          have inRest : b ∈ rest := by
            rcases List.mem_cons.mp member with rfl | inRest
            · rw [tls] at others
              contradiction
            · exact inRest
          obtain ⟨block, known, finish⟩ := ih ⟨b, inRest, others⟩
          exact ⟨block, by simpa [tlsBlocks, tls] using known, finish⟩

/-- Outside the blocks, memory holds the pointers that were stored and is otherwise
as it was.  The word at the thread pointer, which `%fs:0` is read for, is the
thread pointer, unless a block starts one to seven bytes below it. -/
theorem executeTls_frame (initial : loader.tlsOffset = 4096)
    (files : ∀ b ∈ loader.binaries, b.hasTls = true → b.fileTls.pFilesz.toNat ≤ b.fileTls.pMemsz.toNat)
    (ran : loader.executeTls host = .ok next) :
    (∀ address, (∀ block ∈ tlsBlocks (host.tlsBlock + 4096) loader.binaries, ¬ block.Covers address) →
      next.memory.bytes address =
        frameByte (tlsBlocks (host.tlsBlock + 4096) loader.binaries) loader.memory address) ∧
    (tlsTotal loader.binaries ≤ 4096 → (∃ b ∈ loader.binaries, b.hasTls = true) →
      (∀ before b after, loader.binaries = before ++ b :: after → b.hasTls = true →
        tlsTotal before = 0 ∨ 8 ≤ tlsTotal before) →
      next.memory.bytes.load64 (host.tlsBlock + 4096) = host.tlsBlock + 4096) := by
  obtain ⟨_, _, rfl⟩ := DynLoader.executeTls_eq_ok.mp ran
  have frame (address : Address) := @tlsState_frameByte host loader loader.binaries address initial files
  refine ⟨frame, ?_⟩
  intro total hasTls steps
  have bytes : ∀ address, Inside (host.tlsBlock + 4096) 8 address →
      (tlsState host loader loader.binaries).memory.bytes address =
        (loader.memory.bytes.store64 (host.tlsBlock + 4096) (host.tlsBlock + 4096)) address := by
    intro address inside
    have outside : ∀ block ∈ tlsBlocks (host.tlsBlock + 4096) loader.binaries, ¬ block.Covers address := by
      intro block member covers
      have below := (tlsBlocks_position total member covers).2
      simp only [Inside, tlsPosition] at inside below
      bv_omega
    rw [frame address outside, frameByte, Bytes.store64, Bytes.patch_inside inside]
    obtain ⟨first, isBlock, finish⟩ := @exists_tlsBlock host loader.binaries hasTls
    split
    · rename_i block found
      have pointer : block.CoversPointer address := by simpa using List.find?_some found
      have member := List.mem_reverse.mp (List.mem_of_find?_eq_some found)
      rw [TlsBlock.pointerByte, finish_of_coversPointer total steps member inside pointer]
    · rename_i missing
      have covers : first.CoversPointer address := by
        rw [TlsBlock.CoversPointer, finish]
        exact inside
      exact absurd covers (by simpa using List.find?_eq_none.mp missing first (List.mem_reverse.mpr isBlock))
  change (tlsState host loader loader.binaries).memory.bytes.load64 _ = _
  rw [Bytes.load64_congr bytes]
  exact Bytes.load64_store64 _

theorem tlsLoader_steps :
    (∃ b ∈ tlsLoader.binaries, b.hasTls = true) ∧
    ∀ count ≤ tlsLoader.binaries.length,
      tlsTotal (tlsLoader.binaries.take count) = 0 ∨ 8 ≤ tlsTotal (tlsLoader.binaries.take count) := by
  decide +kernel

theorem executeTls_frame_tlsLoader :
    ∃ next, tlsLoader.executeTls Sample.tlsHost = .ok next ∧
      next.memory.bytes.load64 (Sample.tlsHost.tlsBlock + 4096) = Sample.tlsHost.tlsBlock + 4096 := by
  obtain ⟨initial, files, total, _, _, run⟩ := tlsLoader_facts
  obtain ⟨hasTls, sizes⟩ := tlsLoader_steps
  obtain ⟨next, ran, _⟩ := Option.map_eq_some_iff.mp run
  obtain ⟨_, pointer⟩ := executeTls_frame initial files (eq_ok_of_toOption ran)
  refine ⟨next, eq_ok_of_toOption ran, pointer total hasTls ?_⟩
  intro before b after split _
  have size := sizes before.length (by simp [split])
  rwa [split, List.take_left] at size

end Sloader
