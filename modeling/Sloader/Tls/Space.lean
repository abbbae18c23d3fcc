import Sloader.Tls.Image
import Sloader.Relocate.Words
import Sloader.Run.History

namespace Sloader

open Data

/-! The space that is secured for thread-local variables of the loaded binaries:
`4096` bytes below the thread pointer.  `Execute` compares the sizes with it once;
`TLSSymOffset` goes on counting for whatever is loaded later. -/

variable {host : Host} {mainPath : Path} {loader : DynLoader} {binaries before after : List ELFBinary}
  {b : ELFBinary} {block : TlsBlock} {address : Address} {record : Processed}

/-- The block that a binary gets when others come before it. -/
def blockBelow (host : Host) (before : List ELFBinary) (b : ELFBinary) : TlsBlock :=
  ⟨b, host.tlsBlock + 4096 - tlsBlockSize before⟩

theorem mem_tlsBlocks (host : Host) :
    block ∈ tlsBlocks (host.tlsBlock + 4096) binaries ↔
      ∃ before b after, binaries = before ++ b :: after ∧ b.hasTls = true ∧ block = blockBelow host before b := by
  induction binaries using List.reverseRecOn with
  | nil => simp [tlsBlocks]
  | append_singleton earlier last ih =>
      rw [tlsBlocks_append, List.mem_append, ih]
      constructor
      · intro either
        rcases either with ⟨before, b, after, rfl, hasTls, same⟩ | new
        · exact ⟨before, b, after ++ [last], by simp, hasTls, same⟩
        · simp only [tlsBlocks] at new
          split at new
          · rename_i hasTls
            exact ⟨earlier, last, [], rfl, hasTls, List.mem_singleton.mp new⟩
          · contradiction
      · intro listed
        obtain ⟨before, b, after, split, hasTls, same⟩ := listed
        rcases List.eq_nil_or_concat after with rfl | ⟨shorter, final, rfl⟩
        · obtain ⟨rfl, rfl⟩ : before = earlier ∧ b = last := by simpa [eq_comm] using split
          refine .inr ?_
          simp [tlsBlocks, hasTls, same, blockBelow]
        · have split : earlier ++ [last] = (before ++ b :: shorter) ++ [final] := by simpa using split
          obtain ⟨rfl, _⟩ := List.append_inj' split rfl
          exact .inl ⟨before, b, shorter, rfl, hasTls, same⟩

theorem blockBelow_covers (hasTls : b.hasTls = true) (total : tlsTotal (before ++ [b]) ≤ 4096) :
    (blockBelow host before b).Covers address ↔
      4096 - tlsTotal before - b.fileTls.pMemsz.toNat ≤ tlsPosition host address ∧
        tlsPosition host address < 4096 - tlsTotal before := by
  rw [tlsTotal_append, tlsTotal_singleton hasTls] at total
  have size := tlsBlockSize_toNat (by omega : tlsTotal before ≤ 4096)
  simp only [TlsBlock.Covers, TlsBlock.start, blockBelow, Inside, tlsPosition]
  generalize tlsTotal before = amount at size total ⊢
  bv_omega

theorem tlsBlocks_disjoint (total : tlsTotal binaries ≤ 4096) :
    (tlsBlocks (host.tlsBlock + 4096) binaries).Pairwise fun left right =>
      ∀ address, left.Covers address → ¬ right.Covers address := by
  induction binaries using List.reverseRecOn with
  | nil => exact List.Pairwise.nil
  | append_singleton earlier last ih =>
      have fits := total
      rw [tlsTotal_append] at fits
      rw [tlsBlocks_append, List.pairwise_append]
      refine ⟨ih (by omega), ?_, ?_⟩
      · simp only [tlsBlocks]
        split <;> simp
      · intro left inEarlier right inLast address covered alsoCovered
        simp only [tlsBlocks] at inLast
        split at inLast
        · rename_i hasTls
          rw [List.mem_singleton.mp inLast] at alsoCovered
          have above := (tlsBlocks_position (by omega) inEarlier covered).1
          have below := ((blockBelow_covers hasTls total).mp alsoCovered).2
          omega
        · contradiction

/-- Where the sizes first exceed the space, a block reaches below it. -/
theorem exists_block_outside (large : 4096 < tlsTotal binaries) :
    ∃ block ∈ tlsBlocks (host.tlsBlock + 4096) binaries, block.Covers (host.tlsBlock - 1) := by
  induction binaries using List.reverseRecOn with
  | nil => simp [tlsTotal] at large
  | append_singleton earlier last ih =>
      by_cases already : 4096 < tlsTotal earlier
      · obtain ⟨block, member, covers⟩ := ih already
        exact ⟨block, by rw [tlsBlocks_append]; exact List.mem_append_left _ member, covers⟩
      · rw [tlsTotal_append] at large
        cases hasTls : last.hasTls with
        | false =>
            have alone : tlsTotal [last] = 0 := by simp [tlsTotal, hasTls]
            omega
        | true =>
            rw [tlsTotal_singleton hasTls] at large
            refine ⟨blockBelow host earlier last, (mem_tlsBlocks host).mpr ⟨earlier, last, [], rfl, hasTls, rfl⟩, ?_⟩
            have size := tlsBlockSize_toNat (by omega : tlsTotal earlier ≤ 4096)
            simp only [TlsBlock.Covers, TlsBlock.start, blockBelow, Inside]
            generalize tlsTotal earlier = amount at size large already
            bv_omega

/-- The symbol that `TLSSymOffset` takes, and the binaries before its own. -/
structure TlsSymbol (memory : Memory) (binaries : List ELFBinary) (name : CString) (before : List ELFBinary)
    (b : ELFBinary) (symbol : Elf64Sym) : Prop where
  split : ∃ after, binaries = before ++ b :: after
  unmatched : firstNamed memory name Elf64Sym.isTls (symbolTable before) = none
  matched : (b.symtabs.find? fun s => b.nameIs memory name s && s.isTls) = some symbol

theorem Processed.Of.tpoff {symbol : Elf64Sym} (isRecord : record.Of host binaries)
    (type : record.rela.rType = .tpoff64)
    (found : TlsSymbol record.memory (binaries.take record.scope) record.name before b symbol) :
    ∃ place, record.write = .word place (0 - tlsBlockSize before - b.fileTls.pMemsz + symbol.stValue) := by
  obtain ⟨bin, _, _, resolved⟩ := isRecord.entry
  obtain ⟨_, _, named, resolved⟩ := resolveEntry_ok resolved
  obtain ⟨after, split⟩ := found.split
  have offset := @tlsSymOffset_eq record.memory before after b symbol record.name (terminated_of_string named) host
    found.unmatched found.matched
  simp only [resolve, type, split, offset, bind_eq_ok, pure_eq_ok, Except.ok.injEq] at resolved
  obtain ⟨_, rfl, stored⟩ := resolved
  exact ⟨bin.target record.rela, stored.symm⟩

/-- The blocks lie apart from each other in the space, and so does every variable
that a `TPOFF64` entry has been given an offset for. -/
structure TlsInSpace (host : Host) (loader : DynLoader) : Prop where
  disjoint : (tlsBlocks (host.tlsBlock + 4096) loader.binaries).Pairwise fun left right =>
    ∀ address, left.Covers address → ¬ right.Covers address
  reserved : ∀ block ∈ tlsBlocks (host.tlsBlock + 4096) loader.binaries, ∀ address, block.Covers address →
    Inside host.tlsBlock 4096 address
  words : ∀ record ∈ loader.processed, record.rela.rType = .tpoff64 → ∀ before b symbol,
    TlsSymbol record.memory (loader.binaries.take record.scope) record.name before b symbol → b.hasTls = true →
    symbol.stValue.toNat < b.fileTls.pMemsz.toNat →
    ∃ place offset, record.write = .word place offset ∧ Inside host.tlsBlock 4096 (host.tlsBlock + 4096 + offset)

theorem tlsBlocks_reserved (total : tlsTotal binaries ≤ 4096)
    (member : block ∈ tlsBlocks (host.tlsBlock + 4096) binaries) (covers : block.Covers address) :
    Inside host.tlsBlock 4096 address :=
  (tlsBlocks_position total member covers).2

theorem blockBelow_covers_symbol {symbol : Elf64Sym} (within : symbol.stValue.toNat < b.fileTls.pMemsz.toNat) :
    (blockBelow host before b).Covers
      (host.tlsBlock + 4096 + (0 - tlsBlockSize before - b.fileTls.pMemsz + symbol.stValue)) := by
  have place : host.tlsBlock + 4096 + (0 - tlsBlockSize before - b.fileTls.pMemsz + symbol.stValue) -
      (blockBelow host before b).start = symbol.stValue := by
    simp only [TlsBlock.start, blockBelow]
    ring
  rw [TlsBlock.Covers, Inside, place]
  exact within

/-- In every state of a run, thread-local variables stay in the space secured for
them exactly if the sizes of all blocks, added up without wrapping, do. -/
theorem tls_in_space_iff (run : DynLoader.Run host mainPath loader) :
    TlsInSpace host loader ↔ tlsTotal loader.binaries ≤ 4096 := by
  constructor
  · intro inSpace
    by_contra large
    obtain ⟨block, member, covers⟩ := @exists_block_outside host loader.binaries (by omega)
    have inside := inSpace.reserved block member _ covers
    simp only [Inside] at inside
    bv_omega
  · intro total
    refine ⟨tlsBlocks_disjoint total, fun block member address => tlsBlocks_reserved total member, ?_⟩
    intro record member type before b symbol found hasTls within
    obtain ⟨place, write⟩ := (run.history.records record member).tpoff type found
    refine ⟨place, _, write, tlsBlocks_reserved total ?_ (blockBelow_covers_symbol within)⟩
    obtain ⟨after, split⟩ := found.split
    refine (mem_tlsBlocks host).mpr ⟨before, b, after ++ loader.binaries.drop record.scope, ?_, hasTls, rfl⟩
    rw [← List.cons_append, ← List.append_assoc, ← split, List.take_append_drop]

namespace Sample

/-- An executable with a thread-local word, and a library for `dlopen` with a
block of `4096` bytes, in which a `TPOFF64` entry refers to `y`. -/
def largeHost : Host :=
  -- the string "y" is at 2
  let strings : List (BitVec 64) := [0x790000]
  let executable : Object :=
    { header := [7, 232, 232, 0, 8, 8, 8], data := [0x1111111111111111], strings }
  let library : Object :=
    { header := [7, 232, 232, 0, 8, 4096, 8], data := [0x2222222222222222, 0], strings
      symbols := [0, 0, 0, 0x1001600000002, 0, 8], relas := [240, 0x100000012, 0] }
  Sample.host [(ascii "m", executable.file), (ascii "a", library.file)] fun _ => none

theorem largeHost_facts :
    (startup largeHost (ascii "/bin/m")).toOption.map (fun started =>
      decide (tlsTotal started.binaries = 8) &&
      ((started.executeTls largeHost).toOption.map fun placed =>
        (placed.sloaderDlopen largeHost 12 (some (ascii "a"))).toOption.map fun opened =>
          (tlsTotal opened.2.binaries, opened.2.processed.map Processed.write)) =
        some (some (4104, [.word 0x18000f0 0xffffffffffffeff8]))) = some true := by
  decide +kernel

theorem largeHost_started :
    ∃ started, DynLoader.Run largeHost (ascii "/bin/m") started ∧ tlsTotal started.binaries = 8 ∧
      ∃ placed handle opened, started.executeTls largeHost = .ok placed ∧
        placed.sloaderDlopen largeHost 12 (some (ascii "a")) = .ok (handle, opened) ∧
        tlsTotal opened.binaries = 4104 ∧
        opened.processed.map Processed.write = [.word 0x18000f0 0xffffffffffffeff8] := by
  obtain ⟨started, run, facts⟩ := DynLoader.exists_startup largeHost_facts
  obtain ⟨small, later⟩ := Bool.and_eq_true_iff.mp facts
  obtain ⟨placed, passes, opens⟩ := Option.map_eq_some_iff.mp (of_decide_eq_true later)
  obtain ⟨opened, ran, large⟩ := Option.map_eq_some_iff.mp opens
  obtain ⟨total, writes⟩ := Prod.mk.inj large
  exact ⟨started, run, of_decide_eq_true small, placed, opened.1, opened.2, eq_ok_of_toOption passes,
    eq_ok_of_toOption ran, total, writes⟩

theorem largeHost_in_space :
    ∃ started, DynLoader.Run largeHost (ascii "/bin/m") started ∧ TlsInSpace largeHost started := by
  obtain ⟨started, run, small, _⟩ := largeHost_started
  exact ⟨started, run, (tls_in_space_iff run).mpr (by omega)⟩

/-- The check of `Execute` passes, and the library that is opened after it is
given a block that reaches below the space; the word for `y` points there. -/
theorem dlopen_leaves_space :
    ∃ started placed handle opened, DynLoader.Run largeHost (ascii "/bin/m") started ∧
      started.executeTls largeHost = .ok placed ∧
      placed.sloaderDlopen largeHost 12 (some (ascii "a")) = .ok (handle, opened) ∧
      DynLoader.Run largeHost (ascii "/bin/m") opened ∧ ¬ TlsInSpace largeHost opened ∧
      opened.processed.map Processed.write = [.word 0x18000f0 0xffffffffffffeff8] ∧
      ¬ Inside largeHost.tlsBlock 4096 (largeHost.tlsBlock + 4096 + 0xffffffffffffeff8) := by
  obtain ⟨started, run, _, placed, handle, opened, passes, opens, large, writes⟩ := largeHost_started
  refine ⟨started, placed, handle, opened, run, passes, opens, .dlopen (.tls run passes) opens, ?_, writes, by decide⟩
  intro inSpace
  obtain ⟨block, member, covers⟩ := @exists_block_outside largeHost opened.binaries (by omega)
  exact absurd (inSpace.reserved block member _ covers) (by decide)

end Sample

end Sloader
