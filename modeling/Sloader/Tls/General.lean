import Sloader.Tls.Image
import Sloader.Relocate.Words

namespace Sloader

open Data

/-! The general-dynamic access model.  `sloader_tls_get_addr` adds the second
word of a `tls_index`, which no `DTPOFF64` entry ever sets, to the start of the
lowest block. -/

variable {host : Host} {loader relocated after : DynLoader} {left : Memory} {binaries before rest : List ELFBinary}
  {b : ELFBinary} {s : Elf64Sym} {name : CString} {ti : Address}

theorem executeTls_ok (ran : loader.executeTls host = .ok after) :
    after = tlsState host loader loader.binaries :=
  (DynLoader.executeTls_eq_ok.mp ran).2.2

theorem tlsGetAddr_eq (initial : loader.tlsOffset = 4096) (ran : loader.executeTls host = .ok after)
    (split : loader.binaries = before ++ b :: rest) (hasTls : b.hasTls = true) :
    after.tlsGetAddr host ti =
      (tlsState host loader before).tlsImageStart host b +
        (after.memory.bytes.load64 (ti + 8) - tlsBlockSize rest) := by
  have offset : after.tlsOffset = 4096 - (tlsBlockSize before + (b.fileTls.pMemsz + tlsBlockSize rest)) := by
    rw [executeTls_ok ran, tlsState, foldl_initializeTls_tlsOffset, initial, split, tlsBlockSize_append,
      tlsBlockSize_cons, if_pos hasTls]
  rw [DynLoader.tlsGetAddr, offset, tlsState, tlsImageStart_eq initial]
  ring

/-- The second word of a `tls_index` is outside the reserved space, and nothing
but `DTPOFF64` entries is meant to set it: neither other entries nor the
initialisers, which leave the memory `left`, write into it. -/
structure TlsIndex (host : Host) (loader relocated : DynLoader) (left : Memory) (ti : Address) : Prop where
  entries : ∀ item ∈ loader.work, item.rela.rType ≠ .dtpoff64 → ∀ address, Inside (ti + 8) 8 address →
    ¬ (item.write host loader.memory loader.binaries).Covers address
  initialisers : ∀ address, Inside (ti + 8) 8 address → left.bytes address = relocated.memory.bytes address
  reserved : Apart (ti + 8) 8 host.tlsBlock 4104

theorem Item.write_dtpoff64 {memory : Memory} {item : Item} {address : Address}
    (type : item.rela.rType = .dtpoff64) : ¬ (item.write host memory binaries).Covers address := by
  intro covers
  unfold Item.write at covers
  split at covers
  · rename_i resolved
    obtain ⟨_, _, _, resolved⟩ := resolveEntry_ok resolved
    simp only [resolve, type, pure_eq_ok] at resolved
    subst resolved
    exact Nat.not_lt_zero _ covers
  · exact Nat.not_lt_zero _ covers

section Startup

variable (initial : loader.tlsOffset = 4096) (sizes : TlsSizes loader.binaries)
  (spares : SparesStrings host loader.memory loader.binaries loader.work)
  (ran : loader.relocate host = .ok relocated)
  (initialized : (relocated.withMemory left).executeTls host = .ok after)

include initial sizes spares ran initialized

theorem TlsIndex.asLoaded (index : TlsIndex host loader relocated left ti) :
    after.memory.bytes.load64 (ti + 8) = loader.memory.bytes.load64 (ti + 8) := by
  obtain ⟨records, passed, _⟩ := DynLoader.relocate_pass ran
  apply Bytes.load64_congr
  intro address inside
  have unreserved : 4104 ≤ tlsPosition host address := Nat.le_of_not_lt (index.reserved address inside)
  have start : (relocated.withMemory left).tlsOffset = 4096 := (DynLoader.relocate_tlsOffset ran).trans initial
  have sizesLeft : TlsSizes (relocated.withMemory left).binaries := (DynLoader.relocate_binaries ran).symm ▸ sizes
  rw [executeTls_ok initialized, tlsState_outside start sizesLeft unreserved]
  refine (index.initialisers address inside).trans ?_
  apply spares.outside (.refl loader.memory loader.binaries) passed
  intro item member
  by_cases type : item.rela.rType = .dtpoff64
  · exact Item.write_dtpoff64 type
  · exact index.entries item member type address inside

/-- The address for a variable is right exactly if the word stood in the file
already, and counted the blocks below that of the variable. -/
theorem tlsGetAddr_agrees_iff :
    (∀ ti before b rest s name, TlsIndex host loader relocated left ti →
      loader.binaries = before ++ b :: rest → b.hasTls = true →
      firstNamed loader.memory name Elf64Sym.isTls (symbolTable before) = none →
      (b.symtabs.find? fun symbol => b.nameIs loader.memory name symbol && symbol.isTls) = some s →
      ∃ offset, tlsSymOffset host loader.memory loader.binaries name = .ok offset ∧
        (after.tlsGetAddr host ti = host.tlsBlock + 4096 + offset ↔
          loader.memory.bytes.load64 (ti + 8) = s.stValue + tlsBlockSize rest)) ∧
    ∀ ti before b rest, TlsIndex host loader relocated left ti →
      loader.binaries = before ++ b :: rest → b.hasTls = true → loader.memory.bytes.load64 (ti + 8) = 0 →
      (after.tlsGetAddr host ti =
          (tlsState host (relocated.withMemory left) before).tlsImageStart host b ↔
        tlsBlockSize rest = 0) := by
  have binaries := DynLoader.relocate_binaries ran
  have start : (relocated.withMemory left).tlsOffset = 4096 := (DynLoader.relocate_tlsOffset ran).trans initial
  constructor
  · intro ti before b rest s name index split hasTls unmatched matched
    have named := List.find?_some matched
    have terminated := terminated_of_nameIs (Bool.and_eq_true_iff.mp named).1
    have found := @tlsSymOffset_eq loader.memory before rest b s name terminated host unmatched matched
    refine ⟨_, split ▸ found, ?_⟩
    rw [tlsGetAddr_eq start initialized (binaries.trans split) hasTls, tlsState, tlsImageStart_eq start,
      index.asLoaded initial sizes spares ran initialized, ← add_assoc _ _ s.stValue, add_right_inj,
      sub_eq_iff_eq_add]
  · intro ti before b rest index split hasTls zero
    rw [tlsGetAddr_eq start initialized (binaries.trans split) hasTls,
      index.asLoaded initial sizes spares ran initialized, zero, add_eq_left, zero_sub, neg_eq_zero]

end Startup

@[irreducible] def tlsStarted : DynLoader :=
  Sample.started Sample.tlsHost (ascii "/bin/m")

theorem tlsStarted_facts :
    (tlsStarted.tlsOffset = 4096 ∧ tlsTotal tlsStarted.binaries ≤ 4096 ∧
      ∀ b ∈ tlsStarted.binaries, b.hasTls = true → b.fileTls.pFilesz.toNat ≤ b.fileTls.pMemsz.toNat) ∧
    (∀ item ∈ tlsStarted.work,
      ∀ offset < (item.write Sample.tlsHost tlsStarted.memory tlsStarted.binaries).count,
      ∀ binary ∈ tlsStarted.binaries, ∀ symbol ∈ binary.symtabs, ∃ length < 2,
        length < ((item.write Sample.tlsHost tlsStarted.memory tlsStarted.binaries).start +
          BitVec.ofNat 64 offset - (symbol.stName.setWidth 64 + binary.strtab)).toNat ∧
        tlsStarted.memory.bytes (symbol.stName.setWidth 64 + binary.strtab + BitVec.ofNat 64 length) = 0) ∧
    (∀ item ∈ tlsStarted.work, item.rela.rType ≠ .dtpoff64 → ∀ offset < 8,
      ¬ (item.write Sample.tlsHost tlsStarted.memory tlsStarted.binaries).Covers
        (0x14000f0 + 8 + BitVec.ofNat 64 offset)) ∧
    (tlsStarted.work.map fun item => (item.binIndex, item.rela.rType, item.target, item.rela.rSym)) =
      [(0, .dtpmod64, 0x14000f0, 1), (0, .dtpoff64, 0x14000f0 + 8, 1)] ∧
    (tlsStarted.binaries.head?.map fun b => (b.hasTls, b.symtabs.find? fun symbol =>
        b.nameIs tlsStarted.memory (ascii "x") symbol && symbol.isTls)) =
      some (true, some ⟨4, 0x16, 1, 0, 8⟩) ∧
    tlsStarted.memory.bytes.load64 (0x14000f0 + 8) = 0 ∧
    (do let relocated ← tlsStarted.relocate Sample.tlsHost
        let after ← relocated.executeTls Sample.tlsHost
        return after.tlsGetAddr Sample.tlsHost 0x14000f0).toOption =
      some (Sample.tlsHost.tlsBlock + 4080) ∧
    (tlsSymOffset Sample.tlsHost tlsStarted.memory tlsStarted.binaries (ascii "x")).toOption = some (0 - 8) := by
  decide +kernel

theorem tlsStarted_spares :
    SparesStrings Sample.tlsHost tlsStarted.memory tlsStarted.binaries tlsStarted.work :=
  DynLoader.sparesStrings 2 tlsStarted_facts.2.1

theorem tlsStarted_runs :
    ∃ relocated after, tlsStarted.relocate Sample.tlsHost = .ok relocated ∧
      (relocated.withMemory relocated.memory).executeTls Sample.tlsHost = .ok after ∧
      after.tlsGetAddr Sample.tlsHost 0x14000f0 = Sample.tlsHost.tlsBlock + 4080 := by
  obtain ⟨_, _, _, _, _, _, run, _⟩ := tlsStarted_facts
  have ran := eq_ok_of_toOption run
  simp only [bind_eq_ok, pure_eq_ok] at ran
  obtain ⟨relocated, ran, after, initialized, address⟩ := ran
  exact ⟨relocated, after, ran, initialized, address⟩

theorem tlsStarted_index {relocated : DynLoader} :
    TlsIndex Sample.tlsHost tlsStarted relocated relocated.memory 0x14000f0 := by
  obtain ⟨_, _, entries, _⟩ := tlsStarted_facts
  refine ⟨?_, fun _ _ => rfl, apart_of_starts (by decide) (by decide)⟩
  intro item member type address inside
  obtain ⟨offset, within, _, rfl⟩ := inside.exists_offset
  exact entries item member type offset within

theorem tlsGetAddr_agrees_iff_tlsStarted :
    ∃ relocated after b rest offset, tlsStarted.relocate Sample.tlsHost = .ok relocated ∧
      (relocated.withMemory relocated.memory).executeTls Sample.tlsHost = .ok after ∧
      tlsStarted.binaries = b :: rest ∧
      tlsSymOffset Sample.tlsHost tlsStarted.memory tlsStarted.binaries (ascii "x") = .ok offset ∧
      (after.tlsGetAddr Sample.tlsHost 0x14000f0 = Sample.tlsHost.tlsBlock + 4096 + offset ↔
        tlsStarted.memory.bytes.load64 (0x14000f0 + 8) = 0 + tlsBlockSize rest) ∧
      (after.tlsGetAddr Sample.tlsHost 0x14000f0 =
          (tlsState Sample.tlsHost (relocated.withMemory relocated.memory) []).tlsImageStart Sample.tlsHost b ↔
        tlsBlockSize rest = 0) := by
  obtain ⟨⟨initial, total, files⟩, _, _, _, symbol, zero, _⟩ := tlsStarted_facts
  obtain ⟨relocated, after, ran, initialized, _⟩ := tlsStarted_runs
  cases list : tlsStarted.binaries with
  | nil => simp [list] at symbol
  | cons b rest =>
      simp only [list, List.head?_cons, Option.map_some, Option.some.injEq, Prod.mk.injEq] at symbol
      obtain ⟨accesses, blocks⟩ := @tlsGetAddr_agrees_iff Sample.tlsHost tlsStarted relocated after
        relocated.memory initial ⟨files, total⟩ tlsStarted_spares ran initialized
      obtain ⟨offset, found, address⟩ := accesses 0x14000f0 [] b rest ⟨4, 0x16, 1, 0, 8⟩ (ascii "x")
        tlsStarted_index list symbol.1 rfl symbol.2
      exact ⟨relocated, after, b, rest, offset, ran, initialized, rfl, list ▸ found, address,
        blocks 0x14000f0 [] b rest tlsStarted_index list symbol.1 zero⟩

theorem tlsGetAddr_disagrees :
    ∃ relocated after offset, tlsStarted.relocate Sample.tlsHost = .ok relocated ∧
      relocated.executeTls Sample.tlsHost = .ok after ∧
      (tlsStarted.work.map fun item => (item.binIndex, item.rela.rType, item.target, item.rela.rSym)) =
        [(0, .dtpmod64, 0x14000f0, 1), (0, .dtpoff64, 0x14000f0 + 8, 1)] ∧
      tlsSymOffset Sample.tlsHost tlsStarted.memory tlsStarted.binaries (ascii "x") = .ok offset ∧
      after.tlsGetAddr Sample.tlsHost 0x14000f0 ≠ Sample.tlsHost.tlsBlock + 4096 + offset := by
  obtain ⟨_, _, _, items, _, _, _, offset⟩ := tlsStarted_facts
  obtain ⟨relocated, after, ran, initialized, address⟩ := tlsStarted_runs
  refine ⟨relocated, after, 0 - 8, ran, initialized, items, eq_ok_of_toOption offset, ?_⟩
  rw [address]
  decide

end Sloader
