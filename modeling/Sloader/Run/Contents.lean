import Sloader.Run.Image

namespace Sloader

open Data

/-! All of memory over whole runs.

What an address holds is a function of the memory that the process started with, of
the binaries in their order, and of the entries that have been processed
(`contentsAt`).  The loader's memory, which the private mappings of files are no part
of, is that function, mapped pages and bytes, but for the addresses that it fills with
TLS blocks or that the program changes. -/

/-- The byte at an address, if it is mapped. -/
def Memory.look (memory : Memory) (address : Address) : Option UInt8 :=
  if memory.mapped address then some (memory.bytes address) else none

namespace ELFBinary

/-- The first of the segments that has the address in its pages. -/
def pageSegment (base : Elf64Addr) (phdrs : List Elf64Phdr) (address : Address) : Option Elf64Phdr :=
  phdrs.find? fun ph => ph.pType = .load && decide (Inside (mmapStart base ph) (mmapSize base ph).toNat address)

def segmentAt (binary : ELFBinary) (address : Address) : Option Elf64Phdr :=
  pageSegment binary.baseAddr binary.filePhdrs address

end ELFBinary

/-- What the memory at the start, the files behind the binaries and the entries that
have been processed say is at an address.  An entry writes to what was there when it
was processed. -/
def contentsAt (start : Memory) (binaries : List ELFBinary) (records : List Processed) (address : Address) :
    Option UInt8 :=
  (binaries.zipIdx.findSome? fun placed =>
    (placed.1.segmentAt address).map fun ph => placed.1.relocatedByte placed.2 ph records address).or
  ((start.look address).map fun byte => records.foldl (Processed.onto address) byte)

variable {memory after : Memory} {address : Address}

theorem Memory.look_mapped (mapped : memory.mapped address = true) : memory.look address = some (memory.bytes address) :=
  if_pos mapped

theorem Memory.look_unmapped (unmapped : memory.mapped address = false) : memory.look address = none := by
  rw [Memory.look, unmapped]
  rfl

theorem Memory.look_of_bytes (ranges : after.ranges = memory.ranges) (bytes : after.bytes address = memory.bytes address) :
    after.look address = memory.look address := by
  rw [Memory.look, Memory.look, bytes, Memory.mapped, Memory.mapped, ranges]

namespace ELFBinary

variable {host : Host} {binary : ELFBinary} {mapping next last : Mapping} {ph : Elf64Phdr} {base : Elf64Addr}
  {phdrs : List Elf64Phdr}

theorem pageSegment_some (found : pageSegment base phdrs address = some ph) :
    ph ∈ phdrs ∧ ph.pType = .load ∧ Inside (mmapStart base ph) (mmapSize base ph).toNat address := by
  have holds := List.find?_some found
  simp only [Bool.and_eq_true, decide_eq_true_eq] at holds
  exact ⟨List.mem_of_find?_eq_some found, holds⟩

theorem pageSegment_none : pageSegment base phdrs address = none ↔
    ∀ ph ∈ phdrs, ph.pType = .load → ¬ Inside (mmapStart base ph) (mmapSize base ph).toNat address := by
  simp [pageSegment, List.find?_eq_none]

theorem copied_segmentByte {bytes : Bytes} (fits : SegmentFits binary.file binary.baseAddr ph) (zero : bytes address = 0) :
    bytes.patch (ph.pVaddr + binary.baseAddr) ph.pFilesz.toNat
        (fun index => fileBytes binary.file (ph.pOffset + BitVec.ofNat 64 index)) address =
      binary.segmentByte ph address := by
  rw [BitVec.add_comm, segmentByte]
  by_cases copied : (address - (binary.baseAddr + ph.pVaddr)).toNat < ph.pFilesz.toNat
  · rw [Bytes.patch_inside copied, if_pos copied, List.getD_eq_getElem?_getD, fileBytes_eq fits copied]
    rfl
  · rw [Bytes.patch_outside copied, if_neg copied, zero]

/-- A segment that has been mapped has its pages to itself: the bytes of the file, and
zeros around them. -/
theorem loadSegment_look (ran : binary.loadSegment host mapping ph = .ok next) (wanted : ph.pType = .load)
    (fits : SegmentFits binary.file binary.baseAddr ph) (address : Address) :
    next.memory.look address =
      if Inside (mmapStart binary.baseAddr ph) (mmapSize binary.baseAddr ph).toNat address then
        some (binary.segmentByte ph address)
      else mapping.memory.look address := by
  rcases loadSegment_cases ran with ⟨skipped, _⟩ | ⟨_, _, memory, _⟩
  · contradiction
  · have mapped : next.memory.mapped address = true ↔
        Inside (mmapStart binary.baseAddr ph) (mmapSize binary.baseAddr ph).toNat address ∨
          mapping.memory.mapped address = true := by
      rw [memory]
      exact Memory.mapped_mapZero
    by_cases inPages : Inside (mmapStart binary.baseAddr ph) (mmapSize binary.baseAddr ph).toNat address
    · have zero : (mapping.memory.mapZero (mmapStart binary.baseAddr ph) (mmapSize binary.baseAddr ph)).bytes address =
          0 := by
        simp only [Memory.mapZero, Bytes.patch_inside inPages]
      rw [if_pos inPages, Memory.look_mapped (mapped.mpr (.inl inPages)), memory]
      exact congrArg some (copied_segmentByte fits zero)
    · have uncopied : ¬ Inside (ph.pVaddr + binary.baseAddr) ph.pFilesz.toNat address := by
        intro inside
        obtain ⟨offset, copied, _, rfl⟩ := inside.exists_offset
        exact inPages (inside_pages fits.pages (Nat.lt_of_lt_of_le copied fits.sizes))
      have bytes : next.memory.bytes address = mapping.memory.bytes address := by
        simp only [memory, copySegment, Memory.mapZero, Bytes.patch_outside uncopied, Bytes.patch_outside inPages]
      rw [if_neg inPages]
      simp only [Memory.look, mapped, bytes, inPages, false_or]

theorem loadSegments_look (sound : host.MmapSound) (ran : phdrs.foldlM (binary.loadSegment host) mapping = .ok last)
    (fits : ∀ ph ∈ phdrs, ph.pType = .load → SegmentFits binary.file binary.baseAddr ph) (address : Address) :
    last.memory.look address =
      ((pageSegment binary.baseAddr phdrs address).map (binary.segmentByte · address)).or
        (mapping.memory.look address) := by
  induction phdrs generalizing mapping with
  | nil =>
      cases ran
      rfl
  | cons head rest ih =>
      rw [List.foldlM_cons, bind_eq_ok] at ran
      obtain ⟨middle, first, remaining⟩ := ran
      have fitsRest := fun ph member => fits ph (List.mem_cons_of_mem head member)
      rw [ih remaining fitsRest, pageSegment, pageSegment, List.find?_cons]
      by_cases wanted : head.pType = .load
      · have fitsHead := fits head List.mem_cons_self wanted
        rw [loadSegment_look first wanted fitsHead]
        by_cases inside : Inside (mmapStart binary.baseAddr head) (mmapSize binary.baseAddr head).toNat address
        · -- the pages of the segments after it were not in use when it was mapped
          have others : pageSegment binary.baseAddr rest address = none := by
            rw [pageSegment_none]
            intro ph member load inOther
            have unused := loadSegments_unused sound remaining (fun ph member load => (fitsRest ph member load).copy) ph
              member load address inOther
            have used := (loadSegment_passed first wanted fitsHead.pages).mapped address inside
            rw [unused] at used
            contradiction
          rw [pageSegment] at others
          simp [others, wanted, inside]
        · simp [wanted, inside]
      · rcases loadSegment_cases first with ⟨_, rfl⟩ | ⟨load, _⟩
        · simp [wanted]
        · contradiction

end ELFBinary

section Contents

variable {start : Memory} {binaries : List ELFBinary} {records old new : List Processed} {binary : ELFBinary}

theorem findSome?_map_of {α β γ : Type} {items : List α} {first : α → Option β} {second : α → Option γ} {change : β → γ}
    (each : ∀ item ∈ items, second item = (first item).map change) :
    items.findSome? second = (items.findSome? first).map change := by
  induction items with
  | nil => rfl
  | cons item rest ih =>
      have others := ih fun other member => each other (List.mem_cons_of_mem item member)
      rw [List.findSome?_cons, List.findSome?_cons, each item List.mem_cons_self, others]
      cases first item <;> rfl

/-- Entries write to all that there is when they are processed. -/
theorem contentsAt_append (recent : ∀ record ∈ new, binaries.length ≤ record.scope) :
    contentsAt start binaries (old ++ new) address =
      (contentsAt start binaries old address).map fun byte => new.foldl (Processed.onto address) byte := by
  have placed : ∀ entry ∈ binaries.zipIdx,
      ((entry.1.segmentAt address).map fun ph => entry.1.relocatedByte entry.2 ph (old ++ new) address) =
        ((entry.1.segmentAt address).map fun ph => entry.1.relocatedByte entry.2 ph old address).map
          fun byte => new.foldl (Processed.onto address) byte := by
    intro entry member
    have within : entry.2 < binaries.length :=
      (List.getElem?_eq_some_iff.mp (List.mem_zipIdx_iff_getElem?.mp member)).1
    have later : ∀ record ∈ new, entry.2 < record.scope := fun record isNew =>
      Nat.lt_of_lt_of_le within (recent record isNew)
    cases entry.1.segmentAt address with
    | none => rfl
    | some ph => exact congrArg some (relocatedByte_append later)
  rw [contentsAt, contentsAt, findSome?_map_of placed, Option.map_or, Option.map_map]
  refine congrArg _ (congrArg (Option.map · (start.look address)) ?_)
  funext byte
  exact List.foldl_append

/-- A binary takes addresses that there was nothing at. -/
theorem contentsAt_concat (scopes : ∀ record ∈ records, record.scope ≤ binaries.length)
    (unused : ∀ ph, binary.segmentAt address = some ph → contentsAt start binaries records address = none) :
    contentsAt start (binaries ++ [binary]) records address =
      ((binary.segmentAt address).map (binary.segmentByte · address)).or
        (contentsAt start binaries records address) := by
  have added : ([binary].zipIdx binaries.length).findSome? (fun placed =>
      (placed.1.segmentAt address).map fun ph => placed.1.relocatedByte placed.2 ph records address) =
      (binary.segmentAt address).map (binary.segmentByte · address) := by
    have fresh : (fun ph => binary.relocatedByte binaries.length ph records address) =
        (binary.segmentByte · address) := by
      funext ph
      exact relocatedByte_fresh scopes
    rw [List.zipIdx_singleton, List.findSome?_singleton, fresh]
  rw [contentsAt, List.zipIdx_append, List.findSome?_append, Nat.zero_add, added]
  cases found : binary.segmentAt address with
  | none => rw [Option.map_none, Option.or_none, Option.none_or, contentsAt]
  | some ph =>
      have nothing := unused ph found
      rw [contentsAt, Option.or_eq_none_iff] at nothing
      rw [nothing.1, Option.none_or]
      rfl

end Contents

namespace DynLoader

variable {host : Host} {mainPath path rootPath : Path} {start memory : Memory} {loader loaded next : DynLoader}
  {binary : ELFBinary} {touched stores : Set Address} {steps : Nat}

/-- Outside these addresses, the loader's memory is what the files and the entries say. -/
def Accords (start : Memory) (touched : Set Address) (loader : DynLoader) : Prop :=
  ∀ address ∉ touched, loader.memory.look address = contentsAt start loader.binaries loader.processed address

theorem fresh_accords (start : Memory) : (fresh start).Accords start ∅ := by
  intro address _
  have untouched : (start.look address).map (fun byte => [].foldl (Processed.onto address) byte) = start.look address :=
    Option.map_id_apply
  exact untouched.symm

theorem emplace_look (sound : host.MmapSound) (ran : loader.emplace host path = .ok (binary, next))
    (fits : binary.SegmentsFit) (address : Address) :
    next.memory.look address =
      ((binary.segmentAt address).map (binary.segmentByte · address)).or (loader.memory.look address) := by
  obtain ⟨mapping, segments, _, rfl⟩ := emplace_mapping ran
  exact ELFBinary.loadSegments_look sound segments fits address

theorem emplace_look_none (sound : host.MmapSound) (ran : loader.emplace host path = .ok (binary, next))
    (fits : binary.SegmentsFit) {ph : Elf64Phdr} (found : binary.segmentAt address = some ph) :
    loader.memory.look address = none := by
  obtain ⟨mapping, segments, _⟩ := emplace_mapping ran
  obtain ⟨member, wanted, inside⟩ := ELFBinary.pageSegment_some found
  have copies : ∀ ph ∈ binary.filePhdrs, ph.pType = .load → ELFBinary.CopyFits binary.baseAddr ph :=
    fun ph member wanted => (fits ph member wanted).copy
  exact Memory.look_unmapped (ELFBinary.loadSegments_unused sound segments copies ph member wanted address inside)

theorem Accords.emplace (sound : host.MmapSound) (accords : loader.Accords start touched)
    (scopes : ∀ record ∈ loader.processed, record.scope ≤ loader.binaries.length)
    (ran : loader.emplace host path = .ok (binary, next)) (fits : binary.SegmentsFit) :
    next.Accords start touched := by
  have processed : next.processed = loader.processed := by
    obtain ⟨_, _, _, _, rfl⟩ := emplace_spec ran
    rfl
  intro address untouched
  have before := accords address untouched
  have unused (ph : Elf64Phdr) (found : binary.segmentAt address = some ph) :
      contentsAt start loader.binaries loader.processed address = none :=
    before.symm.trans (emplace_look_none sound ran fits found)
  rw [emplace_look sound ran fits, before, emplace_binaries ran, processed, contentsAt_concat scopes unused]

theorem Accords.relocate (accords : loader.Accords start touched) (ran : loader.relocate host = .ok next) :
    next.Accords start touched := by
  obtain ⟨records, passed, same⟩ := relocate_pass ran
  have recent : ∀ record ∈ records, loader.binaries.length ≤ record.scope := by
    intro record member
    exact Nat.le_of_eq (pass_records passed (fun item member => DynLoader.mem_work member) record member).1.symm
  have processed : next.processed = loader.processed ++ records := by rw [same]
  intro address untouched
  have looked : next.memory.look address =
      (loader.memory.look address).map fun byte => records.foldl (Processed.onto address) byte := by
    rw [Memory.look, Memory.look, Memory.mapped, Memory.mapped, pass_ranges passed, pass_onto passed]
    split <;> rfl
  rw [looked, accords address untouched, relocate_binaries ran, processed, contentsAt_append recent]

theorem Accords.load (sound : host.MmapSound) (accords : loader.Accords start touched) (history : History host loader)
    (loads : loader.loadDependingLibs host steps rootPath = .ok loaded) (relocates : loaded.relocate host = .ok next)
    (inOrder : ∀ binary ∈ next.binaries, binary.InOrder) : next.Accords start touched := by
  rw [relocate_binaries relocates] at inOrder
  have scopes := fun record member => (history.records record member).scope
  have ready : loaded.Accords start touched := by
    refine loadDependingLibs_keeps (Accords start touched) ?_ ?_ accords scopes loads ?_
    · intro state name accords
      exact accords
    · intro state path binary next accords scopes emplaced fits
      exact accords.emplace sound scopes emplaced fits
    · exact fun binary member => (inOrder binary member).segments
  exact ready.relocate relocates

theorem Accords.same (accords : loader.Accords start touched) (same : SameBookkeeping loader next)
    (kept : ∀ address ∉ stores, next.memory.look address = loader.memory.look address) :
    next.Accords start (touched ∪ stores) := by
  intro address untouched
  rw [Set.mem_union, not_or] at untouched
  rw [kept address untouched.2, accords address untouched.1, same.binaries, same.processed]

theorem Accords.executeTls (accords : loader.Accords start touched) (ran : loader.executeTls host = .ok next)
    (inOrder : ∀ binary ∈ next.binaries, binary.InOrder) : next.Accords start (touched ∪ loader.tlsArea host) := by
  have same := executeTls_bookkeeping ran
  rw [same.binaries] at inOrder
  have extended := executeTls_extends ran fun binary member => (inOrder binary member).tls
  have ranges : next.memory.ranges = loader.memory.ranges := by
    obtain ⟨_, _, rfl⟩ := DynLoader.executeTls_eq_ok.mp ran
    exact initializeTls_ranges _ _
  refine accords.same same fun address outside => ?_
  cases known : loader.memory.mapped address with
  | true => exact Memory.look_of_bytes ranges ((extended address known).2 outside)
  | false =>
      rw [Memory.look_unmapped known, Memory.look_unmapped]
      rw [Memory.mapped, ranges]
      exact known

/-- The states of a run that starts with this memory, and the addresses that `Execute`
has put TLS blocks at or that the program has stored to, mapped or unmapped. -/
inductive Confined (host : Host) (mainPath : Path) (start : Memory) : Set Address → DynLoader → Prop where
  | startup {steps : Nat} {loaded relocated : DynLoader}
      (libraries : (fresh start).loadDependingLibs host steps mainPath = .ok loaded)
      (ran : loaded.relocate host = .ok relocated) : Confined host mainPath start ∅ relocated
  | program {touched stores : Set Address} {loader : DynLoader} (run : Confined host mainPath start touched loader)
      (memory : Memory) (kept : ∀ address ∉ stores, memory.look address = loader.memory.look address) :
      Confined host mainPath start (touched ∪ stores) (loader.withMemory memory)
  | tls {touched : Set Address} {loader next : DynLoader} (run : Confined host mainPath start touched loader)
      (ran : loader.executeTls host = .ok next) : Confined host mainPath start (touched ∪ loader.tlsArea host) next
  | dlopen {touched : Set Address} {loader next : DynLoader} {steps : Nat} {filename : Option CString} {handle : Address}
      (run : Confined host mainPath start touched loader)
      (ran : loader.sloaderDlopen host steps filename = .ok (handle, next)) : Confined host mainPath start touched next

theorem Confined.run (confined : Confined host mainPath start touched loader) : Run host mainPath loader := by
  induction confined with
  | startup libraries ran => exact .startup libraries ran
  | program _ memory _ ih => exact ih.program memory
  | tls _ ran ih => exact ih.tls ran
  | dlopen _ ran ih => exact ih.dlopen ran

/-- At every moment of every run of binaries with headers in order, the files, the link
map and the entries processed say of all of memory what is mapped and what it holds.  Only where the TLS blocks are, and
where the program has changed something itself, may there be anything else. -/
theorem Confined.contents (sound : host.MmapSound) (confined : Confined host mainPath start touched loader)
    (inOrder : ∀ binary ∈ loader.binaries, binary.InOrder) :
    ∀ address ∉ touched, loader.memory.look address = contentsAt start loader.binaries loader.processed address := by
  change loader.Accords start touched
  induction confined with
  | startup libraries ran => exact (fresh_accords start).load sound (history_fresh start) libraries ran inOrder
  | program _ memory kept ih => exact (ih inOrder).same (withMemory_bookkeeping _ memory) kept
  | tls _ ran ih =>
      refine (ih ?_).executeTls ran inOrder
      rwa [(executeTls_bookkeeping ran).binaries] at inOrder
  | dlopen run ran ih =>
      have earlier := ih fun binary member => inOrder binary (sloaderDlopen_binaries ran member)
      obtain rfl | ⟨path, loaded, loads, relocates⟩ := sloaderDlopen_cases ran
      · exact earlier
      · exact earlier.load sound run.run.history loads relocates inOrder

/-- A page that the process has before it loads anything. -/
def ownMemory : Memory where
  bytes _ := 7
  ranges := [(0x7ff000000000, 0x1000)]

def ownFilled : Except Stop (DynLoader × DynLoader) := do
  let loaded ← (fresh ownMemory).loadDependingLibs Sample.tlsHost 12 (ascii "/bin/m")
  let started ← loaded.relocate Sample.tlsHost
  let filled ← started.executeTls Sample.tlsHost
  return (started, filled)

/-- The page, a module number that an entry has stored, the rest of the last page of
the executable, and an address behind it. -/
theorem ownFilled_facts :
    ownFilled.toOption.map (fun loaders => decide (
      [0x7ff000000010, 0x14000f0, 0x1400fff, 0x1401000].map
        (contentsAt ownMemory loaders.2.binaries loaders.2.processed) = [some 7, some 1, some 0, none] ∧
      loaders.2.binaries.length = 2 ∧ ∀ binary ∈ loaders.2.binaries,
        (binary.hasTls = true → binary.fileTls.pFilesz.toNat ≤ binary.fileTls.pMemsz.toNat) ∧
        ∀ ph ∈ binary.filePhdrs, ph.pType = .load →
          ph.pFilesz.toNat ≤ ph.pMemsz.toNat ∧ ph.pOffset.toNat + ph.pFilesz.toNat ≤ binary.file.length ∧
          binary.file.length < 2 ^ 64 ∧
          ph.pVaddr.toNat + ph.pMemsz.toNat + binary.baseAddr.toNat + 0xfff < 2 ^ 64)) = some true := by
  decide +kernel

theorem Confined.contents_tlsHost :
    ∃ started filled : DynLoader,
      Confined Sample.tlsHost (ascii "/bin/m") ownMemory (∅ ∪ started.tlsArea Sample.tlsHost) filled ∧
      filled.binaries.length = 2 ∧
      [0x7ff000000010, 0x14000f0, 0x1400fff, 0x1401000].map
        (contentsAt ownMemory filled.binaries filled.processed) = [some 7, some 1, some 0, none] ∧
      ∀ address ∉ ∅ ∪ started.tlsArea Sample.tlsHost,
        filled.memory.look address = contentsAt ownMemory filled.binaries filled.processed address := by
  obtain ⟨⟨started, filled⟩, ran, facts⟩ := Option.map_eq_some_iff.mp ownFilled_facts
  obtain ⟨bytes, two, inOrder⟩ := of_decide_eq_true facts
  have steps := eq_ok_of_toOption ran
  simp only [ownFilled, bind_eq_ok, pure_eq_ok, Prod.mk.injEq] at steps
  obtain ⟨loaded, loads, _, relocates, last, tls, rfl, rfl⟩ := steps
  have confined : Confined Sample.tlsHost (ascii "/bin/m") ownMemory _ last := (Confined.startup loads relocates).tls tls
  have headers (binary : ELFBinary) (member : binary ∈ last.binaries) : binary.InOrder :=
    inOrder_of_sizes (inOrder binary member).1 (inOrder binary member).2
  exact ⟨_, _, confined, two, bytes, Confined.contents (Sample.host_mmapSound _ _) confined headers⟩

end DynLoader

end Sloader
