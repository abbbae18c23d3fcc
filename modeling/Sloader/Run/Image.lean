import Sloader.Loader.SelfContained
import Sloader.Run.AddressSpace
import Sloader.Run.History
import Sloader.Tls.Image

namespace Sloader

open Data

/-! The images of the binaries over whole runs.

`Load` fills a segment from its file, and the entries that are processed after that
write over it, one after the other.  Apart from the TLS blocks of `Execute` and
from what the program itself stores, nothing else does (`Touching.imaged`). -/

/-- What is at an address when the entry has been processed. -/
def Processed.onto (address : Address) (byte : UInt8) (record : Processed) : UInt8 :=
  if record.write.Covers address then record.write.byteAt record.memory address else byte

/-- The byte of a segment of the binary at `index`, under the entries that have been
processed since the binary was loaded. -/
def ELFBinary.relocatedByte (binary : ELFBinary) (index : Nat) (ph : Elf64Phdr) (records : List Processed)
    (address : Address) : UInt8 :=
  (records.filter (index < ·.scope)).foldl (Processed.onto address) (binary.segmentByte ph address)

/-- What the headers of a binary promise. -/
structure ELFBinary.InOrder (binary : ELFBinary) : Prop where
  segments : binary.SegmentsFit
  tls : binary.hasTls = true → binary.fileTls.pFilesz.toNat ≤ binary.fileTls.pMemsz.toNat

/-- What was mapped still is, and has changed in these places only. -/
def Memory.ExtendsOutside (touched : Set Address) (before after : Memory) : Prop :=
  ∀ address, before.mapped address = true →
    after.mapped address = true ∧ (address ∉ touched → after.bytes address = before.bytes address)

section Pass

variable {host : Host} {binaries : List ELFBinary} {memory after : Memory} {items : List Item}
  {records old : List Processed} {address : Address} {binary : ELFBinary} {ph : Elf64Phdr} {index : Nat}

theorem pass_onto (passed : pass host binaries memory items = .ok (after, records)) (address : Address) :
    after.bytes address = records.foldl (Processed.onto address) (memory.bytes address) := by
  induction items generalizing memory records with
  | nil =>
      cases passed
      rfl
  | cons item rest ih =>
      obtain ⟨name, write, later, _, remaining, rfl⟩ := pass_cons_ok.mp passed
      have first : (write.apply memory).bytes address =
          Processed.onto address (memory.bytes address) (item.record name binaries.length memory write) := by
        by_cases covered : write.Covers address
        · exact (Write.apply_inside covered).trans (if_pos covered).symm
        · exact (Write.apply_outside covered).trans (if_neg covered).symm
      rw [List.foldl_cons, ← first]
      exact ih remaining

theorem relocatedByte_append (recent : ∀ record ∈ records, index < record.scope) :
    binary.relocatedByte index ph (old ++ records) address =
      records.foldl (Processed.onto address) (binary.relocatedByte index ph old address) := by
  have all : records.filter (index < ·.scope) = records :=
    List.filter_eq_self.mpr fun record member => decide_eq_true (recent record member)
  rw [ELFBinary.relocatedByte, List.filter_append, all, List.foldl_append, ELFBinary.relocatedByte]

/-- No entry has been processed since a binary that has just been loaded. -/
theorem relocatedByte_fresh (earlier : ∀ record ∈ records, record.scope ≤ index) :
    binary.relocatedByte index ph records address = binary.segmentByte ph address := by
  have none : records.filter (index < ·.scope) = [] :=
    List.filter_eq_nil_iff.mpr fun record member => by simpa using earlier record member
  rw [ELFBinary.relocatedByte, none, List.foldl_nil]

end Pass

namespace DynLoader

variable {host : Host} {mainPath path rootPath : Path} {loader loaded next : DynLoader} {binary : ELFBinary}
  {touched stores : Set Address} {steps : Nat} {address : Address}

/-- Every binary is the file behind its path, and its segments are mapped.  Outside the
places that other code has touched, they have the bytes of the file and of the entries
that have been processed. -/
def Imaged (host : Host) (touched : Set Address) (loader : DynLoader) : Prop :=
  ∀ (index : Nat) (binary : ELFBinary), loader.binaries[index]? = some binary → host.openFile binary.path = some binary.file ∧
    ∀ ph ∈ binary.filePhdrs, ph.pType = .load →
      ∀ address, Inside (binary.baseAddr + ph.pVaddr) ph.pMemsz.toNat address →
        loader.memory.mapped address = true ∧
        (address ∉ touched → loader.memory.bytes address = binary.relocatedByte index ph loader.processed address)

theorem fresh_imaged (memory : Memory) : (fresh memory).Imaged host ∅ := by
  intro index binary found
  contradiction

theorem Imaged.mono (imaged : loader.Imaged host touched) (within : touched ⊆ stores) : loader.Imaged host stores := by
  intro index binary found
  obtain ⟨file, segments⟩ := imaged index binary found
  refine ⟨file, ?_⟩
  intro ph member wanted address inside
  obtain ⟨mapped, bytes⟩ := segments ph member wanted address inside
  exact ⟨mapped, fun untouched => bytes fun touches => untouched (within touches)⟩

theorem Imaged.emplace (sound : host.MmapSound) (imaged : loader.Imaged host touched)
    (scopes : ∀ record ∈ loader.processed, record.scope ≤ loader.binaries.length)
    (ran : loader.emplace host path = .ok (binary, next)) (fits : binary.SegmentsFit) :
    next.Imaged host touched := by
  obtain ⟨extended, holds, file⟩ := emplace_segments sound ran fits
  have binaries := emplace_binaries ran
  have processed : next.processed = loader.processed := by
    obtain ⟨_, _, _, _, rfl⟩ := emplace_spec ran
    rfl
  intro index other found
  rw [binaries] at found
  rw [processed]
  by_cases old : index < loader.binaries.length
  · rw [List.getElem?_append_left old] at found
    obtain ⟨sameFile, segments⟩ := imaged index other found
    refine ⟨sameFile, ?_⟩
    intro ph member wanted address inside
    obtain ⟨mapped, bytes⟩ := segments ph member wanted address inside
    obtain ⟨mappedStill, kept⟩ := extended address mapped
    exact ⟨mappedStill, fun untouched => kept.trans (bytes untouched)⟩
  · have last : index = loader.binaries.length := by
      have bound := (List.getElem?_eq_some_iff.mp found).1
      rw [List.length_append, List.length_singleton] at bound
      omega
    rw [last, List.getElem?_concat_length] at found
    cases found
    refine ⟨file, ?_⟩
    intro ph member wanted address inside
    obtain ⟨held, maps⟩ := holds ph member wanted
    refine ⟨?_, fun _ => ?_⟩
    · have mapped := maps _ inside
      rwa [add_offset_eq] at mapped
    · rw [held.byte inside, relocatedByte_fresh]
      rw [last]
      exact scopes

/-- What a call of `LoadDependingLibs` keeps as long as the segments that it maps fit. -/
theorem loadDependingLibs_keeps (Holds : DynLoader → Prop)
    (marked : ∀ state name, Holds state → Holds (state.insertLoaded name))
    (added : ∀ state path binary next, Holds state → (∀ record ∈ state.processed, record.scope ≤ state.binaries.length) →
      state.emplace host path = .ok (binary, next) → binary.SegmentsFit → Holds next)
    (initial : Holds loader) (scopes : ∀ record ∈ loader.processed, record.scope ≤ loader.binaries.length)
    (ran : loader.loadDependingLibs host steps rootPath = .ok loaded)
    (fits : ∀ binary ∈ loaded.binaries, binary.SegmentsFit) : Holds loaded := by
  have loading : loaded.processed = loader.processed ∧ loader.binaries.length ≤ loaded.binaries.length ∧
      ((∀ binary ∈ loaded.binaries, binary.SegmentsFit) → Holds loaded) := by
    refine (Visits.of_loadDependingLibs ran).invariant (fun state => state.processed = loader.processed ∧
      loader.binaries.length ≤ state.binaries.length ∧
      ((∀ binary ∈ state.binaries, binary.SegmentsFit) → Holds state)) ?_ ?_ ?_
    · intro state name ⟨processed, longer, holds⟩
      exact ⟨processed, longer, fun fits => marked state name (holds fits)⟩
    · intro state path binary next ⟨processed, longer, holds⟩ emplaced
      have binaries := emplace_binaries emplaced
      refine ⟨?_, ?_, ?_⟩
      · obtain ⟨_, _, _, _, rfl⟩ := emplace_spec emplaced
        exact processed
      · rw [binaries, List.length_append]
        omega
      · intro fits
        have earlier := holds fun other member => fits other ((mem_emplace emplaced).mpr (.inl member))
        refine added state path binary next earlier ?_ emplaced (fits binary ((mem_emplace emplaced).mpr (.inr rfl)))
        rw [processed]
        exact fun record member => Nat.le_trans (scopes record member) longer
    · exact ⟨rfl, Nat.le_refl _, fun _ => initial⟩
  exact loading.2.2 fits

theorem Imaged.loadDependingLibs (sound : host.MmapSound) (imaged : loader.Imaged host touched)
    (scopes : ∀ record ∈ loader.processed, record.scope ≤ loader.binaries.length)
    (ran : loader.loadDependingLibs host steps rootPath = .ok loaded)
    (fits : ∀ binary ∈ loaded.binaries, binary.SegmentsFit) : loaded.Imaged host touched := by
  refine loadDependingLibs_keeps (Imaged host touched) ?_ ?_ imaged scopes ran fits
  · intro state name imaged
    exact imaged
  · intro state path binary next imaged scopes emplaced fitsBinary
    exact imaged.emplace sound scopes emplaced fitsBinary

theorem Imaged.relocate (imaged : loader.Imaged host touched) (ran : loader.relocate host = .ok next) :
    next.Imaged host touched := by
  obtain ⟨records, passed, same⟩ := relocate_pass ran
  have scopes := pass_records passed fun item member => DynLoader.mem_work member
  have processed : next.processed = loader.processed ++ records := by rw [same]
  intro index binary found
  rw [relocate_binaries ran] at found
  obtain ⟨file, segments⟩ := imaged index binary found
  refine ⟨file, ?_⟩
  intro ph member wanted address inside
  obtain ⟨mapped, bytes⟩ := segments ph member wanted address inside
  have recent : ∀ record ∈ records, index < record.scope := by
    intro record isRecord
    rw [(scopes record isRecord).1]
    exact (List.getElem?_eq_some_iff.mp found).1
  refine ⟨?_, ?_⟩
  · rw [Memory.mapped, pass_ranges passed]
    exact mapped
  · intro untouched
    rw [pass_onto passed, bytes untouched, processed, relocatedByte_append recent]

theorem Imaged.extends (imaged : loader.Imaged host touched) (same : SameBookkeeping loader next)
    (extended : loader.memory.ExtendsOutside stores next.memory) : next.Imaged host (touched ∪ stores) := by
  intro index binary found
  rw [same.binaries] at found
  rw [same.processed]
  obtain ⟨file, segments⟩ := imaged index binary found
  refine ⟨file, ?_⟩
  intro ph member wanted address inside
  obtain ⟨mapped, bytes⟩ := segments ph member wanted address inside
  obtain ⟨mappedStill, kept⟩ := extended address mapped
  refine ⟨mappedStill, ?_⟩
  intro untouched
  rw [Set.mem_union, not_or] at untouched
  exact (kept untouched.2).trans (bytes untouched.1)

/-- The blocks that `Execute` fills, with the pointers that it stores behind them. -/
def tlsArea (host : Host) (loader : DynLoader) : Set Address :=
  { address | ∃ block ∈ tlsBlocks (host.tlsBlock + loader.tlsOffset) loader.binaries,
    block.Covers address ∨ block.CoversPointer address }

theorem foldl_initializeTls_outside {binaries : List ELFBinary}
    (files : ∀ b ∈ binaries, b.hasTls = true → b.fileTls.pFilesz.toNat ≤ b.fileTls.pMemsz.toNat)
    (outside : ∀ block ∈ tlsBlocks (host.tlsBlock + loader.tlsOffset) binaries,
      ¬ (block.Covers address ∨ block.CoversPointer address)) :
    (binaries.foldl (initializeTls host) loader).memory.bytes address = loader.memory.bytes address := by
  induction binaries generalizing loader with
  | nil => rfl
  | cons b rest ih =>
      have filesRest := fun other member => files other (List.mem_cons_of_mem b member)
      rw [List.foldl_cons]
      cases tls : b.hasTls with
      | false =>
          rw [initializeTls_skip tls]
          simp only [tlsBlocks, tls, Bool.false_eq_true, if_false] at outside
          exact ih filesRest outside
      | true =>
          simp only [tlsBlocks, tls, if_true, List.mem_cons, forall_eq_or_imp, not_or] at outside
          obtain ⟨⟨own, pointer⟩, others⟩ := outside
          have turned : (loader.initializeTls host b).tlsOffset = loader.tlsOffset - b.fileTls.pMemsz := by
            rw [initializeTls, if_pos tls]
          rw [ih filesRest, initializeTls_outside tls (files b List.mem_cons_self tls) pointer own]
          intro block member
          rw [turned, ← add_sub_assoc] at member
          exact not_or.mpr (others block member)

theorem executeTls_extends (ran : loader.executeTls host = .ok next)
    (files : ∀ b ∈ loader.binaries, b.hasTls = true → b.fileTls.pFilesz.toNat ≤ b.fileTls.pMemsz.toNat) :
    loader.memory.ExtendsOutside (loader.tlsArea host) next.memory := by
  obtain ⟨_, _, rfl⟩ := executeTls_eq_ok.mp ran
  intro address mapped
  refine ⟨?_, ?_⟩
  · rw [Memory.mapped, initializeTls_ranges]
    exact mapped
  · intro outside
    exact foldl_initializeTls_outside files fun block member covers => outside ⟨block, member, covers⟩

/-- The states of the runs in which the program unmaps nothing, and the addresses that
`Execute` has put TLS blocks at or that the program has stored to. -/
inductive Touching (host : Host) (mainPath : Path) : Set Address → DynLoader → Prop where
  | startup {memory : Memory} {steps : Nat} {loaded relocated : DynLoader}
      (libraries : (fresh memory).loadDependingLibs host steps mainPath = .ok loaded)
      (ran : loaded.relocate host = .ok relocated) : Touching host mainPath ∅ relocated
  | program {touched stores : Set Address} {loader : DynLoader} (run : Touching host mainPath touched loader)
      (memory : Memory) (kept : loader.memory.ExtendsOutside stores memory) :
      Touching host mainPath (touched ∪ stores) (loader.withMemory memory)
  | tls {touched : Set Address} {loader next : DynLoader} (run : Touching host mainPath touched loader)
      (ran : loader.executeTls host = .ok next) : Touching host mainPath (touched ∪ loader.tlsArea host) next
  | dlopen {touched : Set Address} {loader next : DynLoader} {steps : Nat} {filename : Option CString} {handle : Address}
      (run : Touching host mainPath touched loader)
      (ran : loader.sloaderDlopen host steps filename = .ok (handle, next)) : Touching host mainPath touched next

theorem Touching.run (touching : Touching host mainPath touched loader) : Run host mainPath loader := by
  induction touching with
  | startup libraries ran => exact .startup libraries ran
  | program _ memory _ ih => exact ih.program memory
  | tls _ ran ih => exact ih.tls ran
  | dlopen _ ran ih => exact ih.dlopen ran

theorem Imaged.load (sound : host.MmapSound) (imaged : loader.Imaged host touched) (history : History host loader)
    (loads : loader.loadDependingLibs host steps rootPath = .ok loaded) (relocates : loaded.relocate host = .ok next)
    (inOrder : ∀ binary ∈ next.binaries, binary.InOrder) : next.Imaged host touched := by
  rw [relocate_binaries relocates] at inOrder
  have scopes := fun record member => (history.records record member).scope
  have mapped := imaged.loadDependingLibs sound scopes loads fun binary member => (inOrder binary member).segments
  exact mapped.relocate relocates

theorem Imaged.executeTls (imaged : loader.Imaged host touched) (ran : loader.executeTls host = .ok next)
    (inOrder : ∀ binary ∈ next.binaries, binary.InOrder) : next.Imaged host (touched ∪ loader.tlsArea host) := by
  have same := executeTls_bookkeeping ran
  rw [same.binaries] at inOrder
  exact imaged.extends same (executeTls_extends ran fun binary member => (inOrder binary member).tls)

theorem sloaderDlopen_binaries {filename : Option CString} {handle : Address}
    (ran : loader.sloaderDlopen host steps filename = .ok (handle, next)) (member : binary ∈ loader.binaries) :
    binary ∈ next.binaries := by
  obtain rfl | ⟨path, loaded, loads, relocates⟩ := sloaderDlopen_cases ran
  · exact member
  · obtain ⟨more, binaries, _⟩ := loadDependingLibs_history loads
    rw [relocate_binaries relocates, binaries]
    exact List.mem_append_left more member

theorem Imaged.dlopen (sound : host.MmapSound) (imaged : loader.Imaged host touched) (history : History host loader)
    {filename : Option CString} {handle : Address} (ran : loader.sloaderDlopen host steps filename = .ok (handle, next))
    (inOrder : ∀ binary ∈ next.binaries, binary.InOrder) : next.Imaged host touched := by
  obtain rfl | ⟨path, loaded, loads, relocates⟩ := sloaderDlopen_cases ran
  · exact imaged
  · exact imaged.load sound history loads relocates inOrder

/-- At every moment of every run, the segments of every binary are mapped and hold what
its file and the entries processed since it was loaded say, byte by byte, the last
entry over a byte first.  Only where the TLS blocks are, and where the program has
stored something itself, may they hold anything else. -/
theorem Touching.imaged (sound : host.MmapSound) (touching : Touching host mainPath touched loader)
    (inOrder : ∀ binary ∈ loader.binaries, binary.InOrder) : loader.Imaged host touched := by
  induction touching with
  | startup libraries ran => exact (fresh_imaged _).load sound (history_fresh _) libraries ran inOrder
  | program _ memory kept ih => exact (ih inOrder).extends (withMemory_bookkeeping _ memory) kept
  | tls _ ran ih =>
      refine (ih ?_).executeTls ran inOrder
      rwa [(executeTls_bookkeeping ran).binaries] at inOrder
  | dlopen run ran ih =>
      have earlier := ih fun binary member => inOrder binary (sloaderDlopen_binaries ran member)
      exact earlier.dlopen sound run.run.history ran inOrder

theorem inOrder_of_sizes (tls : binary.hasTls = true → binary.fileTls.pFilesz.toNat ≤ binary.fileTls.pMemsz.toNat)
    (sizes : ∀ ph ∈ binary.filePhdrs, ph.pType = .load →
      ph.pFilesz.toNat ≤ ph.pMemsz.toNat ∧ ph.pOffset.toNat + ph.pFilesz.toNat ≤ binary.file.length ∧
      binary.file.length < 2 ^ 64 ∧ ph.pVaddr.toNat + ph.pMemsz.toNat + binary.baseAddr.toNat + 0xfff < 2 ^ 64) :
    binary.InOrder := by
  refine ⟨?_, tls⟩
  intro ph inHeaders wanted
  obtain ⟨smaller, contents, small, pages⟩ := sizes ph inHeaders wanted
  exact ⟨smaller, contents, small, pages⟩

def blocksFilled : Except Stop (DynLoader × DynLoader) := do
  let started ← Sample.startup Sample.tlsHost (ascii "/bin/m")
  let filled ← started.executeTls Sample.tlsHost
  return (started, filled)

theorem blocksFilled_facts :
    blocksFilled.toOption.map (fun loaders => decide (
      loaders.2.binaries.length = 2 ∧ loaders.2.processed.length = 2 ∧ ∀ binary ∈ loaders.2.binaries,
        (binary.hasTls = true → binary.fileTls.pFilesz.toNat ≤ binary.fileTls.pMemsz.toNat) ∧
        ∀ ph ∈ binary.filePhdrs, ph.pType = .load →
          ph.pFilesz.toNat ≤ ph.pMemsz.toNat ∧ ph.pOffset.toNat + ph.pFilesz.toNat ≤ binary.file.length ∧
          binary.file.length < 2 ^ 64 ∧
          ph.pVaddr.toNat + ph.pMemsz.toNat + binary.baseAddr.toNat + 0xfff < 2 ^ 64)) = some true := by
  decide +kernel

theorem Touching.imaged_tlsHost :
    ∃ started filled : DynLoader, Touching Sample.tlsHost (ascii "/bin/m") (∅ ∪ started.tlsArea Sample.tlsHost) filled ∧
      filled.binaries.length = 2 ∧ filled.processed.length = 2 ∧
      filled.Imaged Sample.tlsHost (∅ ∪ started.tlsArea Sample.tlsHost) := by
  obtain ⟨⟨started, filled⟩, ran, facts⟩ := Option.map_eq_some_iff.mp blocksFilled_facts
  obtain ⟨two, processed, inOrder⟩ := of_decide_eq_true facts
  have steps := eq_ok_of_toOption ran
  simp only [blocksFilled, Sample.startup, bind_eq_ok, pure_eq_ok, Prod.mk.injEq] at steps
  obtain ⟨_, ⟨loaded, loads, relocates⟩, last, tls, rfl, rfl⟩ := steps
  have touching : Touching Sample.tlsHost (ascii "/bin/m") _ last := (Touching.startup loads relocates).tls tls
  have headers (binary : ELFBinary) (member : binary ∈ last.binaries) : binary.InOrder :=
    inOrder_of_sizes (inOrder binary member).1 (inOrder binary member).2
  exact ⟨_, _, touching, two, processed, Touching.imaged (Sample.host_mmapSound _ _) touching headers⟩

end DynLoader

end Sloader
