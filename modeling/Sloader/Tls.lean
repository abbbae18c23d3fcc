import Sloader.Sample

namespace Sloader

open Data

/-! Thread-local storage: the part of `Execute` that lays out the blocks of the
binaries below the thread pointer, and the accesses to them. -/

/-- `tls_block_size`: the sum of the sizes, as far as 64 bits go. -/
def tlsBlockSize (binaries : List ELFBinary) : Elf64Xword :=
  binaries.foldl (fun size b => if b.hasTls then size + b.fileTls.pMemsz else size) 0

/-- All of what is copied as the image of the binary can be read. -/
def ELFBinary.tlsMapped (memory : Memory) (b : ELFBinary) : Bool :=
  ! b.hasTls || (List.range b.fileTls.pMemsz.toNat).all fun index =>
    memory.mapped (b.baseAddr + b.fileTls.pVaddr + BitVec.ofNat 64 index)

namespace DynLoader

/-- Where the image of a binary is copied to, given the current `sloader_tls_offset`. -/
def tlsImageStart (host : Host) (loader : DynLoader) (b : ELFBinary) : Address :=
  host.tlsBlock + loader.tlsOffset - b.fileTls.pMemsz

/-- One turn of the loop that copies `.tdata` and clears `.tbss`. -/
def initializeTls (host : Host) (loader : DynLoader) (b : ELFBinary) : DynLoader :=
  if b.hasTls then
    let bss := b.fileTls.pMemsz - b.fileTls.pFilesz
    let thread := host.tlsBlock + loader.tlsOffset
    let memory := loader.memory.memcpy (loader.tlsImageStart host b) (b.baseAddr + b.fileTls.pVaddr)
      b.fileTls.pMemsz
    let memory := memory.memset (thread - bss) 0 bss
    let memory := memory.store64 thread thread
    { loader with memory, tlsOffset := loader.tlsOffset - b.fileTls.pMemsz }
  else loader

/-- The loop maps nothing, so that an image which is not mapped is found at its start. -/
def executeTls (host : Host) (loader : DynLoader) : Except Stop DynLoader := do
  check (tlsBlockSize loader.binaries ≤ 4096) "(tls_block_size) <= (4096UL)"
  if loader.binaries.all (·.tlsMapped loader.memory) then
    return loader.binaries.foldl (initializeTls host) loader
  else .error .segmentationFault

theorem executeTls_eq_ok {host : Host} {loader next : DynLoader} :
    loader.executeTls host = .ok next ↔
      tlsBlockSize loader.binaries ≤ 4096 ∧ (∀ b ∈ loader.binaries, b.tlsMapped loader.memory = true) ∧
        next = loader.binaries.foldl (initializeTls host) loader := by
  rw [executeTls, bind_eq_ok]
  constructor
  · intro ran
    obtain ⟨_, checked, filled⟩ := ran
    have room := of_decide_eq_true (check_eq_ok.mp checked)
    split at filled
    · rename_i readable
      cases filled
      exact ⟨room, List.all_eq_true.mp readable, rfl⟩
    · contradiction
  · intro condition
    obtain ⟨room, readable, rfl⟩ := condition
    refine ⟨(), check_eq_ok.mpr (decide_eq_true room), ?_⟩
    rw [if_pos (List.all_eq_true.mpr readable)]
    rfl

def tlsGetAddr (host : Host) (loader : DynLoader) (ti : Address) : Address :=
  host.tlsBlock + loader.tlsOffset + loader.memory.bytes.load64 (ti + 8)

end DynLoader

variable {host : Host} {memory : Memory} {binaries before rest : List ELFBinary} {b : ELFBinary} {s : Elf64Sym}
  {name : CString} {loader : DynLoader}

theorem tlsBlockSize_from (size : Elf64Xword) (binaries : List ELFBinary) :
    binaries.foldl (fun size b => if b.hasTls then size + b.fileTls.pMemsz else size) size =
      size + tlsBlockSize binaries := by
  unfold tlsBlockSize
  induction binaries generalizing size with
  | nil => simp
  | cons b rest ih =>
      simp only [List.foldl_cons]
      rw [ih, ih (if b.hasTls then 0 + b.fileTls.pMemsz else 0), ← BitVec.add_assoc]
      congr 1
      split
      · rw [zero_add]
      · rw [add_zero]

theorem tlsBlockSize_cons (b : ELFBinary) (rest : List ELFBinary) :
    tlsBlockSize (b :: rest) = (if b.hasTls then b.fileTls.pMemsz else 0) + tlsBlockSize rest := by
  have unfolded := tlsBlockSize_from (if b.hasTls then 0 + b.fileTls.pMemsz else 0) rest
  rw [zero_add] at unfolded
  rw [← unfolded, tlsBlockSize, List.foldl_cons, zero_add]

theorem tlsBlockSize_append (before rest : List ELFBinary) :
    tlsBlockSize (before ++ rest) = tlsBlockSize before + tlsBlockSize rest := by
  rw [tlsBlockSize, List.foldl_append, tlsBlockSize_from]
  rfl

theorem foldl_initializeTls_tlsOffset (binaries : List ELFBinary) (loader : DynLoader) :
    (binaries.foldl (DynLoader.initializeTls host) loader).tlsOffset =
      loader.tlsOffset - tlsBlockSize binaries := by
  induction binaries generalizing loader with
  | nil => simp [tlsBlockSize]
  | cons b rest ih =>
      rw [List.foldl_cons, ih, tlsBlockSize_cons, DynLoader.initializeTls]
      split
      · rw [sub_add_eq_sub_sub]
      · rw [zero_add]

theorem tlsImageStart_eq (initial : loader.tlsOffset = 4096) (before : List ELFBinary) (b : ELFBinary) :
    (before.foldl (DynLoader.initializeTls host) loader).tlsImageStart host b =
      host.tlsBlock + 4096 + (0 - tlsBlockSize before - b.fileTls.pMemsz) := by
  rw [DynLoader.tlsImageStart, foldl_initializeTls_tlsOffset, initial]
  ring

theorem tlsSymOffsetFrom_append (terminated : memory.Terminated) {offset : Elf64Addr}
    (unmatched : firstNamed memory name Elf64Sym.isTls (symbolTable before) = none) :
    tlsSymOffsetFrom memory name offset (before ++ rest) =
      tlsSymOffsetFrom memory name (offset - tlsBlockSize before) rest := by
  induction before generalizing offset with
  | nil => simp [tlsBlockSize]
  | cons b later ih =>
      rw [firstNamed, symbolTable_cons, List.find?_append, Option.or_eq_none_iff, List.find?_map,
        Option.map_eq_none_iff] at unmatched
      obtain ⟨inTable, searched, place⟩ := @searchTable_spec memory b name Elf64Sym.isTls terminated [] b.symtabs
      have missing : inTable = none := by
        have same : (b.symtabs.find? fun symbol => b.nameIs memory name symbol && symbol.isTls) = none :=
          unmatched.1
        rw [same] at place
        simpa using place
      subst missing
      simp only [List.length_nil] at searched
      simp only [List.cons_append, tlsSymOffsetFrom, searched, bind, Except.bind]
      rw [ih unmatched.2, tlsBlockSize_cons]
      split
      · rw [sub_add_eq_sub_sub]
      · rw [zero_add]

theorem tlsSymOffset_eq (terminated : memory.Terminated) (host : Host)
    (unmatched : firstNamed memory name Elf64Sym.isTls (symbolTable before) = none)
    (matched : (b.symtabs.find? fun symbol => b.nameIs memory name symbol && symbol.isTls) = some s) :
    tlsSymOffset host memory (before ++ b :: rest) name =
      .ok (0 - tlsBlockSize before - b.fileTls.pMemsz + s.stValue) := by
  obtain ⟨inTable, searched, place⟩ := @searchTable_spec memory b name Elf64Sym.isTls terminated [] b.symtabs
  simp only [List.length_nil, List.nil_append, matched, Option.map_some, Option.map_eq_some_iff] at searched place
  obtain ⟨index, rfl, found⟩ := place
  rw [tlsSymOffset, tlsSymOffsetFrom_append terminated unmatched]
  simp only [tlsSymOffsetFrom, searched, bind, Except.bind, found]
  rfl

theorem terminated_of_nameIs (named : b.nameIs memory name s = true) : memory.Terminated := by
  intro other
  rw [ELFBinary.nameIs, decide_eq_true_iff] at named
  exact Bytes.cstring_isSome named

def Sample.tlsBinary (pMemsz : Elf64Xword) (symtabs : List Elf64Sym) : ELFBinary where
  path := ascii "/lib/a"
  file := []
  ehdr := { eType := .dyn, eEntry := 0, ePhoff := 0, ePhentsize := 0, ePhnum := 0 }
  filePhdrs := []
  fileDynamic := {}
  hasTls := true
  fileTls := { pType := .tls, pMemsz }
  strtab := 0x100
  symtabs := symtabs

end Sloader
