import Sloader.Data.Ranges
import Sloader.Execute

namespace Sloader

open Data

/-! `class ExecLoader`: an executable without libraries, mapped where its headers
say, started, and unmapped. -/

/-- `munmap`, which takes whole pages.  It fails, and nothing changes, if the
start is not that of a page or the length is zero. -/
def Memory.munmap (memory : Memory) (start : Address) (size : Nat) : Memory :=
  if start.toNat % 4096 = 0 ∧ size ≠ 0 then
    { memory with ranges := cutRanges start ((size + 0xfff) / 4096 * 4096) memory.ranges }
  else memory

/-- The members of the class but `size_` and `dyns_`, which no function of it uses
besides `Show`. -/
structure ExecLoader where
  filename : CString
  -- the private mapping at `head_`
  file : List UInt8
  ehdr : Elf64Ehdr
  phdrs : List Elf64Phdr
  phDynamic : Option Elf64Phdr := none
  -- the sizes are of 32 bits
  memories : List (Address × BitVec 32) := []

namespace ExecLoader

def findDynamic (loader : ExecLoader) (ph : Elf64Phdr) : Except Stop ExecLoader :=
  if ph.pType = .dynamic then do
    check loader.phDynamic.isNone "ph_dynamic_ == NULL"
    return { loader with phDynamic := some ph }
  else .ok loader

def construct (filename : CString) (file : List UInt8) : Except Stop ExecLoader := do
  let ehdr := Elf64Ehdr.read (ELFBinary.fileBytes file) 0
  let phdrs := readArray (Elf64Phdr.read (ELFBinary.fileBytes file)) ehdr.ePhoff ehdr.ePhentsize.toNat ehdr.ePhnum.toNat
  phdrs.foldlM findDynamic { filename, file, ehdr, phdrs }

/-- `Load`, for one header.  The addresses are those of `ELFBinary` with a base
address of zero, but the segment must end before its last page does. -/
def loadSegment (host : Host) (state : ExecLoader × Memory) (ph : Elf64Phdr) : Except Stop (ExecLoader × Memory) :=
  let (loader, memory) := state
  if ph.pType ≠ .load then .ok (loader, memory)
  else do
    let start := ELFBinary.mmapStart 0 ph
    let finish := ELFBinary.mmapEnd 0 ph
    let size := ELFBinary.mmapSize 0 ph
    check (start == host.mmap memory start size) "(mmap_start) == (p)"
    check (start ≤ ph.pVaddr) "(reinterpret_cast<Elf64_Addr>(mmap_start)) <= (ph->p_vaddr)"
    check (ph.pVaddr + ph.pMemsz < finish)
      "(ph->p_vaddr + ph->p_memsz) < (reinterpret_cast<Elf64_Addr>(mmap_end))"
    return ({ loader with memories := loader.memories ++ [(start, ph.pMemsz.setWidth 32)] },
      ELFBinary.copySegment loader.file 0 ph (memory.mapZero start size))

def load (host : Host) (loader : ExecLoader) (memory : Memory) : Except Stop (ExecLoader × Memory) :=
  loader.phdrs.foldlM (loadSegment host) (loader, memory)

def unload (loader : ExecLoader) (memory : Memory) : Memory :=
  loader.memories.foldl (fun memory region => memory.munmap region.1 region.2.toNat) memory

/-- What `c_str()` returns.  The only argument is that of the temporary `filename()`,
which is destroyed before the program starts: the pointer stays, and what it points to
by then is not known. -/
abbrev CStr := { pointer : Address // pointer ≠ 0 }

def stackNum (envs : StringVector) (auxTvs : AuxVector) : BitVec 64 :=
  4 + 2 + 2 * BitVec.ofNat 64 auxTvs.pairs.length + 1 + BitVec.ofNat 64 envs.pointers.length + 3

def filledFrame (filename : CStr) (envs : StringVector) (auxTvs : AuxVector) : Frame :=
  let stackSize := 8 * stackNum envs auxTvs
  let frame : Frame := { stack := List.replicate (stackSize.toNat / 8) 0, stackIndex := 0 }
  let frame := frame.skip 4
  let frame := frame.skip 2
  let frame := auxTvs.pairs.foldl (fun frame tv => (frame.put tv.2).put tv.1) frame
  let frame := frame.skip 1
  let frame := envs.pointers.foldl Frame.put frame
  let frame := frame.skip 1
  (frame.put filename.1).put 1

def initialStack (filename : CStr) (envs : StringVector) (auxTvs : AuxVector) : Except Stop (List (BitVec 64)) := do
  let frame := filledFrame filename envs auxTvs
  check (frame.stackIndex == stackNum envs auxTvs) "(stack_index) == (stack_num)"
  return frame.stack

/-- The process when the program gets control: its memory, its stack pointer and
where it starts. -/
def execute (getauxval : Elf64Xword → Elf64Xword) (filename : CStr) (envs : StringVector) (rsp : Address)
    (loader : ExecLoader) (memory : Memory) : Except Stop ((Memory × Address) × Elf64Addr) := do
  check (getauxval atRandom != 0) "(at_random) != (0UL)"
  let stack ← initialStack filename envs (auxTvs getauxval)
  return (executeCore stack memory rsp, loader.ehdr.eEntry)

end ExecLoader

def makeExecLoader (host : Host) (filepath : Path) (argv0 : CString) : Except Stop ExecLoader :=
  match host.openFile filepath with
  | none => .error (.check "fd >= 0")
  | some file => do
      check (file.length > 8 + 16) "(size) > (8UL + 16UL)"
      check (host.mapFile filepath) "p != MAP_FAILED"
      ExecLoader.construct argv0 file

end Sloader
