import Sloader.Symbols

namespace Sloader

open Data

/-! `Relocate`: every entry of every binary that has not been relocated yet, in
load order, the entries of the procedure linkage table first. -/

def Write.apply (memory : Memory) : Write → Memory
  | .none => memory
  | .word address value => memory.store64 address value
  | .copy destination source size => memory.memcpy destination source size

namespace ELFBinary

def entries (binary : ELFBinary) : List Elf64Rela :=
  binary.pltrelas ++ binary.relas

def target (binary : ELFBinary) (rela : Elf64Rela) : Address :=
  binary.baseAddr + rela.rOffset

end ELFBinary

/-- The `switch` on the type of an entry whose symbol has the given name. -/
def resolve (host : Host) (memory : Memory) (binaries : List ELFBinary) (bin : ELFBinary) (r : Elf64Rela)
    (name : CString) : Except Stop Write :=
  match r.rType with
  | .globDat | .jumpSlot => do
      match ← symbolAddr host memory binaries name with
      | some symAddr => return .word (bin.target r) symAddr
      | none => return .none
  | .irelative | .relative => return .word (bin.target r) (bin.baseAddr + r.rAddend)
  | .abs64 => do
      match ← symbolAddr host memory binaries name with
      | some symAddr => return .word (bin.target r) (symAddr + r.rAddend)
      | none => return .none
  | .tpoff64 => do
      let offset ← tlsSymOffset host memory binaries name
      return .word (bin.target r) offset
  | .dtpmod64 => return .word (bin.target r) 1
  | .dtpoff64 => return .none
  | .copy => do
      let opt ← searchSym memory binaries name true
      match host.libcMap name, opt with
      | some src, _ => return .copy (bin.target r) src 8
      | none, some place =>
          match symbolAt binaries place with
          | some (source, sym) => return .copy (bin.target r) (source.baseAddr + sym.stValue) sym.stSize
          | none => .error .segmentationFault
      | none, none => .error .abort
  | .other _ => .error .abort

def resolveEntry (host : Host) (memory : Memory) (binaries : List ELFBinary) (bin : ELFBinary)
    (r : Elf64Rela) : Except Stop (CString × Write) :=
  match bin.symtabs[r.rSym]? with
  | none => .error (.check "(((r.r_info) >> 32)) < (bin.symtabs().size())")
  | some s => do
      let name ← bin.symbolName memory s
      let write ← resolve host memory binaries bin r name
      return (name, write)

namespace DynLoader

def relocateEntry (host : Host) (binIndex : Nat) (bin : ELFBinary) (loader : DynLoader)
    (item : Elf64Rela × Nat) : Except Stop DynLoader := do
  let (name, write) ← resolveEntry host loader.memory loader.binaries bin item.1
  return { loader with
    memory := write.apply loader.memory
    processed := loader.processed ++
      [{ binary := binIndex, entry := item.2, rela := item.1, name, scope := loader.binaries.length,
         memory := loader.memory, write }] }

def relocateBinary (host : Host) (loader : DynLoader) (item : ELFBinary × Nat) : Except Stop DynLoader :=
  let key := pathKey item.1.path
  if key ∈ loader.relocated then .ok loader
  else
    item.1.entries.zipIdx.foldlM (relocateEntry host item.2 item.1)
      { loader with relocated := key :: loader.relocated }

def relocate (host : Host) (loader : DynLoader) : Except Stop DynLoader :=
  loader.binaries.zipIdx.foldlM (relocateBinary host) loader

end DynLoader

end Sloader
