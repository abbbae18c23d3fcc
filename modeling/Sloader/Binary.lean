import Sloader.Host
import Sloader.Data.Outcome

namespace Sloader

open Data

/-! `class ELFBinary`: opening a file, mapping its segments and reading its
dynamic array.  Pointers into the image are addresses, with `0` for `nullptr`. -/

structure ELFBinary where
  path : Path
  -- the private mapping at `file_base_addr_`, which nothing writes to
  file : List UInt8
  ehdr : Elf64Ehdr
  filePhdrs : List Elf64Phdr
  fileDynamic : Elf64Phdr
  hasTls : Bool
  fileTls : Elf64Phdr
  baseAddr : Elf64Addr := 0
  endAddr : Elf64Addr := 0
  rela : Address := 0
  jmprel : Address := 0
  relas : List Elf64Rela := []
  pltrelas : List Elf64Rela := []
  relasz : Elf64Xword := 0
  relacount : Elf64Xword := 0
  relaent : Elf64Xword := 0
  pltrelsz : Elf64Xword := 0
  pltrel : Elf64Xword := 0
  pltrelent : Elf64Xword := 0
  init : Elf64Xword := 0
  fini : Elf64Xword := 0
  initArraysz : Elf64Xword := 0
  initArray : Elf64Xword := 0
  finiArraysz : Elf64Xword := 0
  finiArray : Elf64Xword := 0
  symtab : Address := 0
  symtabs : List Elf64Sym := []
  syment : Elf64Xword := 0
  neededs : List CString := []
  runpath : Option Path := none
  rpath : Option Path := none
  strtab : Address := 0
  strsz : Elf64Xword := 0

namespace ELFBinary

def fileBytes (file : List UInt8) : Bytes :=
  fun offset => file.getD offset.toNat 0

def readHeader (binary : ELFBinary) (ph : Elf64Phdr) : ELFBinary :=
  let binary := { binary with filePhdrs := binary.filePhdrs ++ [ph] }
  match ph.pType with
  | .dynamic => { binary with fileDynamic := ph }
  | .tls => { binary with hasTls := true, fileTls := ph }
  | _ => binary

def construct (host : Host) (path : Path) : Except Stop ELFBinary :=
  match host.openFile path with
  | none => .error (.check "fd >= 0")
  | some file => do
      check (file.length > 8 + 16) "(size) > (8UL + 16UL)"
      check (host.mapFile path) "file_base_addr_ != MAP_FAILED"
      let ehdr := Elf64Ehdr.read (fileBytes file) 0
      let phdrs := readArray (Elf64Phdr.read (fileBytes file)) ehdr.ePhoff
        ehdr.ePhentsize.toNat ehdr.ePhnum.toNat
      return phdrs.foldl readHeader
        { path, file, ehdr, filePhdrs := [], fileDynamic := {}, hasTls := false,
          fileTls := host.indeterminateTls }

def pageMask : Elf64Xword := ~~~ 0xfff

def mmapStart (baseAddr : Elf64Addr) (ph : Elf64Phdr) : Elf64Addr :=
  (ph.pVaddr + baseAddr) &&& pageMask

def mmapEnd (baseAddr : Elf64Addr) (ph : Elf64Phdr) : Elf64Addr :=
  ((ph.pVaddr + ph.pMemsz + baseAddr) + 0xfff) &&& pageMask

def mmapSize (baseAddr : Elf64Addr) (ph : Elf64Phdr) : Elf64Xword :=
  mmapEnd baseAddr ph - mmapStart baseAddr ph

def hexString (number : BitVec 64) : CString :=
  let digit (value : Nat) : UInt8 := UInt8.ofNat (if value < 10 then 48 + value else 55 + value)
  ascii "0x" ++ (List.range 16).map fun index => digit (number.toNat / 16 ^ (15 - index) % 16)

/-- Every segment is mapped writable, whatever its flags say. -/
def flagsStr (ph : Elf64Phdr) : CString :=
  (if ph.pFlags.getLsbD 2 then ascii "r" else ascii "_") ++ ascii "w" ++
    (if ph.pFlags.getLsbD 0 then ascii "x" else ascii "_")

def mapLine (path : Path) (baseAddr : Elf64Addr) (ph : Elf64Phdr) : CString :=
  path ++ ascii " " ++ hexString ph.pOffset ++ ascii "-" ++ hexString (ph.pOffset + ph.pFilesz) ++
    ascii " " ++ flagsStr ph ++ ascii " " ++ hexString ph.pFilesz ++ ascii " => " ++
    hexString (mmapStart baseAddr ph) ++ ascii "-" ++ hexString (mmapEnd baseAddr ph)

structure Mapping where
  memory : Memory
  endAddr : Elf64Addr
  mapFile : List CString

def copySegment (file : List UInt8) (baseAddr : Elf64Addr) (ph : Elf64Phdr) (memory : Memory) : Memory :=
  { memory with
    bytes := memory.bytes.patch (ph.pVaddr + baseAddr) ph.pFilesz.toNat fun index =>
      fileBytes file (ph.pOffset + BitVec.ofNat 64 index) }

def loadSegment (host : Host) (binary : ELFBinary) (mapping : Mapping) (ph : Elf64Phdr) :
    Except Stop Mapping :=
  if ph.pType ≠ .load then .ok mapping
  else do
    let start := mmapStart binary.baseAddr ph
    let finish := mmapEnd binary.baseAddr ph
    let size := mmapSize binary.baseAddr ph
    check (start == host.mmap mapping.memory start size) "(mmap_start) == (reinterpret_cast<void*>(p))"
    check (start ≤ ph.pVaddr + binary.baseAddr)
      "(reinterpret_cast<Elf64_Addr>(mmap_start)) <= (ph.p_vaddr + base_addr())"
    check (ph.pVaddr + binary.baseAddr + ph.pMemsz ≤ finish)
      "(ph.p_vaddr + base_addr() + ph.p_memsz) <= (reinterpret_cast<Elf64_Addr>(mmap_end))"
    return {
      memory := copySegment binary.file binary.baseAddr ph (mapping.memory.mapZero start size)
      endAddr := finish
      mapFile := mapping.mapFile ++ [mapLine binary.path binary.baseAddr ph] }

def dynamicEntries (binary : ELFBinary) (bytes : Bytes) : List Elf64Dyn :=
  readArray (Elf64Dyn.read bytes) (binary.baseAddr + binary.fileDynamic.pVaddr) sizeofDyn
    (binary.fileDynamic.pFilesz.toNat / sizeofDyn)

def parseStrtab (binary : ELFBinary) (dyn : Elf64Dyn) : ELFBinary :=
  match dyn.dTag with
  | .strtab => { binary with strtab := dyn.dVal + binary.baseAddr }
  | .strsz => { binary with strsz := dyn.dVal }
  | _ => binary

def parseTag (memory : Memory) (binary : ELFBinary) (dyn : Elf64Dyn) : Except Stop ELFBinary :=
  match dyn.dTag with
  | .needed => do
      let needed ← memory.string (binary.strtab + dyn.dVal)
      return { binary with neededs := binary.neededs ++ [needed] }
  | .runpath => do
      let runpath ← memory.string (binary.strtab + dyn.dVal)
      return { binary with runpath := some runpath }
  | .rpath => do
      let rpath ← memory.string (binary.strtab + dyn.dVal)
      return { binary with rpath := some rpath }
  | .rela => .ok { binary with rela := binary.baseAddr + dyn.dVal }
  | .relasz => .ok { binary with relasz := dyn.dVal }
  | .relaent => .ok { binary with relaent := dyn.dVal }
  | .relacount => .ok { binary with relacount := dyn.dVal }
  | .jmprel => .ok { binary with jmprel := binary.baseAddr + dyn.dVal }
  | .pltrelsz => .ok { binary with pltrelsz := dyn.dVal }
  | .pltrel => do
      check (dyn.dVal == dtRela || dyn.dVal == dtRel) "pltrel_ == DT_RELA || pltrel_ == DT_REL"
      let pltrelent := if dyn.dVal = dtRela then sizeofRela else sizeofRel
      return { binary with pltrel := dyn.dVal, pltrelent := BitVec.ofNat 64 pltrelent }
  | .symtab => .ok { binary with symtab := binary.baseAddr + dyn.dVal }
  | .syment => do
      check (dyn.dVal == BitVec.ofNat 64 sizeofSym) "(syment_) == (sizeof(Elf64_Sym))"
      return { binary with syment := dyn.dVal }
  | .init => .ok { binary with init := dyn.dVal }
  | .fini => .ok { binary with fini := dyn.dVal }
  | .initArray => .ok { binary with initArray := dyn.dVal }
  | .initArraysz => .ok { binary with initArraysz := dyn.dVal }
  | .finiArray => .ok { binary with finiArray := dyn.dVal }
  | .finiArraysz => .ok { binary with finiArraysz := dyn.dVal }
  | _ => .ok binary

def entryCount (size entry : Elf64Xword) (text : String) : Except Stop Nat := do
  if entry = 0 then .error .divisionByZero
  check (size % entry == 0) text
  return (size / entry).toNat

def parseRelas (memory : Memory) (binary : ELFBinary) : Except Stop ELFBinary :=
  if binary.rela = 0 then .ok binary
  else do
    let count ← entryCount binary.relasz binary.relaent "(relasz_ % relaent_) == (0UL)"
    let entries := readArray (Elf64Rela.read memory.bytes) binary.rela sizeofRela count
    return { binary with relas := binary.relas ++ entries }

def parsePltrelas (memory : Memory) (binary : ELFBinary) : Except Stop ELFBinary :=
  if binary.jmprel = 0 then .ok binary
  else do
    let count ← entryCount binary.pltrelsz binary.pltrelent "(pltrelsz_ % pltrelent_) == (0UL)"
    check (binary.pltrel == dtRela) "(pltrel_) == (static_cast<unsigned long>(7))"
    let entries := readArray (Elf64Rela.read memory.bytes) binary.jmprel sizeofRela count
    return { binary with pltrelas := binary.pltrelas ++ entries }

/-- Symbols are read up to the first whose name lies past the string table.  The
records cycle through the address space, so that a scan of `2 ^ 64` of them
that has not stopped never does. -/
def scanSymtab (bytes : Bytes) (strsz : Elf64Xword) : Nat → Address → Option (List Elf64Sym)
  | 0, _ => none
  | fuel + 1, start =>
      let symbol := Elf64Sym.read bytes start
      if symbol.stName.setWidth 64 < strsz then
        (scanSymtab bytes strsz fuel (start + BitVec.ofNat 64 sizeofSym)).map (symbol :: ·)
      else some []

/-- The name that a symbol has in the string table right now. -/
def symbolName (binary : ELFBinary) (memory : Memory) (symbol : Elf64Sym) : Except Stop CString :=
  memory.string (symbol.stName.setWidth 64 + binary.strtab)

/-- `ShowSym`, which is evaluated although its text goes nowhere. -/
def showSym (binary : ELFBinary) (memory : Memory) (symbol : Elf64Sym) : Except Stop Unit := do
  let _ ← binary.symbolName memory symbol
  if symbol.typeIsShown then return () else .error .abort

def parseSymtabs (memory : Memory) (binary : ELFBinary) : Except Stop ELFBinary :=
  if binary.symtab = 0 then .ok binary
  else do
    let first := Elf64Sym.read memory.bytes binary.symtab
    match scanSymtab memory.bytes binary.strsz (2 ^ 64) (binary.symtab + BitVec.ofNat 64 sizeofSym) with
    | none => .error .segmentationFault
    | some rest =>
        let binary := { binary with symtabs := binary.symtabs ++ first :: rest }
        binary.symtabs.forM (binary.showSym memory)
        return binary

def parseDynamic (memory : Memory) (binary : ELFBinary) : Except Stop ELFBinary := do
  check (binary.baseAddr != 0 || binary.ehdr.eType == .exec) "base_addr_ != 0UL || ehdr_.e_type == ET_EXEC"
  check (binary.fileDynamic.pFilesz.toNat % sizeofDyn == 0) "(file_dynamic_.p_filesz % dyn_size) == (0U)"
  let entries := binary.dynamicEntries memory.bytes
  let binary := entries.foldl parseStrtab binary
  check (binary.strtab != 0 || binary.ehdr.eType == .exec) "strtab_ != nullptr || ehdr_.e_type == ET_EXEC"
  let binary ← entries.foldlM (parseTag memory) binary
  let binary ← binary.parseRelas memory
  let binary ← binary.parsePltrelas memory
  binary.parseSymtabs memory

def nextBaseAddr (endAddr : Elf64Addr) : Elf64Addr :=
  (endAddr + (0x400000 - 1)) / 0x400000 * 0x400000

def load (host : Host) (binary : ELFBinary) (memory : Memory) (baseAddrArg : Elf64Addr) :
    Except Stop (ELFBinary × Mapping) := do
  let binary := { binary with baseAddr := if binary.ehdr.eType = FileType.dyn then baseAddrArg else 0 }
  let mapping ← binary.filePhdrs.foldlM (binary.loadSegment host)
    { memory, endAddr := binary.baseAddr, mapFile := [] }
  let binary ← { binary with endAddr := mapping.endAddr }.parseDynamic mapping.memory
  return (binary, mapping)

def getSymbolAddr (binary : ELFBinary) (symbolIndex : Nat) : Except Stop Elf64Addr :=
  match binary.symtabs[symbolIndex]? with
  | some symbol => .ok (symbol.stValue + binary.baseAddr)
  | none => .error (.check "(symbol_index) < (symtabs().size())")

end ELFBinary

end Sloader
