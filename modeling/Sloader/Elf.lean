import Sloader.Data.Bytes

namespace Sloader

open Data

/-! The parts of `elf.h` that the loader reads.  Codes that the source compares
with named constants are decoded into enumerations; every other value, known to
the format or not, falls into `other`, as it falls through the source's tests. -/

abbrev Elf64Addr := BitVec 64

abbrev Elf64Xword := BitVec 64

inductive FileType where
  | exec
  | dyn
  | other
deriving Repr, DecidableEq

def FileType.ofCode : Nat → FileType
  | 2 => .exec
  | 3 => .dyn
  | _ => .other

inductive SegmentType where
  | load
  | dynamic
  | tls
  | other
deriving Repr, DecidableEq

def SegmentType.ofCode : Nat → SegmentType
  | 1 => .load
  | 2 => .dynamic
  | 7 => .tls
  | _ => .other

inductive DynamicTag where
  | needed
  | pltrelsz
  | strtab
  | symtab
  | rela
  | relasz
  | relaent
  | strsz
  | syment
  | init
  | fini
  | rpath
  | pltrel
  | jmprel
  | initArray
  | finiArray
  | initArraysz
  | finiArraysz
  | runpath
  | relacount
  | other
deriving Repr, DecidableEq

def DynamicTag.ofCode : Nat → DynamicTag
  | 1 => .needed
  | 2 => .pltrelsz
  | 5 => .strtab
  | 6 => .symtab
  | 7 => .rela
  | 8 => .relasz
  | 9 => .relaent
  | 10 => .strsz
  | 11 => .syment
  | 12 => .init
  | 13 => .fini
  | 15 => .rpath
  | 20 => .pltrel
  | 23 => .jmprel
  | 25 => .initArray
  | 26 => .finiArray
  | 27 => .initArraysz
  | 28 => .finiArraysz
  | 29 => .runpath
  | 0x6ffffff9 => .relacount
  | _ => .other

/-- `DT_RELA` and `DT_REL` also occur as the value of a `DT_PLTREL` entry. -/
def dtRela : Elf64Xword := 7

def dtRel : Elf64Xword := 17

inductive RelocationType where
  | abs64
  | copy
  | globDat
  | jumpSlot
  | relative
  | dtpmod64
  | dtpoff64
  | tpoff64
  | irelative
  | other (code : Nat)
deriving Repr, DecidableEq

def RelocationType.ofCode : Nat → RelocationType
  | 1 => .abs64
  | 5 => .copy
  | 6 => .globDat
  | 7 => .jumpSlot
  | 8 => .relative
  | 16 => .dtpmod64
  | 17 => .dtpoff64
  | 18 => .tpoff64
  | 37 => .irelative
  | code => .other code

structure Elf64Ehdr where
  eType : FileType
  eEntry : Elf64Addr
  ePhoff : Elf64Addr
  ePhentsize : BitVec 16
  ePhnum : BitVec 16
deriving Repr, DecidableEq

structure Elf64Phdr where
  pType : SegmentType := .other
  pFlags : BitVec 32 := 0
  pOffset : Elf64Addr := 0
  pVaddr : Elf64Addr := 0
  pFilesz : Elf64Xword := 0
  pMemsz : Elf64Xword := 0
  pAlign : Elf64Xword := 0
deriving Repr, DecidableEq

structure Elf64Dyn where
  dTag : DynamicTag
  dVal : Elf64Xword
deriving Repr, DecidableEq

structure Elf64Sym where
  stName : BitVec 32
  stInfo : BitVec 8
  stShndx : BitVec 16
  stValue : Elf64Addr
  stSize : Elf64Xword
deriving Repr, DecidableEq

structure Elf64Rela where
  rOffset : Elf64Addr
  rInfo : Elf64Xword
  rAddend : Elf64Xword
deriving Repr, DecidableEq

def sizeofDyn : Nat := 16

def sizeofSym : Nat := 24

def sizeofRela : Nat := 24

def sizeofRel : Nat := 16

def Elf64Ehdr.read (bytes : Bytes) (start : Address) : Elf64Ehdr where
  eType := .ofCode (bytes.load16 (start + 16)).toNat
  eEntry := bytes.load64 (start + 24)
  ePhoff := bytes.load64 (start + 32)
  ePhentsize := bytes.load16 (start + 54)
  ePhnum := bytes.load16 (start + 56)

def Elf64Phdr.read (bytes : Bytes) (start : Address) : Elf64Phdr where
  pType := .ofCode (bytes.load32 start).toNat
  pFlags := bytes.load32 (start + 4)
  pOffset := bytes.load64 (start + 8)
  pVaddr := bytes.load64 (start + 16)
  pFilesz := bytes.load64 (start + 32)
  pMemsz := bytes.load64 (start + 40)
  pAlign := bytes.load64 (start + 48)

def Elf64Dyn.read (bytes : Bytes) (start : Address) : Elf64Dyn where
  dTag := .ofCode (bytes.load64 start).toNat
  dVal := bytes.load64 (start + 8)

def Elf64Sym.read (bytes : Bytes) (start : Address) : Elf64Sym where
  stName := bytes.load32 start
  stInfo := (bytes (start + 4)).toBitVec
  stShndx := bytes.load16 (start + 6)
  stValue := bytes.load64 (start + 8)
  stSize := bytes.load64 (start + 16)

def Elf64Rela.read (bytes : Bytes) (start : Address) : Elf64Rela where
  rOffset := bytes.load64 start
  rInfo := bytes.load64 (start + 8)
  rAddend := bytes.load64 (start + 16)

/-- The array of `count` records of `size` bytes that starts at `start`. -/
def readArray {α : Type} (read : Address → α) (start : Address) (size count : Nat) : List α :=
  (List.range count).map fun index => read (start + BitVec.ofNat 64 (size * index))

def Elf64Rela.rSym (rela : Elf64Rela) : Nat :=
  rela.rInfo.toNat / 2 ^ 32

def Elf64Rela.rType (rela : Elf64Rela) : RelocationType :=
  .ofCode (rela.rInfo.toNat % 2 ^ 32)

def Elf64Sym.stBind (symbol : Elf64Sym) : Nat :=
  symbol.stInfo.toNat / 16

def Elf64Sym.stType (symbol : Elf64Sym) : Nat :=
  symbol.stInfo.toNat % 16

def Elf64Sym.isDefined (symbol : Elf64Sym) : Bool :=
  symbol.stShndx != 0

def Elf64Sym.isWeakUndef (symbol : Elf64Sym) : Bool :=
  symbol.stShndx == 0 && symbol.stBind == 2

def Elf64Sym.isTls (symbol : Elf64Sym) : Bool :=
  symbol.stShndx != 0 && symbol.stType == 6

/-- The symbol types that `ShowSTT` has a text for; it aborts on any other. -/
def Elf64Sym.typeIsShown (symbol : Elf64Sym) : Bool :=
  symbol.stType ≤ 7 || symbol.stType == 10

end Sloader
