import Sloader.Binary

namespace Sloader

open Data

/-! `class DynLoader`: the binaries loaded so far and the breadth-first loading
of a root and the libraries it depends on. -/

/-- What a relocation entry does to memory. -/
inductive Write where
  | none
  | word (address : Address) (value : BitVec 64)
  | copy (destination source : Address) (size : Elf64Xword)
deriving Repr, DecidableEq

/-- A record of one relocation entry that `Relocate` has processed: the index of
its binary in `binaries_` and its own among the binary's `pltrelas` followed by its
`relas`, the number of binaries that the symbol was looked for in, and the memory
that the names were read from. -/
structure Processed where
  binary : Nat
  entry : Nat
  rela : Elf64Rela
  name : CString
  scope : Nat
  memory : Memory
  write : Write

/-- The members of the class, the process's memory and `sloader_tls_offset`.  Only
`processed` is not in the source: the history of `Relocate`, which no function reads. -/
structure DynLoader where
  memory : Memory
  binaries : List ELFBinary := []
  nextBaseAddr : Elf64Addr := 0x1400000
  loaded : List CString := []
  relocated : List PathKey := []
  mapFile : List CString := []
  tlsOffset : Elf64Xword := 4096
  processed : List Processed := []

structure Request where
  libraryName : CString
  runpath : Option Path
  rpath : Option Path
deriving Repr, DecidableEq

def ELFBinary.requests (binary : ELFBinary) : List Request :=
  binary.neededs.map fun libraryName => { libraryName, runpath := binary.runpath, rpath := binary.rpath }

def isSkipped (libraryName : CString) : Bool :=
  contains libraryName (ascii "ld-linux") || contains libraryName (ascii "libc.so")

namespace DynLoader

def fresh (memory : Memory) : DynLoader :=
  { memory }

/-- The loader after code other than its own has run. -/
def withMemory (loader : DynLoader) (memory : Memory) : DynLoader :=
  { loader with memory }

def insertLoaded (loader : DynLoader) (libraryName : CString) : DynLoader :=
  { loader with loaded := libraryName :: loader.loaded }

/-- `binaries_.emplace_back(ELFBinary(path))` and the `Load` that follows it. -/
def emplace (host : Host) (loader : DynLoader) (path : Path) : Except Stop (ELFBinary × DynLoader) := do
  let opened ← ELFBinary.construct host path
  let (binary, mapping) ← opened.load host loader.memory loader.nextBaseAddr
  return (binary, { loader with
    memory := mapping.memory
    binaries := loader.binaries ++ [binary]
    nextBaseAddr := ELFBinary.nextBaseAddr binary.endAddr
    mapFile := loader.mapFile ++ mapping.mapFile })

def popRequest (host : Host) (loader : DynLoader) (request : Request) (queue : List Request) :
    Except Stop (DynLoader × List Request) :=
  if request.libraryName ∈ loader.loaded then .ok (loader, queue)
  else if isSkipped request.libraryName then .ok (loader.insertLoaded request.libraryName, queue)
  else do
    let libraryPath ← findLibrary host request.libraryName request.runpath request.rpath
    let (binary, loader) ← (loader.insertLoaded request.libraryName).emplace host libraryPath
    return (loader, queue ++ binary.requests)

def drainQueue (host : Host) : Nat → DynLoader → List Request → Except Stop DynLoader
  | _, loader, [] => .ok loader
  | 0, _, _ :: _ => .error .outOfFuel
  | steps + 1, loader, request :: queue => do
      let (loader, queue) ← loader.popRequest host request queue
      drainQueue host steps loader queue

def loadRoot (host : Host) (loader : DynLoader) (rootPath : Path) :
    Except Stop (DynLoader × List Request) := do
  let (binary, loader) ← loader.emplace host rootPath
  return (loader.insertLoaded (filename rootPath), binary.requests)

def loadDependingLibs (host : Host) (steps : Nat) (loader : DynLoader) (rootPath : Path) :
    Except Stop DynLoader := do
  let (loader, queue) ← loader.loadRoot host rootPath
  drainQueue host steps loader queue

end DynLoader

end Sloader
