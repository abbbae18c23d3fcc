import Sloader.Relocate

namespace Sloader.Sample

open Data

/-! A kernel that grants every hint it can, and small images for it: the data
that the concrete runs of this development use. -/

/-- Grants a hint when the range meets no mapped one. -/
def mmap (memory : Memory) (start : Address) (size : Elf64Xword) : Address :=
  if size ≠ 0 ∧ ∀ range ∈ memory.ranges,
      range.2 ≤ (start - range.1).toNat ∧ size.toNat ≤ (range.1 - start).toNat then start
  else start + 1

def host (files : List (CString × List UInt8)) (libcMap : CString → Option Elf64Addr) : Host where
  readFile _ := none
  glob _ := []
  sloaderLibraryPath := none
  fileExists path := { answer := (files.lookup (filename path)).isSome }
  isDirectory path := { answer := path = ascii "/lib" }
  directoryIterator _ := { entries := files.map Prod.fst }
  openFile path := files.lookup (filename path)
  mapFile _ := true
  mmap := mmap
  stackDepth := 1
  freeDescriptors := 1
  libcMap := libcMap
  libcTlsVariables _ := none
  tlsBlock := 0x7f0000000000
  indeterminateTls := {}

theorem host_mmapSound (files : List (CString × List UInt8)) (libcMap : CString → Option Elf64Addr) :
    (host files libcMap).MmapSound := by
  have granted {memory : Memory} {start : Address} {size : Elf64Xword}
      (same : (host files libcMap).mmap memory start size = start) :
      size ≠ 0 ∧ ∀ range ∈ memory.ranges,
        range.2 ≤ (start - range.1).toNat ∧ size.toNat ≤ (range.1 - start).toNat := by
    change mmap memory start size = start at same
    unfold mmap at same
    split at same
    · assumption
    · exact absurd same (by simp)
  refine ⟨fun same => (granted same).1, ?_⟩
  intro memory start size same address inside
  rw [Memory.mapped, List.any_eq_false]
  intro range member
  obtain ⟨startOutside, rangeOutside⟩ := (granted same).2 range member
  simpa using apart_of_starts rangeOutside startOutside address inside

def file (words : List (BitVec 64)) : List UInt8 :=
  words.flatMap fun word => (List.range 8).map (Bytes.wordByte word.toNat)

/-- A small object.  Its data starts `232` bytes into its only segment. -/
structure Object where
  eType : BitVec 64 := 3
  vaddr : BitVec 64 := 0
  -- the words of a third program header, after `PT_LOAD` and `PT_DYNAMIC`
  header : List (BitVec 64) := [0, 0, 0, 0, 0, 0, 0]
  data : List (BitVec 64) := []
  strings : List (BitVec 64) := []
  needed : List (BitVec 64) := []
  symbols : List (BitVec 64) := []
  relas : List (BitVec 64) := []

/-- The file of an object: headers, data, strings, relocations, symbols, an
entry that ends the symbols, and the dynamic array. -/
def Object.file (object : Object) : List UInt8 :=
  let after (start : BitVec 64) (words : List (BitVec 64)) := start + BitVec.ofNat 64 (8 * words.length)
  let strings := after 232 object.data
  let relas := after strings object.strings
  let symbols := after relas object.relas
  let dynamic := after symbols object.symbols + 24
  let array := object.needed.flatMap (fun name => [1, name]) ++
    [5, object.vaddr + strings, 10, relas - strings] ++
    (if object.relas = [] then [] else [7, object.vaddr + relas, 8, symbols - relas, 9, 24]) ++
    (if object.symbols = [] then [] else [6, object.vaddr + symbols, 11, 24])
  let size := after dynamic array
  Sample.file ([0, 0, object.eType, 0, 64, 0, 56 <<< 48, 3] ++
    [0x700000001, 0, object.vaddr, 0, size, size, 0x1000] ++
    [2, dynamic, object.vaddr + dynamic, 0, size - dynamic, size - dynamic, 8] ++ object.header ++
    object.data ++ object.strings ++ object.relas ++ object.symbols ++ [0xffffffff, 0, 0] ++ array)

/-- The file with more entries at the end of its dynamic array, which is where it
ends.  The sizes in two program headers grow with it. -/
def Object.fileWith (object : Object) (entries : List (BitVec 64)) : List UInt8 :=
  let grow (file : List UInt8) (start : Nat) : List UInt8 :=
    let size := (ELFBinary.fileBytes file).load64 (BitVec.ofNat 64 start) + BitVec.ofNat 64 (8 * entries.length)
    file.take start ++ Sample.file [size] ++ file.drop (start + 8)
  [96, 104, 152, 160].foldl grow object.file ++ Sample.file entries

def memory : Memory where
  bytes _ := 0
  ranges := []

def started (host : Host) (path : Path) : DynLoader :=
  (((DynLoader.fresh memory).loadDependingLibs host 12 path).toOption).getD (DynLoader.fresh memory)

def startup (host : Host) (path : Path) : Except Stop DynLoader := do
  let loaded ← (DynLoader.fresh memory).loadDependingLibs host 12 path
  loaded.relocate host

def relocated (host : Host) (path : Path) : DynLoader :=
  (startup host path).toOption.getD (DynLoader.fresh memory)

/-- An entry of the first binary, with its symbol and its name, is processed. -/
structure EntryAt (host : Host) (loader : DynLoader) (index : Nat) (bin : ELFBinary) (r : Elf64Rela) (s : Elf64Sym)
    (name : CString) (next : DynLoader) : Prop where
  known : loader.binaries[0]? = some bin
  entry : bin.entries[index]? = some r
  found : bin.symtabs[r.rSym]? = some s
  named : bin.symbolName loader.memory s = .ok name
  ran : loader.relocateEntry host 0 bin (r, index) = .ok next

def entryAt (host : Host) (loader : DynLoader) (index : Nat) :
    Option (Elf64Addr × Elf64Rela × Elf64Sym × CString) := do
  let bin ← loader.binaries[0]?
  let r ← bin.entries[index]?
  let s ← bin.symtabs[r.rSym]?
  let name ← (bin.symbolName loader.memory s).toOption
  let _ ← (loader.relocateEntry host 0 bin (r, index)).toOption
  return (bin.baseAddr, r, s, name)

theorem exists_entryAt {host : Host} {loader : DynLoader} {index : Nat} {base : Elf64Addr} {r : Elf64Rela}
    {s : Elf64Sym} {name : CString} (computed : entryAt host loader index = some (base, r, s, name)) :
    ∃ bin next, EntryAt host loader index bin r s name next ∧ bin.baseAddr = base := by
  simp only [entryAt, Option.bind_eq_bind, Option.bind_eq_some_iff, Option.pure_def, Option.some.injEq,
    Prod.mk.injEq] at computed
  obtain ⟨bin, known, _, entry, _, found, _, named, next, ran, rfl, rfl, rfl, rfl⟩ := computed
  exact ⟨bin, next, ⟨known, entry, found, eq_ok_of_toOption named, eq_ok_of_toOption ran⟩, rfl⟩

/-- An executable and a library with a thread-local word each, called `x` and
`y`.  The executable has a general-dynamic pair for `x`. -/
def tlsHost : Host :=
  -- the strings are "a", "x" and "y", at 2, 4 and 6
  let strings : List (BitVec 64) := [0x79007800610000]
  let executable : Object :=
    { header := [7, 232, 232, 0, 8, 8, 8], data := [0x1111111111111111, 0, 0], strings, needed := [2]
      symbols := [0, 0, 0, 0x1001600000004, 0, 8]
      relas := [240, 0x100000010, 0, 248, 0x100000011, 0] }
  let library : Object :=
    { header := [7, 232, 232, 0, 8, 8, 8], data := [0x2222222222222222], strings
      symbols := [0, 0, 0, 0x1001600000006, 0, 8] }
  host [(ascii "m", executable.file), (ascii "a", library.file)] fun _ => none

end Sloader.Sample
