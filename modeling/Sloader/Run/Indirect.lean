import Sloader.Dlsym
import Sloader.Run.Identity

namespace Sloader

open Data

/-! Indirect functions.

The value of an `STT_GNU_IFUNC` symbol is the address of a resolver, a function
that returns the address of the implementation to use, and so is what an
`IRELATIVE` entry computes.  Neither `Relocate` nor `sloader_dlsym` ever calls one:
what is stored or returned is the address of the resolver itself. -/

variable {host : Host} {loader next : DynLoader} {memory : Memory} {binaries : List ELFBinary} {bin library : ELFBinary}
  {r : Elf64Rela} {symbol : Elf64Sym} {name : CString} {index entry : Nat} {address : Address} {effect : Write}

def Elf64Sym.isIfunc (symbol : Elf64Sym) : Bool :=
  symbol.stType == 10

/-- What is to be stored or returned for an indirect function whose resolver is at
`own`: the implementation, and not the resolver. -/
def IsImplementation (resolver : Address → Address) (own addend word : Address) : Prop :=
  word = resolver own + addend ∧ word ≠ own + addend

/-- Only `64` entries add their addend to the address. -/
def addendOf (r : Elf64Rela) : Elf64Addr :=
  if r.rType = .abs64 then r.rAddend else 0

theorem relocateEntry_word {place : Address} {value : BitVec 64} (refers : bin.Refers loader.memory r name)
    (stores : ∀ effect, resolve host loader.memory loader.binaries bin r name = .ok effect → effect = .word place value)
    (ran : loader.relocateEntry host index bin (r, entry) = .ok next) : next.memory.bytes.load64 place = value := by
  obtain ⟨text, effect, _, alsoRefers, effected, written, _⟩ := relocateEntry_cases ran
  cases refers.unique alsoRefers
  cases stores effect effected
  rw [written, Write.apply, Memory.store64, Bytes.load64_store64]

theorem relocateEntry_irelative (type : r.rType = .irelative)
    (ran : loader.relocateEntry host index bin (r, entry) = .ok next) :
    next.memory.bytes.load64 (bin.target r) = bin.baseAddr + r.rAddend := by
  obtain ⟨name, _, _, refers, _⟩ := relocateEntry_cases ran
  apply relocateEntry_word refers _ ran
  intro effect effected
  simp only [resolve, type, pure_eq_ok] at effected
  exact effected.symm

theorem relocateEntry_address (isAddress : r.rType.isAddress = true) (refers : bin.Refers loader.memory r name)
    (unmapped : host.libcMap name = none)
    (found : definition loader.memory name (symbolTable loader.binaries) = some (library, symbol))
    (ran : loader.relocateEntry host index bin (r, entry) = .ok next) :
    next.memory.bytes.load64 (bin.target r) = symbol.stValue + library.baseAddr + addendOf r := by
  have bound : bindingAddr host loader.memory loader.binaries name = some (symbol.stValue + library.baseAddr) := by
    rw [bindingAddr, unmapped, found]
    rfl
  have stored := relocateEntry_word refers (fun _ => (resolve_address isAddress refers.terminated · bound)) ran
  rw [stored, addendOf]
  split
  · rfl
  · rw [add_zero]

theorem sloaderDlsym_found {handle : Address}
    (found : definition loader.memory name (symbolTable loader.binaries) = some (library, symbol))
    (ran : loader.sloaderDlsym handle name = .ok address) : address = symbol.stValue + library.baseAddr := by
  have searched := ran
  simp only [DynLoader.sloaderDlsym, bind_eq_ok] at searched
  obtain ⟨_, searched, _⟩ := searched
  rw [DynLoader.sloaderDlsym_eq (readable_of_searchSym searched), found] at ran
  exact (Except.ok.inj ran).symm

/-- Where the resolver is stored, an indirect function is not bound. -/
theorem implementation_iff (resolver : Address → Address) {own addend word : Address} (stored : word = own + addend) :
    (symbol.isIfunc = true → IsImplementation resolver own addend word) ↔ symbol.isIfunc = false := by
  constructor
  · intro bound
    by_contra indirect
    exact (bound (by simpa using indirect)).2 stored
  · intro direct indirect
    rw [direct] at indirect
    contradiction

/-- An `IRELATIVE` entry stores the implementation exactly if it is the resolver
itself; an entry with a symbol, or `sloader_dlsym`, binds the implementation of
what it finds exactly if that is not an indirect function. -/
theorem indirect_bound_iff (host : Host) (loader : DynLoader) (resolver : Address → Address) :
    (∀ index bin r entry next, r.rType = .irelative → loader.relocateEntry host index bin (r, entry) = .ok next →
      (next.memory.bytes.load64 (bin.target r) = resolver (bin.baseAddr + r.rAddend) ↔
        resolver (bin.baseAddr + r.rAddend) = bin.baseAddr + r.rAddend)) ∧
    (∀ index bin r entry next name library symbol, r.rType.isAddress = true → bin.Refers loader.memory r name →
      host.libcMap name = none →
      definition loader.memory name (symbolTable loader.binaries) = some (library, symbol) →
      loader.relocateEntry host index bin (r, entry) = .ok next →
      ((symbol.isIfunc = true → IsImplementation resolver (symbol.stValue + library.baseAddr) (addendOf r)
          (next.memory.bytes.load64 (bin.target r))) ↔ symbol.isIfunc = false)) ∧
    (∀ handle name library symbol address,
      definition loader.memory name (symbolTable loader.binaries) = some (library, symbol) →
      loader.sloaderDlsym handle name = .ok address →
      ((symbol.isIfunc = true → IsImplementation resolver (symbol.stValue + library.baseAddr) 0 address) ↔
        symbol.isIfunc = false)) := by
  refine ⟨?_, ?_, ?_⟩
  · intro index bin r entry next type ran
    rw [relocateEntry_irelative type ran]
    exact eq_comm
  · intro index bin r entry next name library symbol isAddress refers unmapped found ran
    exact implementation_iff resolver (relocateEntry_address isAddress refers unmapped found ran)
  · intro handle name library symbol address found ran
    apply implementation_iff resolver
    rw [add_zero]
    exact sloaderDlsym_found found ran

namespace Sample

/-- An executable with an indirect function `f`, whose resolver is `256` bytes into
it, and a function `g`; an `IRELATIVE` entry with this resolver, and `GLOB_DAT`
entries for both names. -/
def ifuncHost : Host :=
  -- the strings are "f" and "g", at 1 and 3
  let executable : Object :=
    { data := [0, 0, 0], strings := [0x67006600]
      symbols := [0, 0, 0, 0x1001a00000001, 256, 8, 0x1001200000003, 384, 8]
      relas := [232, 0x25, 256, 240, 0x100000006, 0, 248, 0x200000006, 0] }
  Sample.host [(ascii "m", executable.file)] fun _ => none

@[irreducible] def ifuncLoader : DynLoader :=
  started ifuncHost (ascii "/bin/m")

/-- The resolver of `f` chooses the code `64` bytes behind it. -/
def ifuncResolver (address : Address) : Address :=
  address + 64

/-- The two names, as `Relocate` and `sloader_dlsym` find them. -/
def ifuncName (name : CString) : Option Elf64Sym × Bool :=
  ((definition ifuncLoader.memory name (symbolTable ifuncLoader.binaries)).map Prod.snd,
    (ifuncLoader.sloaderDlsym 0 name).isOk)

theorem ifuncLoader_entries :
    [0, 1, 2].map (entryAt ifuncHost ifuncLoader) =
      [some (0x1400000, ⟨232, 0x25, 256⟩, ⟨0, 0, 0, 0, 0⟩, []),
        some (0x1400000, ⟨240, 0x100000006, 0⟩, ⟨1, 0x1a, 1, 256, 8⟩, ascii "f"),
        some (0x1400000, ⟨248, 0x200000006, 0⟩, ⟨3, 0x12, 1, 384, 8⟩, ascii "g")] ∧
    [ascii "f", ascii "g"].map ifuncName = [(some ⟨1, 0x1a, 1, 256, 8⟩, true), (some ⟨3, 0x12, 1, 384, 8⟩, true)] := by
  decide +kernel

theorem exists_ifuncName {name : CString} {symbol : Elf64Sym} (computed : ifuncName name = (some symbol, true)) :
    ∃ library address,
      definition ifuncLoader.memory name (symbolTable ifuncLoader.binaries) = some (library, symbol) ∧
      ifuncLoader.sloaderDlsym 0 name = .ok address := by
  obtain ⟨defined, looked⟩ := Prod.mk.inj computed
  obtain ⟨⟨library, other⟩, found, rfl⟩ := Option.map_eq_some_iff.mp defined
  obtain ⟨address, dlsym⟩ := exists_of_isOk looked
  exact ⟨library, address, found, dlsym⟩

/-- What is stored and returned for `g` is right, what is stored for the
`IRELATIVE` entry is not. -/
theorem indirect_bound_iff_ifuncLoader :
    (∃ bin r s next, EntryAt ifuncHost ifuncLoader 0 bin r s [] next ∧ r.rType = .irelative ∧
      next.memory.bytes.load64 (bin.target r) ≠ ifuncResolver (bin.baseAddr + r.rAddend)) ∧
    ∃ bin r s next library symbol address, EntryAt ifuncHost ifuncLoader 2 bin r s (ascii "g") next ∧
      r.rType.isAddress = true ∧
      definition ifuncLoader.memory (ascii "g") (symbolTable ifuncLoader.binaries) = some (library, symbol) ∧
      ifuncLoader.sloaderDlsym 0 (ascii "g") = .ok address ∧
      (symbol.isIfunc = true → IsImplementation ifuncResolver (symbol.stValue + library.baseAddr) (addendOf r)
        (next.memory.bytes.load64 (bin.target r))) ∧
      (symbol.isIfunc = true → IsImplementation ifuncResolver (symbol.stValue + library.baseAddr) 0 address) := by
  have computed := ifuncLoader_entries
  simp only [List.map_cons, List.map_nil, List.cons.injEq, and_true] at computed
  obtain ⟨⟨first, _, third⟩, _, named⟩ := computed
  obtain ⟨irelative, entries, names⟩ := indirect_bound_iff ifuncHost ifuncLoader ifuncResolver
  constructor
  · obtain ⟨bin, next, entry, base⟩ := exists_entryAt first
    refine ⟨bin, _, _, next, entry, by decide, fun bound => ?_⟩
    have fixed := (irelative 0 bin _ 0 next (by decide) entry.ran).mp bound
    rw [base] at fixed
    exact absurd fixed (by decide)
  · obtain ⟨bin, next, entry, _⟩ := exists_entryAt third
    obtain ⟨library, address, found, dlsym⟩ := exists_ifuncName named
    exact ⟨bin, _, _, next, library, _, address, entry, by decide, found, dlsym,
      (entries 0 bin _ 2 next _ library _ (by decide) ⟨_, entry.found, entry.named⟩ rfl found entry.ran).mpr rfl,
      (names 0 _ library _ address found dlsym).mpr rfl⟩

/-- The resolver of `f` is stored by both entries and returned by `sloader_dlsym`. -/
theorem indirect_unbound :
    (∃ bin r s next, EntryAt ifuncHost ifuncLoader 0 bin r s [] next ∧ r.rType = .irelative ∧
      next.memory.bytes.load64 (bin.target r) ≠ ifuncResolver (bin.baseAddr + r.rAddend)) ∧
    ∃ bin r s next library symbol address, EntryAt ifuncHost ifuncLoader 1 bin r s (ascii "f") next ∧
      r.rType = .globDat ∧ ifuncHost.libcMap (ascii "f") = none ∧
      definition ifuncLoader.memory (ascii "f") (symbolTable ifuncLoader.binaries) = some (library, symbol) ∧
      symbol.isIfunc = true ∧ ifuncLoader.sloaderDlsym 0 (ascii "f") = .ok address ∧
      ¬ IsImplementation ifuncResolver (symbol.stValue + library.baseAddr) (addendOf r)
        (next.memory.bytes.load64 (bin.target r)) ∧
      ¬ IsImplementation ifuncResolver (symbol.stValue + library.baseAddr) 0 address := by
  have computed := ifuncLoader_entries
  simp only [List.map_cons, List.map_nil, List.cons.injEq, and_true] at computed
  obtain ⟨⟨first, second, _⟩, named, _⟩ := computed
  constructor
  · obtain ⟨bin, next, entry, base⟩ := exists_entryAt first
    refine ⟨bin, _, _, next, entry, by decide, ?_⟩
    rw [relocateEntry_irelative (by decide) entry.ran, base]
    decide
  · obtain ⟨bin, next, entry, _⟩ := exists_entryAt second
    obtain ⟨library, address, found, dlsym⟩ := exists_ifuncName named
    refine ⟨bin, _, _, next, library, _, address, entry, by decide, rfl, found, rfl, dlsym, fun bound => ?_,
      fun bound => ?_⟩
    · exact bound.2 (relocateEntry_address (by decide) ⟨_, entry.found, entry.named⟩ rfl found entry.ran)
    · apply bound.2
      rw [add_zero]
      exact sloaderDlsym_found found dlsym

end Sample

end Sloader
