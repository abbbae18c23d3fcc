import Sloader.Relocate.Words
import Sloader.Run.History
import Sloader.Sample

namespace Sloader

open Data

/-! Symbol identity over whole runs: entries that name the same symbol are bound
to the same address, however many binaries are loaded in between. -/

def RelocationType.isAddress : RelocationType → Bool
  | .globDat | .jumpSlot | .abs64 => true
  | .copy | .relative | .dtpmod64 | .dtpoff64 | .tpoff64 | .irelative | .other _ => false

/-- When the entry was processed, its name was in libc's map or had a definition. -/
def Processed.Defined (host : Host) (binaries : List ELFBinary) (record : Processed) : Prop :=
  host.libcMap record.name ≠ none ∨
    ∃ binary ∈ binaries.take record.scope, ∃ symbol ∈ binary.symtabs,
      binary.nameIs record.memory record.name symbol = true ∧ symbol.isDefined = true

/-- The entry stored the address, with its addend added if it is of type `64`. -/
def Processed.Binds (binaries : List ELFBinary) (record : Processed) (address : Elf64Addr) : Prop :=
  ∃ bin, binaries[record.binary]? = some bin ∧
    record.write = .word (bin.target record.rela)
      (if record.rela.rType = .abs64 then address + record.rela.rAddend else address)

variable {host : Host} {memory : Memory} {binaries : List ELFBinary} {bin : ELFBinary} {r : Elf64Rela}
  {name : CString} {effect : Write} {record : Processed} {address : Elf64Addr}

theorem resolve_address (isAddress : r.rType.isAddress = true) (terminated : memory.Terminated)
    (resolved : resolve host memory binaries bin r name = .ok effect)
    (bound : bindingAddr host memory binaries name = some address) :
    effect = .word (bin.target r) (if r.rType = .abs64 then address + r.rAddend else address) := by
  have found := symbolAddr_eq terminated host binaries name
  rw [bound] at found
  unfold resolve at resolved
  cases type : r.rType <;> simp only [type, found, bind_eq_ok, pure_eq_ok, Except.ok.injEq] at resolved isAddress
  case globDat | jumpSlot | abs64 =>
    obtain ⟨_, rfl, stored⟩ := resolved
    exact (pure_eq_ok.mp stored).symm
  all_goals contradiction

theorem Processed.Of.binds (sound : record.Of host binaries) (isAddress : record.rela.rType.isAddress = true)
    (bound : bindingAddr host record.memory (binaries.take record.scope) record.name = some address) :
    record.Binds binaries address := by
  obtain ⟨bin, found, _, resolved⟩ := sound.entry
  obtain ⟨symbol, _, named, resolved⟩ := resolveEntry_ok resolved
  exact ⟨bin, found, resolve_address isAddress (terminated_of_string named) resolved bound⟩

theorem Processed.Defined.known (defined : record.Defined host binaries) :
    host.libcMap record.name ≠ none ∨
      firstNamed record.memory record.name Elf64Sym.isDefined (symbolTable (binaries.take record.scope)) ≠ none := by
  rcases defined with mapped | ⟨binary, known, symbol, inTable, named, isDefined⟩
  · exact .inl mapped
  · refine .inr fun missing => ?_
    have member : (binary, symbol) ∈ symbolTable (binaries.take record.scope) :=
      List.mem_flatMap.mpr ⟨binary, known, List.mem_map_of_mem inTable⟩
    have rejected := List.find?_eq_none.mp missing _ member
    simp [named, isDefined] at rejected

namespace DynLoader

variable {mainPath : Path} {loader : DynLoader}

theorem History.same_address (history : History host loader) :
    loader.processed.Pairwise fun first second =>
      first.rela.rType.isAddress = true → second.rela.rType.isAddress = true → first.name = second.name →
      first.Defined host loader.binaries →
      SameNames first.memory second.memory (loader.binaries.take first.scope) →
      ∃ address, first.Binds loader.binaries address ∧ second.Binds loader.binaries address := by
  refine history.scopes.imp_of_mem ?_
  intro first second inFirst inSecond grown isFirst isSecond sameName defined same
  -- the binaries of the first lookup are a prefix of those of the second
  have prefixed : (loader.binaries.take second.scope).take first.scope = loader.binaries.take first.scope := by
    rw [List.take_take, Nat.min_eq_left grown]
  have split := List.take_append_drop first.scope (loader.binaries.take second.scope)
  rw [prefixed] at split
  obtain ⟨address, before, after⟩ := same.bindingAddr_append defined.known
    ((loader.binaries.take second.scope).drop first.scope)
  rw [split, sameName] at after
  exact ⟨address, (history.records first inFirst).binds isFirst before,
    (history.records second inSecond).binds isSecond after⟩

theorem searchSym_loadDependingLibs {loaded : DynLoader} {steps : Nat} {path : Path} {skipMain : Bool}
    {place : Nat × Nat} {entry : ELFBinary × Elf64Sym}
    (loads : loader.loadDependingLibs host steps path = .ok loaded)
    (same : SameNames loader.memory loaded.memory loader.binaries)
    (searched : searchSym loader.memory loader.binaries name skipMain = .ok (some place))
    (found : symbolAt loader.binaries place = some entry) (defined : entry.2.isDefined = true) :
    searchSym loaded.memory loaded.binaries name skipMain = .ok (some place) := by
  obtain ⟨more, binaries, _⟩ := loadDependingLibs_history loads
  rw [binaries]
  rw [← same.searchSym] at searched
  exact searchSym_append searched found defined more

/-- As long as the names of the symbols that were loaded still read the same,
entries for one name are bound to one address, and loading more binaries does not
change what `SearchSym` finds. -/
theorem Run.symbol_identity (run : Run host mainPath loader) :
    (loader.processed.Pairwise fun first second =>
      first.rela.rType.isAddress = true → second.rela.rType.isAddress = true → first.name = second.name →
      first.Defined host loader.binaries →
      SameNames first.memory second.memory (loader.binaries.take first.scope) →
      ∃ address, first.Binds loader.binaries address ∧ second.Binds loader.binaries address) ∧
    ∀ steps path loaded, loader.loadDependingLibs host steps path = .ok loaded →
      SameNames loader.memory loaded.memory loader.binaries →
      ∀ name skipMain place entry, searchSym loader.memory loader.binaries name skipMain = .ok (some place) →
        symbolAt loader.binaries place = some entry → entry.2.isDefined = true →
        searchSym loaded.memory loaded.binaries name skipMain = .ok (some place) := by
  refine ⟨run.history.same_address, ?_⟩
  intro steps path loaded loads same name skipMain place entry searched found defined
  exact searchSym_loadDependingLibs loads same searched found defined

/-- An executable that defines `x`, and a library that it opens, which defines
`x` too and has a `64` entry for it. -/
def sharedHost : Host :=
  -- the string is "x", at 2
  let strings : List (BitVec 64) := [0x780000]
  let executable : Sample.Object :=
    { data := [0], strings, symbols := [0, 0, 0, 0x1001100000002, 232, 8], relas := [232, 0x100000006, 0] }
  let library : Sample.Object :=
    { data := [0], strings, symbols := [0, 0, 0, 0x1001100000002, 232, 8], relas := [232, 0x100000001, 4] }
  Sample.host [(ascii "m", executable.file), (ascii "a", library.file)] fun _ => none

/-- The state after the library is opened, and what loading it once more leads to. -/
def shared : Except Stop (DynLoader × DynLoader) := do
  let started ← Sample.startup sharedHost (ascii "/bin/m")
  let (_, loader) ← started.sloaderDlopen sharedHost 12 (some (ascii "a"))
  let loaded ← loader.loadDependingLibs sharedHost 12 (ascii "/lib/a")
  return (loader, loaded)

theorem shared_facts :
    shared.toOption.map (fun (loader, loaded) => decide (
      (loader.processed.map fun record => (record.rela.rType, record.name)) =
        [(.globDat, ascii "x"), (.abs64, ascii "x")] ∧
      (∀ first ∈ loader.processed[0]?, ∃ binary ∈ loader.binaries.take first.scope, ∃ symbol ∈ binary.symtabs,
        binary.nameIs first.memory first.name symbol = true ∧ symbol.isDefined = true) ∧
      (∀ first ∈ loader.processed[0]?, ∀ second ∈ loader.processed[1]?,
        ∀ binary ∈ loader.binaries.take first.scope, ∀ symbol ∈ binary.symtabs,
          second.memory.bytes.cstring (symbol.stName.setWidth 64 + binary.strtab) =
            first.memory.bytes.cstring (symbol.stName.setWidth 64 + binary.strtab)) ∧
      (∀ binary ∈ loader.binaries, ∀ symbol ∈ binary.symtabs,
        loaded.memory.bytes.cstring (symbol.stName.setWidth 64 + binary.strtab) =
          loader.memory.bytes.cstring (symbol.stName.setWidth 64 + binary.strtab)) ∧
      (searchSym loader.memory loader.binaries (ascii "x") false).toOption = some (some (0, 1)) ∧
      (symbolAt loader.binaries (0, 1)).map (fun entry => entry.2.isDefined) = some true)) = some true := by
  decide +kernel

theorem Run.symbol_identity_shared :
    ∃ loader first second address loaded, Run sharedHost (ascii "/bin/m") loader ∧
      loader.processed = [first, second] ∧ first.rela.rType = .globDat ∧ second.rela.rType = .abs64 ∧
      first.Binds loader.binaries address ∧ second.Binds loader.binaries address ∧
      loader.loadDependingLibs sharedHost 12 (ascii "/lib/a") = .ok loaded ∧
      searchSym loaded.memory loaded.binaries (ascii "x") false = .ok (some (0, 1)) := by
  obtain ⟨⟨loader, loaded⟩, found, checked⟩ := Option.map_eq_some_iff.mp shared_facts
  obtain ⟨types, defined, same, kept, searched, at_⟩ := of_decide_eq_true checked
  have ran := eq_ok_of_toOption found
  simp only [shared, Sample.startup, bind_eq_ok, pure_eq_ok, Prod.mk.injEq] at ran
  obtain ⟨started, ⟨_, loads, relocates⟩, ⟨_, _⟩, opened, _, again, rfl, rfl⟩ := ran
  have run : Run sharedHost (ascii "/bin/m") _ := .dlopen (.startup loads relocates) opened
  obtain ⟨bound, searches⟩ := run.symbol_identity
  simp only [List.map_eq_cons_iff, List.map_eq_nil_iff, Prod.mk.injEq] at types
  obtain ⟨first, _, processed, ⟨isFirst, firstName⟩, second, _, rfl, ⟨isSecond, secondName⟩, rfl⟩ := types
  rw [processed] at bound defined same
  obtain ⟨entry, entryAt, isDefined⟩ := Option.map_eq_some_iff.mp at_
  obtain ⟨address, firstBound, secondBound⟩ := (List.pairwise_cons.mp bound).1 second List.mem_cons_self
    (by rw [isFirst]; rfl) (by rw [isSecond]; rfl) (firstName.trans secondName.symm)
    (.inr (defined first rfl)) (same first rfl second rfl)
  exact ⟨_, first, second, address, _, run, processed, isFirst, isSecond, firstBound, secondBound, again,
    searches 12 _ _ again kept _ _ _ entry (eq_ok_of_toOption searched) entryAt isDefined⟩

/-- An executable that overwrites the name of its own `x` once it has bound it. -/
def renamingHost : Host :=
  -- the strings are "a" and "x", at 2 and 4
  let strings : List (BitVec 64) := [0x7800610000]
  let executable : Sample.Object :=
    { data := [0], strings, needed := [2], symbols := [0, 0, 0, 0x1001100000004, 232, 8]
      relas := [232, 0x100000006, 0, 240, 8, 0] }
  let library : Sample.Object :=
    { data := [0], strings, symbols := [0, 0, 0, 0x1001100000004, 232, 8], relas := [232, 0x100000006, 0] }
  Sample.host [(ascii "m", executable.file), (ascii "a", library.file)] fun _ => none

theorem renamingHost_facts :
    (Sample.startup renamingHost (ascii "/bin/m")).toOption.map (fun loader => decide (
      (loader.processed.map fun record => (record.rela.rType, record.name, record.write)) =
        [(.globDat, ascii "x", .word 0x14000e8 0x14000e8), (.relative, [], .word 0x14000f0 0x1400000),
          (.globDat, ascii "x", .word 0x18000e8 0x18000e8)] ∧
      ∀ first ∈ loader.processed[0]?, ∃ binary ∈ loader.binaries.take first.scope, ∃ symbol ∈ binary.symtabs,
        binary.nameIs first.memory first.name symbol = true ∧ symbol.isDefined = true)) = some true := by
  decide +kernel

theorem Run.symbol_renamed :
    ∃ loader first between second, Run renamingHost (ascii "/bin/m") loader ∧
      loader.processed = [first, between, second] ∧
      first.rela.rType.isAddress = true ∧ second.rela.rType.isAddress = true ∧
      first.name = ascii "x" ∧ second.name = ascii "x" ∧ first.Defined renamingHost loader.binaries ∧
      first.write = .word 0x14000e8 0x14000e8 ∧ second.write = .word 0x18000e8 0x18000e8 ∧
      ¬ ∃ address, first.Binds loader.binaries address ∧ second.Binds loader.binaries address := by
  obtain ⟨loader, run, checked⟩ := exists_startup renamingHost_facts
  obtain ⟨types, defined⟩ := of_decide_eq_true checked
  simp only [List.map_eq_cons_iff, List.map_eq_nil_iff, Prod.mk.injEq] at types
  obtain ⟨first, _, processed, ⟨isFirst, firstName, firstWrite⟩, between, _, rfl, _, second, _, rfl,
    ⟨isSecond, secondName, secondWrite⟩, rfl⟩ := types
  rw [processed] at defined
  refine ⟨loader, first, between, second, run, processed, by rw [isFirst]; rfl,
    by rw [isSecond]; rfl, firstName, secondName, .inr (defined first rfl), firstWrite, secondWrite, ?_⟩
  intro ⟨address, ⟨_, _, firstBound⟩, ⟨_, _, secondBound⟩⟩
  simp only [isFirst, firstWrite, isSecond, secondWrite, reduceCtorEq, if_false, Write.word.injEq] at firstBound secondBound
  have differ : (0x14000e8 : Elf64Addr) ≠ 0x18000e8 := by decide
  exact differ (firstBound.2.trans secondBound.2.symm)

end DynLoader

end Sloader
