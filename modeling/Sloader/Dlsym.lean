import Sloader.Run.History
import Sloader.Sample

namespace Sloader

open Data

/-! `sloader_dlsym`.  It looks for the name in all binaries, whatever the handle,
and unlike `Relocate` it does not look in `sloader_libc_map`. -/

namespace DynLoader

def sloaderDlsym (loader : DynLoader) (_handle : Address) (symbol : CString) : Except Stop Address := do
  let opt ← searchSym loader.memory loader.binaries symbol false
  match opt with
  | none => .error (.check "opt")
  | some (binIndex, symIndex) =>
      match loader.binaries[binIndex]? with
      | some binary => binary.getSymbolAddr symIndex
      | none => .error .segmentationFault

variable {host : Host} {loader opened final : DynLoader} {name filename : CString} {address handle : Address}
  {steps : Nat}

theorem sloaderDlsym_eq (readable : loader.memory.Readable loader.binaries) (handle : Address) (name : CString) :
    loader.sloaderDlsym handle name =
      match definition loader.memory name (symbolTable loader.binaries) with
      | none => .error (.check "opt")
      | some entry => .ok (entry.2.stValue + entry.1.baseAddr) := by
  obtain ⟨found, searched, place⟩ := readable.searchSym name
  simp only [sloaderDlsym, searched, bind, Except.bind]
  cases hit : definition loader.memory name (symbolTable loader.binaries) with
  | none =>
      rw [hit, Option.map_none, Option.map_eq_none_iff] at place
      rw [place]
  | some entry =>
      rw [hit, Option.map_some] at place
      obtain ⟨index, rfl, entryAt⟩ := Option.map_eq_some_iff.mp place
      obtain ⟨binaryAt, found⟩ := symbolAt_addr entryAt
      simp only [binaryAt, found]

/-- `sloader_dlsym` returns what a relocation would be bound to exactly if libc's
map does not have the name, or has the address of what the binaries define. -/
theorem dlsym_agrees_iff (bound : symbolAddr host loader.memory loader.binaries name = .ok (some address))
    (handle : Address) :
    loader.sloaderDlsym handle name = .ok address ↔
      host.libcMap name = none ∨
        ∃ entry, definition loader.memory name (symbolTable loader.binaries) = some entry ∧
          entry.2.stValue + entry.1.baseAddr = address := by
  have searched := bound
  simp only [symbolAddr, bind_eq_ok] at searched
  obtain ⟨opt, searched, _⟩ := searched
  have readable := readable_of_searchSym searched
  have found : loader.sloaderDlsym handle name = .ok address ↔
      ∃ entry, definition loader.memory name (symbolTable loader.binaries) = some entry ∧
        entry.2.stValue + entry.1.baseAddr = address := by
    rw [sloaderDlsym_eq readable]
    cases definition loader.memory name (symbolTable loader.binaries) with
    | none => simp
    | some entry => simp
  rw [found]
  constructor
  · exact .inr
  · intro either
    cases either with
    | inr same => exact same
    | inl unmapped =>
        rw [readable.symbolAddr, bindingAddr, unmapped] at bound
        simpa using bound

/-- What the handle of a library yields, at any later time. -/
theorem Later.dlsym_first (ran : loader.sloaderDlopen host steps (some filename) = .ok (handle, opened))
    (wanted : isSkipped filename = false) (later : Later host opened final) :
    handle = 0xdeadbeefdeadbeef ∧ ∃ library, final.binaries[loader.binaries.length]? = some library ∧
      findLibrary host filename none none = .ok library.path ∧
      ∀ name symbol,
        (library.symtabs.find? fun s => library.nameIs final.memory name s && s.isDefined) = some symbol →
        (firstNamed final.memory name Elf64Sym.isDefined (symbolTable loader.binaries) = none →
          final.sloaderDlsym handle name = .ok (symbol.stValue + library.baseAddr)) ∧
        ∀ earlier, firstNamed final.memory name Elf64Sym.isDefined (symbolTable loader.binaries) = some earlier →
          final.sloaderDlsym handle name = .ok (earlier.2.stValue + earlier.1.baseAddr) := by
  obtain ⟨path, loaded, found, loads, relocates, same⟩ := sloaderDlopen_steps wanted ran
  obtain ⟨library, more, binaries, rfl⟩ := (Visits.of_loadDependingLibs loads).root_binary
  obtain ⟨others, after⟩ := later.binaries_append
  rw [relocate_binaries relocates, binaries, List.append_assoc, List.cons_append] at after
  refine ⟨same, library, by simp [after], found, ?_⟩
  intro name symbol defined
  have isNamed := List.find?_some defined
  rw [Bool.and_eq_true] at isNamed
  have readable : final.memory.Readable final.binaries := .inr (terminated_of_nameIs isNamed.1)
  have found : firstNamed final.memory name Elf64Sym.isDefined (symbolTable final.binaries) =
      (firstNamed final.memory name Elf64Sym.isDefined (symbolTable loader.binaries)).or (some (library, symbol)) := by
    rw [after, symbolTable_append, symbolTable_cons, firstNamed, List.find?_append, List.find?_append, List.find?_map]
    simp only [Function.comp_def, defined]
    rfl
  constructor
  · intro missing
    rw [missing, Option.none_or] at found
    rw [sloaderDlsym_eq readable, definition, found]
    rfl
  · intro earlier before
    rw [before, Option.some_or] at found
    rw [sloaderDlsym_eq readable, definition, found]
    rfl

/-- An executable that defines `x`, and a library for it to open that defines `x`
and `y`.  Neither defines `puts`. -/
def pluginHost : Host :=
  -- the strings are "x" and "y", at 2 and 4
  let strings : List (BitVec 64) := [0x7900780000]
  let executable : Sample.Object := { data := [0], strings, symbols := [0, 0, 0, 0x1001100000002, 232, 8] }
  let library : Sample.Object :=
    { data := [0, 0], strings, symbols := [0, 0, 0, 0x1001100000002, 232, 8, 0x1001100000004, 240, 8] }
  Sample.host [(ascii "m", executable.file), (ascii "a", library.file)] fun name =>
    if name = ascii "puts" then some 0x7f0000001000 else none

def openedPlugin : Except Stop (DynLoader × Address × DynLoader) := do
  let started ← Sample.startup pluginHost (ascii "/bin/m")
  let (handle, loader) ← started.sloaderDlopen pluginHost 12 (some (ascii "a"))
  return (started, handle, loader)

theorem openedPlugin_facts :
    openedPlugin.toOption.map (fun (started, handle, loader) => decide (
      started.binaries.length = 1 ∧
      (symbolAddr pluginHost loader.memory loader.binaries (ascii "puts")).toOption = some (some 0x7f0000001000) ∧
      (symbolAddr pluginHost loader.memory loader.binaries (ascii "x")).toOption = some (some 0x14000e8) ∧
      loader.sloaderDlsym handle (ascii "puts") = .error (.check "opt") ∧
      loader.sloaderDlsym handle (ascii "x") = .ok 0x14000e8 ∧
      (∀ library ∈ loader.binaries[1]?, library.baseAddr = 0x1800000 ∧
        (library.symtabs.find? fun s => library.nameIs loader.memory (ascii "x") s && s.isDefined) =
          some ⟨2, 0x11, 1, 232, 8⟩ ∧
        (library.symtabs.find? fun s => library.nameIs loader.memory (ascii "y") s && s.isDefined) =
          some ⟨4, 0x11, 1, 240, 8⟩) ∧
      firstNamed loader.memory (ascii "y") Elf64Sym.isDefined (symbolTable started.binaries) = none)) = some true := by
  decide +kernel

theorem exists_openedPlugin :
    ∃ started handle loader, openedPlugin = .ok (started, handle, loader) ∧
      started.sloaderDlopen pluginHost 12 (some (ascii "a")) = .ok (handle, loader) ∧
      Run pluginHost (ascii "/bin/m") loader := by
  obtain ⟨⟨started, handle, loader⟩, found, _⟩ := Option.map_eq_some_iff.mp openedPlugin_facts
  have ran := eq_ok_of_toOption found
  have steps := ran
  simp only [openedPlugin, Sample.startup, bind_eq_ok, pure_eq_ok, Prod.mk.injEq] at steps
  obtain ⟨_, ⟨_, loads, relocates⟩, ⟨_, _⟩, opened, rfl, rfl, rfl⟩ := steps
  exact ⟨_, _, _, ran, opened, .dlopen (.startup loads relocates) opened⟩

theorem dlsym_agrees_iff_plugin :
    ∃ loader, Run pluginHost (ascii "/bin/m") loader ∧
      symbolAddr pluginHost loader.memory loader.binaries (ascii "x") = .ok (some 0x14000e8) ∧
      ∀ handle, loader.sloaderDlsym handle (ascii "x") = .ok 0x14000e8 := by
  obtain ⟨started, handle, loader, ran, _, run⟩ := exists_openedPlugin
  have facts := openedPlugin_facts
  rw [ran] at facts
  obtain ⟨_, _, bound, _⟩ := of_decide_eq_true (Option.some.inj facts)
  have resolved := eq_ok_of_toOption bound
  refine ⟨loader, run, resolved, ?_⟩
  intro handle
  exact (dlsym_agrees_iff resolved handle).mpr (.inl (by decide))

/-- A function of libc that a relocation is bound to and `sloader_dlsym` misses. -/
theorem dlsym_misses_libc :
    ∃ loader, Run pluginHost (ascii "/bin/m") loader ∧
      symbolAddr pluginHost loader.memory loader.binaries (ascii "puts") = .ok (some 0x7f0000001000) ∧
      ∀ handle, loader.sloaderDlsym handle (ascii "puts") = .error (.check "opt") := by
  obtain ⟨started, handle, loader, ran, _, run⟩ := exists_openedPlugin
  have facts := openedPlugin_facts
  rw [ran] at facts
  obtain ⟨_, bound, _, missed, _⟩ := of_decide_eq_true (Option.some.inj facts)
  exact ⟨loader, run, eq_ok_of_toOption bound, fun _ => missed⟩

theorem Later.dlsym_first_plugin :
    ∃ (started loader : DynLoader) (handle : Address) (library : ELFBinary),
      Run pluginHost (ascii "/bin/m") loader ∧
      started.sloaderDlopen pluginHost 12 (some (ascii "a")) = .ok (handle, loader) ∧
      loader.binaries[1]? = some library ∧ library.baseAddr = 0x1800000 ∧
      loader.sloaderDlsym handle (ascii "y") = .ok 0x18000f0 := by
  obtain ⟨started, handle, loader, ran, opened, run⟩ := exists_openedPlugin
  have facts := openedPlugin_facts
  rw [ran] at facts
  obtain ⟨one, _, _, _, _, symbols, missing⟩ := of_decide_eq_true (Option.some.inj facts)
  obtain ⟨_, library, found, _, own⟩ := Later.dlsym_first opened (by decide) .now
  rw [one] at found
  obtain ⟨base, _, defined⟩ := symbols library found
  have address := (own (ascii "y") _ defined).1 missing
  rw [base] at address
  exact ⟨started, loader, handle, library, run, opened, found, base, address⟩

/-- The handle of the library yields the executable's `x`. -/
theorem Later.dlsym_ignores_handle :
    ∃ (started loader : DynLoader) (handle : Address) (library : ELFBinary) (symbol : Elf64Sym),
      Run pluginHost (ascii "/bin/m") loader ∧
      started.sloaderDlopen pluginHost 12 (some (ascii "a")) = .ok (handle, loader) ∧
      loader.binaries[1]? = some library ∧ symbol ∈ library.symtabs ∧
      library.nameIs loader.memory (ascii "x") symbol = true ∧ symbol.isDefined = true ∧
      symbol.stValue + library.baseAddr = 0x18000e8 ∧ loader.sloaderDlsym handle (ascii "x") = .ok 0x14000e8 := by
  obtain ⟨started, handle, loader, ran, opened, run⟩ := exists_openedPlugin
  have facts := openedPlugin_facts
  rw [ran] at facts
  obtain ⟨one, _, _, _, address, symbols, _⟩ := of_decide_eq_true (Option.some.inj facts)
  obtain ⟨path, loaded, _, loads, relocates, _⟩ := sloaderDlopen_steps (by decide) opened
  obtain ⟨library, more, binaries, _⟩ := (Visits.of_loadDependingLibs loads).root_binary
  have found : loader.binaries[1]? = some library := by
    rw [relocate_binaries relocates, binaries, ← one, List.getElem?_append_right (Nat.le_refl _), Nat.sub_self]
    rfl
  obtain ⟨base, defined, _⟩ := symbols library found
  have accepted := List.find?_some defined
  rw [Bool.and_eq_true] at accepted
  refine ⟨started, loader, handle, library, _, run, opened, found, List.mem_of_find?_eq_some defined, accepted.1,
    accepted.2, ?_, address⟩
  rw [base]
  decide

end DynLoader

end Sloader
