import Sloader.Run.Executable

namespace Sloader

open Data

/-! References to weak symbols that no binary defines.  `SearchSym` answers with
the first entry that mentions the name, and `GetSymbolAddr` adds the base of the
binary that the entry is in. -/

variable {host : Host} {loader next : DynLoader} {binaries : List ELFBinary} {memory : Memory} {name : CString}
  {record : Processed} {address : Elf64Addr}

/-- Neither libc nor any binary defines the name, and some binary has it as a
weak undefined symbol. -/
structure WeakUnresolved (host : Host) (memory : Memory) (binaries : List ELFBinary) (name : CString) : Prop where
  unmapped : host.libcMap name = none
  undefined : ∀ binary ∈ binaries, ∀ symbol ∈ binary.symtabs,
    binary.nameIs memory name symbol = true → symbol.isDefined = false
  weak : ∃ binary ∈ binaries, ∃ symbol ∈ binary.symtabs,
    binary.nameIs memory name symbol = true ∧ symbol.isWeakUndef = true

theorem mem_symbolTable {binary : ELFBinary} {symbol : Elf64Sym} :
    (binary, symbol) ∈ symbolTable binaries ↔ binary ∈ binaries ∧ symbol ∈ binary.symtabs := by
  simp [symbolTable]

theorem WeakUnresolved.bindingAddr (unresolved : WeakUnresolved host memory binaries name) :
    ∃ entry, firstNamed memory name Elf64Sym.isWeakUndef (symbolTable binaries) = some entry ∧
      bindingAddr host memory binaries name = some (entry.2.stValue + entry.1.baseAddr) := by
  have undefined : firstNamed memory name Elf64Sym.isDefined (symbolTable binaries) = none := by
    apply List.find?_eq_none.mpr
    intro entry member accepted
    obtain ⟨named, defined⟩ := Bool.and_eq_true_iff.mp accepted
    obtain ⟨known, inTable⟩ := mem_symbolTable.mp member
    rw [unresolved.undefined entry.1 known entry.2 inTable named] at defined
    contradiction
  obtain ⟨binary, known, symbol, inTable, named, isWeak⟩ := unresolved.weak
  cases first : firstNamed memory name Elf64Sym.isWeakUndef (symbolTable binaries) with
  | none =>
      have rejected := List.find?_eq_none.mp first (binary, symbol) (mem_symbolTable.mpr ⟨known, inTable⟩)
      simp [named, isWeak] at rejected
  | some entry =>
      exact ⟨entry, rfl, by simp [Sloader.bindingAddr, unresolved.unmapped, definition, undefined, first]⟩

theorem Processed.Binds.unique {other : Elf64Addr} (left : record.Binds binaries address)
    (right : record.Binds binaries other) : address = other := by
  obtain ⟨bin, found, write⟩ := left
  obtain ⟨again, same, written⟩ := right
  rw [found] at same
  cases same
  rw [write, Write.word.injEq] at written
  have values := written.2
  split at values
  · exact add_right_cancel values
  · exact values

/-- Of the entries that a call comes to, a reference to an unresolved weak symbol
is null exactly if the first entry that mentions the symbol has the address zero,
as in an executable at base zero. -/
theorem relocate_weak_null_iff (ran : loader.relocate host = .ok next) :
    ∃ records, next.processed = loader.processed ++ records ∧
      records.map Processed.place = loader.work.map Item.place ∧
      ∀ record ∈ records, record.rela.rType.isAddress = true →
        WeakUnresolved host record.memory loader.binaries record.name →
        ∃ entry, firstNamed record.memory record.name Elf64Sym.isWeakUndef (symbolTable loader.binaries) = some entry ∧
          (record.Binds loader.binaries 0 ↔ entry.2.stValue + entry.1.baseAddr = 0) := by
  obtain ⟨records, processed, places, sound⟩ := DynLoader.relocate_records ran
  refine ⟨records, processed, places, ?_⟩
  intro record member isAddress unresolved
  obtain ⟨scope, isRecord⟩ := sound record member
  obtain ⟨entry, first, bound⟩ := unresolved.bindingAddr
  rw [← @List.take_length _ loader.binaries, ← scope] at bound
  have binds := isRecord.binds isAddress bound
  refine ⟨entry, first, ?_⟩
  constructor
  · intro null
    exact (null.unique binds).symm
  · intro zero
    rw [zero] at binds
    exact binds

namespace Sample

/-- An executable with a weak undefined symbol `x`, and a `GLOB_DAT` and a `64`
entry for it. -/
def weakHost (eType vaddr : BitVec 64) : Host :=
  let executable : Object :=
    { eType, vaddr, data := [7, 7], strings := [0x780000]
      symbols := [0, 0, 0, 0x2000000002, 0, 0]
      relas := [vaddr + 232, 0x100000006, 0, vaddr + 240, 0x100000001, 5] }
  Sample.host [(ascii "m", executable.file)] fun _ => none

def weakTest (memory : Memory) (binaries : List ELFBinary) (name : CString) : Bool :=
  (binaries.all fun binary => binary.symtabs.all fun symbol =>
    !(binary.nameIs memory name symbol && symbol.isDefined)) &&
  binaries.any fun binary => binary.symtabs.any fun symbol => binary.nameIs memory name symbol && symbol.isWeakUndef

theorem weakTest_sound {eType vaddr : BitVec 64} (tested : weakTest memory binaries name = true) :
    WeakUnresolved (weakHost eType vaddr) memory binaries name := by
  simp only [weakTest, Bool.and_eq_true, List.all_eq_true, List.any_eq_true] at tested
  obtain ⟨undefined, weak⟩ := tested
  refine ⟨rfl, ?_, weak⟩
  intro binary known symbol inTable named
  have rejected := undefined binary known symbol inTable
  simpa [named] using rejected

@[irreducible] def weakLoader (eType vaddr : BitVec 64) : DynLoader :=
  started (weakHost eType vaddr) (ascii "/bin/m")

/-- What an entry does, whether it names an unresolved weak symbol, and the
address that the first mention of the symbol has. -/
structure WeakEntry where
  type : RelocationType
  write : Write
  unresolved : Bool
  address : Option Elf64Addr
deriving DecidableEq

def weakReport (eType vaddr : BitVec 64) : Option (Nat × List WeakEntry) :=
  ((weakLoader eType vaddr).relocate (weakHost eType vaddr)).toOption.map fun next =>
    ((weakLoader eType vaddr).processed.length, next.processed.map fun record =>
      { type := record.rela.rType
        write := record.write
        unresolved := weakTest record.memory (weakLoader eType vaddr).binaries record.name
        address := (firstNamed record.memory record.name Elf64Sym.isWeakUndef
          (symbolTable (weakLoader eType vaddr).binaries)).map fun entry => entry.2.stValue + entry.1.baseAddr })

theorem weakReport_exec :
    weakReport 2 0x400000 = some (0, [⟨.globDat, .word 0x4000e8 0, true, some 0⟩,
      ⟨.abs64, .word 0x4000f0 5, true, some 0⟩]) := by
  decide +kernel

theorem weakReport_dyn :
    weakReport 3 0 = some (0, [⟨.globDat, .word 0x14000e8 0x1400000, true, some 0x1400000⟩,
      ⟨.abs64, .word 0x14000f0 0x1400005, true, some 0x1400000⟩]) := by
  decide +kernel

theorem weakReport_entry {eType vaddr : BitVec 64} {write : Write} {address : Option Elf64Addr}
    {rest : List WeakEntry} (report : weakReport eType vaddr = some (0, ⟨.globDat, write, true, address⟩ :: rest)) :
    ∃ next record, (weakLoader eType vaddr).relocate (weakHost eType vaddr) = .ok next ∧
      (weakLoader eType vaddr).processed = [] ∧ record ∈ next.processed ∧ record.rela.rType = .globDat ∧
      record.write = write ∧
      WeakUnresolved (weakHost eType vaddr) record.memory (weakLoader eType vaddr).binaries record.name ∧
      (firstNamed record.memory record.name Elf64Sym.isWeakUndef
        (symbolTable (weakLoader eType vaddr).binaries)).map (fun entry => entry.2.stValue + entry.1.baseAddr) =
          address := by
  obtain ⟨next, ran, facts⟩ := Option.map_eq_some_iff.mp report
  obtain ⟨none, entries⟩ := Prod.mk.injEq .. ▸ facts
  obtain ⟨record, later, processed, first, _⟩ := List.map_eq_cons_iff.mp entries
  simp only [WeakEntry.mk.injEq] at first
  exact ⟨next, record, eq_ok_of_toOption ran, List.length_eq_zero_iff.mp none, by simp [processed], first.1, first.2.1,
    weakTest_sound first.2.2.1, first.2.2.2⟩

theorem weak_null_at_base_zero :
    ∃ next record, (weakLoader 2 0x400000).relocate (weakHost 2 0x400000) = .ok next ∧
      record ∈ next.processed ∧ record.rela.rType = .globDat ∧
      record.Binds (weakLoader 2 0x400000).binaries 0 := by
  obtain ⟨next, record, ran, empty, member, type, _, unresolved, address⟩ := weakReport_entry weakReport_exec
  obtain ⟨records, processed, _, nulls⟩ := relocate_weak_null_iff ran
  rw [empty, List.nil_append] at processed
  obtain ⟨entry, first, null⟩ := nulls record (processed ▸ member) (by rw [type]; rfl) unresolved
  rw [first] at address
  exact ⟨next, record, ran, member, type, null.mpr (Option.some.inj address)⟩

/-- In a position-independent executable the word is the load address. -/
theorem weak_not_null_in_pie :
    ∃ next record, (weakLoader 3 0).relocate (weakHost 3 0) = .ok next ∧
      record ∈ next.processed ∧ record.rela.rType = .globDat ∧
      WeakUnresolved (weakHost 3 0) record.memory (weakLoader 3 0).binaries record.name ∧
      record.write = .word 0x14000e8 0x1400000 ∧ ¬ record.Binds (weakLoader 3 0).binaries 0 := by
  obtain ⟨next, record, ran, empty, member, type, write, unresolved, _⟩ := weakReport_entry weakReport_dyn
  refine ⟨next, record, ran, member, type, unresolved, write, ?_⟩
  intro null
  obtain ⟨_, _, stored⟩ := null
  rw [write, type] at stored
  simp at stored

end Sample

end Sloader
